import RecordStore.Attribute.Path
import RecordStore.Proofs.Entries

/-!
# Attributes of items

What setting and removing an attribute does to every other one, at the top of an item and at the end
of a path.
-/

namespace RecordStore.Item

variable {item later : Item} {path : List String}

theorem get?_set (item : Item) (name : String) (value : Attribute) (other : String) :
    get? (set item name value) other = if name = other then some value else get? item other :=
  Entries.find?_insert item name value other

@[simp] theorem get?_set_self (item : Item) (name : String) (value : Attribute) :
    get? (set item name value) name = some value := by
  rw [get?_set, if_pos rfl]

theorem get?_set_of_ne (item : Item) {name other : String} (value : Attribute)
    (hne : name ≠ other) : get? (set item name value) other = get? item other := by
  rw [get?_set, if_neg hne]

theorem get?_erase (item : Item) (name other : String) :
    get? (erase item name) other = if name = other then none else get? item other :=
  Entries.find?_erase item name other

theorem ascending_erase (hascending : Entries.Ascending item) (name : String) :
    Entries.Ascending (erase item name) := by
  rw [erase, Entries.erase_eq_filter]
  exact hascending.filter _

/-- Assigning at a path changes the attribute that the path begins with only. -/
theorem get?_of_assign? {value : Attribute} {name : String}
    (hassign : assign? item path value = some later) (hpath : path.head? ≠ some name) :
    get? later name = get? item name := by
  match path with
  | [] => cases hassign
  | [first] =>
    cases hassign
    exact get?_set_of_ne item value fun hsame => hpath (congrArg some hsame)
  | first :: next :: rest =>
    rw [assign?] at hassign
    split at hassign
    · obtain ⟨entries, _, rfl⟩ := Option.map_eq_some_iff.mp hassign
      exact get?_set_of_ne item _ fun hsame => hpath (congrArg some hsame)
    · cases hassign

theorem get?_remove {name : String} (hpath : path.head? ≠ some name) :
    get? (remove item path) name = get? item name := by
  match path with
  | [] => rfl
  | [first] =>
    rw [remove, get?_erase, if_neg]
    exact fun hsame => hpath (congrArg some hsame)
  | first :: next :: rest =>
    rw [remove]
    split
    · exact get?_set_of_ne item _ fun hsame => hpath (congrArg some hsame)
    · rfl

end RecordStore.Item
