import RecordStore.Proofs.Entries
import RecordStore.Record.Value

/-!
# Values up to the order of entries

Two values are alike when they differ in nothing but the order of the entries of maps and of the
fields of objects.
-/

namespace RecordStore

/-! ### Arranged entries -/

namespace Entries

variable {α β : Type} {left right : List (String × α)}

/-- The entries by ascending names, each of them kept. -/
def arranged (entries : List (String × α)) : List (String × α) :=
  entries.mergeSort fun left right => left.1 ≤ right.1

theorem perm_arranged (entries : List (String × α)) : (arranged entries).Perm entries :=
  List.mergeSort_perm _ _

theorem names_perm (hperm : left.Perm right) : (names left).Perm (names right) :=
  hperm.map Prod.fst

theorem eq_of_mem (hnames : (names left).Nodup) {first second : String × α} (hfirst : first ∈ left)
    (hsecond : second ∈ left) (hsame : first.1 = second.1) : first = second :=
  List.inj_on_of_nodup_map hnames hfirst hsecond hsame

theorem arranged_eq_iff (hnames : (names left).Nodup) :
    arranged left = arranged right ↔ left.Perm right := by
  constructor
  · intro hsame
    have hright := perm_arranged right
    rw [← hsame] at hright
    exact (perm_arranged left).symm.trans hright
  · intro hperm
    have hsorted : ∀ entries : List (String × α),
        (arranged entries).Pairwise fun left right => left.1 ≤ right.1 := by
      intro entries
      have hpairwise := @List.pairwise_mergeSort (String × α)
        (fun left right => decide (left.1 ≤ right.1))
        (fun _ _ _ hfirst hsecond => decide_eq_true
          (String.le_trans (of_decide_eq_true hfirst) (of_decide_eq_true hsecond)))
        (fun first second => by
          rcases String.le_total first.1 second.1 with hle | hle <;> simp [hle]) entries
      exact hpairwise.imp fun hle => of_decide_eq_true hle
    refine List.Perm.eq_of_pairwise ?_ (hsorted left) (hsorted right)
      ((perm_arranged left).trans (hperm.trans (perm_arranged right).symm))
    intro first second hfirst hsecond hle hge
    refine eq_of_mem hnames ?_ ?_ (String.le_antisymm hle hge)
    · exact (perm_arranged left).mem_iff.mp hfirst
    · exact hperm.mem_iff.mpr ((perm_arranged right).mem_iff.mp hsecond)

/-- Entries with distinct names are the same, but for their order, when each name finds the same. -/
theorem perm_iff (hleft : (names left).Nodup) (hright : (names right).Nodup) :
    left.Perm right ↔ ∀ name, find? left name = find? right name := by
  have hmem : ∀ {entries : List (String × α)}, (names entries).Nodup → ∀ name value,
      (name, value) ∈ entries ↔ find? entries name = some value :=
    fun hnames name value => ⟨find?_of_mem hnames, mem_of_find?⟩
  constructor
  · intro hperm name
    apply Option.ext
    intro value
    rw [← hmem hleft, ← hmem hright, hperm.mem_iff]
  · intro hsame
    refine (List.perm_ext_iff_of_nodup (List.Nodup.of_map Prod.fst hleft)
      (List.Nodup.of_map Prod.fst hright)).mpr ?_
    rintro ⟨name, value⟩
    rw [hmem hleft, hmem hright, hsame]

end Entries

/-! ### Values -/

namespace Value

mutual

/-- The value with the entries of its maps and the fields of its objects by ascending names. -/
def canonical : Value → Value
  | .object typeName fields revision =>
    .object typeName (Entries.arranged (canonicalEntries fields)) revision
  | .list items => .list (canonicalItems items)
  | .set elements => .set (canonicalItems elements)
  | .map entries => .map (Entries.arranged (canonicalEntries entries))
  | value => value

def canonicalItems : List Value → List Value
  | [] => []
  | item :: rest => item.canonical :: canonicalItems rest

def canonicalEntries : List (String × Value) → List (String × Value)
  | [] => []
  | (name, value) :: rest => (name, value.canonical) :: canonicalEntries rest

end

def Alike (left right : Value) : Prop :=
  left.canonical = right.canonical

namespace Alike

variable {left right : Value}

@[simp] theorem refl (value : Value) : value.Alike value := rfl

theorem symm (halike : left.Alike right) : right.Alike left := Eq.symm halike

theorem trans {middle : Value} (hfirst : left.Alike middle) (hsecond : middle.Alike right) :
    left.Alike right := Eq.trans hfirst hsecond

end Alike

theorem canonicalItems_eq_map (items : List Value) :
    canonicalItems items = items.map canonical := by
  induction items with
  | nil => rw [canonicalItems, List.map_nil]
  | cons item rest ih => rw [canonicalItems, ih, List.map_cons]

theorem canonicalEntries_eq_map (entries : List (String × Value)) :
    canonicalEntries entries = entries.map fun entry => (entry.1, entry.2.canonical) := by
  induction entries with
  | nil => rw [canonicalEntries, List.map_nil]
  | cons entry rest ih =>
    obtain ⟨name, value⟩ := entry
    rw [canonicalEntries, ih, List.map_cons]

theorem names_canonicalEntries (entries : List (String × Value)) :
    Entries.names (canonicalEntries entries) = Entries.names entries := by
  rw [canonicalEntries_eq_map, Entries.names, List.map_map]
  rfl

theorem find?_canonicalEntries (entries : List (String × Value)) (name : String) :
    Entries.find? (canonicalEntries entries) name =
      (Entries.find? entries name).map canonical := by
  rw [canonicalEntries_eq_map, Entries.find?_map]

/-- Entries that hold alike values under the same names. -/
def AlikeEntries (left right : List (String × Value)) : Prop :=
  Entries.arranged (canonicalEntries left) = Entries.arranged (canonicalEntries right)

section Entries

variable {left right : List (String × Value)}

theorem alikeEntries_iff (hleft : (Entries.names left).Nodup) (hright : (Entries.names right).Nodup) :
    AlikeEntries left right ↔ ∀ name,
      (Entries.find? left name).map canonical = (Entries.find? right name).map canonical := by
  rw [← names_canonicalEntries] at hleft hright
  rw [AlikeEntries, Entries.arranged_eq_iff hleft, Entries.perm_iff hleft hright]
  simp only [find?_canonicalEntries]

theorem AlikeEntries.nodup (halike : AlikeEntries left right)
    (hleft : (Entries.names left).Nodup) : (Entries.names right).Nodup := by
  rw [← names_canonicalEntries] at hleft ⊢
  exact (Entries.names_perm ((Entries.arranged_eq_iff hleft).mp halike)).nodup_iff.mp hleft

end Entries

theorem alike_map_iff {left right : List (String × Value)} :
    (Value.map left).Alike (.map right) ↔ AlikeEntries left right := by
  rw [Alike, canonical, canonical, AlikeEntries]
  exact ⟨fun hsame => Value.map.inj hsame, fun hsame => congrArg Value.map hsame⟩

theorem alike_object_iff {leftType rightType : String} {left right : List (String × Value)}
    {leftRevision rightRevision : Int64} :
    (Value.object leftType left leftRevision).Alike (.object rightType right rightRevision) ↔
      leftType = rightType ∧ AlikeEntries left right ∧ leftRevision = rightRevision := by
  rw [Alike, canonical, canonical, AlikeEntries, Value.object.injEq]

theorem alike_list_iff {left right : List Value} :
    (Value.list left).Alike (.list right) ↔ List.Forall₂ Alike left right := by
  rw [Alike, canonical, canonical, canonicalItems_eq_map, canonicalItems_eq_map, Value.list.injEq,
    ← List.forall₂_eq_eq_eq, List.forall₂_map_left_iff, List.forall₂_map_right_iff]
  rfl

theorem alike_set_iff {left right : List Value} :
    (Value.set left).Alike (.set right) ↔ List.Forall₂ Alike left right := by
  rw [Alike, canonical, canonical, canonicalItems_eq_map, canonicalItems_eq_map, Value.set.injEq,
    ← List.forall₂_eq_eq_eq, List.forall₂_map_left_iff, List.forall₂_map_right_iff]
  rfl

end Value

/-- Records of one type at one revision whose fields hold alike values. -/
def Record.Alike (left right : Record) : Prop :=
  left.toValue.Alike right.toValue

end RecordStore
