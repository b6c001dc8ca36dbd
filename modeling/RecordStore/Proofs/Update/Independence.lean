import RecordStore.Proofs.Cell
import RecordStore.Proofs.Update.Edit

/-!
# Actions in any order

An action looks at what it changes only at its own path; everything else it reads from the item as it
was before the update. Actions at paths that do not meet can therefore be made in any order, and what
each of them leaves at its path is what it leaves of the item alone.
-/

namespace RecordStore.Expression

variable {before item between later : Item} {action other : Action} {path : List String}
  {left : Option Attribute}

/-- What an action leaves at its path of what is held there, where operands are read from the item
before the update. -/
def Action.result (before : Item) (current : Option Attribute) :
    Action → Except Fault (Option Attribute)
  | .set _ operand => (require before operand .missingOperand).map some
  | .remove _ => .ok none
  | .add _ operand => do
    let value ← require before operand .addOperandMissing
    (added current value).map some
  | .delete _ operand => do
    let value ← require before operand .deleteOperandMissing
    match current with
    | none => return none
    | some held => remaining held value

/-! ### One action -/

theorem assign?_eq_some_iff {name : String} {rest : List String} {value : Attribute} :
    Item.assign? item (name :: rest) value = some later ↔
      Cell.write (some value) (some (.map item)) (name :: rest) = some (some (.map later)) := by
  induction rest generalizing item later name with
  | nil =>
    rw [Cell.write, Cell.write_nil]
    simp [Item.assign?, Item.put]
  | cons next rest ih =>
    rw [Cell.write, Item.assign?]
    split
    · rename_i entries hget
      rw [hget, Option.map_eq_some_iff, Option.map_eq_some_iff]
      constructor
      · rintro ⟨inner, hinner, rfl⟩
        exact ⟨some (.map inner), ih.mp hinner, rfl⟩
      · rintro ⟨inner, hinner, hlater⟩
        rcases Cell.write_cons_eq_some_iff.mp hinner with ⟨_, held, _, _, rfl⟩ | ⟨_, hnone, _⟩
        · cases hlater
          exact ⟨_, ih.mpr hinner, rfl⟩
        · cases hnone
    · rename_i hmap
      rw [Cell.write_of_not_map hmap]
      simp

theorem write_none (hitem : Cell.AscendsAlong (some (.map item)) path) (hpath : path ≠ []) :
    Cell.write none (some (.map item)) path = some (some (.map (Item.remove item path))) := by
  induction path generalizing item with
  | nil => exact absurd rfl hpath
  | cons name rest ih =>
    obtain ⟨hascending, hbelow⟩ := hitem
    rw [Cell.write]
    cases rest with
    | nil => rfl
    | cons next rest =>
      rw [Item.remove]
      split
      · rename_i entries hget
        rw [hget] at hbelow ⊢
        rw [ih hbelow (List.cons_ne_nil _ _)]
        rfl
      · rename_i hmap
        rw [Cell.write_of_not_map hmap, if_pos rfl, Option.map_some, Item.put_get? hascending]

/-- Placing something at a path of an item is writing it into the map of its attributes. -/
theorem place_eq_ok_iff (hpath : path ≠ []) (hitem : Cell.AscendsAlong (some (.map item)) path) :
    place item path left = .ok later ↔
      Cell.write left (some (.map item)) path = some (some (.map later)) := by
  cases left with
  | none =>
    rw [write_none hitem hpath]
    simp [place]
  | some value =>
    obtain ⟨name, rest, rfl⟩ := List.exists_cons_of_ne_nil hpath
    rw [← assign?_eq_some_iff]
    simp only [place, assign]
    cases Item.assign? item (name :: rest) value <;> simp

/-- Taking members out of what is not there leaves the item as removing it does. -/
theorem remove_of_resolve?_eq_none (hitem : Cell.AscendsAlong (some (.map item)) path)
    (hnone : Item.resolve? item path = none) : Item.remove item path = item := by
  cases path with
  | nil => rfl
  | cons name rest =>
    have hread := Cell.write_read hitem
    rw [← Item.resolve?_eq_read, hnone, write_none hitem (List.cons_ne_nil _ _)] at hread
    simpa using hread

/-- An action places its result. -/
theorem Action.apply_eq_ok_iff_place (hitem : Cell.AscendsAlong (some (.map item)) action.path) :
    action.apply before item = .ok later ↔
      ∃ left, action.result before (Item.resolve? item action.path) = .ok left ∧
        place item action.path left = .ok later := by
  cases action with
  | set path operand =>
    simp only [apply, result, bind_eq_ok_iff, map_eq_ok_iff]
    constructor
    · rintro ⟨value, hvalue, hassign⟩
      exact ⟨some value, ⟨value, hvalue, rfl⟩, hassign⟩
    · rintro ⟨_, ⟨value, hvalue, rfl⟩, hassign⟩
      exact ⟨value, hvalue, hassign⟩
  | remove path =>
    constructor
    · intro happly
      exact ⟨none, rfl, happly⟩
    · rintro ⟨_, ⟨⟩, hplace⟩
      exact hplace
  | add path operand =>
    simp only [apply, result, bind_eq_ok_iff, map_eq_ok_iff]
    constructor
    · rintro ⟨value, hvalue, sum, hsum, hassign⟩
      exact ⟨some sum, ⟨value, hvalue, sum, hsum, rfl⟩, hassign⟩
    · rintro ⟨_, ⟨value, hvalue, sum, hsum, rfl⟩, hassign⟩
      exact ⟨value, hvalue, sum, hsum, hassign⟩
  | delete path operand =>
    simp only [apply, result, Action.path, bind_eq_ok_iff]
    cases hcurrent : Item.resolve? item path with
    | none =>
      have hremove := remove_of_resolve?_eq_none hitem hcurrent
      constructor
      · rintro ⟨value, hvalue, hsame⟩
        exact ⟨none, ⟨value, hvalue, rfl⟩, (congrArg Except.ok hremove).trans hsame⟩
      · rintro ⟨_, ⟨value, hvalue, ⟨⟩⟩, hplace⟩
        exact ⟨value, hvalue, (congrArg Except.ok hremove).symm.trans hplace⟩
    | some held =>
      constructor
      · rintro ⟨value, hvalue, hdelete⟩
        obtain ⟨left, hleft, hplace⟩ := bind_eq_ok_iff.mp hdelete
        refine ⟨left, ⟨value, hvalue, hleft⟩, ?_⟩
        cases left <;> exact hplace
      · rintro ⟨left, ⟨value, hvalue, hleft⟩, hplace⟩
        refine ⟨value, hvalue, bind_eq_ok_iff.mpr ⟨left, hleft, ?_⟩⟩
        cases left <;> exact hplace

theorem Action.apply_eq_ok_iff (hpath : action.path ≠ [])
    (hitem : Cell.AscendsAlong (some (.map item)) action.path) :
    action.apply before item = .ok later ↔
      ∃ left, action.result before (Item.resolve? item action.path) = .ok left ∧
        Cell.write left (some (.map item)) action.path = some (some (.map later)) := by
  rw [apply_eq_ok_iff_place hitem]
  exact exists_congr fun left => and_congr_right fun _ => place_eq_ok_iff hpath hitem

/-- What an action leaves at its path is its result on what was there. -/
theorem Action.result_of_apply (hitem : Cell.AscendsAlong (some (.map item)) action.path)
    (happly : action.apply before item = .ok later) :
    action.result before (Item.resolve? item action.path) =
      .ok (Item.resolve? later action.path) := by
  cases hpath : action.path with
  | nil =>
    obtain ⟨left, hleft, hplace⟩ := (apply_eq_ok_iff_place hitem).mp happly
    rw [hpath] at hleft hplace
    cases left with
    | none => exact hleft
    | some value => cases hplace
  | cons name rest =>
    have hne : action.path ≠ [] := by simp [hpath]
    obtain ⟨left, hleft, hwrite⟩ := (apply_eq_ok_iff hne hitem).mp happly
    rw [hpath] at hleft hwrite
    rw [hleft, Item.resolve?_eq_read, Cell.read_of_write hwrite]

section Apart

variable (hpaths : ¬ Overlap action.path path)
include hpaths

theorem ne_nil_of_not_overlap : action.path ≠ [] ∧ path ≠ [] := by
  constructor
  · intro hnil
    exact hpaths (hnil ▸ Overlap.nil_left _)
  · intro hnil
    exact hpaths (hnil ▸ Overlap.nil_right _)

variable (hitem : Cell.AscendsAlong (some (.map item)) action.path)
  (happly : action.apply before item = .ok later)
include hitem happly

/-- An action is not seen at a path that does not meet its own. -/
theorem Action.resolve?_of_apply : Item.resolve? later path = Item.resolve? item path := by
  obtain ⟨hne, hother⟩ := ne_nil_of_not_overlap hpaths
  obtain ⟨left, _, hwrite⟩ := (apply_eq_ok_iff hne hitem).mp happly
  obtain ⟨name, rest, rfl⟩ := List.exists_cons_of_ne_nil hother
  rw [Item.resolve?_eq_read, Item.resolve?_eq_read]
  exact Cell.read_of_write_of_not_overlap hpaths hwrite

theorem Action.ascendsAlong_of_apply (hother : Cell.AscendsAlong (some (.map item)) path) :
    Cell.AscendsAlong (some (.map later)) path := by
  obtain ⟨left, _, hwrite⟩ := (apply_eq_ok_iff (ne_nil_of_not_overlap hpaths).1 hitem).mp happly
  exact Cell.ascendsAlong_of_write hpaths hother hwrite

end Apart

/-- Two actions at paths that do not meet can be made the other way around. -/
theorem Action.apply_swap (hpaths : ¬ Overlap action.path other.path)
    (hitem : Cell.AscendsAlong (some (.map item)) action.path)
    (hother : Cell.AscendsAlong (some (.map item)) other.path)
    (hfirst : action.apply before item = .ok between)
    (hsecond : other.apply before between = .ok later) :
    ∃ between, other.apply before item = .ok between ∧
      action.apply before between = .ok later := by
  obtain ⟨haction, hne⟩ := ne_nil_of_not_overlap hpaths
  have hseen := resolve?_of_apply hpaths hitem hfirst
  have hbetween := ascendsAlong_of_apply hpaths hitem hfirst hother
  obtain ⟨left, hleft, hwrite⟩ := (apply_eq_ok_iff haction hitem).mp hfirst
  obtain ⟨right, hright, hlast⟩ := (apply_eq_ok_iff hne hbetween).mp hsecond
  rw [hseen] at hright
  obtain ⟨cell, hcell, hdone⟩ := Cell.write_swap hpaths hitem hwrite hlast
  obtain ⟨middle, rfl⟩ := Cell.map_of_write hne hcell
  have happly : other.apply before item = .ok middle :=
    (apply_eq_ok_iff hne hother).mpr ⟨right, hright, hcell⟩
  have hapart : ¬ Overlap other.path action.path := fun hoverlap => hpaths hoverlap.symm
  refine ⟨middle, happly, ?_⟩
  rw [apply_eq_ok_iff haction (ascendsAlong_of_apply hapart hother happly hitem),
    resolve?_of_apply hapart hother happly]
  exact ⟨left, hleft, hdone⟩

/-! ### Runs of actions -/

variable {actions others : List Action}

/-- No two actions have paths that meet. -/
def Apart (actions : List Action) : Prop :=
  actions.Pairwise fun action other => ¬ Overlap action.path other.path

instance : Decidable (Apart actions) :=
  inferInstanceAs (Decidable (List.Pairwise _ _))

theorem Apart.perm (hapart : Apart actions) (hperm : others.Perm actions) : Apart others := by
  refine List.Pairwise.perm hapart hperm.symm ?_
  exact fun hpaths hoverlap => hpaths hoverlap.symm

/-- The names of every map on the path of an action ascend. -/
def Reaches (item : Item) (actions : List Action) : Prop :=
  ∀ action ∈ actions, Cell.AscendsAlong (some (.map item)) action.path

theorem Reaches.of_apply (hapart : Apart (action :: actions)) (hitem : Reaches item (action :: actions))
    (happly : action.apply before item = .ok later) : Reaches later actions := by
  intro other hmem
  exact Action.ascendsAlong_of_apply ((List.pairwise_cons.mp hapart).1 other hmem)
    (hitem action List.mem_cons_self) happly (hitem other (List.mem_cons_of_mem _ hmem))

/-- Actions that succeed in one order do so in every other, with the same item. -/
theorem foldlM_apply_of_perm (hperm : actions.Perm others) (hapart : Apart actions)
    (hitem : Reaches item actions)
    (happly : actions.foldlM (Action.apply before) item = .ok later) :
    others.foldlM (Action.apply before) item = .ok later := by
  induction hperm generalizing item with
  | nil => exact happly
  | cons action _ ih =>
    obtain ⟨between, hfirst, hrest⟩ := bind_eq_ok_iff.mp happly
    have hbetween := hitem.of_apply hapart hfirst
    exact bind_eq_ok_iff.mpr
      ⟨between, hfirst, ih (List.pairwise_cons.mp hapart).2 hbetween hrest⟩
  | swap action other rest =>
    obtain ⟨between, hfirst, hsecond⟩ := bind_eq_ok_iff.mp happly
    obtain ⟨left, hsecond, hrest⟩ := bind_eq_ok_iff.mp hsecond
    have hpaths := (List.pairwise_cons.mp hapart).1 action List.mem_cons_self
    obtain ⟨middle, hsecond, hfirst⟩ := Action.apply_swap hpaths (hitem other (by simp))
      (hitem action (by simp)) hfirst hsecond
    exact bind_eq_ok_iff.mpr ⟨middle, hsecond, bind_eq_ok_iff.mpr ⟨left, hfirst, hrest⟩⟩
  | trans hfirst _ ihFirst ihSecond =>
    refine ihSecond (hapart.perm hfirst.symm) ?_ (ihFirst hapart hitem happly)
    exact fun action hmem => hitem action (hfirst.mem_iff.mpr hmem)

/-- What actions leave: at the path of each of them its result on what was there, and what was there
at every path that meets none of theirs. -/
theorem resolve?_of_foldlM_apply (hapart : Apart actions) (hitem : Reaches item actions)
    (happly : actions.foldlM (Action.apply before) item = .ok later) :
    (∀ action ∈ actions, action.result before (Item.resolve? item action.path) =
      .ok (Item.resolve? later action.path)) ∧
    ∀ path, (∀ action ∈ actions, ¬ Overlap action.path path) →
      Item.resolve? later path = Item.resolve? item path := by
  induction actions generalizing item with
  | nil =>
    cases happly
    exact ⟨fun action hmem => absurd hmem List.not_mem_nil, fun path _ => rfl⟩
  | cons action rest ih =>
    obtain ⟨between, hfirst, hrest⟩ := bind_eq_ok_iff.mp happly
    obtain ⟨hpaths, hapartRest⟩ := List.pairwise_cons.mp hapart
    have haction := hitem action List.mem_cons_self
    obtain ⟨hresults, hframe⟩ := ih hapartRest (hitem.of_apply hapart hfirst) hrest
    constructor
    · intro other hmem
      rcases List.mem_cons.mp hmem with rfl | hmem
      · rw [hframe other.path fun later hlater hoverlap => hpaths later hlater hoverlap.symm]
        exact Action.result_of_apply haction hfirst
      · rw [← Action.resolve?_of_apply (hpaths other hmem) haction hfirst]
        exact hresults other hmem
    · intro path hpath
      rw [hframe path fun other hmem => hpath other (List.mem_cons_of_mem _ hmem)]
      exact Action.resolve?_of_apply (hpath action List.mem_cons_self) haction hfirst

/-- Actions at paths that do not meet succeed in every order or in none, always with the same item.
When they succeed, each leaves at its path what it makes of the item as it was before the update,
and every path that meets none of theirs leads to what it led to. -/
theorem applyActions_perm (hitem : item.Ordered) (hapart : Apart actions)
    (hperm : others.Perm actions) (later : Item) :
    (applyActions item others = .ok later ↔ applyActions item actions = .ok later) ∧
    (applyActions item actions = .ok later →
      (∀ action ∈ actions, action.result item (Item.resolve? item action.path) =
        .ok (Item.resolve? later action.path)) ∧
      ∀ path, (∀ action ∈ actions, ¬ Overlap action.path path) →
        Item.resolve? later path = Item.resolve? item path) := by
  have hreaches : ∀ actions, Reaches item actions :=
    fun actions action _ => hitem.ascendsAlong action.path
  refine ⟨⟨?_, ?_⟩, resolve?_of_foldlM_apply hapart (hreaches actions)⟩
  · exact foldlM_apply_of_perm hperm (hapart.perm hperm) (hreaches others)
  · exact foldlM_apply_of_perm hperm.symm hapart (hreaches actions)

/-- An attribute is moved into a map while a set grows. -/
def movingItem : Item :=
  [("kept", .map [("note", .string "old")]), ("tags", .stringSet ["red"]), ("text", .string "new")]

def movingActions : List Action :=
  [.set ["kept", "text"] (.path ["text"]), .remove ["text"],
    .add ["tags"] (.value (.stringSet ["blue"]))]

theorem ordered_movingItem : movingItem.Ordered := by
  refine .intro ?_ fun name entries hget => ?_
  · unfold Entries.Ascending
    decide
  · obtain ⟨rfl, rfl⟩ : name = "kept" ∧ entries = [("note", .string "old")] := by
      simpa [movingItem] using Entries.mem_of_find? hget
    refine .intro (List.pairwise_singleton _ _) fun name entries hget => ?_
    simpa using Entries.mem_of_find? hget

def movedItem : Item :=
  [("kept", .map [("note", .string "old"), ("text", .string "new")]),
    ("tags", .stringSet ["red", "blue"])]

theorem applyActions_perm_moving :
    movingItem.Ordered ∧ Apart movingActions ∧ movingActions.reverse.Perm movingActions ∧
    applyActions movingItem movingActions.reverse = .ok movedItem ∧
    Item.resolve? movedItem ["kept", "note"] = Item.resolve? movingItem ["kept", "note"] := by
  obtain ⟨horders, hleaves⟩ := applyActions_perm ordered_movingItem
    (show Apart movingActions by decide) (List.reverse_perm movingActions) movedItem
  refine ⟨ordered_movingItem, by decide, List.reverse_perm _, horders.mpr rfl, ?_⟩
  exact (hleaves rfl).2 ["kept", "note"] (by decide)

end RecordStore.Expression
