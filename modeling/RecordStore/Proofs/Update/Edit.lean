import RecordStore.Proofs.Update.Locality

/-!
# Edits of attributes

The actions that write pending changes read no attribute but the one that they change. Each of them
is an edit: a path with a change of what is held there. What edits leave of an attribute depends on
the edits at or below it and on what the attribute held before.
-/

namespace RecordStore.Expression

/-- A change of what is held at a path. -/
inductive Change where
  | assign (value : Attribute)
  | clear
  | add (value : Attribute)
  /-- Adds to a number, which counts as another one while it is absent. -/
  | increase (zero amount : Attribute)
  /-- Appends to a list, which counts as empty while it is absent. -/
  | append (items : Attribute)
  | delete (members : Attribute)

structure Edit where
  path : List String
  change : Change

def Change.action (path : List String) : Change → Action
  | assign value => .set path (.value value)
  | clear => .remove path
  | add value => .add path (.value value)
  | increase zero amount => .set path (.plus (.orElse path (.value zero)) (.value amount))
  | append items => .set path (.append (.orElse path (.value (.list []))) (.value items))
  | delete members => .delete path (.value members)

/-- What a change leaves, where operands are read from what was held before the update. -/
def Change.result (before current : Option Attribute) : Change → Except Fault (Option Attribute)
  | assign value => .ok (some value)
  | clear => .ok none
  | add value => (added current value).map some
  | increase zero amount => calculateOperands Number.sum? (before.getD zero) amount
  | append items => appendOperands (before.getD (.list [])) items
  | delete members =>
    match current with
    | none => .ok none
    | some held => remaining held members

namespace Edit

def action (edit : Edit) : Action :=
  edit.change.action edit.path

/-- The edit of what a path leads to. -/
def under (path : List String) (edit : Edit) : Edit :=
  ⟨path ++ edit.path, edit.change⟩

/-- The entries of a map, none of them when there is no map. -/
def entriesOf : Option Attribute → Item
  | some (.map entries) => entries
  | _ => []

/-- What an edit leaves of an attribute at or below which it acts. -/
def within (before current : Option Attribute) (edit : Edit) : Except Fault (Option Attribute) :=
  match edit.path, current with
  | [], current => edit.change.result before current
  | _, some (.map entries) =>
    (edit.action.apply (entriesOf before) entries).map fun later => some (.map later)
  | path, current =>
    (edit.change.result (Item.resolve? (entriesOf before) path) none).bind fun
      | some _ => .error (.invalidPath path)
      | none => .ok current

@[simp] theorem path_action (edit : Edit) : edit.action.path = edit.path := by
  obtain ⟨path, change⟩ := edit
  cases change <;> rfl

theorem action_injective : Function.Injective action := by
  rintro ⟨path, change⟩ ⟨otherPath, other⟩ hsame
  have hpath : path = otherPath := by
    have := congrArg Action.path hsame
    simpa using this
  subst hpath
  cases change <;> cases other <;> simp_all [action, Change.action]

end Edit

/-! ### Paths through maps -/

section Through

variable {item later entries : Item} {name next : String} {rest : List String}

theorem resolve?_through (before : Item) (name next : String) (rest : List String) :
    Item.resolve? before (name :: next :: rest) =
      Item.resolve? (Edit.entriesOf (Item.get? before name)) (next :: rest) := by
  have hnone : Item.resolve? [] (next :: rest) = none := by
    cases rest <;> rfl
  rw [Item.resolve?]
  cases hget : Item.get? before name with
  | none => rw [Edit.entriesOf, hnone]; rintro _ ⟨⟩
  | some held => cases held <;> first | rfl | exact hnone.symm

theorem assign_through {value : Attribute}
    (hassign : assign item (name :: next :: rest) value = .ok later) :
    ∃ entries left, Item.get? item name = some (.map entries) ∧
      assign entries (next :: rest) value = .ok left ∧ later = Item.set item name (.map left) := by
  unfold assign at hassign
  split at hassign
  · rename_i hassigned
    cases hassign
    rw [Item.assign?] at hassigned
    split at hassigned
    · rename_i entries hget
      obtain ⟨left, hleft, rfl⟩ := Option.map_eq_some_iff.mp hassigned
      exact ⟨entries, left, hget, by rw [assign, hleft], rfl⟩
    · cases hassigned
  · cases hassign

theorem evaluate_orElse (before : Item) (path : List String) (value : Attribute) :
    (Operand.orElse path (.value value)).evaluate before =
      .ok (some ((Item.resolve? before path).getD value)) := by
  rw [Operand.evaluate]
  cases Item.resolve? before path <;> rfl

end Through

/-! ### What actions leave -/

/-- The item once a change has left a value, or none, at a path. -/
def place (item : Item) (path : List String) : Option Attribute → Except Fault Item
  | some value => assign item path value
  | none => .ok (Item.remove item path)

namespace Change

/-- The change takes members out of what is not there, and leaves the whole item alone. -/
def IsIdle (change : Change) (current : Option Attribute) : Prop :=
  current = none ∧ ∃ members, change = .delete members

theorem apply_of_idle {change : Change} {before item : Item} {path : List String}
    (hidle : change.IsIdle (Item.resolve? item path)) :
    (change.action path).apply before item = .ok item := by
  obtain ⟨hnone, members, rfl⟩ := hidle
  change (match Item.resolve? item path with
    | none => _
    | some current => _) = _
  rw [hnone]
  rfl

/-- A change that is not idle places its result. -/
theorem apply_of_not_idle {change : Change} {before item : Item} {path : List String}
    (hidle : ¬ change.IsIdle (Item.resolve? item path)) :
    (change.action path).apply before item =
      (change.result (Item.resolve? before path) (Item.resolve? item path)).bind
        (place item path) := by
  cases change with
  | assign value => rfl
  | clear => rfl
  | add value =>
    change (added (Item.resolve? item path) value).bind _ = ((added _ value).map some).bind _
    cases added (Item.resolve? item path) value <;> rfl
  | increase zero amount =>
    have hevaluate : (Operand.plus (.orElse path (.value zero)) (.value amount)).evaluate before =
        calculateOperands Number.sum? ((Item.resolve? before path).getD zero) amount := by
      rw [Operand.evaluate, evaluate_orElse]
      rfl
    change (require before _ _).bind _ = (calculateOperands _ _ _).bind _
    rw [require, hevaluate]
    generalize (Item.resolve? before path).getD zero = held
    unfold calculateOperands
    split
    · rename_i left right _ _
      cases calculate Number.sum? left right <;> rfl
    · rfl
  | append items =>
    have hevaluate : (Operand.append (.orElse path (.value (.list []))) (.value items)).evaluate
        before = appendOperands ((Item.resolve? before path).getD (.list [])) items := by
      rw [Operand.evaluate, evaluate_orElse]
      rfl
    change (require before _ _).bind _ = (appendOperands _ _).bind _
    rw [require, hevaluate]
    generalize (Item.resolve? before path).getD (.list []) = held
    unfold appendOperands
    split <;> rfl
  | delete members =>
    cases hcurrent : Item.resolve? item path with
    | none => exact absurd ⟨hcurrent, members, rfl⟩ hidle
    | some held =>
      change (match Item.resolve? item path with
        | none => _
        | some current => _) = (remaining held members).bind _
      rw [hcurrent]
      dsimp only
      cases remaining held members with
      | error fault => rfl
      | ok left => cases left <;> rfl

end Change

namespace Edit

variable {before item later : Item} {name : String} {edit : Edit}

variable {current : Option Attribute} {next : String} {rest : List String} {change : Change}

theorem entriesOf_of_not_map (hmap : ∀ entries, current ≠ some (.map entries)) :
    entriesOf current = [] := by
  unfold entriesOf
  split
  · rename_i entries
    exact absurd rfl (hmap entries)
  · rfl

/-- Nothing can be changed below what is not a map. -/
theorem within_of_not_map (before : Option Attribute)
    (hmap : ∀ entries, current ≠ some (.map entries)) :
    within before current ⟨next :: rest, change⟩ =
      (change.result (Item.resolve? (entriesOf before) (next :: rest)) none).bind fun
        | some _ => .error (.invalidPath (next :: rest))
        | none => .ok current := by
  cases current with
  | none => rfl
  | some held =>
    cases held with
    | map entries => exact absurd rfl (hmap entries)
    | _ => rfl

theorem resolve?_nil (path : List String) : Item.resolve? [] path = none := by
  unfold Item.resolve?
  split <;> rfl

theorem within_of_idle (before : Option Attribute)
    (hidle : change.IsIdle (Item.resolve? item (name :: rest))) :
    within before (Item.get? item name) ⟨rest, change⟩ = .ok (Item.get? item name) := by
  cases rest with
  | nil =>
    obtain ⟨hnone, members, rfl⟩ := hidle
    change (match Item.get? item name with
      | none => Except.ok none
      | some held => remaining held members) = _
    rw [show Item.get? item name = none from hnone]
  | cons next rest =>
    rw [resolve?_through] at hidle
    by_cases hmap : ∃ entries, Item.get? item name = some (.map entries)
    · obtain ⟨entries, hget⟩ := hmap
      rw [hget] at hidle ⊢
      exact congrArg (Except.map fun later => some (Attribute.map later))
        (Change.apply_of_idle hidle)
    · rw [within_of_not_map before fun entries hget => hmap ⟨entries, hget⟩]
      obtain ⟨_, members, rfl⟩ := hidle
      rfl

/-- An action at or below an attribute leaves of it what the edit leaves within it. -/
theorem within_of_apply (happly : (edit.under [name]).action.apply before item = .ok later) :
    edit.within (Item.get? before name) (Item.get? item name) = .ok (Item.get? later name) := by
  obtain ⟨path, change⟩ := edit
  change (change.action (name :: path)).apply before item = .ok later at happly
  by_cases hidle : change.IsIdle (Item.resolve? item (name :: path))
  · rw [Change.apply_of_idle hidle] at happly
    cases happly
    exact within_of_idle _ hidle
  · rw [Change.apply_of_not_idle hidle] at happly
    obtain ⟨left, hresult, hplace⟩ := bind_eq_ok_iff.mp happly
    cases path with
    | nil =>
      refine hresult.trans (congrArg Except.ok ?_)
      cases left with
      | some value =>
        cases hplace
        exact (Item.get?_set_self _ _ _).symm
      | none =>
        cases hplace
        exact ((Item.get?_erase item name name).trans (if_pos rfl)).symm
    | cons next rest =>
      rw [resolve?_through] at hidle
      rw [resolve?_through, resolve?_through] at hresult
      by_cases hmap : ∃ entries, Item.get? item name = some (.map entries)
      · obtain ⟨entries, hget⟩ := hmap
        rw [hget] at hidle hresult ⊢
        have hwithin := @Change.apply_of_not_idle _ (entriesOf (Item.get? before name)) _ _ hidle
        rw [hresult] at hwithin
        refine (congrArg (Except.map fun later => some (Attribute.map later)) hwithin).trans ?_
        cases left with
        | some value =>
          obtain ⟨others, remaining, hothers, hassign, rfl⟩ := assign_through hplace
          rw [hget] at hothers
          cases hothers
          rw [Item.get?_set_self]
          exact congrArg (Except.map _) hassign
        | none =>
          cases hplace
          rw [Item.remove, hget, Item.get?_set_self]
          rfl
      · have hnotMap : ∀ entries, Item.get? item name ≠ some (.map entries) :=
          fun entries hget => hmap ⟨entries, hget⟩
        rw [entriesOf_of_not_map hnotMap, resolve?_nil] at hresult
        rw [within_of_not_map _ hnotMap, hresult]
        cases left with
        | some value =>
          obtain ⟨entries, _, hget, _⟩ := assign_through hplace
          exact absurd hget (hnotMap entries)
        | none =>
          cases hplace
          rw [Item.remove]
          split
          · rename_i entries hget
            exact absurd hget (hnotMap entries)
          · rfl

/-! ### Sequences of edits -/

def applyAll (before item : Item) (edits : List Edit) : Except Fault Item :=
  edits.foldlM (fun item edit => edit.action.apply before item) item

def withinAll (before current : Option Attribute) (edits : List Edit) :
    Except Fault (Option Attribute) :=
  edits.foldlM (within before) current

/-- The edit within an attribute, none when it acts elsewhere. -/
def strip (name : String) (edit : Edit) : Option Edit :=
  match edit.path with
  | [] => none
  | first :: rest => if first = name then some ⟨rest, edit.change⟩ else none

theorem strip_eq_some_iff {stripped : Edit} :
    edit.strip name = some stripped ↔ stripped.under [name] = edit := by
  obtain ⟨path, change⟩ := edit
  obtain ⟨other, otherChange⟩ := stripped
  cases path with
  | nil => simp [strip, under]
  | cons first rest =>
    by_cases hname : first = name
    · simp [strip, under, hname, eq_comm]
    · simp [strip, under, hname, Ne.symm hname]

theorem head?_of_strip (hstrip : edit.strip name = none) : edit.action.path.head? ≠ some name := by
  obtain ⟨path, change⟩ := edit
  rw [path_action]
  cases path with
  | nil => exact fun hsome => nomatch hsome
  | cons first rest =>
    rintro hsame
    cases hsame
    simp [strip] at hstrip

/-- What edits leave of an attribute is what those at or below it leave. -/
theorem withinAll_of_applyAll {edits : List Edit} (happly : applyAll before item edits = .ok later)
    (name : String) : withinAll (Item.get? before name) (Item.get? item name)
      (edits.filterMap (strip name)) = .ok (Item.get? later name) := by
  induction edits generalizing item with
  | nil =>
    cases happly
    rfl
  | cons edit rest ih =>
    obtain ⟨between, hfirst, hrest⟩ := bind_eq_ok_iff.mp happly
    have hothers := ih hrest
    cases hstrip : edit.strip name with
    | none =>
      rw [List.filterMap_cons_none hstrip, ← Action.get?_of_apply hfirst (head?_of_strip hstrip)]
      exact hothers
    | some stripped =>
      rw [← strip_eq_some_iff.mp hstrip] at hfirst
      rw [List.filterMap_cons_some hstrip, withinAll, List.foldlM_cons, within_of_apply hfirst]
      exact hothers

/-- Edits below a map change its entries. -/
theorem applyAll_of_withinAll {edits : List Edit} {before cell : Option Attribute} {entries : Item}
    (hbelow : ∀ edit ∈ edits, edit.path ≠ [])
    (hwithin : withinAll before (some (.map entries)) edits = .ok cell) :
    ∃ later, applyAll (entriesOf before) entries edits = .ok later ∧ cell = some (.map later) := by
  induction edits generalizing entries with
  | nil =>
    cases hwithin
    exact ⟨entries, rfl, rfl⟩
  | cons edit rest ih =>
    obtain ⟨between, hfirst, hrest⟩ := bind_eq_ok_iff.mp hwithin
    obtain ⟨path, change⟩ := edit
    cases path with
    | nil => exact absurd rfl (hbelow _ List.mem_cons_self)
    | cons first others =>
      obtain ⟨left, hleft, rfl⟩ := map_eq_ok_iff.mp hfirst
      obtain ⟨later, happly, hcell⟩ := ih (fun edit hmem => hbelow edit (.tail _ hmem)) hrest
      refine ⟨later, ?_, hcell⟩
      rw [applyAll, List.foldlM_cons, hleft]
      exact happly

end Edit

end RecordStore.Expression
