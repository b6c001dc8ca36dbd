import RecordStore.Proofs.Item
import RecordStore.Proofs.Update.Clauses

/-!
# Where actions act

An action leaves every attribute alone but the one that its path begins with. Clauses may all act at
or below a path.
-/

namespace RecordStore

open Expression (Action Clauses)

/-! ### Actions -/

namespace Expression

def Action.path : Action → List String
  | .set path _ => path
  | .remove path => path
  | .add path _ => path
  | .delete path _ => path

theorem get?_of_assign {item later : Item} {path : List String} {value : Attribute} {name : String}
    (hassign : assign item path value = .ok later) (hpath : path.head? ≠ some name) :
    Item.get? later name = Item.get? item name := by
  unfold assign at hassign
  split at hassign
  · rename_i hassigned
    cases hassign
    exact Item.get?_of_assign? hassigned hpath
  · cases hassign

theorem Action.get?_of_apply {action : Action} {before item later : Item} {name : String}
    (happly : action.apply before item = .ok later) (hpath : action.path.head? ≠ some name) :
    Item.get? later name = Item.get? item name := by
  cases action with
  | set path operand =>
    obtain ⟨value, _, hassign⟩ := bind_eq_ok_iff.mp happly
    exact get?_of_assign hassign hpath
  | remove path =>
    cases happly
    exact Item.get?_remove hpath
  | add path operand =>
    obtain ⟨value, _, hadd⟩ := bind_eq_ok_iff.mp happly
    obtain ⟨sum, _, hassign⟩ := bind_eq_ok_iff.mp hadd
    exact get?_of_assign hassign hpath
  | delete path operand =>
    obtain ⟨value, _, hdelete⟩ := bind_eq_ok_iff.mp happly
    split at hdelete
    · cases hdelete
      rfl
    · obtain ⟨left, _, hleft⟩ := bind_eq_ok_iff.mp hdelete
      split at hleft
      · exact get?_of_assign hleft hpath
      · cases hleft
        exact Item.get?_remove hpath

theorem get?_of_applyAll {actions : List Action} {before item later : Item} {name : String}
    (happly : actions.foldlM (Action.apply before) item = .ok later)
    (hpaths : ∀ action ∈ actions, action.path.head? ≠ some name) :
    Item.get? later name = Item.get? item name := by
  induction actions generalizing item with
  | nil =>
    cases happly
    rfl
  | cons action rest ih =>
    obtain ⟨between, hfirst, hrest⟩ := bind_eq_ok_iff.mp happly
    rw [ih hrest fun other hmem => hpaths other (List.mem_cons_of_mem _ hmem),
      Action.get?_of_apply hfirst (hpaths action List.mem_cons_self)]

/-! ### Clauses -/

/-- Every action is at or below a path. -/
def Clauses.Below (path : List String) (clauses : Clauses) : Prop :=
  ∀ action ∈ clauses.actions, path <+: action.path

namespace Clauses

variable {path : List String} {clauses added : Clauses}

theorem mem_actions {action : Action} : action ∈ clauses.actions ↔
    action ∈ clauses.set ∨ action ∈ clauses.remove ∨ action ∈ clauses.add ∨
      action ∈ clauses.delete := by
  simp only [actions, List.mem_append]

theorem mem_actions_append {action : Action} :
    action ∈ (clauses ++ added).actions ↔ action ∈ clauses.actions ∨ action ∈ added.actions := by
  simp only [mem_actions, append_set, append_remove, append_add, append_delete, List.mem_append]
  tauto

theorem below_none : Below path .none := by
  intro action hmem
  cases hmem

theorem Below.append (hclauses : clauses.Below path) (hadded : added.Below path) :
    (clauses ++ added).Below path := by
  intro action hmem
  exact (mem_actions_append.mp hmem).elim (hclauses action) (hadded action)

theorem below_ofSet {action : Action} (hpath : path <+: action.path) : Below path (ofSet action) := by
  intro other hmem
  rw [List.mem_singleton.mp hmem]
  exact hpath

end Clauses

end Expression

end RecordStore
