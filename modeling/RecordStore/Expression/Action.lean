import RecordStore.Expression.Operand

/-!
# Actions of updates

Operands are read from the item as it was before the update; the changes are made one after another.
-/

namespace RecordStore.Expression

/-- The keyword that begins a group of actions. -/
inductive Clause where
  | set
  | remove
  | add
  | delete
  deriving DecidableEq, Repr

inductive Action where
  | set (path : List String) (operand : Operand)
  | remove (path : List String)
  /-- Adds to a number or to a set. -/
  | add (path : List String) (operand : Operand)
  /-- Takes members out of a set. -/
  | delete (path : List String) (operand : Operand)
  deriving Repr, Inhabited

/-- The members with those of another set added. -/
def union {α : Type} (equal : α → α → Bool) (members added : List α) : List α :=
  added.foldl (fun held member =>
    if held.any fun other => equal other member then held else held ++ [member]) members

/-- The members that are not in another set. -/
def without {α : Type} (equal : α → α → Bool) (members removed : List α) : List α :=
  members.filter fun member => !removed.any (equal member)

/-- The sum of a value and what is held, which may be absent. -/
def added (current : Option Attribute) (operand : Attribute) : Except Fault Attribute :=
  match current, operand with
  | none, .number _ | none, .stringSet _ | none, .numberSet _ | none, .binarySet _ => .ok operand
  | some (.number current), .number amount => (calculate Number.sum? current amount).map .number
  | some (.stringSet members), .stringSet others => .ok (.stringSet (union (· = ·) members others))
  | some (.numberSet members), .numberSet others =>
    .ok (.numberSet (union Attribute.equalNumbers members others))
  | some (.binarySet members), .binarySet others => .ok (.binarySet (union (· = ·) members others))
  | current, operand => .error (.cannotAdd current operand)

/-- What is left of a set, none when nothing is. -/
def remaining (current operand : Attribute) : Except Fault (Option Attribute) :=
  let nonEmpty {α : Type} (form : List α → Attribute) (members : List α) : Option Attribute :=
    if members.isEmpty then none else some (form members)
  match current, operand with
  | .stringSet members, .stringSet others =>
    .ok (nonEmpty .stringSet (without (· = ·) members others))
  | .numberSet members, .numberSet others =>
    .ok (nonEmpty .numberSet (without Attribute.equalNumbers members others))
  | .binarySet members, .binarySet others =>
    .ok (nonEmpty .binarySet (without (· = ·) members others))
  | current, operand => .error (.cannotDelete operand current)

def assign (item : Item) (path : List String) (value : Attribute) : Except Fault Item :=
  match Item.assign? item path value with
  | some item => .ok item
  | none => .error (.invalidPath path)

/-- The value of an operand that must not be absent. -/
def require (item : Item) (operand : Operand) (missing : Fault) : Except Fault Attribute := do
  match ← operand.evaluate item with
  | some value => return value
  | none => throw missing

/-- Changes an item as an action says, reading operands from the item before the update. -/
def Action.apply (before : Item) (item : Item) : Action → Except Fault Item
  | .set path operand => do
    assign item path (← require before operand .missingOperand)
  | .remove path => .ok (Item.remove item path)
  | .add path operand => do
    let value ← require before operand .addOperandMissing
    assign item path (← added (Item.resolve? item path) value)
  | .delete path operand => do
    let value ← require before operand .deleteOperandMissing
    match Item.resolve? item path with
    | none => return item
    | some current =>
      match ← remaining current value with
      | some left => assign item path left
      | none => return Item.remove item path

def applyActions (item : Item) (actions : List Action) : Except Fault Item :=
  actions.foldlM (Action.apply item) item

end RecordStore.Expression
