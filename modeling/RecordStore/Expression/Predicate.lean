import RecordStore.Expression.Operand

/-!
# Predicates on items

What condition expressions say. A comparison with an absent attribute fails, unless it asks for a
difference.
-/

namespace RecordStore.Expression

inductive Predicate where
  | both (left right : Predicate)
  | either (left right : Predicate)
  | not (predicate : Predicate)
  | compare (left : Operand) (operator : Comparator) (right : Operand)
  | between (subject low high : Operand)
  | among (subject : Operand) (candidates : List Operand)
  | exists (path : List String)
  | absent (path : List String)
  | beginsWith (subject start : Operand)
  | contains (container element : Operand)
  deriving Repr, Inhabited

/-- Whether two values compare as an operator asks. -/
def satisfies (operator : Comparator) (left right : Attribute) : Bool :=
  match operator with
  | .equal => left.equal right
  | .notEqual => !left.equal right
  | .less => left.compare? right = some .lt
  | .lessOrEqual => left.compare? right = some .lt || left.compare? right = some .eq
  | .greater => left.compare? right = some .gt
  | .greaterOrEqual => left.compare? right = some .gt || left.compare? right = some .eq

/-- Whether one of the candidates equals a value. Those after the first match are not evaluated. -/
def isAmong (item : Item) (value : Attribute) : List Operand → Except Fault Bool
  | [] => .ok false
  | candidate :: rest => do
    match ← candidate.evaluate item with
    | some other => if value.equal other then return true else isAmong item value rest
    | none => isAmong item value rest

/-- Whether the predicate holds of an item. Its right side is only evaluated where the left side
does not decide. -/
def Predicate.holds (item : Item) : Predicate → Except Fault Bool
  | .both left right => do
    if ← left.holds item then right.holds item else return false
  | .either left right => do
    if ← left.holds item then return true else right.holds item
  | .not predicate => do return !(← predicate.holds item)
  | .compare left operator right => do
    match ← left.evaluate item, ← right.evaluate item with
    | some left, some right => return satisfies operator left right
    | _, _ => return operator = .notEqual
  | .between subject low high => do
    match ← subject.evaluate item, ← low.evaluate item, ← high.evaluate item with
    | some subject, some low, some high =>
      return satisfies .greaterOrEqual subject low && satisfies .lessOrEqual subject high
    | _, _, _ => return false
  | .among subject candidates => do
    match ← subject.evaluate item with
    | some value => isAmong item value candidates
    | none => return false
  | .exists path => .ok (Item.resolve? item path).isSome
  | .absent path => .ok (Item.resolve? item path).isNone
  | .beginsWith subject start => do
    match ← subject.evaluate item, ← start.evaluate item with
    | some subject, some start => return subject.beginsWith start
    | _, _ => return false
  | .contains container element => do
    match ← container.evaluate item, ← element.evaluate item with
    | some container, some element => return container.contains element
    | _, _ => return false

end RecordStore.Expression
