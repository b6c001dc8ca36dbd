import RecordStore.Expression.Action
import RecordStore.Expression.Predicate

/-!
# Reading expressions

`NOT` binds closer than `AND`, and `AND` closer than `OR`; both join from the left. Keywords and
functions are read in either case. Every bound counts tokens: a parser that is given the number of
its tokens does not run out of it, since each level of nesting takes at least one of them.
-/

namespace RecordStore.Expression

/-- What the placeholders of an expression stand for. -/
structure Bindings where
  names : List (String × String)
  values : Item
  deriving Inhabited

def Bindings.none : Bindings := ⟨[], []⟩

abbrev Parsing := StateT (List Token) (Except Fault)

namespace Parsing

/-- Takes the next token. -/
def next : Parsing (Option Token) := fun tokens => .ok (tokens.head?, tokens.tail)

def expect (expected : Token) : Parsing Unit := do
  let found ← next
  if found ≠ some expected then throw (.expectedToken expected found)

/-- Whether a word is a keyword, which is given in lower case. -/
def isKeyword (keyword word : String) : Bool :=
  word.toList.map Char.toLower = keyword.toList

/-- Takes a keyword if it comes next. -/
def takeKeyword (keyword : String) : Parsing Bool := fun tokens =>
  match tokens with
  | .word word :: rest => if isKeyword keyword word then .ok (true, rest) else .ok (false, tokens)
  | _ => .ok (false, tokens)

/-- Takes a token if it comes next. -/
def take (token : Token) : Parsing Bool := fun tokens =>
  match tokens with
  | found :: rest => if found = token then .ok (true, rest) else .ok (false, tokens)
  | [] => .ok (false, [])

/-- Takes the name and the opening parenthesis of a function, the name in lower case. -/
def takeCall : Parsing (Option String) := fun tokens =>
  match tokens with
  | .word word :: .openParen :: rest =>
    .ok (some (String.ofList (word.toList.map Char.toLower)), rest)
  | _ => .ok (none, tokens)

/-- Items with commas between them. -/
def separated {α : Type} (item : Parsing α) : (bound : Nat) → Parsing (List α)
  | 0 => do return [← item]
  | bound + 1 => do
    let first ← item
    if ← take .comma then return first :: (← separated item bound)
    else return [first]

end Parsing

open Parsing

/-! ### Operands -/

def segment (bindings : Bindings) : Option Token → Except Fault String
  | some (.name placeholder) =>
    match Entries.find? bindings.names placeholder with
    | some name => .ok name
    | none => .error (.undefinedName placeholder)
  | some (.word word) => .ok word
  | found => .error (.expectedPath found)

/-- Segments with points between them. -/
def path (bindings : Bindings) : Parsing (List String)
  | token :: .dot :: rest => do
    let name ← segment bindings (some token)
    let (names, rest) ← path bindings rest
    return (name :: names, rest)
  | token :: rest => do return ([← segment bindings (some token)], rest)
  | [] => do return ([← segment bindings none], [])

/-- A placeholder of a value, or a path. -/
def simpleOperand (bindings : Bindings) : Parsing Operand
  | .value placeholder :: rest =>
    match Item.get? bindings.values placeholder with
    | some value => .ok (.value value, rest)
    | none => .error (.undefinedValue placeholder)
  | tokens => (Operand.path <$> path bindings) tokens

def operand (bindings : Bindings) : (bound : Nat) → Parsing Operand
  | 0 => simpleOperand bindings
  | bound + 1 => do
    match ← takeCall with
    | none => simpleOperand bindings
    | some "if_not_exists" =>
      let path ← path bindings
      expect .comma
      let fallback ← operand bindings bound
      expect .closeParen
      return .orElse path fallback
    | some "list_append" =>
      let left ← operand bindings bound
      expect .comma
      let right ← operand bindings bound
      expect .closeParen
      return .append left right
    | some "size" =>
      let path ← path bindings
      expect .closeParen
      return .size path
    | some name => throw (.unknownFunction name)

/-- An operand, or the sum or difference of two. -/
def sum (bindings : Bindings) (bound : Nat) : Parsing Operand := do
  let left ← operand bindings bound
  if ← take .plus then return .plus left (← operand bindings bound)
  else if ← take .minus then return .minus left (← operand bindings bound)
  else return left

/-! ### Conditions -/

/-- What follows the left side of a comparison. -/
def comparison (bindings : Bindings) (bound : Nat) (left : Operand) : Parsing Predicate := do
  if ← takeKeyword "between" then
    let low ← operand bindings bound
    if ← takeKeyword "and" then return .between left low (← operand bindings bound)
    else throw .betweenWithoutAnd
  else if ← takeKeyword "in" then
    expect .openParen
    let candidates ← separated (operand bindings bound) bound
    expect .closeParen
    return .among left candidates
  else
    match ← next with
    | some (.comparator operator) => return .compare left operator (← operand bindings bound)
    | found => throw (.expectedComparison found)

/-- The arguments and the closing parenthesis of a function with two operands. -/
def operandPair (bindings : Bindings) (bound : Nat) : Parsing (Operand × Operand) := do
  let left ← operand bindings bound
  expect .comma
  let right ← operand bindings bound
  expect .closeParen
  return (left, right)

/-- A function that is a condition by itself, or a comparison. -/
def simpleCondition (bindings : Bindings) (bound : Nat) : Parsing Predicate := fun tokens =>
  match tokens with
  | .word word :: .openParen :: rest =>
    if isKeyword "attribute_exists" word then
      ((do
        let path ← path bindings
        expect .closeParen
        return .exists path) : Parsing Predicate) rest
    else if isKeyword "attribute_not_exists" word then
      ((do
        let path ← path bindings
        expect .closeParen
        return .absent path) : Parsing Predicate) rest
    else if isKeyword "begins_with" word then
      ((do
        let (subject, start) ← operandPair bindings bound
        return .beginsWith subject start) : Parsing Predicate) rest
    else if isKeyword "contains" word then
      ((do
        let (container, element) ← operandPair bindings bound
        return .contains container element) : Parsing Predicate) rest
    else (operand bindings bound >>= comparison bindings bound) tokens
  | tokens => (operand bindings bound >>= comparison bindings bound) tokens

/-- A condition in parentheses, or one that needs none. -/
def primary (bindings : Bindings) (bound : Nat) (nested : Parsing Predicate) :
    Parsing Predicate := do
  if ← take .openParen then
    let predicate ← nested
    expect .closeParen
    return predicate
  else simpleCondition bindings bound

def negation (primary : Parsing Predicate) : Parsing Predicate
  | .word word :: rest =>
    if isKeyword "not" word then do
      let (predicate, rest) ← negation primary rest
      return (.not predicate, rest)
    else primary (.word word :: rest)
  | tokens => primary tokens

/-- Conditions joined by a keyword, from the left. -/
def chain (keyword : String) (join : Predicate → Predicate → Predicate) (part : Parsing Predicate)
    (left : Predicate) : (bound : Nat) → Parsing Predicate
  | 0 => return left
  | bound + 1 => do
    if ← takeKeyword keyword then chain keyword join part (join left (← part)) bound
    else return left

/-- Conditions joined by `OR`, each of them joined by `AND`, given the parser of what stands in
parentheses. -/
def disjunctionOf (bindings : Bindings) (bound : Nat) (nested : Parsing Predicate) :
    Parsing Predicate := do
  let part := negation (primary bindings bound nested)
  let conjunction := do chain "and" .both part (← part) bound
  chain "or" .either conjunction (← conjunction) bound

def disjunction (bindings : Bindings) : (bound : Nat) → Parsing Predicate
  | 0 => fun tokens => .error (.expectedPath tokens.head?)
  | bound + 1 => disjunctionOf bindings (bound + 1) (disjunction bindings bound)

/-! ### Updates and projections -/

def Clause.ofWord (word : String) : Except Fault Clause :=
  if isKeyword "set" word then .ok .set
  else if isKeyword "remove" word then .ok .remove
  else if isKeyword "add" word then .ok .add
  else if isKeyword "delete" word then .ok .delete
  else .error (.unknownClause (String.ofList (word.toList.map Char.toUpper)))

def action (bindings : Bindings) (bound : Nat) : Clause → Parsing Action
  | .set => do
    let path ← path bindings
    expect (.comparator .equal)
    return .set path (← sum bindings bound)
  | .remove => Action.remove <$> path bindings
  | .add => do
    let path ← path bindings
    return .add path (← operand bindings bound)
  | .delete => do
    let path ← path bindings
    return .delete path (← operand bindings bound)

/-- Groups of actions, each begun by its keyword, up to the end. -/
def actions (bindings : Bindings) : (bound : Nat) → Parsing (List Action)
  | 0 => return []
  | bound + 1 => do
    match ← next with
    | none => return []
    | some (.word word) =>
      let clause ← (Clause.ofWord word : Except Fault Clause)
      let group ← separated (action bindings (bound + 1) clause) (bound + 1)
      return group ++ (← actions bindings bound)
    | found => throw (.expectedClause found)

/-! ### Texts -/

def tokensOf (expression : String) : Except Fault (List Token) :=
  match scan [] expression.toList with
  | .ok tokens => .ok tokens
  | .error character => .error (.unexpectedCharacter character expression)

def Predicate.parse (bindings : Bindings) (expression : String) : Except Fault Predicate := do
  let tokens ← tokensOf expression
  match ← (disjunction bindings (tokens.length + 1)).run tokens with
  | (predicate, []) => return predicate
  | (_, token :: _) => throw (.trailingToken token)

def Action.parse (bindings : Bindings) (expression : String) : Except Fault (List Action) := do
  let tokens ← tokensOf expression
  let actions ← (actions bindings (tokens.length + 1)).run' tokens
  if actions.isEmpty then throw .emptyUpdate
  return actions

/-- The paths of a projection. -/
def parsePaths (bindings : Bindings) (expression : String) : Except Fault (List (List String)) := do
  let tokens ← tokensOf expression
  match ← (separated (path bindings) tokens.length).run tokens with
  | (paths, []) => return paths
  | (_, token :: _) => throw (.projectionToken token)

/-! ### Items -/

/-- Whether an item meets a condition, which may be left out. -/
def meets (item : Item) (condition : Option String) (bindings : Bindings) : Except Fault Bool := do
  match condition with
  | none => return true
  | some expression => (← Predicate.parse bindings expression).holds item

/-- The item as changed by an update expression. -/
def applyUpdate (item : Item) (expression : String) (bindings : Bindings) : Except Fault Item := do
  applyActions item (← Action.parse bindings expression)

/-- The projected part of an item, all of it without a projection. -/
def projectItem (item : Item) (projection : Option String) (bindings : Bindings) :
    Except Fault Item := do
  match projection with
  | none => return item
  | some expression => return Item.restrict item (← parsePaths bindings expression)

end RecordStore.Expression
