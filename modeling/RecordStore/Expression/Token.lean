import RecordStore.Text.Blank
import RecordStore.Text.Letter
import RecordStore.Text.Quoted

/-!
# Tokens of expressions

Expressions are words, `#name` and `:value` placeholders, comparators and punctuation. A word starts
with a letter or an underscore and goes on with letters, digits and underscores.
-/

namespace RecordStore

inductive Comparator where
  | equal
  | notEqual
  | less
  | lessOrEqual
  | greater
  | greaterOrEqual
  deriving DecidableEq, Repr, Inhabited

def Comparator.text : Comparator → String
  | .equal => "="
  | .notEqual => "<>"
  | .less => "<"
  | .lessOrEqual => "<="
  | .greater => ">"
  | .greaterOrEqual => ">="

namespace Expression

inductive Token where
  | name (placeholder : String)
  | value (placeholder : String)
  | word (text : String)
  | openParen
  | closeParen
  | comma
  | dot
  | plus
  | minus
  | comparator (operator : Comparator)
  deriving DecidableEq, Repr, Inhabited

namespace Token

/-- How messages show a token. -/
def text : Token → String
  | .name placeholder => "Name(" ++ Text.quote placeholder ++ ")"
  | .value placeholder => "Value(" ++ Text.quote placeholder ++ ")"
  | .word text => "Word(" ++ Text.quote text ++ ")"
  | .openParen => "LParen"
  | .closeParen => "RParen"
  | .comma => "Comma"
  | .dot => "Dot"
  | .plus => "Plus"
  | .minus => "Minus"
  | .comparator operator => "Comparator(" ++ Text.quote operator.text ++ ")"

def optionalText : Option Token → String
  | some token => "Some(" ++ token.text ++ ")"
  | none => "None"

end Token

/-! ### Scanning -/

def isWordStart (character : Char) : Bool :=
  character = '#' || character = ':' || character = '_' || Text.isAlphabetic character

def isWordPart (character : Char) : Bool :=
  character = '_' || Text.isAlphanumeric character

/-- The token of a word, whose first character tells placeholders from plain words. -/
def wordToken (characters : List Char) : Token :=
  match characters with
  | '#' :: _ => .name (String.ofList characters)
  | ':' :: _ => .value (String.ofList characters)
  | _ => .word (String.ofList characters)

/-- The tokens of a text after the characters `pending`, held last first, of an unfinished word.
The result is the first character that starts no token when there is one. -/
def scan (pending : List Char) (characters : List Char) : Except Char (List Token) :=
  let flush := fun tokens : List Token =>
    if pending.isEmpty then tokens else wordToken pending.reverse :: tokens
  match characters with
  | [] => .ok (flush [])
  | '<' :: '>' :: rest => (scan [] rest).map fun tokens => flush (.comparator .notEqual :: tokens)
  | '<' :: '=' :: rest => (scan [] rest).map fun tokens => flush (.comparator .lessOrEqual :: tokens)
  | '>' :: '=' :: rest =>
    (scan [] rest).map fun tokens => flush (.comparator .greaterOrEqual :: tokens)
  | character :: rest =>
    if !pending.isEmpty && isWordPart character then scan (character :: pending) rest
    else
      match character with
      | '(' => (scan [] rest).map fun tokens => flush (.openParen :: tokens)
      | ')' => (scan [] rest).map fun tokens => flush (.closeParen :: tokens)
      | ',' => (scan [] rest).map fun tokens => flush (.comma :: tokens)
      | '.' => (scan [] rest).map fun tokens => flush (.dot :: tokens)
      | '+' => (scan [] rest).map fun tokens => flush (.plus :: tokens)
      | '-' => (scan [] rest).map fun tokens => flush (.minus :: tokens)
      | '=' => (scan [] rest).map fun tokens => flush (.comparator .equal :: tokens)
      | '<' => (scan [] rest).map fun tokens => flush (.comparator .less :: tokens)
      | '>' => (scan [] rest).map fun tokens => flush (.comparator .greater :: tokens)
      | character =>
        if Text.isBlank character then (scan [] rest).map flush
        else if isWordStart character then (scan [character] rest).map flush
        else .error character

end Expression

end RecordStore
