import RecordStore.Json.Token

/-!
# Reading JSON text

The parser takes the tokens one by one and keeps a stack of the unfinished arrays and objects.
Members are kept as they come; `Json.normal` orders them. An array or an object 128 levels deep is
unreadable.
-/

namespace RecordStore.Json

/-- An unfinished array or object; its parts so far are held last first. -/
inductive Frame where
  | array (items : List Draft)
  | object (members : List (Option String × Draft)) (name : Option String)

/-- What the parser has read so far. -/
inductive Progress where
  /-- A value must come next. -/
  | start (frames : List Frame)
  /-- The first item of an array or its closing bracket must come next. -/
  | firstItem (frames : List Frame)
  /-- The first member of an object or its closing brace must come next. -/
  | firstName (frames : List Frame)
  /-- A member name must come next. -/
  | memberName (frames : List Frame) (members : List (Option String × Draft))
  /-- The colon after a member name must come next. -/
  | memberColon (frames : List Frame) (members : List (Option String × Draft))
      (name : Option String)
  /-- A value is complete. -/
  | after (frames : List Frame) (value : Draft)

/-- How deep arrays and objects may not lie, the outermost one having depth one. -/
def depthLimit : Nat := 128

/-- An array or an object that is complete, within those that are not. -/
def close (frames : List Frame) (value : Draft) : Progress :=
  .after frames (if frames.length + 1 < depthLimit then value else .unreadable)

def startValue? (frames : List Frame) : Token → Option Progress
  | .openBracket => some (.firstItem frames)
  | .openBrace => some (.firstName frames)
  | .string text => some (.after frames (.ofText? text))
  | .literal value => some (.after frames value)
  | _ => none

/-- The token after a complete value closes the innermost frame or asks for its next part. -/
def continueFrame? (frames : List Frame) (value : Draft) (token : Token) : Option Progress :=
  match frames, token with
  | .array items :: frames, .comma => some (.start (.array (value :: items) :: frames))
  | .array items :: frames, .closeBracket =>
    some (close frames (.array (value :: items).reverse))
  | .object members name :: frames, .comma => some (.memberName frames ((name, value) :: members))
  | .object members name :: frames, .closeBrace =>
    some (close frames (.object ((name, value) :: members).reverse))
  | _, _ => none

def Progress.step (progress : Progress) (token : Token) : Option Progress :=
  match progress, token with
  | .start frames, token => startValue? frames token
  | .firstItem frames, .closeBracket => some (close frames (.array []))
  | .firstItem frames, token => startValue? (.array [] :: frames) token
  | .firstName frames, .closeBrace => some (close frames (.object []))
  | .firstName frames, .string text => some (.memberColon frames [] text)
  | .memberName frames members, .string text => some (.memberColon frames members text)
  | .memberColon frames members name, .colon => some (.start (.object members name :: frames))
  | .after frames value, token => continueFrame? frames value token
  | _, _ => none

/-- The draft that the text is, none when it is not grammatical. -/
def Draft.parse? (text : String) : Option Draft := do
  let tokens ← tokens? text
  match ← tokens.foldlM Progress.step (.start []) with
  | .after [] value => some value
  | _ => none

/-- The document in its written order, none when the text is not one document. -/
def parse? (text : String) : Option Json :=
  (Draft.parse? text).bind Draft.toJson?

end RecordStore.Json
