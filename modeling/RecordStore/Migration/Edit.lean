import RecordStore.Migration.Basic

/-!
# Edits of items

The edits from which declarative migrations are made.
-/

namespace RecordStore

inductive ItemEdit where
  | set (name : String) (value : Attribute)
  | remove (name : String)
  | rename (source target : String)
  | copy (source target : String)
  /-- Appends a text to the list under the name `log`. -/
  | log (text : String)
  | fail (reason : String)
  deriving Repr

namespace ItemEdit

/-- The item with a text appended to its log, where anything but a list is replaced. -/
def appendLog (item : Item) (text : String) : Item :=
  match Item.get? item "log" with
  | some (.list items) => Item.set item "log" (.list (items ++ [.string text]))
  | _ => Item.set item "log" (.list [.string text])

/-- Renaming and copying an absent attribute does nothing. -/
def apply : ItemEdit → ItemEditor Unit
  | .set name value => modify fun item => Item.set item name value
  | .remove name => modify fun item => Item.erase item name
  | .rename source target => modify fun item =>
    match Item.get? item source with
    | some value => Item.set (Item.erase item source) target value
    | none => item
  | .copy source target => modify fun item =>
    match Item.get? item source with
    | some value => Item.set item target value
    | none => item
  | .log text => modify fun item => appendLog item text
  | .fail reason => throw (.codec (.custom reason))

end ItemEdit

/-- The migration step that makes declared edits. -/
def Migration.ofEdits (version sequence : UInt32) (edits finishing : List ItemEdit) : Migration :=
  { version, sequence
    migrate := edits.forM ItemEdit.apply
    finish := finishing.forM ItemEdit.apply }

end RecordStore
