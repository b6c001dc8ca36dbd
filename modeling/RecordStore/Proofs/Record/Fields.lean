import RecordStore.Proofs.Entries
import RecordStore.Record.Value

/-!
# Fields of records

What setting a field does to every other one.
-/

namespace RecordStore.Record

theorem get?_set (record : Record) (name : String) (value : Value) (other : String) :
    (record.set name value).get? other =
      if name = other then (if value.isNull then none else some value) else record.get? other := by
  rw [Record.get?, Record.set]
  dsimp only
  split
  · rw [Entries.find?_erase]
    rfl
  · rw [Entries.find?_put]
    rfl

/-- A field that is set holds its value, where null stands for none. -/
theorem getD_get?_set_self (record : Record) (name : String) (value : Value) :
    ((record.set name value).get? name).getD .null = value := by
  rw [get?_set, if_pos rfl]
  cases value <;> rfl

theorem get?_set_of_ne (record : Record) {name other : String} (value : Value)
    (hne : name ≠ other) : (record.set name value).get? other = record.get? other := by
  rw [get?_set, if_neg hne]

theorem nodup_set {record : Record} (hnames : (Entries.names record.fields).Nodup) (name : String)
    (value : Value) : (Entries.names (record.set name value).fields).Nodup := by
  rw [Record.set]
  dsimp only
  split
  · exact Entries.nodup_erase hnames name
  · exact Entries.nodup_put hnames name value

end RecordStore.Record
