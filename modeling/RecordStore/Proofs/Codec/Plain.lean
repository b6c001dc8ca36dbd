import Mathlib
import RecordStore.Proofs.Codec.Json

/-!
# Compressed documents, sets and collections

What is stored of a document, of the elements of a set and of the parts of a collection is read
again.
-/

namespace RecordStore

variable {table : TableSchema} {value : Value} {element : ElementType}

/-! ### Compressed documents -/

theorem toList_toByteArray (bytes : ByteArray) : bytes.toList.toByteArray = bytes := by
  have hloop : ∀ (count index : Nat) (before : List UInt8), bytes.size - index = count →
      ByteArray.toList.loop bytes index before = before.reverse ++ bytes.data.toList.drop index := by
    intro count
    induction count with
    | zero =>
      intro index before hcount
      have hend : bytes.data.toList.length ≤ index := by
        have hsize : bytes.data.toList.length = bytes.size := Array.length_toList
        omega
      rw [ByteArray.toList.loop, if_neg (by omega), List.drop_of_length_le hend, List.append_nil]
    | succ count ih =>
      intro index before hcount
      have hless : index < bytes.data.toList.length := by
        have hsize : bytes.data.toList.length = bytes.size := Array.length_toList
        omega
      rw [ByteArray.toList.loop, if_pos (by omega), ih (index + 1) _ (by omega),
        List.drop_eq_getElem_cons hless, List.reverse_cons, List.append_assoc,
        List.singleton_append, ByteArray.get!, getElem!_pos bytes.data index (by simpa using hless)]
      rfl
  apply ByteArray.ext
  apply Array.toList_inj.mp
  rw [List.toList_data_toByteArray, ByteArray.toList, hloop _ 0 [] rfl]
  rfl

theorem Value.normalItems_eq_map (items : List Value) :
    normalItems table items = items.map (normal table) := by
  induction items with
  | nil => rw [normalItems, List.map_nil]
  | cons item rest ih => rw [normalItems, ih, List.map_cons]

namespace Codec

theorem decompressJson_compress {json : Json} (hsurvives : json.Survives) :
    decompressJson (Gzip.compress json.text.toByteArray.toList) = .ok json := by
  obtain ⟨hcompression, htext⟩ := hsurvives
  obtain ⟨parsed, hparsed, hnormal⟩ := Option.map_eq_some_iff.mp htext
  have hdecoded : String.fromUTF8? json.text.toByteArray.toList.toByteArray = some json.text := by
    rw [toList_toByteArray, String.fromUTF8?, dif_pos json.text.isValidUTF8]
    rfl
  rw [decompressJson, hcompression]
  dsimp only
  rw [hdecoded, Option.bind_some, hparsed]
  exact congrArg Except.ok hnormal

/-! ### Sets -/

theorem withoutRepeats_eq_self {α : Type} [BEq α] {elements : List α}
    (hdistinct : elements.Pairwise fun earlier later => (later == earlier) = false) :
    withoutRepeats elements = elements := by
  have hfold : ∀ rest kept : List α, (kept ++ rest).Pairwise (fun earlier later =>
      (later == earlier) = false) →
      rest.foldl (fun kept element => if kept.contains element then kept else kept ++ [element])
        kept = kept ++ rest := by
    intro rest
    induction rest with
    | nil => exact fun kept _ => (List.append_nil kept).symm
    | cons element rest ih =>
      intro kept hpairwise
      have hnew : kept.contains element = false := by
        rw [List.contains_eq_any_beq, List.any_eq_false]
        intro earlier hearlier
        rw [(List.pairwise_append.mp hpairwise).2.2 earlier hearlier element List.mem_cons_self]
        exact Bool.false_ne_true
      have hassoc : kept ++ element :: rest = (kept ++ [element]) ++ rest := by
        rw [List.append_assoc, List.singleton_append]
      rw [List.foldl_cons, hnew, if_neg Bool.false_ne_true, hassoc]
      rw [hassoc] at hpairwise
      exact ih _ hpairwise
  exact hfold elements [] hdistinct

/-- Values that are all read by one function are the values of what it reads. -/
theorem exists_map_eq {α : Type} (ofElement : α → Value) {elements : List Value}
    (hall : ∀ value ∈ elements, ∃ element, ofElement element = value) :
    ∃ contents : List α, contents.map ofElement = elements := by
  have hrange : elements ∈ Set.range (List.map ofElement) := by
    rw [Set.range_list_map]
    exact hall
  exact hrange

theorem pairwise_bne {α : Type} [BEq α] [LawfulBEq α] {elements : List α}
    (hdistinct : elements.Nodup) :
    elements.Pairwise fun earlier later => (later == earlier) = false :=
  hdistinct.imp fun hne => beq_eq_false_iff_ne.mpr (Ne.symm hne)

theorem mapM_eq_ok {α β γ : Type} {write : α → β} {read : β → Except Error γ} {result : α → γ}
    {elements : List α} (hread : ∀ element ∈ elements, read (write element) = .ok (result element)) :
    (elements.map write).mapM read = .ok (elements.map result) := by
  induction elements with
  | nil => rfl
  | cons element rest ih =>
    rw [List.map_cons, List.mapM_cons, hread element List.mem_cons_self, ok_bind,
      ih fun other hmem => hread other (.tail _ hmem)]
    rfl

theorem numberOfText_text {value : Int64} :
    numberOfText (Number.integer value).text element = .ok ((Number.integer value).narrow element) := by
  rw [numberOfText, Number.parse?_text_integer]

end Codec

theorem Typed.exists_integer {value : Value} (hnumeric : element.isNumeric = true)
    (htyped : Typed table (.scalar element) value) :
    ∃ number : Int64, Value.number (.integer number) = value ∧
      (Number.integer number).narrow element = .integer number := by
  cases htyped with
  | string | boolean | binary | object => cases hnumeric
  | integer value hleast hmost =>
    refine ⟨value, rfl, ?_⟩
    rw [Number.narrow, Number.toInt64, Int64.narrow_integer hleast hmost]
  | long value => exact ⟨value, rfl, rfl⟩

namespace Codec

theorem encodeSet_string {texts : List String} (hnonempty : texts ≠ []) (hdistinct : texts.Nodup) :
    encodeSet .string (texts.map .string) = .ok (.stringSet texts) := by
  have hread : (texts.map Value.string).mapM stringElement = .ok (texts.map id) :=
    mapM_eq_ok fun _ _ => rfl
  rw [encodeSet, if_neg (by simpa using hnonempty), hread, ok_bind, List.map_id,
    withoutRepeats_eq_self (pairwise_bne hdistinct)]
  rfl

theorem encodeSet_binary {members : List (List UInt8)} (hnonempty : members ≠ [])
    (hdistinct : members.Nodup) :
    encodeSet .binary (members.map .binary) = .ok (.binarySet members) := by
  have hread : (members.map Value.binary).mapM binaryElement = .ok (members.map id) :=
    mapM_eq_ok fun _ _ => rfl
  rw [encodeSet, if_neg (by simpa using hnonempty), hread, ok_bind, List.map_id,
    withoutRepeats_eq_self (pairwise_bne hdistinct)]
  rfl

theorem encodeSet_number {numbers : List Int64} (hnumeric : element.isNumeric = true)
    (hnonempty : numbers ≠ []) (hdistinct : numbers.Nodup)
    (hnarrow : ∀ number ∈ numbers, (Number.integer number).narrow element = .integer number) :
    encodeSet element (numbers.map fun number => .number (.integer number)) =
      .ok (.numberSet (numbers.map fun number => (Number.integer number).text)) := by
  have hread : (numbers.map fun number => Value.number (.integer number)).mapM
      (numberElement element) = .ok (numbers.map .integer) :=
    mapM_eq_ok fun number hmem => congrArg Except.ok (hnarrow number hmem)
  have hrepeats : withoutRepeats (numbers.map Number.integer) = numbers.map .integer := by
    apply withoutRepeats_eq_self
    refine List.Pairwise.map _ ?_ hdistinct
    intro earlier later hne
    exact decide_eq_false (Ne.symm hne)
  rw [encodeSet, if_neg (by simpa using hnonempty)]
  · rw [if_pos hnumeric, hread, ok_bind, hrepeats, List.map_map]
    rfl
  · rintro rfl
    cases hnumeric
  · rintro rfl
    cases hnumeric

/-- A set of distinct elements is read again from the way it is stored. -/
theorem exists_encodeSet {elements : List Value} (hset : element.isSetElement = true)
    (hdistinct : elements.Nodup)
    (htyped : ∀ value ∈ elements, Typed table (.scalar element) value) :
    ∃ stored, encodeSet element elements = .ok stored ∧
      decode table .plain ⟨.set, some element⟩ stored = .ok (.set elements) := by
  by_cases hempty : elements = []
  · subst hempty
    exact ⟨.list [], rfl, rfl⟩
  · have hnumbers : element.isNumeric = true → ∃ stored, encodeSet element elements = .ok stored ∧
        decode table .plain ⟨.set, some element⟩ stored = .ok (.set elements) := by
      intro hnumeric
      have hintegers := fun value hmem => (htyped value hmem).exists_integer hnumeric
      obtain ⟨numbers, rfl⟩ := exists_map_eq (fun number => Value.number (.integer number))
        fun value hmem => (hintegers value hmem).imp fun _ hnumber => hnumber.1
      have hnarrow : ∀ number ∈ numbers,
          (Number.integer number).narrow element = .integer number := by
        intro number hmem
        obtain ⟨other, hsame, hnarrow⟩ := hintegers _ (List.mem_map_of_mem hmem)
        cases hsame
        exact hnarrow
      refine ⟨_, encodeSet_number hnumeric (by simpa using hempty) (List.Nodup.of_map _ hdistinct)
        hnarrow, ?_⟩
      have hread : (numbers.map fun number => (Number.integer number).text).mapM
          (fun text => numberOfText text element) = .ok (numbers.map .integer) :=
        mapM_eq_ok fun number hmem => by rw [numberOfText_text, hnarrow number hmem]
      change (do
        let numbers ← (numbers.map fun number => (Number.integer number).text).mapM
          fun text => numberOfText text element
        return Value.set (numbers.map Value.number)) = _
      rw [hread, ok_bind, List.map_map]
      rfl
    cases element with
    | string =>
      obtain ⟨texts, rfl⟩ := exists_map_eq Value.string fun value hmem => by
        cases htyped value hmem with
        | string text => exact ⟨text, rfl⟩
      exact ⟨_, encodeSet_string (by simpa using hempty) (List.Nodup.of_map _ hdistinct), rfl⟩
    | binary =>
      obtain ⟨members, rfl⟩ := exists_map_eq Value.binary fun value hmem => by
        cases htyped value hmem with
        | binary bytes => exact ⟨bytes, rfl⟩
      exact ⟨_, encodeSet_binary (by simpa using hempty) (List.Nodup.of_map _ hdistinct), rfl⟩
    | integer | long | float | double => exact hnumbers rfl
    | boolean | object => cases hset

/-! ### Collections -/

/-- A value is read again, in its normal form, from the way it is stored. -/
def Restores (table : TableSchema) (storage : Storage) (type : ValueType) (value : Value) : Prop :=
  ∃ stored, encode table storage type value = .ok stored ∧
    decode table storage type stored =
      .ok (storage.select (value.kept table) (value.normal table))

theorem exists_encodeItems {items : List Value}
    (hrestores : ∀ item ∈ items, Restores table .plain (.scalar element) item) :
    ∃ stored, encodeItems table element items = .ok stored ∧
      decodeItems table element stored = .ok (Value.normalItems table items) := by
  induction items with
  | nil => exact ⟨[], rfl, by rw [Value.normalItems]; rfl⟩
  | cons item rest ih =>
    obtain ⟨first, hencode, hdecode⟩ := hrestores item List.mem_cons_self
    obtain ⟨others, hencodeRest, hdecodeRest⟩ := ih fun other hmem => hrestores other (.tail _ hmem)
    refine ⟨first :: others, ?_, ?_⟩
    · rw [encodeItems, hencode, ok_bind, hencodeRest]
      rfl
    · rw [decodeItems, hdecode, ok_bind, hdecodeRest, Value.normalItems]
      rfl

/-- What an attribute reads as. -/
def elementOf (table : TableSchema) (element : ElementType) (stored : Attribute) : Value :=
  (decode table .plain (.scalar element) stored).toOption.getD .null

theorem decodeEntries_eq {entries : List (String × Attribute)}
    (hread : ∀ entry ∈ entries,
      decode table .plain (.scalar element) entry.2 = .ok (elementOf table element entry.2)) :
    decodeEntries table element entries =
      .ok (entries.map fun entry => (entry.1, elementOf table element entry.2)) := by
  induction entries with
  | nil => rfl
  | cons entry rest ih =>
    rw [decodeEntries, hread entry List.mem_cons_self, ok_bind,
      ih fun other hmem => hread other (.tail _ hmem)]
    rfl

theorem exists_encodeEntries {entries : List (String × Value)}
    (hrestores : ∀ name value, (name, value) ∈ entries →
      Restores table .plain (.scalar element) value) :
    ∃ stored, encodeEntries table element entries = .ok stored ∧
      (∀ entry ∈ stored,
        decode table .plain (.scalar element) entry.2 = .ok (elementOf table element entry.2)) ∧
      stored.map (fun entry => (entry.1, elementOf table element entry.2)) =
        Value.normalEntries table entries := by
  induction entries with
  | nil => exact ⟨[], rfl, by simp, by rw [Value.normalEntries, List.map_nil]⟩
  | cons entry rest ih =>
    obtain ⟨name, value⟩ := entry
    obtain ⟨first, hencode, hdecode⟩ := hrestores name value List.mem_cons_self
    obtain ⟨others, hencodeRest, hread, hmap⟩ :=
      ih fun name other hmem => hrestores name other (.tail _ hmem)
    have hnormal : elementOf table element first = value.normal table := by
      rw [elementOf, hdecode]
      rfl
    refine ⟨(name, first) :: others, ?_, ?_, ?_⟩
    · rw [encodeEntries, hencode, ok_bind, hencodeRest]
      rfl
    · refine List.forall_mem_cons.mpr ⟨?_, hread⟩
      rw [hnormal, hdecode]
      rfl
    · rw [List.map_cons, hmap, hnormal, Value.normalEntries]

/-! ### Numbers -/

-- Reading a number is no part of choosing to read one.
attribute [local irreducible] numberOfText in
theorem decode_number (text : String) (helement : element.isNumeric = true) :
    decode table .plain (.scalar element) (.number text) =
      (do return .number (← numberOfText text element)) := by
  cases element <;> first | rfl | cases helement

end Codec

end RecordStore
