import RecordStore.Proofs.Codec.Fill

/-!
# Lists that are stored by id

Objects that are told apart by their ids are stored under distinct texts, and are read again in the
order of their ids, whatever the order of these texts is.
-/

namespace RecordStore

variable {table : TableSchema}

/-! ### Sorting -/

/-- A list that is sorted by keys of its own does not depend on the order before. -/
theorem mergeSort_eq_of_perm {α κ : Type} [LE κ] [DecidableLE κ] [Std.IsLinearOrder κ]
    {precedes : α → α → Bool} (key : α → κ) {before after : List α}
    (hprecedes : ∀ first ∈ before, ∀ second ∈ before,
      precedes first second = decide (key first ≤ key second))
    (hkey : ∀ first ∈ before, ∀ second ∈ before, key first = key second → first = second)
    (hperm : before.Perm after) : before.mergeSort precedes = after.mergeSort precedes := by
  -- The order need not be linear elsewhere, so both lists are sorted by the keys instead.
  have hcongr : ∀ list : List α, (∀ element ∈ list, element ∈ before) →
      list.mergeSort precedes = list.mergeSort fun first second => key first ≤ key second := by
    intro list hmem
    have hmap := @List.map_mergeSort α α precedes (fun first second => key first ≤ key second) id list
      fun first hfirst second hsecond =>
        hprecedes first (hmem first hfirst) second (hmem second hsecond)
    rw [List.map_id, List.map_id] at hmap
    exact hmap
  have hsorted : ∀ list : List α,
      (list.mergeSort fun first second => key first ≤ key second).Pairwise fun first second =>
        key first ≤ key second := by
    intro list
    have hpairwise := @List.pairwise_mergeSort α (fun first second => key first ≤ key second)
      (fun first second third hfirst hsecond => by
        rw [decide_eq_true_eq] at hfirst hsecond ⊢
        exact Std.le_trans hfirst hsecond)
      (fun first second => by
        rw [Bool.or_eq_true, decide_eq_true_eq, decide_eq_true_eq]
        exact Std.le_total) list
    exact hpairwise.imp of_decide_eq_true
  rw [hcongr before fun _ hmem => hmem, hcongr after fun _ hmem => hperm.mem_iff.mpr hmem]
  refine List.Perm.eq_of_pairwise ?_ (hsorted before) (hsorted after)
    ((List.mergeSort_perm before _).trans (hperm.trans (List.mergeSort_perm after _).symm))
  intro first second hfirst hsecond hle hge
  exact hkey first (List.mem_mergeSort.mp hfirst) second
    (hperm.mem_iff.mpr (List.mem_mergeSort.mp hsecond)) (Std.le_antisymm hle hge)

/-! ### Hexadecimal text -/

namespace Text

theorem hexDigit?_digitChar : ∀ digit < 16, hexDigit? (Nat.digitChar digit) = some digit := by
  decide

theorem hexBytes?_flatMap (bytes : List UInt8) :
    hexBytes? (bytes.flatMap hexByte) = some bytes := by
  induction bytes with
  | nil => rfl
  | cons byte rest ih =>
    have hless := byte.toNat_lt
    have hvalue : 16 * (byte.toNat / 16) + byte.toNat % 16 = byte.toNat := by omega
    change hexBytes? (Nat.digitChar (byte.toNat / 16) :: Nat.digitChar (byte.toNat % 16) ::
      rest.flatMap hexByte) = _
    rw [hexBytes?, hexDigit?_digitChar _ (by omega), hexDigit?_digitChar _ (by omega), ih]
    change some (UInt8.ofNat (16 * (byte.toNat / 16) + byte.toNat % 16) :: rest) = _
    rw [hvalue, UInt8.ofNat_toNat]

theorem hexText_injective {first second : List UInt8} (hsame : hexText first = hexText second) :
    first = second := by
  have hbytes := congrArg (fun text : String => hexBytes? text.toList) hsame
  rw [hexText, hexText, String.toList_ofList, String.toList_ofList, hexBytes?_flatMap,
    hexBytes?_flatMap] at hbytes
  exact Option.some.inj hbytes

end Text

namespace Codec

/-! ### Ids of one type -/

/-- Values that carry ids of one type. -/
inductive CarryIds (values : List Value) : Prop where
  | strings (carried : ∀ value ∈ values, ∃ text, idOf value = some (.string text))
  | integers (carried : ∀ value ∈ values, ∃ number, idOf value = some (.number (.integer number)))
  | bytes (carried : ∀ value ∈ values, ∃ bytes, idOf value = some (.binary bytes))

theorem CarryIds.map {values : List Value} {change : Value → Value} (hids : CarryIds values)
    (hchange : ∀ value ∈ values, idOf (change value) = idOf value) :
    CarryIds (values.map change) := by
  cases hids with
  | strings hcarried =>
    refine .strings (List.forall_mem_map.mpr fun value hmem => ?_)
    rw [hchange value hmem]
    exact hcarried value hmem
  | integers hcarried =>
    refine .integers (List.forall_mem_map.mpr fun value hmem => ?_)
    rw [hchange value hmem]
    exact hcarried value hmem
  | bytes hcarried =>
    refine .bytes (List.forall_mem_map.mpr fun value hmem => ?_)
    rw [hchange value hmem]
    exact hcarried value hmem

/-- Values with distinct ids of one type are sorted in one way. -/
theorem CarryIds.mergeSort_eq {before after : List Value} (hids : CarryIds before)
    (hdistinct : (before.map idOf).Nodup) (hperm : before.Perm after) :
    before.mergeSort idPrecedes = after.mergeSort idPrecedes := by
  have hinjective := List.inj_on_of_nodup_map hdistinct
  cases hids with
  | strings hcarried =>
    choose! key hcarried using hcarried
    refine mergeSort_eq_of_perm key (fun first hfirst second hsecond => ?_)
      (fun first hfirst second hsecond hsame => hinjective hfirst hsecond ?_) hperm
    · rw [idPrecedes, hcarried first hfirst, hcarried second hsecond]
      rfl
    · rw [hcarried first hfirst, hcarried second hsecond, hsame]
  | integers hcarried =>
    choose! key hcarried using hcarried
    refine mergeSort_eq_of_perm (fun value => (key value).toInt)
      (fun first hfirst second hsecond => ?_)
      (fun first hfirst second hsecond hsame => hinjective hfirst hsecond ?_) hperm
    · rw [idPrecedes, hcarried first hfirst, hcarried second hsecond]
      simp only [Number.compare?, ne_eq, Option.some.injEq, Int.compare_ne_gt]
    · rw [hcarried first hfirst, hcarried second hsecond, Int64.toInt_inj.mp hsame]
  | bytes hcarried =>
    choose! key hcarried using hcarried
    refine mergeSort_eq_of_perm key (fun first hfirst second hsecond => ?_)
      (fun first hfirst second hsecond hsame => hinjective hfirst hsecond ?_) hperm
    · rw [idPrecedes, hcarried first hfirst, hcarried second hsecond]
      rfl
    · rw [hcarried first hfirst, hcarried second hsecond, hsame]

theorem idText_eq {typeName : String} {fields : List (String × Value)} {revision : Int64} {id : Value}
    (hid : idOf (.object typeName fields revision) = some id) :
    Entries.find? fields "id" = some id := hid

/-- Ids of one type are told apart by the texts that they are stored under. -/
theorem CarryIds.exists_text {values : List Value} (hids : CarryIds values) :
    ∃ text : Value → String,
      (∀ typeName fields revision, Value.object typeName fields revision ∈ values →
        idText typeName fields = .ok (text (.object typeName fields revision))) ∧
      ∀ first ∈ values, ∀ second ∈ values, text first = text second → idOf first = idOf second := by
  cases hids with
  | strings hcarried =>
    choose! key hcarried using hcarried
    refine ⟨key, fun typeName fields revision hmem => ?_, fun first hfirst second hsecond hsame => ?_⟩
    · rw [idText, idText_eq (hcarried _ hmem)]
    · rw [hcarried first hfirst, hcarried second hsecond, hsame]
  | integers hcarried =>
    choose! key hcarried using hcarried
    refine ⟨fun value => (Number.integer (key value)).text, fun typeName fields revision hmem => ?_,
      fun first hfirst second hsecond hsame => ?_⟩
    · rw [idText, idText_eq (hcarried _ hmem)]
    · have hparse := congrArg Number.parse? hsame
      dsimp only at hparse
      rw [Number.parse?_text_integer, Number.parse?_text_integer] at hparse
      rw [hcarried first hfirst, hcarried second hsecond, Option.some.inj hparse]
  | bytes hcarried =>
    choose! key hcarried using hcarried
    refine ⟨fun value => Text.hexText (key value), fun typeName fields revision hmem => ?_,
      fun first hfirst second hsecond hsame => ?_⟩
    · rw [idText, idText_eq (hcarried _ hmem)]
    · rw [hcarried first hfirst, hcarried second hsecond, Text.hexText_injective hsame]

/-! ### Stored objects -/

theorem exists_encodeById {typeName : String} {object : TypeSchema} {type : ValueType}
    {text : Value → String} {items : List Value} (hdeclared : table.type? typeName = some object)
    (hobjects : ∀ item ∈ items, ∃ fields, item = .object typeName fields 0)
    (htext : ∀ typeName fields revision, Value.object typeName fields revision ∈ items →
      idText typeName fields = .ok (text (.object typeName fields revision)))
    (hrestores : ∀ item ∈ items, Restores table .plain (.scalar (.object typeName)) item) :
    ∃ entries, encodeById table type object items = .ok entries ∧
      Entries.names entries = items.map text ∧
      (∀ entry ∈ entries, decode table .plain (.scalar (.object typeName)) entry.2 =
        .ok (elementOf table (.object typeName) entry.2)) ∧
      entries.map (fun entry => elementOf table (.object typeName) entry.2) =
        Value.normalItems table items := by
  induction items with
  | nil => exact ⟨[], rfl, rfl, by simp, by rw [Value.normalItems, List.map_nil]⟩
  | cons item rest ih =>
    obtain ⟨others, hencodeRest, hnames, hread, hmap⟩ := ih
      (fun other hmem => hobjects other (.tail _ hmem))
      (fun typeName fields revision hmem => htext typeName fields revision (.tail _ hmem))
      (fun other hmem => hrestores other (.tail _ hmem))
    obtain ⟨fields, rfl⟩ := hobjects item List.mem_cons_self
    obtain ⟨stored, hencode, hdecode⟩ := hrestores _ List.mem_cons_self
    rw [encode_object_eq, TableSchema.requireType_eq_ok_iff.mpr hdeclared, ok_bind,
      map_eq_ok_iff] at hencode
    obtain ⟨members, hstore, rfl⟩ := hencode
    have hnormal : elementOf table (.object typeName) (.map members) =
        (Value.object typeName fields 0).normal table := by
      rw [elementOf, hdecode]
      rfl
    refine ⟨(text (.object typeName fields 0), .map members) :: others, ?_, ?_, ?_, ?_⟩
    · rw [encodeById, htext typeName fields 0 List.mem_cons_self, ok_bind, hstore, ok_bind,
        hencodeRest]
      rfl
    · rw [Entries.names, List.map_cons, List.map_cons, ← hnames]
      rfl
    · refine List.forall_mem_cons.mpr ⟨?_, hread⟩
      rw [hnormal, hdecode]
      rfl
    · rw [List.map_cons, hmap, hnormal, Value.normalItems]

/-- Objects with distinct ids of one type are restored in the order of their ids. -/
theorem restores_byId {typeName name : String} {object : TypeSchema} {items : List Value}
    (hdeclared : table.type? typeName = some object)
    (hobjects : ∀ item ∈ items, ∃ fields, item = .object typeName fields 0)
    (hids : CarryIds items) (hdistinct : (items.map idOf).Nodup)
    (hnormal : ∀ item ∈ items, idOf (item.normal table) = idOf item)
    (hrestores : ∀ item ∈ items, Restores table .plain (.scalar (.object typeName)) item) :
    Restores table ⟨false, some name⟩ ⟨.list, some (.object typeName)⟩ (.list items) := by
  obtain ⟨text, htext, hinjective⟩ := hids.exists_text
  obtain ⟨entries, hencode, hnames, hread, hmap⟩ := @exists_encodeById table typeName object
    ⟨.list, some (.object typeName)⟩ text items hdeclared hobjects htext hrestores
  refine ⟨.map (Item.ofEntries entries), ?_, ?_⟩
  · change (do
      let object ← table.requireType typeName
      let entries ← encodeById table ⟨.list, some (.object typeName)⟩ object items
      return Attribute.map (Item.ofEntries entries)) = _
    rw [TableSchema.requireType_eq_ok_iff.mpr hdeclared, ok_bind, hencode]
    rfl
  · have hentryNames : (Entries.names entries).Nodup := by
      rw [hnames]
      refine List.Nodup.map_on ?_ (List.Nodup.of_map _ hdistinct)
      intro first hfirst second hsecond hsame
      exact List.inj_on_of_nodup_map hdistinct hfirst hsecond
        (hinjective first hfirst second hsecond hsame)
    -- The entries are read in the order of their texts, which sorting by ids undoes.
    have hperm : (items.map (Value.normal table)).Perm
        ((Entries.sorted entries).map fun entry => elementOf table (.object typeName) entry.2) := by
      rw [← Value.normalItems_eq_map, ← hmap]
      exact (Entries.perm_sorted hentryNames).symm.map _
    have hnormalIds : (items.map (Value.normal table)).map idOf = items.map idOf := by
      rw [List.map_map]
      exact List.map_congr_left hnormal
    have hsorted := (hids.map hnormal).mergeSort_eq (by rw [hnormalIds]; exact hdistinct) hperm
    change (do
      let entries ← decodeEntries table (.object typeName) (Entries.sorted entries)
      return Value.list ((entries.map Prod.snd).mergeSort idPrecedes)) = _
    rw [decodeEntries_eq fun entry hmem => hread entry (Entries.mem_sorted hmem), ok_bind,
      List.map_map]
    change Except.ok (Value.list (List.mergeSort _ idPrecedes)) = Except.ok
      (Value.sortedById (.list (Value.normalItems table items)))
    rw [Value.normalItems_eq_map, Value.sortedById, hsorted]
    rfl

end Codec

end RecordStore
