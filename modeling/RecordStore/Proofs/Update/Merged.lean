import RecordStore.Proofs.Codec.Legible
import RecordStore.Proofs.Codec.Width
import RecordStore.Proofs.Update.Distinct
import RecordStore.Proofs.Update.Fits
import RecordStore.Proofs.Update.Survival

/-!
# Merges of what survives

A value merged from parts that survive being stored survives it too. A set that is stored plainly is
the exception among the collections: that it survives is not a matter of each of its elements alone,
since repeated elements are stored once.
-/

namespace RecordStore

variable {table : TableSchema} {compressed : Bool} {element : ElementType} {value : Value}

/-! ### Numbers -/

/-- A number within the width of a type of whole numbers. -/
def Number.IsWithin (element : ElementType) (number : Number) : Prop :=
  ∃ value : Int64, number = .integer value ∧ (Number.integer value).narrow element = .integer value

namespace Number

theorem isWithin_narrow (hwhole : element.IsWhole) (number : Number) :
    (number.narrow element).IsWithin element := by
  rcases hwhole with rfl | rfl
  · exact ⟨_, rfl, inWidth_narrow number⟩
  · exact ⟨_, rfl, rfl⟩

theorem isWithin_add (hwhole : element.IsWhole) (left right : Number) :
    (left.add right element).IsWithin element := by
  rcases hwhole with rfl | rfl
  · exact ⟨_, rfl, inWidth_add left right⟩
  · exact ⟨_, rfl, rfl⟩

theorem IsWithin.typed {number : Number} (hwhole : element.IsWhole)
    (hwithin : number.IsWithin element) : Typed table (.scalar element) (.number number) := by
  obtain ⟨value, rfl, hnarrow⟩ := hwithin
  rcases hwhole with rfl | rfl
  · obtain ⟨_, hsame, hleast, hmost⟩ := inWidth_iff.mp hnarrow
    cases hsame
    exact .integer value hleast hmost
  · exact .long value

end Number

theorem Survives.number {number : Number} (haccepted : table.Accepted) (hwhole : element.IsWhole)
    (hwithin : number.IsWithin element) :
    Survives table compressed (.scalar element) (.number number) := by
  have htyped : Typed table (.scalar element) (.number number) := hwithin.typed hwhole
  cases compressed with
  | true =>
    obtain ⟨json, hwrite, hread⟩ := htyped.exists_json haccepted
    refine ⟨.number number, ?_, .refl _⟩
    rw [Codec.reread, if_pos rfl, hwrite]
    exact hread
  | false =>
    obtain ⟨value, rfl, hnarrow⟩ := hwithin
    obtain ⟨stored, hwrite, hread⟩ := @Codec.restores_integer table element value hwhole hnarrow
    refine ⟨.number (.integer value), ?_, .refl _⟩
    rw [Codec.reread, if_neg Bool.false_ne_true, hwrite]
    exact hread

theorem Survives.addAmount {base : Value} {amount : Number} (haccepted : table.Accepted)
    (hwhole : element.IsWhole) (hadd : addAmount base amount element = .ok value) :
    Survives table compressed (.scalar element) value := by
  cases base with
  | null | number =>
    cases hadd
    exact .number haccepted hwhole (Number.isWithin_add hwhole _ _)
  | _ => cases hadd

/-! ### Sets that are stored plainly -/

/-- The elements that a set of a type can be stored plainly with and be read again. -/
inductive IsMember : ElementType → Value → Prop where
  | string (text : String) : IsMember .string (.string text)
  | binary (bytes : List UInt8) : IsMember .binary (.binary bytes)
  | number {element : ElementType} {number : Number} (whole : element.IsWhole)
    (within : number.IsWithin element) : IsMember element (.number number)

namespace IsMember

variable {other : Value}

theorem typed (hmember : IsMember element value) : Typed table (.scalar element) value := by
  cases hmember with
  | string text => exact .string text
  | binary bytes => exact .binary bytes
  | number hwhole hwithin => exact hwithin.typed hwhole

theorem beq_iff (hmember : IsMember element value) (hother : IsMember element other) :
    value == other ↔ value = other := by
  cases hmember with
  | string text =>
    cases hother with
    | string otherText =>
      rw [Value.beq_eq_same, Value.same, decide_eq_true_iff, Value.string.injEq]
    | number hwhole => rcases hwhole with h | h <;> cases h
  | binary bytes =>
    cases hother with
    | binary otherBytes =>
      rw [Value.beq_eq_same, Value.same, decide_eq_true_iff, Value.binary.injEq]
    | number hwhole => rcases hwhole with h | h <;> cases h
  | number hwhole hwithin =>
    cases hother with
    | string | binary => rcases hwhole with h | h <;> cases h
    | number _ hotherWithin =>
      obtain ⟨number, rfl, _⟩ := hwithin
      obtain ⟨otherNumber, rfl, _⟩ := hotherWithin
      rw [Value.beq_eq_same, Value.same, Value.number.injEq, Number.integer.injEq]
      exact decide_eq_true_iff

end IsMember

namespace Codec

theorem pairwise_withoutRepeats {α : Type} [BEq α] (elements : List α) :
    (withoutRepeats elements).Pairwise fun earlier later => (later == earlier) = false := by
  have hfold : ∀ rest kept : List α,
      kept.Pairwise (fun earlier later => (later == earlier) = false) →
      (rest.foldl (fun kept element => if kept.contains element then kept else kept ++ [element])
        kept).Pairwise fun earlier later => (later == earlier) = false := by
    intro rest
    induction rest with
    | nil => exact fun kept hkept => hkept
    | cons element rest ih =>
      intro kept hkept
      refine ih _ ?_
      dsimp only
      split
      · exact hkept
      · rename_i hnew
        refine List.pairwise_append.mpr ⟨hkept, List.pairwise_singleton _ _, ?_⟩
        intro earlier hearlier later hlater
        rw [List.mem_singleton.mp hlater, ← Bool.not_eq_true]
        intro hequal
        rw [List.contains_eq_any_beq, List.any_eq_true] at hnew
        exact hnew ⟨earlier, hearlier, hequal⟩
  exact hfold elements [] .nil

theorem nodup_withoutRepeats {α : Type} [BEq α] {elements : List α}
    (hself : ∀ element ∈ elements, element == element) : (withoutRepeats elements).Nodup := by
  refine (pairwise_withoutRepeats elements).imp_of_mem ?_
  rintro earlier later hearlier _ hdiffer rfl
  rw [hself earlier (mem_withoutRepeats hearlier)] at hdiffer
  cases hdiffer

/-- The numbers that are stored of the elements of a set are within the width of the type. -/
theorem exists_integers_of_mapM {elements : List Value} {numbers : List Number}
    (hwhole : element.IsWhole) (hread : elements.mapM (numberElement element) = .ok numbers) :
    ∃ integers : List Int64, integers.map Number.integer = numbers ∧
      ∀ value ∈ integers, (Number.integer value).narrow element = .integer value := by
  have hall : ∀ number ∈ numbers, number.IsWithin element := by
    intro number hmem
    obtain ⟨value, _, hvalue⟩ := exists_mem_of_forall₂ (mapM_ok hread) number hmem
    cases value <;> cases hvalue
    exact Number.isWithin_narrow hwhole _
  have hrange : numbers ∈ Set.range (List.map Number.integer) := by
    rw [Set.range_list_map]
    intro number hmem
    obtain ⟨value, rfl, _⟩ := hall number hmem
    exact ⟨value, rfl⟩
  obtain ⟨integers, rfl⟩ := hrange
  refine ⟨integers, rfl, fun value hmem => ?_⟩
  obtain ⟨other, hsame, hnarrow⟩ := hall _ (List.mem_map_of_mem hmem)
  cases hsame
  exact hnarrow

theorem encode_set_eq (elements : List Value) :
    encode table .plain ⟨.set, some element⟩ (.set elements) = encodeSet element elements := by
  rfl

end Codec

theorem ElementType.isWhole_of_isIntegral (hnumeric : element.isNumeric = true)
    (hintegral : element.isIntegral = true) : element.IsWhole := by
  cases element with
  | integer => exact .inl rfl
  | long => exact .inr rfl
  | float | double => cases hintegral
  | string | boolean | binary | object => cases hnumeric

/-- What was read of the elements of a set when they are alike what was stored of them. -/
theorem eq_of_alike_map {α : Type} {ofElement : α → Value} {reads : List α} {elements : List Value}
    (hscalar : ∀ element ∈ reads, ∀ value, (ofElement element).Alike value →
      ofElement element = value)
    (halike : (Value.set (reads.map ofElement)).Alike (.set elements)) :
    reads.map ofElement = elements := by
  have hall := Value.alike_set_iff.mp halike
  induction reads generalizing elements with
  | nil =>
    cases hall
    rfl
  | cons read rest ih =>
    cases hall with
    | cons hfirst hrest =>
      rw [List.map_cons, hscalar read List.mem_cons_self _ hfirst,
        ih (fun other hmem => hscalar other (.tail _ hmem)) (Value.alike_set_iff.mpr hrest) hrest]

namespace Survives

/-- The elements of a set of numbers that is read as it was written can be stored and differ. -/
theorem isMember_of_numbers {elements : List Value} {stored : Attribute} {read : Value}
    (hwhole : element.IsWhole)
    (hwrite : (do
      let numbers ← elements.mapM (Codec.numberElement element)
      return Attribute.numberSet ((Codec.withoutRepeats numbers).map Number.text)) = .ok stored)
    (hread : Codec.decode table .plain ⟨.set, some element⟩ stored = .ok read)
    (halike : read.Alike (.set elements)) :
    (∀ item ∈ elements, IsMember element item) ∧ elements.Nodup := by
  obtain ⟨numbers, hnumbers, hdone⟩ := bind_eq_ok_iff.mp hwrite
  cases hdone
  obtain ⟨integers, rfl, hnarrow⟩ := Codec.exists_integers_of_mapM hwhole hnumbers
  have hwithin : ∀ number ∈ Codec.withoutRepeats (integers.map Number.integer),
      number.IsWithin element := by
    intro number hmem
    obtain ⟨value, hvalue, rfl⟩ := List.mem_map.mp (Codec.mem_withoutRepeats hmem)
    exact ⟨value, rfl, hnarrow value hvalue⟩
  have hreads : ((Codec.withoutRepeats (integers.map Number.integer)).map Number.text).mapM
      (fun text => Codec.numberOfText text element) =
      .ok ((Codec.withoutRepeats (integers.map Number.integer)).map id) := by
    refine Codec.mapM_eq_ok fun number hmem => ?_
    obtain ⟨value, rfl, hvalue⟩ := hwithin number hmem
    rw [Codec.numberOfText_text, hvalue]
    rfl
  rw [Codec.decode_numberSet_eq, hreads, List.map_id] at hread
  cases hread
  rw [← eq_of_alike_map (fun number _ value hvalue => by
    cases value <;> first | exact hvalue | cases hvalue) halike]
  refine ⟨List.forall_mem_map.mpr fun number hmem => .number hwhole (hwithin number hmem), ?_⟩
  refine List.Nodup.map (fun _ _ => Value.number.inj) (Codec.nodup_withoutRepeats ?_)
  refine List.forall_mem_map.mpr fun value _ => ?_
  exact decide_eq_true rfl

/-- A set that is stored plainly survives when its elements can be stored so and differ. -/
theorem set_plain_iff {elements : List Value} (hset : element.isSetElement = true)
    (hintegral : element.isIntegral = true) :
    Survives table false ⟨.set, some element⟩ (.set elements) ↔
      (∀ item ∈ elements, IsMember element item) ∧ elements.Nodup := by
  constructor
  · rintro ⟨read, hread, halike⟩
    rw [Codec.reread, if_neg Bool.false_ne_true, Codec.encode_set_eq] at hread
    obtain ⟨stored, hwrite, hread⟩ := bind_eq_ok_iff.mp hread
    by_cases hempty : elements = []
    · rw [hempty]
      exact ⟨List.forall_mem_nil _, List.nodup_nil⟩
    unfold Codec.encodeSet at hwrite
    rw [if_neg (by simpa using hempty)] at hwrite
    cases element with
    | string =>
      obtain ⟨texts, _, hdone⟩ := bind_eq_ok_iff.mp hwrite
      cases hdone
      cases hread
      rw [← eq_of_alike_map (fun text _ value hvalue => by
        cases value <;> first | exact hvalue | cases hvalue) halike]
      refine ⟨List.forall_mem_map.mpr fun text _ => .string text, ?_⟩
      exact List.Nodup.map (fun _ _ => Value.string.inj)
        (Codec.nodup_withoutRepeats fun text _ => beq_self_eq_true text)
    | binary =>
      obtain ⟨members, _, hdone⟩ := bind_eq_ok_iff.mp hwrite
      cases hdone
      cases hread
      rw [← eq_of_alike_map (fun bytes _ value hvalue => by
        cases value <;> first | exact hvalue | cases hvalue) halike]
      refine ⟨List.forall_mem_map.mpr fun bytes _ => .binary bytes, ?_⟩
      exact List.Nodup.map (fun _ _ => Value.binary.inj)
        (Codec.nodup_withoutRepeats fun bytes _ => beq_self_eq_true bytes)
    | integer => exact isMember_of_numbers (.inl rfl) hwrite hread halike
    | long => exact isMember_of_numbers (.inr rfl) hwrite hread halike
    | float | double => cases hintegral
    | boolean | object => cases hset
  · rintro ⟨hmembers, hdistinct⟩
    obtain ⟨stored, hwrite, hread⟩ := @Codec.exists_encodeSet table element elements hset hdistinct
      fun item hmem => (hmembers item hmem).typed
    refine ⟨.set elements, ?_, .refl _⟩
    rw [Codec.reread, if_neg Bool.false_ne_true, Codec.encode_set_eq, hwrite]
    exact hread

end Survives

/-! ### Deltas of what survives -/

/-- What a delta puts into a collection survives as a part of it. -/
def CollectionDelta.Lasts (table : TableSchema) (compressed : Bool) (element : ElementType) :
    CollectionDelta → Prop
  | .map delta =>
    (∀ key value, (key, value) ∈ delta.updates →
      Survives table compressed (.scalar element) value) ∧
    (delta.amounts ≠ [] → element.IsWhole)
  | .set delta =>
    (∀ value ∈ delta.adds, Survives table compressed ⟨.set, some element⟩ (.set [value])) ∧
    (∀ value ∈ delta.deletes, Survives table compressed ⟨.set, some element⟩ (.set [value])) ∧
    Value.Distinct delta.adds ∧ Value.Distinct delta.deletes
  | .list delta => ∀ value ∈ delta.appends, Survives table compressed (.scalar element) value

/-- Nothing is kept of the base that does not survive. -/
def CollectionDelta.RestsOn (table : TableSchema) (compressed : Bool) (type : ValueType)
    (base : Value) (delta : CollectionDelta) : Prop :=
  delta.Keeps base → Survives table compressed type base

theorem CollectionDelta.RestsOn.cases {delta : CollectionDelta} {kind : Kind} {base : Value}
    (hrests : delta.RestsOn table compressed ⟨kind, some element⟩ base) :
    delta.clears = true ∨ Expression.Builder.isEmptyCollection base = true ∨
      kind.Holds base ∧ Survives table compressed ⟨kind, some element⟩ base := by
  cases hclears : delta.clears with
  | true => exact .inl rfl
  | false =>
    cases hempty : Expression.Builder.isEmptyCollection base with
    | true => exact .inr (.inl rfl)
    | false =>
      have hsurvives := hrests ⟨hclears, hempty⟩
      refine .inr (.inr ⟨hsurvives.holds ?_, hsurvives⟩)
      cases base with
      | null => cases hempty
      | _ => rfl

section Merging

variable {base : Value}

theorem MapDelta.survives_merge {delta : MapDelta} (haccepted : table.Accepted)
    (hdistinct : delta.Distinct)
    (hlasts : (CollectionDelta.map delta).Lasts table compressed element)
    (hrests : (CollectionDelta.map delta).RestsOn table compressed ⟨.map, some element⟩ base)
    (hmerge : delta.merge base element = .ok value) :
    Survives table compressed ⟨.map, some element⟩ value := by
  obtain ⟨entries, hbase, _⟩ := bind_eq_ok_iff.mp hmerge
  have hsurvives : Survives table compressed ⟨.map, some element⟩ (.map entries) := by
    have hempty : Survives table compressed ⟨.map, some element⟩ (.map []) :=
      Survives.map_iff.mpr ⟨List.nodup_nil, fun _ _ hmem => nomatch hmem⟩
    unfold MapDelta.baseEntries at hbase
    split at hbase
    · cases hbase
      exact hempty
    · rename_i hclear
      rcases hrests.cases with hclears | hnothing | ⟨⟨held, rfl⟩, hsurvives⟩
      · exact absurd hclears hclear
      · cases base with
        | null =>
          cases hbase
          exact hempty
        | map held =>
          cases hbase
          rw [List.isEmpty_iff.mp hnothing]
          exact hempty
        | _ => cases hbase
      · cases hbase
        exact hsurvives
  obtain ⟨hnames, hvalues⟩ := Survives.map_iff.mp hsurvives
  obtain ⟨merged, rfl, hmerged, hkeys⟩ :=
    MapDelta.merge_ok hdistinct.amounts hdistinct.updates hbase hnames hmerge
  refine Survives.map_iff.mpr ⟨hmerged, fun name value hmem => ?_⟩
  have hentry := hkeys name
  rw [Entries.find?_of_mem hmerged hmem, MapDelta.entryAfter] at hentry
  split at hentry
  · cases hentry
  · split at hentry
    · rename_i hupdated
      cases hentry
      exact hlasts.1 name value (Entries.mem_of_find? hupdated)
    · rename_i amount _ hamount
      obtain ⟨sum, hsum, hvalue⟩ := map_eq_ok_iff.mp hentry
      cases hvalue
      have hwhole := hlasts.2 (List.ne_nil_of_mem (Entries.mem_of_find? hamount))
      exact .addAmount haccepted hwhole hsum
    · exact hvalues name value (Entries.mem_of_find? (Except.ok.inj hentry))

namespace SetDelta

variable {elements added : List Value}

theorem mem_adjoinAll (hmem : value ∈ added.foldl adjoin elements) :
    value ∈ elements ∨ value ∈ added := by
  induction added generalizing elements with
  | nil => exact .inl hmem
  | cons first rest ih =>
    rcases ih hmem with hmem | hmem
    · rcases mem_adjoin hmem with hmem | rfl
      · exact .inl hmem
      · exact .inr List.mem_cons_self
    · exact .inr (.tail _ hmem)

theorem nodup_adjoinAll (hadded : ∀ value ∈ added, IsMember element value)
    (helements : ∀ value ∈ elements, IsMember element value) (hdistinct : elements.Nodup) :
    (added.foldl adjoin elements).Nodup := by
  induction added generalizing elements with
  | nil => exact hdistinct
  | cons first rest ih =>
    obtain ⟨hfirst, hrest⟩ := List.forall_mem_cons.mp hadded
    refine ih hrest (fun value hmem => ?_) ?_
    · rcases mem_adjoin hmem with hmem | rfl
      · exact helements value hmem
      · exact hfirst
    · unfold adjoin
      split
      · exact hdistinct
      · rename_i hfresh
        refine List.nodup_append.mpr ⟨hdistinct, List.nodup_singleton _, ?_⟩
        intro value hmem other hother hsame
        rw [List.mem_singleton.mp hother] at hsame
        refine hfresh (List.any_eq_true.mpr ⟨value, hmem, ?_⟩)
        exact ((helements value hmem).beq_iff hfirst).mpr hsame

theorem survives_merge {delta : SetDelta} (hset : element.isSetElement = true)
    (hintegral : element.isIntegral = true)
    (hlasts : (CollectionDelta.set delta).Lasts table compressed element)
    (hrests : (CollectionDelta.set delta).RestsOn table compressed ⟨.set, some element⟩ base)
    (hmerge : delta.merge base = .ok value) :
    Survives table compressed ⟨.set, some element⟩ value := by
  obtain ⟨elements, hbase, rfl⟩ := map_eq_ok_iff.mp hmerge
  have helements : Survives table compressed ⟨.set, some element⟩ (.set elements) := by
    have hempty : Survives table compressed ⟨.set, some element⟩ (.set []) := by
      cases compressed with
      | true => exact Survives.set_compressed_iff.mpr (List.forall_mem_nil _)
      | false =>
        exact (Survives.set_plain_iff hset hintegral).mpr
          ⟨List.forall_mem_nil _, List.nodup_nil⟩
    unfold SetDelta.baseElements at hbase
    split at hbase
    · cases hbase
      exact hempty
    · rename_i hclear
      rcases hrests.cases with hclears | hnothing | ⟨⟨held, rfl⟩, hsurvives⟩
      · exact absurd hclears hclear
      · cases base with
        | null =>
          cases hbase
          exact hempty
        | set held | list held =>
          cases hbase
          rw [List.isEmpty_iff.mp hnothing]
          exact hempty
        | _ => cases hbase
      · cases hbase
        exact hsurvives
  cases compressed with
  | true =>
    rw [Survives.set_compressed_iff] at helements ⊢
    intro item hmem
    rcases mem_adjoinAll (List.mem_filter.mp hmem).1 with hmem | hmem
    · exact helements item hmem
    · exact Survives.set_compressed_iff.mp (hlasts.1 item hmem) item List.mem_cons_self
  | false =>
    rw [Survives.set_plain_iff hset hintegral] at helements ⊢
    have hadds : ∀ value ∈ delta.adds, IsMember element value := fun value hmem =>
      ((Survives.set_plain_iff hset hintegral).mp (hlasts.1 value hmem)).1 value
        List.mem_cons_self
    refine ⟨fun item hmem => ?_, (nodup_adjoinAll hadds helements.1 helements.2).filter _⟩
    exact (mem_adjoinAll (List.mem_filter.mp hmem).1).elim (helements.1 item) (hadds item)

end SetDelta

theorem ListDelta.survives_merge {delta : ListDelta}
    (hlasts : (CollectionDelta.list delta).Lasts table compressed element)
    (hrests : (CollectionDelta.list delta).RestsOn table compressed ⟨.list, some element⟩ base)
    (hmerge : delta.merge base = .ok value) :
    Survives table compressed ⟨.list, some element⟩ value := by
  have happends : Survives table compressed ⟨.list, some element⟩ (.list delta.appends) :=
    Survives.list_iff.mpr hlasts
  unfold ListDelta.merge at hmerge
  split at hmerge
  · cases hmerge
    exact happends
  · rename_i hclear
    rcases hrests.cases with hclears | hnothing | ⟨⟨items, rfl⟩, hsurvives⟩
    · exact absurd hclears hclear
    · cases base with
      | null =>
        cases hmerge
        exact happends
      | list items =>
        cases hmerge
        rw [List.isEmpty_iff.mp hnothing]
        exact happends
      | _ => cases hmerge
    · cases hmerge
      rw [Survives.list_iff] at hsurvives ⊢
      exact fun item hmem => (List.mem_append.mp hmem).elim (hsurvives item) (hlasts item)

/-- What a delta that lasts makes of a collection that survives survives as well. -/
theorem CollectionDelta.survives_merge {delta : CollectionDelta} (haccepted : table.Accepted)
    (hset : delta.kind = .set → element.isSetElement = true)
    (hintegral : element.isIntegral = true) (hdistinct : delta.Distinct)
    (hlasts : delta.Lasts table compressed element)
    (hrests : delta.RestsOn table compressed ⟨delta.kind, some element⟩ base)
    (hmerge : delta.merge base element = .ok value) :
    Survives table compressed ⟨delta.kind, some element⟩ value := by
  cases delta with
  | map delta => exact MapDelta.survives_merge haccepted hdistinct hlasts hrests hmerge
  | set delta => exact SetDelta.survives_merge (hset rfl) hintegral hlasts hrests hmerge
  | list delta => exact ListDelta.survives_merge hlasts hrests hmerge

end Merging

end RecordStore
