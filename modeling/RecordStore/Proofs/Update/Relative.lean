import RecordStore.Proofs.Update.SetForm

/-!
# Changes relative to what is stored

Numbers are added to, elements are added to sets and taken out of them, items are appended to lists
and entries of maps are changed one by one, all relative to what is stored. What is left reads as the
merge of the change with what was read before, as long as whole numbers are stored as integers.
-/

namespace RecordStore

open Expression (Clauses)

variable {table : TableSchema} {path : List String} {element : ElementType} {part : Clauses}
  {held stored : Option Attribute} {base merged : Value}

/-! ### Numbers -/

/-- Sums that are not narrowed read as the sums of what is read. -/
theorem Number.narrow_sum {left right sum : Int64} {amount : Number} (hwhole : element.IsWhole)
    (hright : amount.narrow element = .integer right)
    (hsum : sum.toInt = left.toInt + right.toInt) :
    (Number.integer sum).narrow element =
      ((Number.integer left).narrow element).add amount element := by
  have hwrapped : sum = left + right := by
    apply Int64.toInt_inj.mp
    rw [Int64.toInt_add, ← hsum, Int64.toInt_bmod]
  rcases hwhole with rfl | rfl
  · cases hright
    simp [Number.narrow, Number.add, Number.toInt64, hwrapped]
  · cases hright
    simp [Number.narrow, Number.add, Number.toInt64, hwrapped]

namespace Codec

theorem decode_integer (hwhole : element.IsWhole) {text : String} {value : Int64}
    (htext : Number.parse? text = some (.integer value)) :
    decode table .plain (.scalar element) (.number text) =
      .ok (.number ((Number.integer value).narrow element)) := by
  have hnumeric : element.isNumeric = true := by rcases hwhole with rfl | rfl <;> rfl
  rw [decode_number text hnumeric, numberOfText, htext]
  rfl

/-- What is read of a scalar that is stored, or the null that an absent one stands for. -/
def ReadsScalar (table : TableSchema) (element : ElementType) (held : Option Attribute)
    (value : Value) : Prop :=
  match held with
  | none => value = .null
  | some stored => decode table .plain (.scalar element) stored = .ok value

end Codec

/-- An increase leaves a number that reads as the sum of the amount and what was read before. -/
theorem decode_increaseClauses {amount : Number} (hwhole : element.IsWhole)
    (hpart : increaseClauses path amount element = .ok part) (hleaves : part.Leaves path held stored)
    (hcounts : ∀ value, held = some value → element.Counts value)
    (hbase : Codec.ReadsScalar table element held base)
    (hsum : addAmount base amount element = .ok merged) :
    ∃ after, stored = some after ∧ Codec.decode table .plain (.scalar element) after = .ok merged := by
  obtain ⟨left, right, sum, hright, hresult, rfl, hheld⟩ :=
    increaseClauses_whole hwhole hpart hleaves hcounts
  refine ⟨_, rfl, ?_⟩
  rw [Codec.decode_integer hwhole (Number.parse?_text_integer sum),
    Number.narrow_sum hwhole hright hresult]
  rcases hheld with ⟨rfl, rfl⟩ | ⟨present, rfl, hpresent⟩
  · cases show base = .null from hbase
    cases hsum
    rcases hwhole with rfl | rfl <;> rfl
  · cases (Codec.decode_integer hwhole hpresent).symm.trans hbase
    cases hsum
    rfl

/-! ### Entries of maps -/

/-- What is made of each entry is found under its name. -/
theorem Entries.rel_of_mapM {α β : Type} {change : α → Except Error β} {entries : List (String × α)}
    {results : List (String × β)} (hall : Entries.mapM change entries = .ok results) (name : String) :
    Option.Rel (fun value result => change value = .ok result) (find? entries name)
      (find? results name) := by
  have hname := find?_of_mapM hall name
  generalize find? entries name = held at hname ⊢
  cases held with
  | none =>
    rw [show find? results name = none from hname]
    exact .none
  | some value =>
    obtain ⟨result, hvalue, hresult⟩ := hname
    rw [hresult]
    exact .some hvalue

/-- Attributes that read alike the entries of a map are read alike the map. -/
theorem Codec.exists_decode_map {entries : Item} {shown : List (String × Value)}
    (hnames : (Entries.names entries).Nodup) (hshown : (Entries.names shown).Nodup)
    (hall : ∀ name, Option.Rel (fun value shown => ∃ read,
      decode table .plain (.scalar element) value = .ok read ∧ read.Alike shown)
      (Item.get? entries name) (Entries.find? shown name)) :
    ∃ read, decode table .plain ⟨.map, some element⟩ (.map entries) = .ok read ∧
      read.Alike (.map shown) := by
  obtain ⟨reads, hreads⟩ := @Entries.exists_mapM _ _ (decode table .plain (.scalar element)) entries
    fun name value hmem => by
      have hname := hall name
      rw [show Item.get? entries name = some value from Entries.find?_of_mem hnames hmem] at hname
      generalize Entries.find? shown name = found at hname
      cases hname with
      | some hvalue => exact ⟨_, hvalue.choose_spec.1⟩
  refine ⟨.map reads, ?_, Value.alike_map_iff.mpr ?_⟩
  · rw [decode_map_eq, hreads]
    rfl
  · refine (Value.alikeEntries_iff (Entries.names_of_mapM hreads ▸ hnames) hshown).mpr fun name => ?_
    have hread := Entries.rel_of_mapM hreads name
    have hname : Option.Rel _ (Entries.find? entries name) _ := hall name
    generalize Entries.find? entries name = held at hread hname
    generalize Entries.find? reads name = read at hread ⊢
    generalize Entries.find? shown name = value at hname ⊢
    cases hread with
    | none =>
      cases hname
      rfl
    | some hdecode =>
      cases hname with
      | some hvalue =>
        obtain ⟨other, hother, halike⟩ := hvalue
        cases hdecode.symm.trans hother
        exact congrArg some halike

namespace MapDelta

variable {delta : MapDelta} {entries later : Item}

/-- What is left under a key reads as the entry that the merge leaves there. -/
theorem StoresAt.reads {key : String} {before after : Option Attribute} {shown result : Option Value}
    (hstores : delta.StoresAt table path element key before after)
    (hlasts : (CollectionDelta.map delta).Lasts table false element)
    (hcounts : ∀ value, before = some value → element.Counts value)
    (hbase : Option.Rel (fun value read =>
      Codec.decode table .plain (.scalar element) value = .ok read)
      before shown)
    (hentry : delta.entryAfter element key shown = .ok result) :
    Option.Rel (fun value result => ∃ read,
      Codec.decode table .plain (.scalar element) value = .ok read ∧ read.Alike result)
      after result := by
  unfold StoresAt at hstores
  unfold entryAfter at hentry
  split at hstores
  · rename_i hdeleted
    rw [if_pos hdeleted] at hentry
    cases hentry
    rw [hstores]
    exact .none
  · rename_i hkept
    rw [if_neg hkept] at hentry
    cases hupdated : Entries.find? delta.updates key with
    | some value =>
      rw [hupdated] at hstores hentry
      cases hentry
      obtain ⟨encoded, hencode, rfl⟩ := hstores
      obtain ⟨read, hread, halike⟩ := hlasts.1 key value (Entries.mem_of_find? hupdated)
      rw [Codec.reread, if_neg Bool.false_ne_true, hencode, ok_bind] at hread
      exact .some ⟨read, hread, halike⟩
    | none =>
      rw [hupdated] at hstores hentry
      cases hincreased : Entries.find? delta.amounts key with
      | some amount =>
        rw [hincreased] at hstores hentry
        obtain ⟨part, hpart, hleaves⟩ := hstores
        obtain ⟨sum, hsum, rfl⟩ := map_eq_ok_iff.mp hentry
        have hwhole := hlasts.2 (List.ne_nil_of_mem (Entries.mem_of_find? hincreased))
        have hreads : Codec.ReadsScalar table element before (shown.getD .null) := by
          cases hbase with
          | none => exact rfl
          | some hread => exact hread
        obtain ⟨written, rfl, hread⟩ :=
          decode_increaseClauses hwhole hpart hleaves hcounts hreads hsum
        exact .some ⟨sum, hread, .refl _⟩
      | none =>
        rw [hincreased] at hstores hentry
        cases hentry
        rw [hstores]
        cases hbase with
        | none => exact .none
        | some hread => exact .some ⟨_, hread, .refl _⟩

theorem reads_merge (hdelta : delta.Distinct)
    (hlasts : (CollectionDelta.map delta).Lasts table false element) (hclear : delta.clear = false)
    (hpart : delta.clauses table path element = .ok part)
    (hleaves : part.Leaves path (some (.map entries)) stored) (hcounts : element.CountsEntries entries)
    (hread : Codec.decode table .plain ⟨.map, some element⟩ (.map entries) = .ok base)
    (hmerge : delta.merge base element = .ok merged) :
    ∃ after read, stored = some after ∧
      Codec.decode table .plain ⟨.map, some element⟩ after = .ok read ∧ read.Alike merged := by
  obtain ⟨shown, hshown, rfl⟩ := map_eq_ok_iff.mp ((Codec.decode_map_eq entries).symm.trans hread)
  obtain ⟨later, rfl, hascending, hentries⟩ := leaves_entries hdelta hpart hleaves
  have hshownNames : (Entries.names shown).Nodup := by
    rw [Entries.names_of_mapM hshown]
    exact hcounts.ascending.nodup
  have hentriesOf : delta.baseEntries (.map shown) = .ok shown := by
    rw [baseEntries, if_neg (by simp [hclear])]
  obtain ⟨result, rfl, hresult, hkeys⟩ :=
    merge_ok hdelta.amounts hdelta.updates hentriesOf hshownNames hmerge
  have hlater := hascending hcounts.ascending
  obtain ⟨read, hread, halike⟩ := Codec.exists_decode_map (hascending hcounts.ascending).nodup hresult
    fun key => (hentries key).reads hlasts (fun value => hcounts.counts key value)
      (Entries.rel_of_mapM hshown key) (hkeys key)
  exact ⟨_, read, rfl, hread, halike⟩

end MapDelta

/-! ### Collections -/

theorem SetDelta.merge_set {delta : SetDelta} (hclear : delta.clear = false)
    (elements : List Value) :
    delta.merge (.set elements) = .ok (.set ((delta.adds.foldl adjoin elements).filter fun element =>
      !delta.deletes.any fun deleted => deleted == element)) := by
  rw [merge, baseElements, if_neg (by simp [hclear])]
  rfl

theorem ListDelta.merge_list {delta : ListDelta} (hclear : delta.clear = false)
    (items : List Value) : delta.merge (.list items) = .ok (.list (items ++ delta.appends)) := by
  rw [merge, if_neg (by simp [hclear])]

section Collections

variable {present encoded after : Attribute}

/-- A set that gains elements reads as the merge with them. -/
theorem SetDelta.decode_added {delta : SetDelta} (hset : element.isSetElement = true)
    (hintegral : element.isIntegral = true)
    (hlasts : (CollectionDelta.set delta).Lasts table false element) (hclear : delta.clear = false)
    (hdeletes : delta.deletes = []) (hcounts : (ValueType.mk .set (some element)).Counts present)
    (hread : Codec.decode table .plain ⟨.set, some element⟩ present = .ok base)
    (hencode : Codec.encodeSet element delta.adds = .ok encoded)
    (hadd : Expression.added (some present) encoded = .ok after)
    (hmerge : delta.merge base = .ok merged) :
    Codec.decode table .plain ⟨.set, some element⟩ after = .ok merged := by
  have hne : delta.adds ≠ [] := by
    intro hnone
    rw [hnone] at hencode
    cases hencode
    cases present <;> cases hadd
  obtain ⟨_, _, hlawful⟩ := @SetForm.exists_lawful table element hset hintegral
  obtain ⟨others, rfl, hothers⟩ :=
    hlawful.exists_members hset hintegral hne hlasts.2.2.1 hlasts.1 hencode
  obtain ⟨members, rfl, rfl⟩ := hlawful.added hadd
  obtain ⟨elements, rfl, helements⟩ := hlawful.reads hcounts hread
  rw [SetDelta.merge_set hclear, hdeletes] at hmerge
  simp only [List.any_nil, Bool.not_false, List.filter_true] at hmerge
  cases hmerge
  exact hlawful.decode (hlawful.reads_union helements hothers)

/-- A set that loses elements reads as the merge without them, or nothing is left of it. -/
theorem SetDelta.decode_remaining {delta : SetDelta} (hset : element.isSetElement = true)
    (hintegral : element.isIntegral = true)
    (hlasts : (CollectionDelta.set delta).Lasts table false element) (hclear : delta.clear = false)
    (hadds : delta.adds = []) (hcounts : (ValueType.mk .set (some element)).Counts present)
    (hread : Codec.decode table .plain ⟨.set, some element⟩ present = .ok base)
    (hencode : Codec.encodeSet element delta.deletes = .ok encoded)
    (hdelete : Expression.remaining present encoded = .ok stored)
    (hmerge : delta.merge base = .ok merged) :
    stored = Option.none ∧ merged = .set [] ∨ ∃ after, stored = some after ∧
      Codec.decode table .plain ⟨.set, some element⟩ after = .ok merged := by
  have hne : delta.deletes ≠ [] := by
    intro hnone
    rw [hnone] at hencode
    cases hencode
    cases present <;> cases hdelete
  obtain ⟨_, form, hlawful⟩ := @SetForm.exists_lawful table element hset hintegral
  obtain ⟨others, rfl, hothers⟩ :=
    hlawful.exists_members hset hintegral hne hlasts.2.2.2 hlasts.2.1 hencode
  obtain ⟨members, rfl, rfl⟩ := hlawful.remaining hdelete
  obtain ⟨elements, rfl, helements⟩ := hlawful.reads hcounts hread
  have hleft := hlawful.reads_without helements hothers
  rw [SetDelta.merge_set hclear, hadds] at hmerge
  cases hmerge
  unfold Expression.leftOf
  split
  · rename_i hempty
    rw [List.isEmpty_iff.mp hempty] at hleft
    exact .inl ⟨rfl, congrArg Value.set (List.forall₂_nil_left_iff.mp hleft)⟩
  · exact .inr ⟨_, rfl, hlawful.decode hleft⟩

/-- A list to which items are appended reads as the merge with them. -/
theorem ListDelta.decode_appended {delta : ListDelta}
    (hlasts : (CollectionDelta.list delta).Lasts table false element) (hclear : delta.clear = false)
    (hread : Codec.decode table .plain ⟨.list, some element⟩ present = .ok base)
    (hencode : Codec.encode table .plain ⟨.list, some element⟩ (.list delta.appends) = .ok encoded)
    (happend : Expression.appendOperands (some present) (some encoded) = .ok stored)
    (hmerge : delta.merge base = .ok merged) :
    ∃ after read, stored = some after ∧
      Codec.decode table .plain ⟨.list, some element⟩ after = .ok read ∧ read.Alike merged := by
  obtain ⟨appended, happended, halike⟩ : Survives table false ⟨.list, some element⟩
    (.list delta.appends) := Survives.list_iff.mpr hlasts
  rw [Codec.reread, if_neg Bool.false_ne_true, hencode, ok_bind] at happended
  rw [Codec.encode_list_eq] at hencode
  obtain ⟨items, _, rfl⟩ := map_eq_ok_iff.mp hencode
  cases present with
  | list before =>
    cases happend
    obtain ⟨shown, hshown, rfl⟩ := map_eq_ok_iff.mp ((Codec.decode_list_eq before).symm.trans hread)
    obtain ⟨others, hothers, rfl⟩ :=
      map_eq_ok_iff.mp ((Codec.decode_list_eq items).symm.trans happended)
    rw [ListDelta.merge_list hclear] at hmerge
    cases hmerge
    refine ⟨_, .list (shown ++ others), rfl, ?_, ?_⟩
    · rw [Codec.decode_list_eq, List.mapM_append, hshown, ok_bind, hothers]
      rfl
    · refine Value.alike_list_iff.mpr (List.rel_append (List.forall₂_same.mpr fun _ _ => .refl _) ?_)
      exact Value.alike_list_iff.mp halike
  | _ => cases happend

end Collections

/-- What is stored of a collection is read as it, or nothing is stored and it is empty. -/
def Codec.ReadsCollection (table : TableSchema) (kind : Kind) (element : ElementType)
    (held : Option Attribute) (value : Value) : Prop :=
  match held with
  | none => Expression.Builder.isEmptyCollection value = true
  | some stored => decode table .plain ⟨kind, some element⟩ stored = .ok value

/-- What the clauses of a collection leave is read as the merge with what was read before. Of a base
that is kept, the elements of a set may be written again, so that they have to survive it. A set may
be left without elements, and then nothing is stored of it. -/
theorem CollectionDelta.Stores.reads_merge {delta : CollectionDelta} (haccepted : table.Accepted)
    (hset : delta.kind = .set → element.isSetElement = true)
    (hintegral : element.isIntegral = true) (hdistinct : delta.Distinct)
    (hlasts : delta.Lasts table false element)
    (hrests : delta.kind = .set → delta.RestsOn table false ⟨delta.kind, some element⟩ base)
    (hcounts : ∀ value, held = some value → (ValueType.mk delta.kind (some element)).Counts value)
    (hread : Codec.ReadsCollection table delta.kind element held base)
    (hstores : delta.Stores table path element base held stored)
    (hmerge : delta.merge base element = .ok merged) :
    delta.kind = .set ∧ stored = none ∧ merged = .set [] ∨
      ∃ after read, stored = some after ∧
        Codec.decode table .plain ⟨delta.kind, some element⟩ after = .ok read ∧ read.Alike merged := by
  have hpresent : delta.Keeps base → ∃ present, held = some present ∧
      Codec.decode table .plain ⟨delta.kind, some element⟩ present = .ok base := by
    rintro ⟨_, hkept⟩
    cases held with
    | none => cases hkept.symm.trans hread
    | some present => exact ⟨present, rfl, hread⟩
  cases hstores with
  | whole hkeeps hother hencode =>
    cases hmerge.symm.trans hother
    obtain ⟨read, hreread, halike⟩ := CollectionDelta.survives_merge haccepted hset hintegral
      hdistinct hlasts (fun hkept => hrests (hkeeps hkept) hkept) hmerge
    rw [Codec.reread, if_neg Bool.false_ne_true, hencode] at hreread
    exact .inr ⟨_, read, rfl, hreread, halike⟩
  | entries hkeeps hpart hleaves =>
    obtain ⟨present, rfl, hread⟩ := hpresent hkeeps
    cases present with
    | map entries =>
      exact .inr (MapDelta.reads_merge hdistinct hlasts hkeeps.1 hpart hleaves
        (hcounts _ rfl element rfl entries rfl) hread hmerge)
    | null =>
      cases hread
      cases hkeeps.2
    | _ => cases hread
  | gained hkeeps hdeletes hencode hadd =>
    obtain ⟨present, rfl, hread⟩ := hpresent hkeeps
    exact .inr ⟨_, merged, rfl, SetDelta.decode_added (hset rfl) hintegral hlasts hkeeps.1 hdeletes
      (hcounts _ rfl) hread hencode hadd hmerge, .refl _⟩
  | lost hkeeps hadds hencode hdelete =>
    obtain ⟨present, rfl, hread⟩ := hpresent hkeeps
    rcases SetDelta.decode_remaining (hset rfl) hintegral hlasts hkeeps.1 hadds (hcounts _ rfl) hread
      hencode hdelete hmerge with ⟨hnone, hempty⟩ | ⟨after, hafter, hread⟩
    · exact .inl ⟨rfl, hnone, hempty⟩
    · exact .inr ⟨after, merged, hafter, hread, .refl _⟩
  | appended hkeeps hencode happend =>
    obtain ⟨present, rfl, hread⟩ := hpresent hkeeps
    exact .inr (ListDelta.decode_appended hlasts hkeeps.1 hread hencode happend hmerge)

end RecordStore
