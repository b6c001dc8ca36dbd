import RecordStore.Proofs.Codec.Parts
import RecordStore.Proofs.Record.Alike
import RecordStore.Proofs.Update.Delta

/-!
# Values that survive being stored

A value survives when it is read again as it was, up to the order of the entries of maps and of the
fields of objects. A collection survives when each of its parts does, so that parts that survive may
be put together.
-/

namespace RecordStore

variable {table : TableSchema} {compressed : Bool} {type : ValueType} {element : ElementType}
  {value read : Value}

namespace Codec

/-- What a value is read as once it was stored, by its JSON where it is compressed. -/
def reread (table : TableSchema) (compressed : Bool) (type : ValueType) (value : Value) :
    Except Error Value :=
  if compressed then do ofJson table type (← toJson table .stored value)
  else do decode table .plain type (← encode table .plain type value)

end Codec

/-- A value of a type is read as it was once it was stored. -/
def Survives (table : TableSchema) (compressed : Bool) (type : ValueType) (value : Value) : Prop :=
  ∃ read, Codec.reread table compressed type value = .ok read ∧ read.Alike value

/-! ### Parts that are written and read -/

theorem mapM_eq_ok_iff {α β : Type} {change : α → Except Error β} {items : List α}
    {results : List β} : items.mapM change = .ok results ↔
      List.Forall₂ (fun item result => change item = .ok result) items results := by
  refine ⟨mapM_ok, fun hall => ?_⟩
  induction hall with
  | nil => rfl
  | cons hfirst _ ih =>
    rw [List.mapM_cons, hfirst, ok_bind, ih]
    rfl

section Parts

variable {α : Type} {write : Value → Except Error α} {recover : α → Except Error Value}

/-- Items that are all written and then all read. -/
def rereadItems (write : Value → Except Error α) (recover : α → Except Error Value)
    (items : List Value) : Except Error (List Value) := do
  (← items.mapM write).mapM recover

/-- Entries that are all written, in the order of their names, and then all read. -/
def rereadEntries (write : Value → Except Error α) (recover : α → Except Error Value)
    (entries : List (String × Value)) : Except Error (List (String × Value)) := do
  Entries.mapM recover (Entries.sorted (← Entries.mapM write entries))

theorem rereadItems_eq_ok_iff {items reads : List Value} :
    rereadItems write recover items = .ok reads ↔
      List.Forall₂ (fun item read => write item >>= recover = .ok read) items reads := by
  rw [rereadItems, bind_eq_ok_iff]
  constructor
  · rintro ⟨stored, hwrite, hread⟩
    rw [mapM_eq_ok_iff] at hwrite hread
    induction hwrite generalizing reads with
    | nil =>
      cases hread
      exact .nil
    | cons hfirst _ ih =>
      cases hread with
      | cons hsecond hrest => exact .cons (bind_eq_ok_iff.mpr ⟨_, hfirst, hsecond⟩) (ih hrest)
  · intro hall
    induction hall with
    | nil => exact ⟨[], rfl, rfl⟩
    | cons hfirst _ ih =>
      obtain ⟨stored, hwrite, hread⟩ := bind_eq_ok_iff.mp hfirst
      obtain ⟨others, hothers, hreads⟩ := ih
      refine ⟨stored :: others, ?_, ?_⟩
      · rw [List.mapM_cons, hwrite, ok_bind, hothers]
        rfl
      · rw [List.mapM_cons, hread, ok_bind, hreads]
        rfl

theorem nodup_rereadEntries {entries reads : List (String × Value)}
    (hread : rereadEntries write recover entries = .ok reads) : (Entries.names reads).Nodup := by
  obtain ⟨stored, _, hread⟩ := bind_eq_ok_iff.mp hread
  rw [Entries.names_of_mapM hread]
  exact (Entries.ascending_sorted stored).nodup

/-- What is read under a name is what is read again of what was there. -/
theorem find?_rereadEntries {entries reads : List (String × Value)}
    (hnames : (Entries.names entries).Nodup)
    (hread : rereadEntries write recover entries = .ok reads) (name : String) :
    Option.Rel (fun value read => write value >>= recover = .ok read) (Entries.find? entries name)
      (Entries.find? reads name) := by
  obtain ⟨stored, hwrite, hread⟩ := bind_eq_ok_iff.mp hread
  have hstored := Entries.find?_of_mapM hwrite name
  have hreads := Entries.find?_of_mapM hread name
  rw [Entries.find?_sorted (Entries.names_of_mapM hwrite ▸ hnames)] at hreads
  cases hfind : Entries.find? entries name with
  | none =>
    rw [hfind] at hstored
    simp only [hstored] at hreads
    rw [hreads]
    exact .none
  | some value =>
    rw [hfind] at hstored
    obtain ⟨held, hheld, hfound⟩ := hstored
    simp only [hfound] at hreads
    obtain ⟨read, hrecover, hread⟩ := hreads
    rw [hread]
    exact .some (bind_eq_ok_iff.mpr ⟨held, hheld, hrecover⟩)

theorem exists_rereadEntries {entries : List (String × Value)}
    (hnames : (Entries.names entries).Nodup)
    (hall : ∀ name value, (name, value) ∈ entries → ∃ read, write value >>= recover = .ok read) :
    ∃ reads, rereadEntries write recover entries = .ok reads := by
  obtain ⟨stored, hwrite⟩ := Entries.exists_mapM fun name value hmem =>
    show ∃ held, write value = .ok held by
      obtain ⟨_, hread⟩ := hall name value hmem
      obtain ⟨held, hheld, _⟩ := bind_eq_ok_iff.mp hread
      exact ⟨held, hheld⟩
  have hstored : (Entries.names stored).Nodup := Entries.names_of_mapM hwrite ▸ hnames
  obtain ⟨reads, hread⟩ := @Entries.exists_mapM _ _ recover (Entries.sorted stored)
    fun name held hmem => by
      have hfound := Entries.find?_of_mapM hwrite name
      rw [Entries.find?_of_mem hstored (Entries.mem_sorted hmem)] at hfound
      cases hfind : Entries.find? entries name with
      | none =>
        rw [hfind] at hfound
        cases hfound
      | some value =>
        rw [hfind] at hfound
        obtain ⟨_, hheld, hsame⟩ := hfound
        cases hsame
        obtain ⟨read, hread⟩ := hall name value (Entries.mem_of_find? hfind)
        rw [hheld] at hread
        exact ⟨read, hread⟩
  refine ⟨reads, ?_⟩
  rw [rereadEntries, hwrite]
  exact hread

end Parts

/-! ### Lists and maps -/

namespace Codec

section Compressed

variable (items : List Value) (entries : List (String × Value))

theorem reread_list_compressed :
    reread table true ⟨.list, some element⟩ (.list items) =
      (rereadItems (toJson table .stored) (ofJson table (.scalar element)) items).map .list := by
  have hwrite : toJson table .stored (.list items) =
      (items.mapM (toJson table .stored)).map .array := by
    rw [toJson, itemJsons_eq]
    cases items.mapM (toJson table .stored) <;> rfl
  rw [reread, if_pos rfl, hwrite, rereadItems]
  cases items.mapM (toJson table .stored) with
  | error => rfl
  | ok stored =>
    change (do return Value.list (← itemsOfJson table element stored)) = _
    rw [itemsOfJson_eq, ok_bind]
    cases stored.mapM (ofJson table (.scalar element)) <;> rfl

theorem reread_set_compressed :
    reread table true ⟨.set, some element⟩ (.set items) =
      (rereadItems (toJson table .stored) (ofJson table (.scalar element)) items).map .set := by
  have hwrite : toJson table .stored (.set items) =
      (items.mapM (toJson table .stored)).map .array := by
    rw [toJson, itemJsons_eq]
    cases items.mapM (toJson table .stored) <;> rfl
  rw [reread, if_pos rfl, hwrite, rereadItems]
  cases items.mapM (toJson table .stored) with
  | error => rfl
  | ok stored =>
    change (do return Value.set (← itemsOfJson table element stored)) = _
    rw [itemsOfJson_eq, ok_bind]
    cases stored.mapM (ofJson table (.scalar element)) <;> rfl

theorem reread_map_compressed :
    reread table true ⟨.map, some element⟩ (.map entries) =
      (rereadEntries (toJson table .stored) (ofJson table (.scalar element)) entries).map .map := by
  have hwrite : toJson table .stored (.map entries) =
      (Entries.mapM (toJson table .stored) entries).map fun members =>
        .object (Entries.sorted members) := by
    rw [toJson, entryJsons_eq]
    cases Entries.mapM (toJson table .stored) entries <;> rfl
  rw [reread, if_pos rfl, hwrite, rereadEntries]
  cases Entries.mapM (toJson table .stored) entries with
  | error => rfl
  | ok stored =>
    change (do return Value.map (← entriesOfJson table element (Entries.sorted stored))) = _
    rw [entriesOfJson_eq_mapM, ok_bind]
    cases Entries.mapM (ofJson table (.scalar element)) (Entries.sorted stored) <;> rfl

theorem reread_list_plain :
    reread table false ⟨.list, some element⟩ (.list items) =
      (rereadItems (encode table .plain (.scalar element)) (decode table .plain (.scalar element))
        items).map .list := by
  rw [reread, if_neg Bool.false_ne_true, encode_list_eq, rereadItems]
  cases items.mapM (encode table .plain (.scalar element)) with
  | error => rfl
  | ok stored => exact decode_list_eq stored

theorem reread_map_plain :
    reread table false ⟨.map, some element⟩ (.map entries) =
      (rereadEntries (encode table .plain (.scalar element)) (decode table .plain (.scalar element))
        entries).map .map := by
  rw [reread, if_neg Bool.false_ne_true, encode_map_eq, rereadEntries]
  cases Entries.mapM (encode table .plain (.scalar element)) entries with
  | error => rfl
  | ok stored => exact decode_map_eq (Entries.sorted stored)

end Compressed

end Codec

/-- Every item is related to something that is related back to it. -/
theorem exists_forall₂_iff {α β : Type} {forward : α → β → Prop} {back : β → α → Prop}
    {items : List α} :
    (∃ results, List.Forall₂ forward items results ∧ List.Forall₂ back results items) ↔
      ∀ item ∈ items, ∃ result, forward item result ∧ back result item := by
  constructor
  · rintro ⟨results, hforward, hback⟩
    induction hforward with
    | nil => exact fun _ hmem => nomatch hmem
    | cons hfirst _ ih =>
      cases hback with
      | cons hfirstBack hrest =>
        exact List.forall_mem_cons.mpr ⟨⟨_, hfirst, hfirstBack⟩, ih hrest⟩
  · intro hall
    induction items with
    | nil => exact ⟨[], .nil, .nil⟩
    | cons item rest ih =>
      obtain ⟨⟨result, hforward, hback⟩, hrest⟩ := List.forall_mem_cons.mp hall
      obtain ⟨results, hresults, hbacks⟩ := ih hrest
      exact ⟨result :: results, .cons hforward hresults, .cons hback hbacks⟩

namespace Survives

/-- A list survives when each of its items does. -/
theorem list_iff {items : List Value} :
    Survives table compressed ⟨.list, some element⟩ (.list items) ↔
      ∀ item ∈ items, Survives table compressed (.scalar element) item := by
  have hreread : ∀ read, Codec.reread table compressed ⟨.list, some element⟩ (.list items) = .ok read ↔
      ∃ reads, List.Forall₂ (fun item read =>
        Codec.reread table compressed (.scalar element) item = .ok read) items reads ∧
          .list reads = read := by
    intro read
    cases compressed with
    | true =>
      rw [Codec.reread_list_compressed, map_eq_ok_iff]
      simp only [rereadItems_eq_ok_iff]
      rfl
    | false =>
      rw [Codec.reread_list_plain, map_eq_ok_iff]
      simp only [rereadItems_eq_ok_iff]
      rfl
  refine Iff.trans ?_ exists_forall₂_iff
  constructor
  · rintro ⟨read, hread, halike⟩
    obtain ⟨reads, hreads, rfl⟩ := (hreread read).mp hread
    exact ⟨reads, hreads, Value.alike_list_iff.mp halike⟩
  · rintro ⟨reads, hreads, halike⟩
    exact ⟨.list reads, (hreread _).mpr ⟨reads, hreads, rfl⟩, Value.alike_list_iff.mpr halike⟩

/-- A compressed set survives when each of its elements does. -/
theorem set_compressed_iff {elements : List Value} :
    Survives table true ⟨.set, some element⟩ (.set elements) ↔
      ∀ item ∈ elements, Survives table true (.scalar element) item := by
  have hreread : ∀ read, Codec.reread table true ⟨.set, some element⟩ (.set elements) = .ok read ↔
      ∃ reads, List.Forall₂ (fun item read =>
        Codec.reread table true (.scalar element) item = .ok read) elements reads ∧
          .set reads = read := by
    intro read
    rw [Codec.reread_set_compressed, map_eq_ok_iff]
    simp only [rereadItems_eq_ok_iff]
    rfl
  refine Iff.trans ?_ exists_forall₂_iff
  constructor
  · rintro ⟨read, hread, halike⟩
    obtain ⟨reads, hreads, rfl⟩ := (hreread read).mp hread
    exact ⟨reads, hreads, Value.alike_set_iff.mp halike⟩
  · rintro ⟨reads, hreads, halike⟩
    exact ⟨.set reads, (hreread _).mpr ⟨reads, hreads, rfl⟩, Value.alike_set_iff.mpr halike⟩

/-- A map survives when its names are distinct and each of its entries does. -/
theorem map_iff {entries : List (String × Value)} :
    Survives table compressed ⟨.map, some element⟩ (.map entries) ↔
      (Entries.names entries).Nodup ∧ ∀ name value, (name, value) ∈ entries →
        Survives table compressed (.scalar element) value := by
  have hread : ∀ read, Codec.reread table compressed ⟨.map, some element⟩ (.map entries) = .ok read →
      ∃ reads, read = .map reads ∧ (Entries.names reads).Nodup ∧
        ((Entries.names entries).Nodup → ∀ name, Option.Rel (fun value read =>
          Codec.reread table compressed (.scalar element) value = .ok read)
            (Entries.find? entries name) (Entries.find? reads name)) := by
    intro read hread
    cases compressed with
    | true =>
      rw [Codec.reread_map_compressed] at hread
      obtain ⟨reads, hreads, rfl⟩ := map_eq_ok_iff.mp hread
      exact ⟨reads, rfl, nodup_rereadEntries hreads, fun hnames => find?_rereadEntries hnames hreads⟩
    | false =>
      rw [Codec.reread_map_plain] at hread
      obtain ⟨reads, hreads, rfl⟩ := map_eq_ok_iff.mp hread
      exact ⟨reads, rfl, nodup_rereadEntries hreads, fun hnames => find?_rereadEntries hnames hreads⟩
  constructor
  · rintro ⟨read, hreread, halike⟩
    obtain ⟨reads, rfl, hreads, hrelated⟩ := hread read hreread
    have hentries := Value.alike_map_iff.mp halike
    have hnames := hentries.nodup hreads
    refine ⟨hnames, fun name value hmem => ?_⟩
    have hname := hrelated hnames name
    have hsame := (Value.alikeEntries_iff hreads hnames).mp hentries name
    rw [Entries.find?_of_mem hnames hmem] at hname hsame
    generalize Entries.find? reads name = found at hname hsame
    cases hname with
    | some hvalue => exact ⟨_, hvalue, Option.some.inj hsame⟩
  · rintro ⟨hnames, hvalues⟩
    have hexists : ∃ read, Codec.reread table compressed ⟨.map, some element⟩ (.map entries) =
        .ok read := by
      cases compressed with
      | true =>
        obtain ⟨reads, hreads⟩ := exists_rereadEntries hnames fun name value hmem =>
          (hvalues name value hmem).imp fun _ hsurvives => hsurvives.1
        exact ⟨.map reads, by rw [Codec.reread_map_compressed]; exact congrArg _ hreads⟩
      | false =>
        obtain ⟨reads, hreads⟩ := exists_rereadEntries hnames fun name value hmem =>
          (hvalues name value hmem).imp fun _ hsurvives => hsurvives.1
        exact ⟨.map reads, by rw [Codec.reread_map_plain]; exact congrArg _ hreads⟩
    obtain ⟨read, hreread⟩ := hexists
    obtain ⟨reads, rfl, hreads, hrelated⟩ := hread read hreread
    refine ⟨.map reads, hreread, Value.alike_map_iff.mpr ((Value.alikeEntries_iff hreads hnames).mpr ?_)⟩
    intro name
    have hname := hrelated hnames name
    cases hfind : Entries.find? entries name with
    | none =>
      rw [hfind] at hname
      generalize Entries.find? reads name = found at hname ⊢
      cases hname
      rfl
    | some value =>
      rw [hfind] at hname
      generalize Entries.find? reads name = found at hname ⊢
      cases hname with
      | some hvalue =>
        obtain ⟨_, hsame, halike⟩ := hvalues name value (Entries.mem_of_find? hfind)
        cases hvalue.symm.trans hsame
        exact congrArg some halike

end Survives

/-! ### Shapes -/

/-- A value of the shape of a kind of collection. -/
def Kind.Holds : Kind → Value → Prop
  | .scalar, _ => True
  | .map, value => ∃ entries, value = .map entries
  | .set, value => ∃ elements, value = .set elements
  | .list, value => ∃ items, value = .list items

namespace Value

theorem isNull_canonical (value : Value) : value.canonical.isNull = value.isNull := by
  cases value <;> rfl

theorem holds_canonical {kind : Kind} {value : Value} :
    kind.Holds value.canonical ↔ kind.Holds value := by
  cases kind <;> cases value <;> simp [Kind.Holds, canonical]

variable {left right : Value}

theorem Alike.isNull (halike : left.Alike right) : left.isNull = right.isNull := by
  rw [← isNull_canonical left, ← isNull_canonical right, halike]

theorem Alike.holds {kind : Kind} (halike : left.Alike right) (hholds : kind.Holds left) :
    kind.Holds right := by
  rw [← holds_canonical] at hholds ⊢
  rwa [← halike]

end Value

namespace Codec

theorem holds_decode {kind : Kind} {stored : Attribute}
    (hread : decode table .plain ⟨kind, some element⟩ stored = .ok read) : kind.Holds read := by
  cases kind with
  | scalar => trivial
  | map =>
    cases stored with
    | map entries =>
      obtain ⟨reads, _, rfl⟩ := map_eq_ok_iff.mp ((decode_map_eq entries).symm.trans hread)
      exact ⟨reads, rfl⟩
    | null =>
      cases hread
      exact ⟨[], rfl⟩
    | _ => cases hread
  | list =>
    cases stored with
    | list items =>
      obtain ⟨reads, _, rfl⟩ := map_eq_ok_iff.mp ((decode_list_eq items).symm.trans hread)
      exact ⟨reads, rfl⟩
    | null =>
      cases hread
      exact ⟨[], rfl⟩
    | _ => cases hread
  | set =>
    cases stored with
    | list items =>
      obtain ⟨reads, _, hdone⟩ := bind_eq_ok_iff.mp
        (show (decodeItems table element items >>= fun reads => pure (Value.set reads)) = _ from hread)
      cases hdone
      exact ⟨reads, rfl⟩
    | numberSet members =>
      obtain ⟨reads, _, hdone⟩ := bind_eq_ok_iff.mp
        (show ((members.mapM fun text => numberOfText text element) >>= fun reads =>
          pure (Value.set (reads.map .number))) = _ from hread)
      cases hdone
      exact ⟨_, rfl⟩
    | stringSet | binarySet | null =>
      cases hread
      exact ⟨_, rfl⟩
    | _ => cases hread

theorem holds_ofJson {kind : Kind} {json : Json}
    (hread : ofJson table ⟨kind, some element⟩ json = .ok read) : read = .null ∨ kind.Holds read := by
  cases kind with
  | scalar => exact .inr trivial
  | map =>
    cases json with
    | null =>
      cases hread
      exact .inl rfl
    | object members =>
      obtain ⟨reads, _, hdone⟩ := bind_eq_ok_iff.mp
        (show (entriesOfJson table element members >>= fun reads => pure (Value.map reads)) = _
          from hread)
      cases hdone
      exact .inr ⟨reads, rfl⟩
    | _ => cases hread
  | list =>
    cases json with
    | null =>
      cases hread
      exact .inl rfl
    | array items =>
      obtain ⟨reads, _, hdone⟩ := bind_eq_ok_iff.mp
        (show (itemsOfJson table element items >>= fun reads => pure (Value.list reads)) = _
          from hread)
      cases hdone
      exact .inr ⟨reads, rfl⟩
    | _ => cases hread
  | set =>
    cases json with
    | null =>
      cases hread
      exact .inl rfl
    | array items =>
      obtain ⟨reads, _, hdone⟩ := bind_eq_ok_iff.mp
        (show (itemsOfJson table element items >>= fun reads => pure (Value.set reads)) = _
          from hread)
      cases hdone
      exact .inr ⟨reads, rfl⟩
    | _ => cases hread

end Codec

/-- A collection that survives has the shape of its kind. -/
theorem Survives.holds {kind : Kind} (hsurvives : Survives table compressed ⟨kind, some element⟩ value)
    (hpresent : value.isNull = false) : kind.Holds value := by
  obtain ⟨read, hread, halike⟩ := hsurvives
  refine halike.holds ?_
  cases compressed with
  | true =>
    obtain ⟨json, _, hread⟩ := bind_eq_ok_iff.mp hread
    refine (Codec.holds_ofJson hread).resolve_left ?_
    rintro rfl
    rw [← halike.isNull] at hpresent
    cases hpresent
  | false =>
    obtain ⟨stored, _, hread⟩ := bind_eq_ok_iff.mp hread
    exact Codec.holds_decode hread

end RecordStore
