import RecordStore.Proofs.Update.Merged
import RecordStore.Proofs.Update.Regular

/-!
# Sets in the form in which they are stored

A set is stored by members of its own kind, which are the same exactly when the elements that they are
read as are. So adding members to what is stored, or taking them out, is adjoining or filtering
elements.
-/

namespace RecordStore

variable {table : TableSchema} {element : ElementType}

/-- How the sets of a type are stored: the attribute of some members, when two members are the same,
and which element a member is read as. -/
structure SetForm (α : Type) where
  ofMembers : List α → Attribute
  same : α → α → Bool
  Reads : α → Value → Prop

namespace SetForm

def strings : SetForm String where
  ofMembers := .stringSet
  same := (· = ·)
  Reads text value := .string text = value

def binaries : SetForm (List UInt8) where
  ofMembers := .binarySet
  same := (· = ·)
  Reads bytes value := .binary bytes = value

def numbers (element : ElementType) : SetForm String where
  ofMembers := .numberSet
  same := Attribute.equalNumbers
  Reads text value := ∃ number : Number,
    Number.parse? text = some number ∧ number.IsWithin element ∧ .number number = value

@[simp] theorem ofMembers_numbers : (numbers element).ofMembers = .numberSet := by
  rw [numbers]

@[simp] theorem same_numbers : (numbers element).same = Attribute.equalNumbers := by
  rw [numbers]

/-- Sets of the type are stored in the form, which tells members apart as the elements that they are
read as. -/
structure Lawful {α : Type} (table : TableSchema) (element : ElementType) (form : SetForm α) :
    Prop where
  member : ∀ {member value}, form.Reads member value → IsMember element value
  same_iff : ∀ {first second value other}, form.Reads first value → form.Reads second other →
    (form.same first second = true ↔ value = other)
  added : ∀ {present after others},
    Expression.added (some present) (form.ofMembers others) = .ok after →
    ∃ members, present = form.ofMembers members ∧
      after = form.ofMembers (Expression.union form.same members others)
  remaining : ∀ {present left others},
    Expression.remaining present (form.ofMembers others) = .ok left →
    ∃ members, present = form.ofMembers members ∧
      left = Expression.leftOf form.ofMembers (Expression.without form.same members others)
  encode : ∀ {elements encoded}, Codec.encodeSet element elements = .ok encoded → elements ≠ [] →
    (∀ value ∈ elements, IsMember element value) → elements.Nodup →
    ∃ members, encoded = form.ofMembers members ∧ List.Forall₂ form.Reads members elements
  decode : ∀ {members elements}, List.Forall₂ form.Reads members elements →
    Codec.decode table .plain ⟨.set, some element⟩ (form.ofMembers members) = .ok (.set elements)
  reads : ∀ {members value},
    (ValueType.mk .set (some element)).Counts (form.ofMembers members) →
    Codec.decode table .plain ⟨.set, some element⟩ (form.ofMembers members) = .ok value →
    ∃ elements, value = .set elements ∧ List.Forall₂ form.Reads members elements

/-- Pairing with the values of a function is applying it. -/
theorem forall₂_eq_iff {α β : Type} {read : α → β} {members : List α} {elements : List β} :
    List.Forall₂ (fun member element => read member = element) members elements ↔
      members.map read = elements := by
  rw [← List.forall₂_eq_eq_eq, List.forall₂_map_left_iff]

theorem lawful_strings : strings.Lawful table .string where
  member := by
    rintro text value rfl
    exact .string text
  same_iff := by
    rintro first second value other rfl rfl
    simp [strings]
  added {present after others} hadd := by
    cases present <;> cases hadd
    exact ⟨_, rfl, rfl⟩
  remaining {present left others} hdelete := by
    cases present <;> cases hdelete
    exact ⟨_, rfl, rfl⟩
  encode {elements encoded} hencode hnonempty hmembers hdistinct := by
    obtain ⟨texts, rfl⟩ := Codec.exists_map_eq Value.string fun value hmem => by
      cases hmembers value hmem with
      | string text => exact ⟨text, rfl⟩
      | number hwhole => rcases hwhole with h | h <;> cases h
    rw [Codec.encodeSet_string (by simpa using hnonempty) (List.Nodup.of_map _ hdistinct)] at hencode
    cases hencode
    exact ⟨texts, rfl, forall₂_eq_iff.mpr rfl⟩
  decode hreads := by
    rw [← forall₂_eq_iff.mp hreads]
    rfl
  reads _ hread := by
    cases hread
    exact ⟨_, rfl, forall₂_eq_iff.mpr rfl⟩

theorem lawful_binaries : binaries.Lawful table .binary where
  member := by
    rintro bytes value rfl
    exact .binary bytes
  same_iff := by
    rintro first second value other rfl rfl
    simp [binaries]
  added {present after others} hadd := by
    cases present <;> cases hadd
    exact ⟨_, rfl, rfl⟩
  remaining {present left others} hdelete := by
    cases present <;> cases hdelete
    exact ⟨_, rfl, rfl⟩
  encode {elements encoded} hencode hnonempty hmembers hdistinct := by
    obtain ⟨members, rfl⟩ := Codec.exists_map_eq Value.binary fun value hmem => by
      cases hmembers value hmem with
      | binary bytes => exact ⟨bytes, rfl⟩
      | number hwhole => rcases hwhole with h | h <;> cases h
    rw [Codec.encodeSet_binary (by simpa using hnonempty) (List.Nodup.of_map _ hdistinct)] at hencode
    cases hencode
    exact ⟨members, rfl, forall₂_eq_iff.mpr rfl⟩
  decode hreads := by
    rw [← forall₂_eq_iff.mp hreads]
    rfl
  reads _ hread := by
    cases hread
    exact ⟨_, rfl, forall₂_eq_iff.mpr rfl⟩

theorem lawful_numbers (hwhole : element.IsWhole) : (numbers element).Lawful table element where
  member := by
    rintro text value ⟨number, _, hwithin, rfl⟩
    exact .number hwhole hwithin
  same_iff := by
    rintro first second value other ⟨number, hfirst, ⟨left, rfl, _⟩, rfl⟩
      ⟨otherNumber, hsecond, ⟨right, rfl, _⟩, rfl⟩
    rw [same_numbers, Attribute.equalNumbers, hfirst, hsecond, Value.number.injEq,
      Number.integer.injEq]
    exact decide_eq_true_iff
  added {present after others} hadd := by
    rw [ofMembers_numbers] at hadd
    rw [ofMembers_numbers, same_numbers]
    cases present with
    | numberSet members => exact ⟨members, rfl, (Except.ok.inj hadd).symm⟩
    | _ => cases hadd
  remaining {present left others} hdelete := by
    rw [ofMembers_numbers] at hdelete
    rw [ofMembers_numbers, same_numbers]
    cases present with
    | numberSet members =>
      rw [Expression.remaining_numberSet] at hdelete
      exact ⟨members, rfl, (Except.ok.inj hdelete).symm⟩
    | _ => cases hdelete
  encode {elements encoded} hencode hnonempty hmembers hdistinct := by
    have hnumeric : element.isNumeric = true := by rcases hwhole with rfl | rfl <;> rfl
    have hintegers (value : Value) (hmem : value ∈ elements) :=
      Typed.exists_integer hnumeric (@IsMember.typed table element value (hmembers value hmem))
    obtain ⟨integers, rfl⟩ := Codec.exists_map_eq (fun number => Value.number (.integer number))
      fun value hmem => (hintegers value hmem).imp fun _ hnumber => hnumber.1
    have hnarrow : ∀ number ∈ integers,
        (Number.integer number).narrow element = .integer number := by
      intro number hmem
      obtain ⟨other, hsame, hnarrow⟩ := hintegers _ (List.mem_map_of_mem hmem)
      cases hsame
      exact hnarrow
    rw [Codec.encodeSet_number hnumeric (by simpa using hnonempty) (List.Nodup.of_map _ hdistinct)
      hnarrow] at hencode
    cases hencode
    refine ⟨_, rfl, List.forall₂_map_left_iff.mpr (List.forall₂_map_right_iff.mpr ?_)⟩
    refine List.forall₂_same.mpr fun number hmem => ?_
    exact ⟨_, Number.parse?_text_integer number, ⟨number, rfl, hnarrow number hmem⟩, rfl⟩
  decode {members elements} hreads := by
    have hnumbers : ∃ numbers, members.mapM (fun text => Codec.numberOfText text element) =
        .ok numbers ∧ numbers.map Value.number = elements := by
      induction hreads with
      | nil => exact ⟨[], rfl, rfl⟩
      | cons hfirst _ ih =>
        obtain ⟨numbers, hnumbers, rfl⟩ := ih
        obtain ⟨_, hparse, ⟨value, rfl, hnarrow⟩, rfl⟩ := hfirst
        refine ⟨.integer value :: numbers, ?_, rfl⟩
        rw [List.mapM_cons, Codec.numberOfText, hparse, hnumbers]
        exact congrArg (fun number => Except.ok (number :: numbers)) hnarrow
    obtain ⟨numbers, hnumbers, rfl⟩ := hnumbers
    change Codec.decode table .plain _ (.numberSet members) = _
    rw [Codec.decode_numberSet_eq, hnumbers]
    rfl
  reads {members value} hcounts hread := by
    obtain ⟨numbers, hnumbers, rfl⟩ :=
      map_eq_ok_iff.mp ((Codec.decode_numberSet_eq members).symm.trans hread)
    refine ⟨_, rfl, List.forall₂_map_right_iff.mpr ?_⟩
    have hmembers : ∀ text ∈ members, element.CountsMember text := hcounts element rfl members rfl
    refine ((List.forall₂_and_left _ _).mpr ⟨hmembers, mapM_ok hnumbers⟩).imp ?_
    rintro text number ⟨hcount, hnumber⟩
    obtain ⟨_, hparse, ⟨value, rfl, hnarrow⟩⟩ := hcount hwhole
    rw [Codec.numberOfText, hparse] at hnumber
    cases hnarrow.symm.trans (Except.ok.inj hnumber)
    exact ⟨_, hparse, ⟨value, rfl, hnarrow⟩, rfl⟩

variable {α : Type} {form : SetForm α} {members others : List α} {elements gained lost : List Value}

/-- A member is among others as the element that it is read as is. -/
theorem Lawful.any_same (hlawful : form.Lawful table element) {member : α} {value : Value}
    (hmember : form.Reads member value) (helements : List.Forall₂ form.Reads members elements) :
    members.any (fun other => form.same other member) = elements.any fun other => other == value := by
  induction helements with
  | nil => rfl
  | cons hfirst _ ih =>
    rw [List.any_cons, List.any_cons, ih]
    congr 1
    rw [Bool.eq_iff_iff, hlawful.same_iff hfirst hmember,
      (hlawful.member hfirst).beq_iff (hlawful.member hmember)]

/-- Adding members is adjoining the elements that they are read as. -/
theorem Lawful.reads_union (hlawful : form.Lawful table element)
    (helements : List.Forall₂ form.Reads members elements)
    (hgained : List.Forall₂ form.Reads others gained) :
    List.Forall₂ form.Reads (Expression.union form.same members others)
      (gained.foldl SetDelta.adjoin elements) := by
  induction hgained generalizing members elements with
  | nil => exact helements
  | cons hfirst _ ih =>
    refine ih ?_
    dsimp only
    unfold SetDelta.adjoin
    rw [hlawful.any_same hfirst helements]
    split
    · exact helements
    · exact List.rel_append helements (.cons hfirst .nil)

/-- Taking members out leaves the elements that none of them is read as. -/
theorem Lawful.reads_without (hlawful : form.Lawful table element)
    (helements : List.Forall₂ form.Reads members elements)
    (hlost : List.Forall₂ form.Reads others lost) :
    List.Forall₂ form.Reads (Expression.without form.same members others)
      (elements.filter fun value => !lost.any fun deleted => deleted == value) := by
  have hamong : ∀ {member value}, form.Reads member value →
      others.any (form.same member) = lost.any fun deleted => deleted == value := by
    intro member value hmember
    rw [← hlawful.any_same hmember hlost]
    induction hlost with
    | nil => rfl
    | cons hfirst _ ih =>
      rw [List.any_cons, List.any_cons, ih]
      congr 1
      rw [Bool.eq_iff_iff, hlawful.same_iff hmember hfirst, hlawful.same_iff hfirst hmember, eq_comm]
  unfold Expression.without
  induction helements with
  | nil => exact .nil
  | cons hfirst _ ih =>
    rw [List.filter_cons, List.filter_cons, hamong hfirst]
    split
    · exact .cons hfirst ih
    · exact ih

/-- Every type of elements that sets can have is stored in a form. -/
theorem exists_lawful (hset : element.isSetElement = true) (hintegral : element.isIntegral = true) :
    ∃ (α : Type) (form : SetForm α), form.Lawful table element := by
  cases element with
  | string => exact ⟨_, strings, lawful_strings⟩
  | binary => exact ⟨_, binaries, lawful_binaries⟩
  | integer => exact ⟨_, numbers .integer, lawful_numbers (.inl rfl)⟩
  | long => exact ⟨_, numbers .long, lawful_numbers (.inr rfl)⟩
  | float | double => cases hintegral
  | boolean | object => cases hset

end SetForm

/-- Elements that survive and differ are encoded as members that are read as them. -/
theorem SetForm.Lawful.exists_members {α : Type} {form : SetForm α} {elements : List Value}
    {encoded : Attribute} (hlawful : form.Lawful table element) (hset : element.isSetElement = true)
    (hintegral : element.isIntegral = true) (hne : elements ≠ []) (hdistinct : Value.Distinct elements)
    (hsurvives : ∀ value ∈ elements, Survives table false ⟨.set, some element⟩ (.set [value]))
    (hencode : Codec.encodeSet element elements = .ok encoded) :
    ∃ members, encoded = form.ofMembers members ∧ List.Forall₂ form.Reads members elements := by
  have hmembers : ∀ value ∈ elements, IsMember element value := fun value hmem =>
    ((Survives.set_plain_iff hset hintegral).mp (hsurvives value hmem)).1 value List.mem_cons_self
  refine hlawful.encode hencode hne hmembers (hdistinct.imp_of_mem ?_)
  intro first second hfirst hsecond hdiffer hsame
  exact hdiffer (((hmembers first hfirst).beq_iff (hmembers second hsecond)).mpr hsame)

end RecordStore
