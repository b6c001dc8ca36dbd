import Mathlib
import RecordStore.Proofs.Entries
import RecordStore.Record.Value

/-!
# Equality of values

The equality of values ignores the order of sets, maps and fields. It is an equivalence of well-formed
values, so that sets of them are compared by what is among their elements.
-/

namespace RecordStore.Value

/-- No name comes twice, and numbers are integral: a float need not equal itself. -/
inductive WellFormed : Value → Prop where
  | null : WellFormed .null
  | boolean (value : Bool) : WellFormed (.boolean value)
  | number (value : Int64) : WellFormed (.number (.integer value))
  | string (text : String) : WellFormed (.string text)
  | binary (bytes : List UInt8) : WellFormed (.binary bytes)
  | object {typeName : String} {fields : List (String × Value)} {revision : Int64}
    (names : (Entries.names fields).Nodup)
    (values : ∀ name value, (name, value) ∈ fields → WellFormed value) :
    WellFormed (.object typeName fields revision)
  | list {items : List Value} (values : ∀ item ∈ items, WellFormed item) : WellFormed (.list items)
  | set {elements : List Value} (values : ∀ element ∈ elements, WellFormed element) :
    WellFormed (.set elements)
  | map {entries : List (String × Value)} (names : (Entries.names entries).Nodup)
    (values : ∀ name value, (name, value) ∈ entries → WellFormed value) : WellFormed (.map entries)

/-! ### Equal parts -/

theorem beq_eq_same (left right : Value) : (left == right) = left.same right := rfl

theorem sameItems_iff {left right : List Value} :
    sameItems left right ↔ List.Forall₂ (fun left right => left == right) left right := by
  induction left generalizing right with
  | nil => cases right <;> simp [sameItems]
  | cons item rest ih =>
    cases right with
    | nil => simp [sameItems]
    | cons other others =>
      rw [sameItems, Bool.and_eq_true, ih, List.forall₂_cons]
      rfl

theorem hasElement_iff {elements : List Value} {value : Value} :
    hasElement elements value ↔ ∃ element ∈ elements, element == value := by
  induction elements with
  | nil => simp [hasElement]
  | cons element rest ih =>
    rw [hasElement, Bool.or_eq_true, ih, List.exists_mem_cons_iff]
    rfl

theorem allAmong_iff {elements others : List Value} :
    allAmong elements others ↔ ∀ element ∈ elements, ∃ other ∈ others, element == other := by
  induction elements with
  | nil => simp [allAmong]
  | cons element rest ih =>
    rw [allAmong, Bool.and_eq_true, ih, List.any_eq_true, List.forall_mem_cons]
    rfl

theorem allHeld_iff {entries others : List (String × Value)} :
    allHeld entries others ↔ ∀ name value, (name, value) ∈ entries →
      ∃ other, Entries.find? others name = some other ∧ value == other := by
  induction entries with
  | nil => simp [allHeld]
  | cons entry rest ih =>
    obtain ⟨name, value⟩ := entry
    have hfirst : allHeld ((name, value) :: rest) others ↔
        (∃ other, Entries.find? others name = some other ∧ value == other) ∧
          allHeld rest others := by
      rw [allHeld]
      cases hfind : Entries.find? others name with
      | none => simp
      | some other =>
        rw [Bool.and_eq_true]
        refine and_congr_left fun _ => ⟨fun hsame => ⟨other, rfl, hsame⟩, ?_⟩
        rintro ⟨_, hother, hsame⟩
        cases hother
        exact hsame
    rw [hfirst, ih]
    constructor
    · rintro ⟨hhead, hrest⟩ key held hmem
      rcases List.mem_cons.mp hmem with hentry | hmem
      · cases hentry
        exact hhead
      · exact hrest key held hmem
    · intro hall
      exact ⟨hall name value List.mem_cons_self, fun key held hmem => hall key held (.tail _ hmem)⟩

/-- Every name finds equal values, or nothing, on both sides. -/
def SameEntries (left right : List (String × Value)) : Prop :=
  ∀ name, Option.Rel (fun left right => left == right) (Entries.find? left name)
    (Entries.find? right name)

theorem sameEntries_iff {left right : List (String × Value)} (hleft : (Entries.names left).Nodup)
    (hright : (Entries.names right).Nodup) :
    (left.length = right.length ∧ allHeld left right) ↔ SameEntries left right := by
  constructor
  · rintro ⟨hlength, hheld⟩ name
    rw [allHeld_iff] at hheld
    cases hfind : Entries.find? left name with
    | some value =>
      obtain ⟨other, hother, hsame⟩ := hheld name value (Entries.mem_of_find? hfind)
      rw [hother]
      exact .some hsame
    | none =>
      -- As many names on the right as on the left leave no room for one more.
      have hsubset : Entries.names left ⊆ Entries.names right := by
        intro key hkey
        obtain ⟨⟨_, value⟩, hentry, rfl⟩ := List.mem_map.mp hkey
        obtain ⟨other, hother, _⟩ := hheld _ value hentry
        exact Entries.mem_names_iff.mpr (by rw [hother]; exact Option.some_ne_none other)
      have hperm : (Entries.names left).Perm (Entries.names right) := by
        refine (List.subperm_of_subset hleft hsubset).perm_of_length_le ?_
        simp [Entries.names, hlength]
      have hnone : Entries.find? right name = none := by
        by_contra hsome
        exact Entries.mem_names_iff.mp (hperm.mem_iff.mpr (Entries.mem_names_iff.mpr hsome)) hfind
      rw [hnone]
      exact .none
  · intro hsame
    constructor
    · have hperm : (Entries.names left).Perm (Entries.names right) := by
        refine (List.perm_ext_iff_of_nodup hleft hright).mpr fun name => ?_
        have hname := hsame name
        rw [Entries.mem_names_iff, Entries.mem_names_iff]
        generalize Entries.find? left name = first at hname
        generalize Entries.find? right name = second at hname
        cases hname <;> simp
      simpa [Entries.names] using hperm.length_eq
    · rw [allHeld_iff]
      intro name value hentry
      have hname := hsame name
      rw [Entries.find?_of_mem hleft hentry] at hname
      generalize Entries.find? right name = found at hname
      cases hname with
      | some hequal => exact ⟨_, rfl, hequal⟩

theorem SameEntries.of_same {left middle right : List (String × Value)}
    (hsame : SameEntries left middle) {related : Value → Prop}
    (heuclid : ∀ name value, (name, value) ∈ left → ∀ {between other : Value}, related between →
      related other → value == between → other == between → value == other)
    (hmiddle : ∀ name value, (name, value) ∈ middle → related value)
    (hright : ∀ name value, (name, value) ∈ right → related value)
    (hother : SameEntries right middle) : SameEntries left right := by
  intro name
  have hfirst := hsame name
  have hsecond := hother name
  cases hleftFind : Entries.find? left name <;> cases hmiddleFind : Entries.find? middle name <;>
    cases hrightFind : Entries.find? right name <;>
    rw [hmiddleFind] at hfirst hsecond <;> rw [hleftFind] at hfirst <;>
    rw [hrightFind] at hsecond
  case none.none.none => exact .none
  case some.some.some value between other =>
    cases hfirst with
    | some hequal =>
      cases hsecond with
      | some hotherEqual =>
        exact .some (heuclid name value (Entries.mem_of_find? hleftFind)
          (hmiddle name between (Entries.mem_of_find? hmiddleFind))
          (hright name other (Entries.mem_of_find? hrightFind)) hequal hotherEqual)
  all_goals first | (cases hfirst; done) | cases hsecond

theorem object_same_iff {leftType rightType : String} {left right : List (String × Value)}
    {leftRevision rightRevision : Int64} (hleft : (Entries.names left).Nodup)
    (hright : (Entries.names right).Nodup) :
    (Value.object leftType left leftRevision == .object rightType right rightRevision) ↔
      leftType = rightType ∧ SameEntries left right ∧ leftRevision = rightRevision := by
  rw [beq_eq_same, Value.same, ← sameEntries_iff hleft hright]
  simp only [Bool.and_eq_true, decide_eq_true_eq]
  tauto

theorem map_same_iff {left right : List (String × Value)} (hleft : (Entries.names left).Nodup)
    (hright : (Entries.names right).Nodup) :
    (Value.map left == .map right) ↔ SameEntries left right := by
  rw [beq_eq_same, Value.same, ← sameEntries_iff hleft hright, Bool.and_eq_true, decide_eq_true_eq]

theorem list_same_iff {left right : List Value} :
    (Value.list left == .list right) ↔
      List.Forall₂ (fun left right => left == right) left right := by
  rw [beq_eq_same, Value.same, sameItems_iff]

theorem set_same_iff {left right : List Value} :
    (Value.set left == .set right) ↔ left.length = right.length ∧
      (∀ element ∈ left, ∃ other ∈ right, element == other) ∧
      ∀ element ∈ right, ∃ other ∈ left, other == element := by
  simp only [beq_eq_same, Value.same, Bool.and_eq_true, decide_eq_true_eq, allAmong_iff, List.all_eq_true,
    hasElement_iff, and_assoc]

/-! ### An equivalence -/

namespace WellFormed

variable {left middle right : Value}

@[simp] theorem same_refl {value : Value} (hvalue : value.WellFormed) : value == value := by
  induction hvalue with
  | null | boolean | string | binary => simp [beq_eq_same, same]
  | number value =>
    rw [beq_eq_same, same]
    exact decide_eq_true rfl
  | object names _ ih =>
    refine (object_same_iff names names).mpr ⟨rfl, fun name => ?_, rfl⟩
    cases hfind : Entries.find? _ name with
    | none => exact .none
    | some value => exact .some (ih name value (Entries.mem_of_find? hfind))
  | list _ ih => exact list_same_iff.mpr (List.forall₂_same.mpr ih)
  | set _ ih =>
    exact set_same_iff.mpr ⟨rfl, fun element hmem => ⟨element, hmem, ih element hmem⟩,
      fun element hmem => ⟨element, hmem, ih element hmem⟩⟩
  | map names _ ih =>
    refine (map_same_iff names names).mpr fun name => ?_
    cases hfind : Entries.find? _ name with
    | none => exact .none
    | some value => exact .some (ih name value (Entries.mem_of_find? hfind))

/-- What equals the same value is equal. -/
theorem same_of_same (hleft : left.WellFormed) (hmiddle : middle.WellFormed)
    (hright : right.WellFormed) (hfirst : left == middle) (hsecond : right == middle) :
    left == right := by
  induction hleft generalizing middle right with
  | null | boolean | string | binary =>
    cases hmiddle <;> cases hright <;> simp_all [beq_eq_same, same]
  | number value =>
    cases hmiddle with
    | number between =>
      cases hright with
      | number other =>
        rw [beq_eq_same, same] at hfirst hsecond ⊢
        exact decide_eq_true ((of_decide_eq_true hfirst).trans (of_decide_eq_true hsecond).symm)
      | _ => simp [beq_eq_same, same] at hsecond
    | _ => simp [beq_eq_same, same] at hfirst
  | object names _ ih =>
    cases hmiddle with
    | object between betweens =>
      cases hright with
      | object others values =>
        obtain ⟨htype, hfields, hrevision⟩ := (object_same_iff names between).mp hfirst
        obtain ⟨hotherType, hothers, hotherRevision⟩ := (object_same_iff others between).mp hsecond
        exact (object_same_iff names others).mpr ⟨htype.trans hotherType.symm,
          hfields.of_same ih betweens values hothers, hrevision.trans hotherRevision.symm⟩
      | _ => simp [beq_eq_same, same] at hsecond
    | _ => simp [beq_eq_same, same] at hfirst
  | list _ ih =>
    cases hmiddle with
    | list betweens =>
      cases hright with
      | list values =>
        obtain ⟨hlength, hitems⟩ := List.forall₂_iff_get.mp (list_same_iff.mp hfirst)
        obtain ⟨hotherLength, hothers⟩ := List.forall₂_iff_get.mp (list_same_iff.mp hsecond)
        refine list_same_iff.mpr (List.forall₂_iff_get.mpr ⟨hlength.trans hotherLength.symm, ?_⟩)
        intro index hindex hother
        have hbetween := hlength ▸ hindex
        exact ih _ (List.get_mem _ _) (betweens _ (List.get_mem _ _)) (values _ (List.get_mem _ _))
          (hitems index hindex hbetween) (hothers index hother hbetween)
      | _ => simp [beq_eq_same, same] at hsecond
    | _ => simp [beq_eq_same, same] at hfirst
  | set _ ih =>
    cases hmiddle with
    | set betweens =>
      cases hright with
      | set values =>
        obtain ⟨hlength, hforward, hbackward⟩ := set_same_iff.mp hfirst
        obtain ⟨hotherLength, hotherForward, hotherBackward⟩ := set_same_iff.mp hsecond
        refine set_same_iff.mpr ⟨hlength.trans hotherLength.symm, ?_, ?_⟩
        · intro element hmem
          obtain ⟨between, hbetween, hequal⟩ := hforward element hmem
          obtain ⟨other, hother, hotherEqual⟩ := hotherBackward between hbetween
          exact ⟨other, hother, ih element hmem (betweens between hbetween) (values other hother)
            hequal hotherEqual⟩
        · intro other hother
          obtain ⟨between, hbetween, hotherEqual⟩ := hotherForward other hother
          obtain ⟨element, hmem, hequal⟩ := hbackward between hbetween
          exact ⟨element, hmem, ih element hmem (betweens between hbetween) (values other hother)
            hequal hotherEqual⟩
      | _ => simp [beq_eq_same, same] at hsecond
    | _ => simp [beq_eq_same, same] at hfirst
  | map names _ ih =>
    cases hmiddle with
    | map between betweens =>
      cases hright with
      | map others values =>
        have hentries := (map_same_iff names between).mp hfirst
        have hothers := (map_same_iff others between).mp hsecond
        exact (map_same_iff names others).mpr (hentries.of_same ih betweens values hothers)
      | _ => simp [beq_eq_same, same] at hsecond
    | _ => simp [beq_eq_same, same] at hfirst

theorem same_symm (hleft : left.WellFormed) (hright : right.WellFormed) (hsame : left == right) :
    right == left :=
  same_of_same hright hright hleft hright.same_refl hsame

theorem same_trans (hleft : left.WellFormed) (hmiddle : middle.WellFormed)
    (hright : right.WellFormed) (hfirst : left == middle) (hsecond : middle == right) :
    left == right :=
  same_of_same hleft hmiddle hright hfirst (same_symm hmiddle hright hsecond)

theorem same_congr_left {other : Value} (hleft : left.WellFormed) (hright : right.WellFormed)
    (hother : other.WellFormed) (hsame : left == right) : (left == other) = (right == other) := by
  rw [Bool.eq_iff_iff]
  have hback := hleft.same_symm hright hsame
  exact ⟨hright.same_trans hleft hother hback, hleft.same_trans hright hother hsame⟩

theorem same_congr_right {other : Value} (hleft : left.WellFormed) (hright : right.WellFormed)
    (hother : other.WellFormed) (hsame : left == right) : (other == left) = (other == right) := by
  rw [Bool.eq_iff_iff]
  have hback := hleft.same_symm hright hsame
  exact ⟨fun hfirst => hother.same_trans hleft hright hfirst hsame,
    fun hfirst => hother.same_trans hright hleft hfirst hback⟩

end WellFormed

/-! ### Sets -/

/-- One of the elements equals the value. -/
def IsAmong (elements : List Value) (value : Value) : Prop :=
  ∃ element ∈ elements, element == value

/-- No two of the elements are equal. -/
def Distinct (elements : List Value) : Prop :=
  elements.Pairwise fun left right => ¬ left == right

section Sets

variable {elements others : List Value} {value : Value}

theorem isAmong_filter {keep : Value → Bool}
    (hkeep : ∀ element ∈ elements, element == value → keep element = keep value) :
    IsAmong (elements.filter keep) value ↔ IsAmong elements value ∧ keep value := by
  constructor
  · rintro ⟨element, hmem, hequal⟩
    obtain ⟨hmem, hkept⟩ := List.mem_filter.mp hmem
    exact ⟨⟨element, hmem, hequal⟩, hkeep element hmem hequal ▸ hkept⟩
  · rintro ⟨⟨element, hmem, hequal⟩, hkept⟩
    exact ⟨element, List.mem_filter.mpr ⟨hmem, hkeep element hmem hequal ▸ hkept⟩, hequal⟩

/-- Taking out a value takes out what equals it. -/
theorem isAmong_without (helements : ∀ element ∈ elements, element.WellFormed) {removed : Value}
    (hremoved : removed.WellFormed) (hvalue : value.WellFormed) :
    IsAmong (elements.filter fun element => !(element == removed)) value ↔
      IsAmong elements value ∧ ¬ removed == value := by
  rw [isAmong_filter]
  · rw [Bool.not_eq_true', Bool.eq_false_iff]
    have hback : value == removed ↔ removed == value :=
      ⟨hvalue.same_symm hremoved, hremoved.same_symm hvalue⟩
    exact and_congr_right fun _ => not_congr hback
  · intro element hmem hequal
    exact congrArg not ((helements element hmem).same_congr_left hvalue hremoved hequal)

/-- Distinct elements that all equal one of the others are no more than those. -/
theorem length_le_of_isAmong (helements : ∀ element ∈ elements, element.WellFormed)
    (hothers : ∀ other ∈ others, other.WellFormed) (hdistinct : Distinct elements)
    (hall : ∀ element ∈ elements, IsAmong others element) : elements.length ≤ others.length := by
  induction elements generalizing others with
  | nil => exact Nat.zero_le _
  | cons element rest ih =>
    obtain ⟨hfresh, hrest⟩ := List.pairwise_cons.mp hdistinct
    obtain ⟨helement, hwellFormed⟩ := List.forall_mem_cons.mp helements
    obtain ⟨other, hother, hequal⟩ := hall element List.mem_cons_self
    obtain ⟨before, after, rfl⟩ := List.append_of_mem hother
    have hremaining : rest.length ≤ (before ++ after).length := by
      refine ih hwellFormed (fun item hmem => hothers item ?_) hrest fun item hmem => ?_
      · rcases List.mem_append.mp hmem with hbefore | hafter
        · exact List.mem_append_left _ hbefore
        · exact List.mem_append_right _ (List.mem_cons_of_mem _ hafter)
      · obtain ⟨found, hfound, hitem⟩ := hall item (List.mem_cons_of_mem _ hmem)
        have hne : found ≠ other := by
          rintro rfl
          have hfoundFormed := hothers found hother
          exact hfresh item hmem (helement.same_trans hfoundFormed (hwellFormed item hmem)
            (hfoundFormed.same_symm helement hequal) hitem)
        refine ⟨found, ?_, hitem⟩
        simp only [List.mem_append, List.mem_cons] at hfound ⊢
        tauto
    simp only [List.length_append, List.length_cons] at hremaining ⊢
    omega

/-- Sets without repeated elements are equal when the same values are among both. -/
theorem same_set (helements : ∀ element ∈ elements, element.WellFormed)
    (hothers : ∀ other ∈ others, other.WellFormed) (hdistinct : Distinct elements)
    (hotherDistinct : Distinct others)
    (hsame : ∀ value, value.WellFormed → (IsAmong elements value ↔ IsAmong others value)) :
    Value.set elements == .set others := by
  have hforward : ∀ element ∈ elements, IsAmong others element := fun element hmem =>
    (hsame element (helements element hmem)).mp ⟨element, hmem, (helements element hmem).same_refl⟩
  have hbackward : ∀ other ∈ others, IsAmong elements other := fun other hmem =>
    (hsame other (hothers other hmem)).mpr ⟨other, hmem, (hothers other hmem).same_refl⟩
  refine set_same_iff.mpr ⟨Nat.le_antisymm ?_ ?_, fun element hmem => ?_, hbackward⟩
  · exact length_le_of_isAmong helements hothers hdistinct hforward
  · exact length_le_of_isAmong hothers helements hotherDistinct hbackward
  · obtain ⟨other, hother, hequal⟩ := hforward element hmem
    exact ⟨other, hother, (hothers other hother).same_symm (helements element hmem) hequal⟩

end Sets

end RecordStore.Value
