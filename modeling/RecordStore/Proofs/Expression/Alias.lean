import RecordStore.Expression.Condition
import RecordStore.Proofs.Expression.Grammar
import RecordStore.Proofs.Expression.Scan
import RecordStore.Proofs.Outcome

/-!
# Placeholders that stay bound

A generator never binds one of its placeholders anew, so what an expression says does not change
when further placeholders are taken. A computation on placeholders is described by what its result
says under all bindings that hold the placeholders taken so far.
-/

namespace RecordStore

namespace Expression

open Aliases

/-! ### Well-formed generators -/

/-- The placeholders of nested generators go on with a `c` after the stem. -/
def IsAbsorbed (mark stem placeholder : String) : Prop :=
  ∃ tail, placeholder = mark ++ stem ++ "c" ++ tail

/-- The names bound so far are those of the segments, in their order, and those taken over from
nested generators; the values are numbered below the next one or taken over too. -/
structure Aliases.WellFormed (aliases : Aliases) : Prop where
  stem : IsStem aliases.stem
  segments : ∀ index segment, aliases.segments[index]? = some segment →
    Entries.find? aliases.names (namePlaceholder aliases.stem index) = some segment
  names : ∀ placeholder, Entries.contains aliases.names placeholder = true →
    (∃ index < aliases.segments.length, placeholder = namePlaceholder aliases.stem index) ∨
      IsAbsorbed "#" aliases.stem placeholder
  values : ∀ placeholder, Entries.contains aliases.values placeholder = true →
    (∃ index < aliases.next, placeholder = valuePlaceholder aliases.stem index) ∨
      IsAbsorbed ":" aliases.stem placeholder

/-- Later states of a generator hold all that an earlier one does. -/
structure Aliases.Extends (aliases later : Aliases) : Prop where
  stem : later.stem = aliases.stem
  names : ∀ placeholder segment, Entries.find? aliases.names placeholder = some segment →
    Entries.find? later.names placeholder = some segment
  values : ∀ placeholder value, Entries.find? aliases.values placeholder = some value →
    Entries.find? later.values placeholder = some value

/-- Bindings that hold all placeholders of a generator. -/
structure Bindings.Cover (bindings : Bindings) (aliases : Aliases) : Prop where
  names : ∀ placeholder segment, Entries.find? aliases.names placeholder = some segment →
    Entries.find? bindings.names placeholder = some segment
  values : ∀ placeholder value, Entries.find? aliases.values placeholder = some value →
    Entries.find? bindings.values placeholder = some value

theorem Aliases.Extends.refl (aliases : Aliases) : aliases.Extends aliases :=
  ⟨rfl, fun _ _ => id, fun _ _ => id⟩

theorem Aliases.Extends.trans {aliases between later : Aliases} (hfirst : aliases.Extends between)
    (hsecond : between.Extends later) : aliases.Extends later where
  stem := hsecond.stem.trans hfirst.stem
  names placeholder segment hheld :=
    hsecond.names placeholder segment (hfirst.names placeholder segment hheld)
  values placeholder value hheld :=
    hsecond.values placeholder value (hfirst.values placeholder value hheld)

theorem Bindings.Cover.of_extends {bindings : Bindings} {aliases later : Aliases}
    (hcover : bindings.Cover later) (hextends : aliases.Extends later) : bindings.Cover aliases where
  names placeholder segment hheld :=
    hcover.names placeholder segment (hextends.names placeholder segment hheld)
  values placeholder value hheld :=
    hcover.values placeholder value (hextends.values placeholder value hheld)

theorem Aliases.wellFormed_empty {stem : String} (hstem : IsStem stem) :
    (Aliases.empty stem).WellFormed where
  stem := hstem
  segments index segment hsegment := by simp [Aliases.empty] at hsegment
  names placeholder hheld := by simp [Aliases.empty, Entries.contains] at hheld
  values placeholder hheld := by simp [Aliases.empty, Entries.contains] at hheld

theorem not_isAbsorbed_namePlaceholder (stem : String) (index : Nat) :
    ¬ IsAbsorbed "#" stem (namePlaceholder stem index) := by
  rintro ⟨tail, hequal⟩
  have hlists := congrArg String.toList hequal
  simp [namePlaceholder] at hlists

theorem not_isAbsorbed_valuePlaceholder (stem : String) (index : Nat) :
    ¬ IsAbsorbed ":" stem (valuePlaceholder stem index) := by
  rintro ⟨tail, hequal⟩
  have hlists := congrArg String.toList hequal
  simp [valuePlaceholder] at hlists

section Taking

variable {aliases : Aliases}

theorem Aliases.WellFormed.name_fresh (hformed : aliases.WellFormed) {index : Nat}
    (hindex : aliases.segments.length ≤ index) :
    Entries.find? aliases.names (namePlaceholder aliases.stem index) = none := by
  rw [← Option.not_isSome_iff_eq_none]
  intro hheld
  rcases hformed.names _ hheld with ⟨other, hother, hequal⟩ | habsorbed
  · have hsame := namePlaceholder_inj hequal
    omega
  · exact not_isAbsorbed_namePlaceholder _ _ habsorbed

theorem Aliases.WellFormed.value_fresh (hformed : aliases.WellFormed) {index : Nat}
    (hindex : aliases.next ≤ index) :
    Entries.find? aliases.values (valuePlaceholder aliases.stem index) = none := by
  rw [← Option.not_isSome_iff_eq_none]
  intro hheld
  rcases hformed.values _ hheld with ⟨other, hother, hequal⟩ | habsorbed
  · have hsame := valuePlaceholder_inj hequal
    omega
  · exact not_isAbsorbed_valuePlaceholder _ _ habsorbed

/-! ### Taking placeholders -/

theorem names_isSome_insert {names : List (String × String)} {placeholder segment other : String}
    (hheld : Entries.contains (Entries.insert names placeholder segment) other = true) :
    other = placeholder ∨ Entries.contains names other = true := by
  rw [Entries.contains, Entries.find?_insert] at hheld
  split at hheld
  · rename_i hsame
    exact .inl hsame.symm
  · exact .inr hheld

theorem Aliases.WellFormed.name_known (hformed : aliases.WellFormed) {segment : String}
    {index : Nat} (hindex : aliases.segments.idxOf? segment = some index) :
    Entries.find? aliases.names (namePlaceholder aliases.stem index) = some segment := by
  obtain ⟨hbound, hsegment, _⟩ := List.idxOf?_eq_some_iff.mp hindex
  exact hformed.segments index segment (List.getElem?_eq_some_iff.mpr ⟨hbound, hsegment⟩)

/-- The generator after it has taken a placeholder for a new segment. -/
def Aliases.withSegment (aliases : Aliases) (segment : String) : Aliases :=
  { aliases with
    segments := aliases.segments ++ [segment]
    names := Entries.insert aliases.names
      (namePlaceholder aliases.stem aliases.segments.length) segment }

theorem Aliases.WellFormed.withSegment (hformed : aliases.WellFormed) (segment : String) :
    (aliases.withSegment segment).WellFormed where
  stem := hformed.stem
  segments index other hother := by
    change Entries.find? (Entries.insert aliases.names _ segment) _ = some other
    rw [Entries.find?_insert]
    change (aliases.segments ++ [segment])[index]? = some other at hother
    split
    · rename_i hsame
      rw [← namePlaceholder_inj hsame, List.getElem?_concat_length] at hother
      exact hother
    · rename_i hdifferent
      rw [List.getElem?_append_left] at hother
      · exact hformed.segments index other hother
      · obtain ⟨hbound, _⟩ := List.getElem?_eq_some_iff.mp hother
        have hlast : aliases.segments.length ≠ index := by
          rintro rfl
          exact hdifferent rfl
        rw [List.length_append, List.length_singleton] at hbound
        omega
  names placeholder hheld := by
    change (∃ index < (aliases.segments ++ [segment]).length, _) ∨ _
    rw [List.length_append, List.length_singleton]
    rcases names_isSome_insert hheld with rfl | hold
    · exact .inl ⟨aliases.segments.length, by omega, rfl⟩
    · rcases hformed.names placeholder hold with ⟨index, hindex, hequal⟩ | habsorbed
      · exact .inl ⟨index, by omega, hequal⟩
      · exact .inr habsorbed
  values := hformed.values

theorem Aliases.WellFormed.extends_withSegment (hformed : aliases.WellFormed) (segment : String) :
    aliases.Extends (aliases.withSegment segment) where
  stem := rfl
  names placeholder other hheld := by
    change Entries.find? (Entries.insert aliases.names _ segment) placeholder = some other
    rw [Entries.find?_insert, if_neg, hheld]
    rintro rfl
    rw [hformed.name_fresh (Nat.le_refl _)] at hheld
    cases hheld
  values _ _ := id

/-- The generator after it has taken a placeholder for a value. -/
def Aliases.withValue (aliases : Aliases) (value : Attribute) : Aliases :=
  { aliases with
    values := Item.set aliases.values (valuePlaceholder aliases.stem aliases.next) value
    next := aliases.next + 1 }

theorem Aliases.WellFormed.withValue (hformed : aliases.WellFormed) (value : Attribute) :
    (aliases.withValue value).WellFormed where
  stem := hformed.stem
  segments := hformed.segments
  names := hformed.names
  values placeholder hheld := by
    change (∃ index < aliases.next + 1, _) ∨ _
    change Entries.contains (Entries.insert aliases.values _ value) placeholder = true at hheld
    rw [Entries.contains, Entries.find?_insert] at hheld
    split at hheld
    · rename_i hsame
      exact .inl ⟨aliases.next, by omega, hsame.symm⟩
    · rcases hformed.values placeholder hheld with ⟨index, hindex, hequal⟩ | habsorbed
      · exact .inl ⟨index, by omega, hequal⟩
      · exact .inr habsorbed

theorem Aliases.WellFormed.extends_withValue (hformed : aliases.WellFormed) (value : Attribute) :
    aliases.Extends (aliases.withValue value) where
  stem := rfl
  names _ _ := id
  values placeholder other hheld := by
    change Entries.find? (Entries.insert aliases.values _ value) placeholder = some other
    rw [Entries.find?_insert, if_neg, hheld]
    rintro rfl
    rw [hformed.value_fresh (Nat.le_refl _)] at hheld
    cases hheld

end Taking

/-! ### Taking over placeholders -/

section Adopting

variable {α : Type} {held entries later : List (String × α)}

theorem run_adopt_ok {entry : String × α}
    (hrun : (Aliases.adopt entry).run.run held = (.ok (), later)) :
    later = Entries.insert held entry.1 entry.2 ∧ Entries.contains held entry.1 = false := by
  cases hcontains : Entries.contains held entry.1 with
  | true =>
    have hadopt : (Aliases.adopt entry).run.run held =
        (.error (.contract (.repeatedPlaceholder entry.1)),
          Entries.insert held entry.1 entry.2) := by
      change (if Entries.contains held entry.1 = true then _ else _ :
        ExceptT Error (StateM (List (String × α))) Unit).run.run _ = _
      rw [if_pos hcontains]
      rfl
    rw [hadopt] at hrun
    cases hrun
  | false =>
    have hadopt : (Aliases.adopt entry).run.run held =
        (.ok (), Entries.insert held entry.1 entry.2) := by
      change (if Entries.contains held entry.1 = true then _ else _ :
        ExceptT Error (StateM (List (String × α))) Unit).run.run _ = _
      rw [if_neg (by rw [hcontains]; exact Bool.false_ne_true)]
      rfl
    rw [hadopt] at hrun
    cases hrun
    exact ⟨rfl, rfl⟩

/-- Bindings that were taken over without a clash hold what was there and what was taken over. -/
structure Adopted (held entries later : List (String × α)) : Prop where
  kept : ∀ placeholder value, Entries.find? held placeholder = some value →
    Entries.find? later placeholder = some value
  taken : ∀ placeholder value, Entries.find? entries placeholder = some value →
    Entries.find? later placeholder = some value
  origin : ∀ placeholder, Entries.contains later placeholder = true →
    Entries.contains held placeholder = true ∨ Entries.contains entries placeholder = true

theorem adopted_of_run (hrun : (entries.forM Aliases.adopt).run.run held = (.ok (), later)) :
    Adopted held entries later := by
  induction entries generalizing held with
  | nil =>
    cases hrun
    refine ⟨fun _ _ => id, ?_, fun _ => .inl⟩
    intro placeholder value hnone
    cases hnone
  | cons entry rest ih =>
    obtain ⟨name, value⟩ := entry
    obtain ⟨⟨⟩, between, hfirst, hrest⟩ := run_bind_ok hrun
    obtain ⟨rfl, hfresh⟩ := run_adopt_ok hfirst
    have hadopted := ih hrest
    constructor
    · intro placeholder other hheld
      refine hadopted.kept placeholder other ?_
      rw [Entries.find?_insert, if_neg, hheld]
      rintro rfl
      rw [Entries.contains, hheld] at hfresh
      cases hfresh
    · intro placeholder other htaken
      rw [Entries.find?_cons] at htaken
      split at htaken
      · rename_i hsame
        cases htaken
        refine hadopted.kept placeholder value ?_
        rw [Entries.find?_insert, if_pos hsame]
      · exact hadopted.taken placeholder other htaken
    · intro placeholder hlater
      rw [Entries.contains, Entries.contains, Entries.find?_cons]
      rcases hadopted.origin placeholder hlater with hbetween | hlast
      · rw [Entries.contains, Entries.find?_insert] at hbetween
        split at hbetween
        · rename_i hsame
          right
          rw [if_pos hsame]
          rfl
        · exact .inl hbetween
      · right
        split
        · rfl
        · exact hlast

end Adopting

theorem run_merge_ok {aliases other later : Aliases}
    (hrun : (Aliases.merge other).run.run aliases = (.ok (), later)) :
    ∃ names values, Adopted aliases.names other.names names ∧
      Adopted aliases.values other.values values ∧ later = { aliases with names, values } := by
  change Aliases.merge other aliases = _ at hrun
  unfold Aliases.merge at hrun
  split at hrun
  · cases hrun
  · rcases hnames : (other.names.forM Aliases.adopt).run.run aliases.names with ⟨outcome, names⟩
    rw [hnames] at hrun
    cases outcome with
    | error error => cases hrun
    | ok result =>
      rcases hvalues : (other.values.forM Aliases.adopt).run.run aliases.values with
        ⟨outcome, values⟩
      dsimp only at hrun
      rw [hvalues] at hrun
      cases hrun
      exact ⟨names, values, adopted_of_run hnames, adopted_of_run hvalues, rfl⟩

/-- Another generator whose stem goes on from that of this one. -/
def Aliases.IsParentOf (aliases other : Aliases) : Prop :=
  ∃ tail, other.stem = aliases.stem ++ "c" ++ tail

theorem IsAbsorbed.of_parent {mark stem tail placeholder : String}
    (habsorbed : IsAbsorbed mark (stem ++ "c" ++ tail) placeholder) :
    IsAbsorbed mark stem placeholder := by
  obtain ⟨rest, rfl⟩ := habsorbed
  exact ⟨tail ++ "c" ++ rest, by simp only [String.append_assoc]⟩

/-- All that a nested generator binds is marked as absorbed for its parent. -/
theorem Aliases.WellFormed.absorbed {aliases other : Aliases} (hother : other.WellFormed)
    (hparent : aliases.IsParentOf other) :
    (∀ placeholder, Entries.contains other.names placeholder = true →
      IsAbsorbed "#" aliases.stem placeholder) ∧
    ∀ placeholder, Entries.contains other.values placeholder = true →
      IsAbsorbed ":" aliases.stem placeholder := by
  obtain ⟨tail, hstem⟩ := hparent
  constructor
  · intro placeholder hheld
    rcases hother.names placeholder hheld with ⟨index, _, rfl⟩ | habsorbed
    · exact ⟨tail ++ "n" ++ toString index, by
        simp only [namePlaceholder, hstem, String.append_assoc]⟩
    · rw [hstem] at habsorbed
      exact habsorbed.of_parent
  · intro placeholder hheld
    rcases hother.values placeholder hheld with ⟨index, _, rfl⟩ | habsorbed
    · exact ⟨tail ++ "v" ++ toString index, by
        simp only [valuePlaceholder, hstem, String.append_assoc]⟩
    · rw [hstem] at habsorbed
      exact habsorbed.of_parent

theorem Aliases.WellFormed.merge {aliases other later : Aliases} (hformed : aliases.WellFormed)
    (hother : other.WellFormed) (hparent : aliases.IsParentOf other)
    (hrun : (Aliases.merge other).run.run aliases = (.ok (), later)) :
    later.WellFormed ∧ aliases.Extends later ∧
      ∀ bindings : Bindings, bindings.Cover later → bindings.Cover other := by
  obtain ⟨names, values, hnames, hvalues, rfl⟩ := run_merge_ok hrun
  obtain ⟨hnamesAbsorbed, hvaluesAbsorbed⟩ := hother.absorbed hparent
  refine ⟨⟨hformed.stem, ?_, ?_, ?_⟩, ⟨rfl, hnames.kept, hvalues.kept⟩, ?_⟩
  · intro index segment hsegment
    exact hnames.kept _ _ (hformed.segments index segment hsegment)
  · intro placeholder hheld
    rcases hnames.origin placeholder hheld with hold | htaken
    · exact hformed.names placeholder hold
    · exact .inr (hnamesAbsorbed placeholder htaken)
  · intro placeholder hheld
    rcases hvalues.origin placeholder hheld with hold | htaken
    · exact hformed.values placeholder hold
    · exact .inr (hvaluesAbsorbed placeholder htaken)
  · intro bindings hcover
    constructor
    · intro placeholder segment hheld
      exact hcover.names _ _ (hnames.taken _ _ hheld)
    · intro placeholder value hheld
      exact hcover.values _ _ (hvalues.taken _ _ hheld)

/-! ### What computations on placeholders yield -/

/-- Whenever the computation succeeds, what was bound stays bound, and its result has a property
under all bindings that cover the placeholders taken so far. -/
def Rendering.Ensures {α : Type} (computation : Rendering α) (property : Bindings → α → Prop) :
    Prop :=
  ∀ ⦃aliases result later⦄, aliases.WellFormed →
    computation.run.run aliases = (.ok result, later) →
    later.WellFormed ∧ aliases.Extends later ∧
      ∀ bindings : Bindings, bindings.Cover later → property bindings result

section Ensures

variable {α β : Type} {property other : Bindings → α → Prop} {final : Bindings → β → Prop}

theorem Rendering.Ensures.bind {computation : Rendering α} {next : α → Rendering β}
    (hfirst : computation.Ensures property)
    (hnext : ∀ middle, (next middle).Ensures fun bindings result =>
      property bindings middle → final bindings result) :
    Rendering.Ensures (computation >>= next) final := by
  intro aliases result later hformed hrun
  obtain ⟨middle, between, hfirstRun, hnextRun⟩ := run_bind_ok hrun
  obtain ⟨hbetween, hextends, hmiddle⟩ := hfirst hformed hfirstRun
  obtain ⟨hlater, hextendsLater, hresult⟩ := hnext middle hbetween hnextRun
  refine ⟨hlater, hextends.trans hextendsLater, ?_⟩
  intro bindings hcover
  exact hresult bindings hcover (hmiddle bindings (hcover.of_extends hextendsLater))

theorem Rendering.Ensures.pure {value : α} (hvalue : ∀ bindings, property bindings value) :
    Rendering.Ensures (Pure.pure value) property := by
  intro aliases result later hformed hrun
  obtain ⟨rfl, rfl⟩ := run_pure_ok hrun
  exact ⟨hformed, .refl _, fun bindings _ => hvalue bindings⟩

theorem Rendering.Ensures.mono {computation : Rendering α} (hensures : computation.Ensures property)
    (himplies : ∀ bindings result, property bindings result → other bindings result) :
    computation.Ensures other := by
  intro aliases result later hformed hrun
  obtain ⟨hlater, hextends, hresult⟩ := hensures hformed hrun
  exact ⟨hlater, hextends, fun bindings hcover => himplies _ _ (hresult bindings hcover)⟩

theorem Rendering.Ensures.bind_except {outcome : Except Error α} {next : α → Rendering β}
    (hnext : ∀ value, outcome = .ok value → (next value).Ensures final) :
    Rendering.Ensures (liftM outcome >>= next) final := by
  intro aliases result later hformed hrun
  obtain ⟨value, between, hvalue, hrest⟩ := run_bind_ok hrun
  obtain ⟨houtcome, rfl⟩ := run_except_ok hvalue
  exact hnext value houtcome hformed hrest

theorem Rendering.Ensures.throw (error : Error) :
    Rendering.Ensures (MonadExcept.throw error : Rendering α) property := by
  intro aliases result later _ hrun
  cases hrun

end Ensures

/-- The placeholder of a segment. -/
structure IsName (bindings : Bindings) (text segment : String) : Prop where
  lexes : Lexes text [.name text]
  bound : Entries.find? bindings.names text = some segment

/-- The placeholder of a value. -/
structure IsValue (bindings : Bindings) (text : String) (value : Attribute) : Prop where
  lexes : Lexes text [.value text]
  bound : Entries.find? bindings.values text = some value

/-- The placeholders of a path with points between them. -/
def IsPath (bindings : Bindings) (text : String) (segments : List String) : Prop :=
  ∃ tokens, Lexes text tokens ∧ PathTokens bindings tokens segments

theorem ensures_name (segment : String) :
    Rendering.Ensures (liftM (Aliases.name segment)) fun bindings text =>
      IsName bindings text segment := by
  intro aliases text later hformed hrun
  have hname := run_lift_ok hrun
  unfold Aliases.name StateT.run at hname
  dsimp only at hname
  split at hname
  · rename_i index hindex
    cases hname
    refine ⟨hformed, .refl _, ?_⟩
    intro bindings hcover
    exact ⟨lexes_namePlaceholder hformed.stem index,
      hcover.names _ _ (hformed.name_known hindex)⟩
  · cases hname
    refine ⟨hformed.withSegment segment, hformed.extends_withSegment segment, ?_⟩
    intro bindings hcover
    refine ⟨lexes_namePlaceholder hformed.stem _, hcover.names _ _ ?_⟩
    rw [Entries.find?_insert, if_pos rfl]

theorem ensures_value (value : Attribute) :
    Rendering.Ensures (liftM (Aliases.value value)) fun bindings text =>
      IsValue bindings text value := by
  intro aliases text later hformed hrun
  have hvalue := run_lift_ok hrun
  cases hvalue
  refine ⟨hformed.withValue value, hformed.extends_withValue value, ?_⟩
  intro bindings hcover
  refine ⟨lexes_valuePlaceholder hformed.stem _, hcover.values _ _ ?_⟩
  rw [Item.set, Entries.find?_insert, if_pos rfl]

theorem ensures_names (segments : List String) :
    Rendering.Ensures (liftM (segments.mapM Aliases.name)) fun bindings texts =>
      List.Forall₂ (IsName bindings) texts segments := by
  induction segments with
  | nil => exact .pure fun _ => .nil
  | cons segment rest ih =>
    rw [List.mapM_cons, liftM_bind]
    refine .bind (ensures_name segment) fun text => ?_
    rw [liftM_bind]
    refine .bind ih fun texts => ?_
    exact .pure fun bindings hrest hsegment => .cons hsegment hrest

theorem isPath_intercalate {bindings : Bindings} {texts segments : List String}
    (hnames : List.Forall₂ (IsName bindings) texts segments) (hne : segments ≠ []) :
    IsPath bindings (".".intercalate texts) segments := by
  induction hnames with
  | nil => exact absurd rfl hne
  | @cons text segment texts segments hname hrest ih =>
    cases hrest with
    | nil =>
      rw [String.intercalate_singleton]
      exact ⟨_, hname.lexes, .last hname.bound⟩
    | cons hnext hafter =>
      obtain ⟨tokens, hlexes, hpath⟩ := ih (List.cons_ne_nil _ _)
      have hdot : Lexes "." [.dot] := by cbv
      rw [String.intercalate_cons_cons]
      exact ⟨_, hname.lexes.separate hdot hlexes (by decide) (by decide), .step hname.bound hpath⟩

theorem ensures_path {segments : List String} (hne : segments ≠ []) :
    Rendering.Ensures (liftM (Aliases.path segments)) fun bindings text =>
      IsPath bindings text segments := by
  unfold Aliases.path
  rw [liftM_bind]
  refine .bind (ensures_names segments) fun texts => ?_
  exact .pure fun bindings hnames => isPath_intercalate hnames hne

end Expression

end RecordStore
