import RecordStore.Proofs.Entries
import RecordStore.Proofs.Expression.Handout

/-!
# Accounts of placeholders

A generator is told apart by its address, the numbers of nested generators on the way to it. Its stem
spells the address, and the address can be read back from every placeholder that it hands out. An
account of a generator says that it binds exactly what was handed out by itself and by the generators
merged into it. It is kept when placeholders are handed out and when nested generators are merged.
-/

namespace RecordStore

namespace Expression

open Aliases

/-! ### Addresses -/

/-- The numbers of the nested builders on the way from the first builder. -/
abbrev Address := List Nat

def stemOf : Address → String
  | [] => ""
  | index :: rest => "c" ++ toString index ++ "_" ++ stemOf rest

theorem stemOf_append (address : Address) (index : Nat) :
    stemOf (address ++ [index]) = stemOf address ++ "c" ++ toString index ++ "_" := by
  induction address with
  | nil => simp [stemOf]
  | cons first rest ih =>
    rw [List.cons_append, stemOf, ih, stemOf]
    simp only [String.append_assoc]

theorem isStem_stemOf (address : Address) : IsStem (stemOf address) := by
  induction address with
  | nil => exact isStem_empty
  | cons index rest ih =>
    exact (((isStem_of_all (by decide)).append (isStem_toString index)).append
      (isStem_of_all (by decide))).append ih

theorem toList_stemOf_cons (index : Nat) (rest : Address) :
    (stemOf (index :: rest)).toList =
      'c' :: ((toString index).toList ++ '_' :: (stemOf rest).toList) := by
  simp [stemOf]

theorem underscore_not_mem_toString (index : Nat) : '_' ∉ (toString index).toList := by
  intro hmem
  have hdigit : '_'.isDigit = true := isDigit_of_mem_toString hmem
  exact absurd hdigit (by decide)

theorem append_cons_inj {α : Type} {left right leftRest rightRest : List α} {mark : α}
    (hleft : mark ∉ left) (hright : mark ∉ right)
    (hequal : left ++ mark :: leftRest = right ++ mark :: rightRest) :
    left = right ∧ leftRest = rightRest := by
  induction left generalizing right with
  | nil =>
    cases right with
    | nil => exact ⟨rfl, (List.cons.inj hequal).2⟩
    | cons item rest =>
      obtain ⟨rfl, _⟩ := List.cons.inj hequal
      exact absurd List.mem_cons_self hright
  | cons item rest ih =>
    cases right with
    | nil =>
      obtain ⟨rfl, _⟩ := List.cons.inj hequal
      exact absurd List.mem_cons_self hleft
    | cons other others =>
      obtain ⟨rfl, hrest⟩ := List.cons.inj hequal
      obtain ⟨rfl, hrests⟩ := ih (List.not_mem_of_not_mem_cons hleft)
        (List.not_mem_of_not_mem_cons hright) hrest
      exact ⟨rfl, hrests⟩

/-- An address can be read back from its stem when another letter than that of a further number
follows. -/
theorem stemOf_append_inj {left right : Address} {letter : Char} {leftRest rightRest : List Char}
    (hletter : letter ≠ 'c')
    (hequal : (stemOf left).toList ++ letter :: leftRest =
      (stemOf right).toList ++ letter :: rightRest) :
    left = right ∧ leftRest = rightRest := by
  induction left generalizing right with
  | nil =>
    cases right with
    | nil => exact ⟨rfl, (List.cons.inj hequal).2⟩
    | cons index rest =>
      rw [toList_stemOf_cons] at hequal
      exact absurd (List.cons.inj hequal).1 hletter
  | cons index rest ih =>
    cases right with
    | nil =>
      rw [toList_stemOf_cons] at hequal
      exact absurd (List.cons.inj hequal).1.symm hletter
    | cons other others =>
      rw [toList_stemOf_cons, toList_stemOf_cons] at hequal
      simp only [List.cons_append, List.append_assoc, List.cons.injEq, true_and] at hequal
      -- Counters hold no underscore, so the first underscores stand at the same place.
      obtain ⟨hindex, hrest⟩ := append_cons_inj (underscore_not_mem_toString index)
        (underscore_not_mem_toString other) hequal
      obtain ⟨rfl, hrests⟩ := ih hrest
      exact ⟨by rw [Nat.repr_injective (String.toList_inj.mp hindex)], hrests⟩

theorem namePlaceholder_stemOf_inj {left right : Address} {index other : Nat}
    (hequal : namePlaceholder (stemOf left) index = namePlaceholder (stemOf right) other) :
    left = right ∧ index = other := by
  have hlists := congrArg String.toList hequal
  simp only [toList_namePlaceholder, String.toList_append, List.append_assoc,
    List.cons_inj_right] at hlists
  obtain ⟨rfl, hdigits⟩ := stemOf_append_inj (by decide) hlists
  exact ⟨rfl, Nat.repr_injective (String.toList_inj.mp hdigits)⟩

theorem valuePlaceholder_stemOf_inj {left right : Address} {index other : Nat}
    (hequal : valuePlaceholder (stemOf left) index = valuePlaceholder (stemOf right) other) :
    left = right ∧ index = other := by
  have hlists := congrArg String.toList hequal
  simp only [toList_valuePlaceholder, String.toList_append, List.append_assoc,
    List.cons_inj_right] at hlists
  obtain ⟨rfl, hdigits⟩ := stemOf_append_inj (by decide) hlists
  exact ⟨rfl, Nat.repr_injective (String.toList_inj.mp hdigits)⟩

/-! ### Logs of handed out placeholders -/

/-- What was handed out so far, with the addresses of the builders that did so. -/
abbrev Log := List (Address × Handout)

/-- The placeholder is one of the builder at an address. -/
def Handout.IsOf (address : Address) : Handout → Prop
  | .name _ placeholder => ∃ index, placeholder = namePlaceholder (stemOf address) index
  | .value _ placeholder => ∃ index, placeholder = valuePlaceholder (stemOf address) index

/-- The placeholders of values that were handed out. -/
def Log.valuePlaceholders (log : Log) : List String :=
  log.filterMap fun entry => entry.2.valuePlaceholder?

/-- Builders hand out placeholders of their own, and none for two values. -/
structure Log.Sound (log : Log) : Prop where
  own : ∀ address handout, (address, handout) ∈ log → handout.IsOf address
  once : log.valuePlaceholders.Nodup

/-- The token of a handed out placeholder tells which builder handed it out. -/
theorem Handout.IsOf.eq_of_token {first second : Handout} {left right : Address}
    (hfirst : first.IsOf left) (hsecond : second.IsOf right) (htoken : first.token = second.token) :
    left = right := by
  cases first with
  | name =>
    cases second with
    | name =>
      obtain ⟨index, rfl⟩ := hfirst
      obtain ⟨other, rfl⟩ := hsecond
      exact (namePlaceholder_stemOf_inj (Token.name.inj htoken)).1
    | value => cases htoken
  | value =>
    cases second with
    | name => cases htoken
    | value =>
      obtain ⟨index, rfl⟩ := hfirst
      obtain ⟨other, rfl⟩ := hsecond
      exact (valuePlaceholder_stemOf_inj (Token.value.inj htoken)).1

/-- What a builder holds comes from itself or from a builder merged into one that it holds. -/
inductive Within (merged : Address → Prop) (address : Address) : Address → Prop
  | own : Within merged address address
  | absorbed {origin : Address} {index : Nat} (horigin : Within merged address origin)
    (hmerged : merged (origin ++ [index])) : Within merged address (origin ++ [index])

namespace Within

variable {merged : Address → Prop} {address origin child : Address} {index : Nat}

/-- Only a builder that has not been merged holds what it hands out for itself alone. -/
theorem eq_of_live (hwithin : Within merged address origin) (hlive : ¬ merged origin) :
    origin = address := by
  cases hwithin with
  | own => rfl
  | absorbed _ hmerged => exact absurd hmerged hlive

theorem exists_append (hwithin : Within merged address origin) :
    ∃ rest, origin = address ++ rest := by
  induction hwithin with
  | own => exact ⟨[], (List.append_nil _).symm⟩
  | absorbed _ _ ih =>
    obtain ⟨rest, rfl⟩ := ih
    exact ⟨rest ++ [_], List.append_assoc _ _ _⟩

/-- A builder holds what comes from below a nested builder only after that one was merged. -/
theorem merged_of_below (hwithin : Within merged address origin) {rest : Address}
    (hbelow : origin = address ++ index :: rest) : merged (address ++ [index]) := by
  induction hwithin generalizing rest with
  | own => simp at hbelow
  | absorbed _ hmerged ih =>
    -- The last merge is the one in question, or it lies further down.
    rcases List.eq_nil_or_concat' rest with rfl | ⟨others, last, rfl⟩
    · rw [hbelow] at hmerged
      exact hmerged
    · rw [← List.cons_append, ← List.append_assoc] at hbelow
      exact ih (List.append_inj' hbelow rfl).1

theorem mono {more : Address → Prop} (hwithin : Within merged address origin)
    (hmore : ∀ other, merged other → more other) : Within more address origin := by
  induction hwithin with
  | own => exact .own
  | absorbed _ hmerged ih => exact .absorbed ih (hmore _ hmerged)

theorem trans (hchild : Within merged address child) (horigin : Within merged child origin) :
    Within merged address origin := by
  induction horigin with
  | own => exact hchild
  | absorbed _ hmerged ih => exact .absorbed ih hmerged

/-- When a nested builder is merged, its creator holds what both held. -/
theorem of_merge
    (hwithin : Within (fun other => merged other ∨ other = child ++ [index]) address origin) :
    Within merged address origin ∨
      Within merged address child ∧ Within merged (child ++ [index]) origin := by
  induction hwithin with
  | own => exact .inl .own
  | absorbed _ hmerged ih =>
    rcases hmerged with hmerged | hchild
    · rcases ih with hheld | ⟨hparent, hheld⟩
      · exact .inl (.absorbed hheld hmerged)
      · exact .inr ⟨hparent, .absorbed hheld hmerged⟩
    · obtain ⟨rfl, hindex⟩ := List.append_inj' hchild rfl
      cases hindex
      rcases ih with hparent | ⟨hparent, _⟩
      · exact .inr ⟨hparent, .own⟩
      · exact .inr ⟨hparent, .own⟩

/-- A merge is no concern of other builders than the creator, which is not merged itself. -/
theorem merge_iff_of_ne (hlive : ¬ merged child) (hother : address ≠ child) :
    Within (fun other => merged other ∨ other = child ++ [index]) address origin ↔
      Within merged address origin := by
  refine ⟨fun hwithin => ?_, fun hwithin => hwithin.mono fun _ => .inl⟩
  rcases hwithin.of_merge with hheld | ⟨hparent, _⟩
  · exact hheld
  · exact absurd (hparent.eq_of_live hlive).symm hother

end Within

/-- A builder holds a placeholder that was handed out. -/
def Log.Reaches (log : Log) (merged : Address → Prop) (address : Address) (handout : Handout) :
    Prop :=
  ∃ origin, Within merged address origin ∧ (origin, handout) ∈ log

/-! ### Accounts of generators -/

/-- The bindings of a generator are exactly what was handed out by itself and by the generators
merged into it. -/
structure Account (log : Log) (merged : Address → Prop) (address : Address) (aliases : Aliases) :
    Prop where
  stem : aliases.stem = stemOf address
  distinct : aliases.segments.Nodup
  ascendingNames : Entries.Ascending aliases.names
  ascendingValues : Entries.Ascending aliases.values
  numbered : ∀ segment placeholder, (address, .name segment placeholder) ∈ log ↔
    ∃ index, aliases.segments[index]? = some segment ∧
      placeholder = namePlaceholder (stemOf address) index
  bounded : ∀ bound placeholder, (address, .value bound placeholder) ∈ log →
    ∃ index < aliases.next, placeholder = valuePlaceholder (stemOf address) index
  names : ∀ placeholder segment, Entries.find? aliases.names placeholder = some segment ↔
    log.Reaches merged address (.name segment placeholder)
  values : ∀ placeholder bound, Entries.find? aliases.values placeholder = some bound ↔
    log.Reaches merged address (.value bound placeholder)

theorem getElem?_concat_iff {α : Type} {items : List α} {last item : α} {index : Nat} :
    (items ++ [last])[index]? = some item ↔
      items[index]? = some item ∨ index = items.length ∧ item = last := by
  rw [List.getElem?_append]
  split
  · rename_i hless
    exact ⟨.inl, fun hitem => hitem.resolve_right fun hlast => by omega⟩
  · rename_i hnotLess
    rw [List.getElem?_eq_none (by omega : items.length ≤ index)]
    by_cases hlength : index = items.length
    · subst hlength
      simp [eq_comm]
    · have hbeyond : [last].length ≤ index - items.length := by
        rw [List.length_singleton]
        omega
      rw [List.getElem?_eq_none hbeyond]
      simp [hlength]

/-- What is held once a new name is bound. -/
theorem find?_insert_new {α : Type} {entries : List (String × α)} {name other : String}
    {value held : α} (hnew : Entries.find? entries name = none) :
    Entries.find? (Entries.insert entries name value) other = some held ↔
      Entries.find? entries other = some held ∨ other = name ∧ held = value := by
  rw [Entries.find?_insert]
  split
  · rename_i hsame
    subst hsame
    simp [hnew, eq_comm]
  · rename_i hdifferent
    simp [Ne.symm hdifferent]

theorem Log.Reaches.concat_iff {log : Log} {merged : Address → Prop} {address owner : Address}
    {handout other : Handout} :
    Log.Reaches (log ++ [(owner, other)]) merged address handout ↔
      log.Reaches merged address handout ∨ Within merged address owner ∧ handout = other := by
  constructor
  · rintro ⟨origin, hwithin, hmem⟩
    rcases List.mem_append.mp hmem with hold | hnew
    · exact .inl ⟨origin, hwithin, hold⟩
    · cases List.mem_singleton.mp hnew
      exact .inr ⟨hwithin, rfl⟩
  · rintro (⟨origin, hwithin, hold⟩ | ⟨hwithin, rfl⟩)
    · exact ⟨origin, hwithin, List.mem_append_left _ hold⟩
    · exact ⟨owner, hwithin, List.mem_append_right _ (List.mem_singleton_self _)⟩

namespace Account

variable {log : Log} {merged : Address → Prop} {address : Address} {aliases later : Aliases}

theorem isStem (haccount : Account log merged address aliases) : IsStem aliases.stem :=
  haccount.stem ▸ isStem_stemOf address

theorem empty (hnone : ∀ handout, ¬ log.Reaches merged address handout) :
    Account log merged address (.empty (stemOf address)) where
  stem := rfl
  distinct := List.nodup_nil
  ascendingNames := List.Pairwise.nil
  ascendingValues := List.Pairwise.nil
  numbered segment placeholder := by
    refine ⟨fun hmem => absurd ⟨address, .own, hmem⟩ (hnone _), ?_⟩
    rintro ⟨index, hindex, _⟩
    cases hindex
  bounded bound placeholder hmem := absurd ⟨address, .own, hmem⟩ (hnone _)
  names _ _ := ⟨nofun, fun hreaches => absurd hreaches (hnone _)⟩
  values _ _ := ⟨nofun, fun hreaches => absurd hreaches (hnone _)⟩

/-- The placeholder that the next new segment gets was not handed out before. -/
theorem name_fresh (haccount : Account log merged address aliases) (hsound : log.Sound)
    (origin : Address) (segment : String) :
    (origin, .name segment (namePlaceholder (stemOf address) aliases.segments.length)) ∉ log := by
  intro hmem
  obtain ⟨index, hindex⟩ := hsound.own _ _ hmem
  obtain ⟨rfl, rfl⟩ := namePlaceholder_stemOf_inj hindex
  obtain ⟨other, hother, hequal⟩ := (haccount.numbered _ _).mp hmem
  obtain ⟨_, rfl⟩ := namePlaceholder_stemOf_inj hequal
  rw [List.getElem?_eq_none (Nat.le_refl _)] at hother
  cases hother

theorem value_fresh (haccount : Account log merged address aliases) (hsound : log.Sound)
    (origin : Address) (bound : Attribute) :
    (origin, .value bound (valuePlaceholder (stemOf address) aliases.next)) ∉ log := by
  intro hmem
  obtain ⟨index, hindex⟩ := hsound.own _ _ hmem
  obtain ⟨rfl, rfl⟩ := valuePlaceholder_stemOf_inj hindex
  obtain ⟨other, hless, hequal⟩ := haccount.bounded _ _ hmem
  obtain ⟨_, rfl⟩ := valuePlaceholder_stemOf_inj hequal
  exact Nat.lt_irrefl _ hless

end Account

theorem Log.Sound.concat_name {log : Log} {address : Address} {segment placeholder : String}
    (hsound : log.Sound) (hown : (Handout.name segment placeholder).IsOf address) :
    Log.Sound (log ++ [(address, .name segment placeholder)]) where
  own origin handout hmem := by
    rcases List.mem_append.mp hmem with hold | hnew
    · exact hsound.own _ _ hold
    · cases List.mem_singleton.mp hnew
      exact hown
  once := by
    have hsame : Log.valuePlaceholders (log ++ [(address, .name segment placeholder)]) =
        log.valuePlaceholders := by
      rw [valuePlaceholders, List.filterMap_append]
      exact List.append_nil _
    rw [hsame]
    exact hsound.once

theorem Log.Sound.concat_value {log : Log} {address : Address} {bound : Attribute}
    {placeholder : String} (hsound : log.Sound)
    (hown : (Handout.value bound placeholder).IsOf address)
    (hfresh : ∀ origin other, (origin, .value other placeholder) ∉ log) :
    Log.Sound (log ++ [(address, .value bound placeholder)]) where
  own origin handout hmem := by
    rcases List.mem_append.mp hmem with hold | hnew
    · exact hsound.own _ _ hold
    · cases List.mem_singleton.mp hnew
      exact hown
  once := by
    have hconcat : Log.valuePlaceholders (log ++ [(address, .value bound placeholder)]) =
        log.valuePlaceholders ++ [placeholder] := List.filterMap_append
    rw [hconcat]
    refine List.nodup_append.mpr ⟨hsound.once, List.nodup_singleton _, ?_⟩
    rintro taken htaken _ hlast rfl
    cases List.mem_singleton.mp hlast
    obtain ⟨⟨origin, handout⟩, hmem, htaken⟩ := List.mem_filterMap.mp htaken
    cases handout with
    | name => cases htaken
    | value other held =>
      cases htaken
      exact hfresh origin other hmem

/-! ### What a generator hands out keeps its account -/

namespace Account

variable {log : Log} {merged : Address → Prop} {address : Address} {aliases later : Aliases}

theorem withSegment (haccount : Account log merged address aliases) (hsound : log.Sound)
    {segment : String} (hnew : segment ∉ aliases.segments) :
    Account (log ++ [(address,
      .name segment (namePlaceholder (stemOf address) aliases.segments.length))]) merged address
      (aliases.withSegment segment) where
  stem := haccount.stem
  distinct := List.nodup_append.mpr ⟨haccount.distinct, List.nodup_singleton _, by
    rintro held hheld _ hlast rfl
    exact hnew (List.mem_singleton.mp hlast ▸ hheld)⟩
  ascendingNames := haccount.ascendingNames.insert _ _
  ascendingValues := haccount.ascendingValues
  numbered other placeholder := by
    rw [List.mem_append, List.mem_singleton, haccount.numbered]
    change _ ↔ ∃ index, (aliases.segments ++ [segment])[index]? = some other ∧ _
    simp only [getElem?_concat_iff, Prod.mk.injEq, Handout.name.injEq, true_and]
    constructor
    · rintro (⟨index, hindex, hequal⟩ | ⟨rfl, hequal⟩)
      · exact ⟨index, .inl hindex, hequal⟩
      · exact ⟨_, .inr ⟨rfl, rfl⟩, hequal⟩
    · rintro ⟨index, hindex | ⟨rfl, rfl⟩, hequal⟩
      · exact .inl ⟨index, hindex, hequal⟩
      · exact .inr ⟨rfl, hequal⟩
  bounded bound placeholder hmem := by
    refine haccount.bounded bound placeholder ?_
    simpa using hmem
  names placeholder other := by
    rw [Log.Reaches.concat_iff, ← haccount.names]
    change Entries.find? (Entries.insert aliases.names _ segment) placeholder = some other ↔ _
    have hnew : Entries.find? aliases.names
        (namePlaceholder (stemOf address) aliases.segments.length) = none := by
      refine Option.eq_none_iff_forall_ne_some.mpr fun held hheld => ?_
      obtain ⟨origin, _, hmem⟩ := (haccount.names _ _).mp hheld
      exact haccount.name_fresh hsound origin held hmem
    rw [haccount.stem, find?_insert_new hnew]
    simp [Within.own, and_comm]
  values placeholder bound := by
    rw [Log.Reaches.concat_iff, ← haccount.values]
    simp [Aliases.withSegment]

theorem withValue (haccount : Account log merged address aliases) (hsound : log.Sound)
    (bound : Attribute) :
    Account (log ++ [(address, .value bound (valuePlaceholder (stemOf address) aliases.next))])
      merged address (aliases.withValue bound) where
  stem := haccount.stem
  distinct := haccount.distinct
  ascendingNames := haccount.ascendingNames
  ascendingValues := haccount.ascendingValues.insert _ _
  numbered segment placeholder := by
    refine Iff.trans ?_ (haccount.numbered segment placeholder)
    simp
  bounded other placeholder hmem := by
    change ∃ index < aliases.next + 1, _
    rcases List.mem_append.mp hmem with hold | hnew
    · obtain ⟨index, hindex, hequal⟩ := haccount.bounded other placeholder hold
      exact ⟨index, by omega, hequal⟩
    · cases List.mem_singleton.mp hnew
      exact ⟨aliases.next, by omega, rfl⟩
  names placeholder segment := by
    rw [Log.Reaches.concat_iff, ← haccount.names]
    simp [Aliases.withValue]
  values placeholder other := by
    rw [Log.Reaches.concat_iff, ← haccount.values]
    change Entries.find? (Entries.insert aliases.values _ bound) placeholder = some other ↔ _
    have hnew : Entries.find? aliases.values
        (valuePlaceholder (stemOf address) aliases.next) = none := by
      refine Option.eq_none_iff_forall_ne_some.mpr fun held hheld => ?_
      obtain ⟨origin, _, hmem⟩ := (haccount.values _ _).mp hheld
      exact haccount.value_fresh hsound origin held hmem
    rw [haccount.stem, find?_insert_new hnew]
    simp [Within.own, and_comm]

/-- A segment that has its placeholder already is handed out the same one again. -/
theorem repeated (haccount : Account log merged address aliases) {handout : Handout}
    (hmem : (address, handout) ∈ log) :
    Account (log ++ [(address, handout)]) merged address aliases := by
  have hlog : ∀ entry, entry ∈ log ++ [(address, handout)] ↔ entry ∈ log := by
    intro entry
    rw [List.mem_append, List.mem_singleton]
    exact ⟨fun hentry => hentry.elim id fun hsame => hsame ▸ hmem, .inl⟩
  have hreaches : ∀ other, Log.Reaches (log ++ [(address, handout)]) merged address other ↔
      log.Reaches merged address other := by
    intro other
    simp only [Log.Reaches, hlog]
  exact {
    haccount with
    numbered := fun segment placeholder => (hlog _).trans (haccount.numbered segment placeholder)
    bounded := fun bound placeholder hheld =>
      haccount.bounded bound placeholder ((hlog _).mp hheld)
    names := fun placeholder segment => (haccount.names placeholder segment).trans (hreaches _).symm
    values := fun placeholder bound => (haccount.values placeholder bound).trans (hreaches _).symm }

theorem handsOut (hsound : log.Sound) (haccount : Account log merged address aliases)
    {handouts : List Handout} (hhands : aliases.HandsOut handouts later) :
    Log.Sound (log ++ handouts.map (Prod.mk address)) ∧
      Account (log ++ handouts.map (Prod.mk address)) merged address later := by
  induction hhands generalizing log with
  | nothing =>
    rw [List.map_nil, List.append_nil]
    exact ⟨hsound, haccount⟩
  | name hname _ ih =>
    rw [List.map_cons, List.append_cons]
    rcases run_name hname with ⟨index, hindex, rfl, rfl⟩ | ⟨hnew, rfl, rfl⟩
    · obtain ⟨hbound, hsegment, _⟩ := List.idxOf?_eq_some_iff.mp hindex
      rw [haccount.stem]
      have hmem := (haccount.numbered _ _).mpr
        ⟨index, List.getElem?_eq_some_iff.mpr ⟨hbound, hsegment⟩, rfl⟩
      exact ih (hsound.concat_name ⟨_, rfl⟩) (haccount.repeated hmem)
    · rw [haccount.stem]
      exact ih (hsound.concat_name ⟨_, rfl⟩)
        (haccount.withSegment hsound (List.idxOf?_eq_none_iff.mp hnew))
  | value hvalue _ ih =>
    rw [List.map_cons, List.append_cons]
    cases hvalue
    rw [haccount.stem]
    refine ih (hsound.concat_value ⟨_, rfl⟩ fun origin other => haccount.value_fresh hsound _ _) ?_
    exact haccount.withValue hsound _

/-- What another builder hands out is no concern of a builder that it was not merged into. -/
theorem frame (haccount : Account log merged address aliases) {owner : Address}
    (hother : address ≠ owner) (hlive : ¬ merged owner) (handouts : List Handout) :
    Account (log ++ handouts.map (Prod.mk owner)) merged address aliases := by
  have hmem : ∀ origin handout, Within merged address origin →
      ((origin, handout) ∈ log ++ handouts.map (Prod.mk owner) ↔ (origin, handout) ∈ log) := by
    intro origin handout hwithin
    rw [List.mem_append, List.mem_map]
    refine ⟨fun hentry => hentry.elim id ?_, .inl⟩
    rintro ⟨given, _, hequal⟩
    cases hequal
    exact absurd (hwithin.eq_of_live hlive).symm hother
  have hreaches : ∀ handout,
      Log.Reaches (log ++ handouts.map (Prod.mk owner)) merged address handout ↔
        log.Reaches merged address handout := by
    intro handout
    exact exists_congr fun origin => and_congr_right fun hwithin => hmem origin handout hwithin
  exact {
    haccount with
    numbered := fun segment placeholder =>
      (hmem _ _ .own).trans (haccount.numbered segment placeholder)
    bounded := fun bound placeholder hheld =>
      haccount.bounded bound placeholder ((hmem _ _ .own).mp hheld)
    names := fun placeholder segment => (haccount.names placeholder segment).trans (hreaches _).symm
    values := fun placeholder bound => (haccount.values placeholder bound).trans (hreaches _).symm }

/-- Only what a builder holds counts for its account. -/
theorem congr {others : Address → Prop} (haccount : Account log merged address aliases)
    (hsame : ∀ origin, Within others address origin ↔ Within merged address origin) :
    Account log others address aliases := by
  have hreaches : ∀ handout,
      log.Reaches others address handout ↔ log.Reaches merged address handout :=
    fun handout => exists_congr fun origin => and_congr_left fun _ => hsame origin
  exact {
    haccount with
    names := fun placeholder segment => (haccount.names placeholder segment).trans (hreaches _).symm
    values := fun placeholder bound => (haccount.values placeholder bound).trans (hreaches _).symm }

end Account

/-! ### The tokens that a generator binds -/

def Aliases.tokens (aliases : Aliases) : List Token :=
  (Entries.names aliases.names).map .name ++ (Entries.names aliases.values).map .value

theorem Aliases.name_mem_tokens {aliases : Aliases} {placeholder : String} :
    .name placeholder ∈ aliases.tokens ↔ Entries.contains aliases.names placeholder = true := by
  rw [tokens, Entries.contains, Option.isSome_iff_ne_none, ← Entries.mem_names_iff]
  simp

theorem Aliases.value_mem_tokens {aliases : Aliases} {placeholder : String} :
    .value placeholder ∈ aliases.tokens ↔ Entries.contains aliases.values placeholder = true := by
  rw [tokens, Entries.contains, Option.isSome_iff_ne_none, ← Entries.mem_names_iff]
  simp

namespace Account

variable {log : Log} {merged : Address → Prop} {address : Address} {aliases later : Aliases}

theorem mem_tokens (haccount : Account log merged address aliases) {handout : Handout}
    (hreaches : log.Reaches merged address handout) : handout.token ∈ aliases.tokens := by
  cases handout with
  | name segment placeholder =>
    refine Aliases.name_mem_tokens.mpr ?_
    rw [Entries.contains, (haccount.names placeholder segment).mpr hreaches]
    rfl
  | value bound placeholder =>
    refine Aliases.value_mem_tokens.mpr ?_
    rw [Entries.contains, (haccount.values placeholder bound).mpr hreaches]
    rfl

theorem exists_of_mem_tokens (haccount : Account log merged address aliases) {token : Token}
    (hmem : token ∈ aliases.tokens) :
    ∃ handout, log.Reaches merged address handout ∧ handout.token = token := by
  rcases List.mem_append.mp hmem with hname | hvalue
  · obtain ⟨placeholder, _, rfl⟩ := List.mem_map.mp hname
    obtain ⟨segment, hfind⟩ := Option.isSome_iff_exists.mp (Aliases.name_mem_tokens.mp hmem)
    exact ⟨.name segment placeholder, (haccount.names _ _).mp hfind, rfl⟩
  · obtain ⟨placeholder, _, rfl⟩ := List.mem_map.mp hvalue
    obtain ⟨bound, hfind⟩ := Option.isSome_iff_exists.mp (Aliases.value_mem_tokens.mp hmem)
    exact ⟨.value bound placeholder, (haccount.values _ _).mp hfind, rfl⟩

theorem tokens_subset {more : Log} {others : Address → Prop} {owner : Address}
    (haccount : Account log merged address aliases) (hlater : Account more others owner later)
    (hreaches : ∀ handout, log.Reaches merged address handout → more.Reaches others owner handout) :
    aliases.tokens ⊆ later.tokens := by
  intro token hmem
  obtain ⟨handout, hheld, rfl⟩ := haccount.exists_of_mem_tokens hmem
  exact hlater.mem_tokens (hreaches handout hheld)

end Account

theorem Log.Reaches.append {log : Log} {merged : Address → Prop} {address : Address}
    {handout : Handout} (hreaches : log.Reaches merged address handout) (more : Log) :
    Log.Reaches (log ++ more) merged address handout := by
  obtain ⟨origin, hwithin, hmem⟩ := hreaches
  exact ⟨origin, hwithin, List.mem_append_left _ hmem⟩

/-! ### Merging generators -/

section Merging

variable {α : Type} {held entries later : List (String × α)}

/-- New bindings with distinct names are taken over without a clash. -/
theorem exists_adopt (hheld : Entries.Ascending held) (hdistinct : (Entries.names entries).Nodup)
    (hnew : ∀ name ∈ Entries.names entries, Entries.find? held name = none) :
    ∃ later, (entries.forM Aliases.adopt).run.run held = (.ok (), later) ∧
      Entries.Ascending later := by
  induction entries generalizing held with
  | nil => exact ⟨held, rfl, hheld⟩
  | cons entry rest ih =>
    obtain ⟨hfirst, hrest⟩ := List.nodup_cons.mp hdistinct
    have hfree : Entries.contains held entry.1 = false := by
      rw [Entries.contains, hnew entry.1 List.mem_cons_self]
      rfl
    have hadopt : (Aliases.adopt entry).run.run held =
        (.ok (), Entries.insert held entry.1 entry.2) := by
      change (if Entries.contains held entry.1 = true then _ else _ :
        ExceptT Error (StateM (List (String × α))) Unit).run.run _ = _
      rw [if_neg (by rw [hfree]; exact Bool.false_ne_true)]
      rfl
    obtain ⟨later, hrun, hascending⟩ := ih (hheld.insert entry.1 entry.2) hrest (by
      intro name hname
      rw [Entries.find?_insert, if_neg]
      · exact hnew name (List.mem_cons_of_mem _ hname)
      · rintro rfl
        exact hfirst hname)
    exact ⟨later, (run_bind_of_ok hadopt).trans hrun, hascending⟩

theorem Adopted.find?_iff (hadopted : Adopted held entries later) (placeholder : String)
    (value : α) : Entries.find? later placeholder = some value ↔
      Entries.find? held placeholder = some value ∨
        Entries.find? entries placeholder = some value := by
  constructor
  · intro hlater
    have hcontains : Entries.contains later placeholder = true := by
      rw [Entries.contains, hlater]
      rfl
    rcases hadopted.origin placeholder hcontains with hkept | htaken
    · obtain ⟨other, hother⟩ := Option.isSome_iff_exists.mp hkept
      have hsame := hadopted.kept placeholder other hother
      rw [hlater] at hsame
      cases hsame
      exact .inl hother
    · obtain ⟨other, hother⟩ := Option.isSome_iff_exists.mp htaken
      have hsame := hadopted.taken placeholder other hother
      rw [hlater] at hsame
      cases hsame
      exact .inr hother
  · rintro (hkept | htaken)
    · exact hadopted.kept placeholder value hkept
    · exact hadopted.taken placeholder value htaken

end Merging

namespace Account

variable {log : Log} {merged : Address → Prop} {address : Address} {index : Nat}
  {aliases other later : Aliases}

/-- A nested builder that was not merged holds nothing that its creator holds. -/
theorem apart (hsound : log.Sound) (hlive : ¬ merged (address ++ [index])) {first second : Handout}
    (hfirst : log.Reaches merged address first)
    (hsecond : log.Reaches merged (address ++ [index]) second) : first.token ≠ second.token := by
  intro htoken
  obtain ⟨origin, hwithin, hmem⟩ := hfirst
  obtain ⟨nested, hnested, hmemNested⟩ := hsecond
  obtain rfl := (hsound.own _ _ hmem).eq_of_token (hsound.own _ _ hmemNested) htoken
  clear hmem hmemNested
  -- What the creator holds from below the nested builder came with a merge of that one.
  obtain ⟨rest, hrest⟩ := hnested.exists_append
  rw [List.append_assoc] at hrest
  exact hlive (hwithin.merged_of_below hrest)

theorem merge_names_free (hsound : log.Sound) (hlive : ¬ merged (address ++ [index]))
    (haccount : Account log merged address aliases)
    (hother : Account log merged (address ++ [index]) other) :
    ∀ name ∈ Entries.names other.names, Entries.find? aliases.names name = none := by
  intro name hname
  obtain ⟨segment, hsegment⟩ := Option.ne_none_iff_exists'.mp (Entries.mem_names_iff.mp hname)
  refine Option.eq_none_iff_forall_ne_some.mpr fun held hheld => ?_
  exact apart hsound hlive ((haccount.names _ _).mp hheld) ((hother.names _ _).mp hsegment) rfl

theorem merge_values_free (hsound : log.Sound) (hlive : ¬ merged (address ++ [index]))
    (haccount : Account log merged address aliases)
    (hother : Account log merged (address ++ [index]) other) :
    ∀ name ∈ Entries.names other.values, Entries.find? aliases.values name = none := by
  intro name hname
  obtain ⟨bound, hbound⟩ := Option.ne_none_iff_exists'.mp (Entries.mem_names_iff.mp hname)
  refine Option.eq_none_iff_forall_ne_some.mpr fun held hheld => ?_
  exact apart hsound hlive ((haccount.values _ _).mp hheld) ((hother.values _ _).mp hbound) rfl

end Account

theorem stemOf_append_ne (address : Address) (index : Nat) :
    stemOf (address ++ [index]) ≠ stemOf address := by
  intro hequal
  have hlengths := congrArg String.length hequal
  simp only [stemOf_append, String.length_append] at hlengths
  have hletter : "c".length = 1 := rfl
  omega

/-- After a merge the creator holds what both held. -/
theorem Log.Reaches.merge_iff {log : Log} {merged : Address → Prop} {address : Address}
    {index : Nat} {handout : Handout} :
    log.Reaches (fun other => merged other ∨ other = address ++ [index]) address handout ↔
      log.Reaches merged address handout ∨ log.Reaches merged (address ++ [index]) handout := by
  constructor
  · rintro ⟨origin, hwithin, hmem⟩
    exact hwithin.of_merge.imp (fun hheld => ⟨origin, hheld, hmem⟩)
      fun hnested => ⟨origin, hnested.2, hmem⟩
  · rintro (⟨origin, hwithin, hmem⟩ | ⟨origin, hwithin, hmem⟩)
    · exact ⟨origin, hwithin.mono fun _ => .inl, hmem⟩
    · exact ⟨origin, .trans (.absorbed .own (.inr rfl)) (hwithin.mono fun _ => .inl), hmem⟩

/-- A nested generator can be merged into its creator, which then accounts for both. -/
theorem Account.exists_merge {log : Log} {merged : Address → Prop} {address : Address} {index : Nat}
    {aliases other : Aliases} (hsound : log.Sound) (hlive : ¬ merged (address ++ [index]))
    (haccount : Account log merged address aliases)
    (hother : Account log merged (address ++ [index]) other) :
    ∃ later, (Aliases.merge other).run.run aliases = (.ok (), later) ∧
      Account log (fun other => merged other ∨ other = address ++ [index]) address later := by
  obtain ⟨names, hnames, hascendingNames⟩ := exists_adopt haccount.ascendingNames
    hother.ascendingNames.nodup (merge_names_free hsound hlive haccount hother)
  obtain ⟨values, hvalues, hascendingValues⟩ := exists_adopt haccount.ascendingValues
    hother.ascendingValues.nodup (merge_values_free hsound hlive haccount hother)
  have hstem : other.stem ≠ aliases.stem := by
    rw [hother.stem, haccount.stem]
    exact stemOf_append_ne address index
  have hrun : (Aliases.merge other).run.run aliases = (.ok (), { aliases with names, values }) := by
    change Aliases.merge other aliases = _
    rw [Aliases.merge, if_neg hstem, hnames]
    dsimp only
    rw [hvalues]
  refine ⟨_, hrun, ?_⟩
  exact {
    stem := haccount.stem
    distinct := haccount.distinct
    ascendingNames := hascendingNames
    ascendingValues := hascendingValues
    numbered := haccount.numbered
    bounded := haccount.bounded
    names := fun placeholder segment => by
      rw [(adopted_of_run hnames).find?_iff, haccount.names, hother.names, Log.Reaches.merge_iff]
    values := fun placeholder bound => by
      rw [(adopted_of_run hvalues).find?_iff, haccount.values, hother.values,
        Log.Reaches.merge_iff] }

end Expression

end RecordStore
