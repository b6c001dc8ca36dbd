import RecordStore.Proofs.Expression.Account

/-!
# Trees of builders

Builders grow from one builder call by call: clauses and conditions are added to them, builders are
nested, and nested builders are merged into their creators. Along every such growth each builder
accounts for the placeholders that it binds, and its texts hold no others.
-/

namespace RecordStore

namespace Expression

/-! ### Texts of builders -/

namespace Builder

variable {builder other later : Builder} {given : List Token} {text : String}

theorem mem_texts_of_merge (hrun : (merge other).run.run builder = (.ok (), later))
    (hmem : text ∈ later.texts) : text ∈ builder.texts ∨ text ∈ other.texts := by
  obtain ⟨⟨⟩, between, hwith, hmodify⟩ := run_bind_ok hrun
  obtain ⟨aliases, _, rfl⟩ := run_withAliases_ok hwith
  cases hmodify
  simp only [texts, List.mem_append, mem_foldl_addPath] at hmem ⊢
  tauto

theorem madeOf_of_mem_group {keyword : String} {clauses : List String}
    (hfixed : isFixed (keyword ++ " ") = true) (hbreak : endsWithBreak (keyword ++ " ") = true)
    (hclauses : ∀ clause ∈ clauses, MadeOf given clause) (hmem : text ∈ group keyword clauses) :
    MadeOf given text := by
  unfold group at hmem
  split at hmem
  · cases hmem
  · cases List.mem_singleton.mp hmem
    exact .opened hfixed hbreak (.intercalate (by cbv) hclauses)

theorem madeOf_of_joined {separator : String} {texts : List String}
    (hseparator : isSeparator separator = true) (htexts : ∀ text ∈ texts, MadeOf given text)
    (hjoined : joined separator texts = some text) : MadeOf given text := by
  unfold joined at hjoined
  split at hjoined
  · cases hjoined
  · cases hjoined
    exact .intercalate hseparator htexts

end Builder

/-- The texts of a compiled request. -/
def Compiled.texts (compiled : Compiled) : List String :=
  [compiled.update, compiled.condition, compiled.keyCondition, compiled.projection].reduceOption

theorem Builder.madeOf_compile {builder : Builder} {given : List Token}
    (htexts : ∀ text ∈ builder.texts, MadeOf given text) :
    ∀ text ∈ builder.compile.texts, MadeOf given text := by
  simp only [Builder.texts, List.mem_append, or_imp, forall_and] at htexts
  obtain ⟨⟨⟨⟨⟨⟨hset, hremove⟩, hadd⟩, hdelete⟩, hconditions⟩, hkeys⟩, hprojection⟩ := htexts
  intro text hmem
  simp only [Compiled.texts, List.reduceOption_mem_iff, List.mem_cons, List.not_mem_nil,
    or_false] at hmem
  rcases hmem with hupdate | hcondition | hkey | hproject
  · refine madeOf_of_joined (by cbv) (fun clause hclause => ?_) hupdate.symm
    simp only [List.mem_append] at hclause
    rcases hclause with ((hclause | hclause) | hclause) | hclause
    · exact madeOf_of_mem_group (by cbv) (by decide) hset hclause
    · exact madeOf_of_mem_group (by cbv) (by decide) hremove hclause
    · exact madeOf_of_mem_group (by cbv) (by decide) hadd hclause
    · exact madeOf_of_mem_group (by cbv) (by decide) hdelete hclause
  · exact madeOf_of_joined (by cbv) hconditions hcondition.symm
  · exact madeOf_of_joined (by cbv) hkeys hkey.symm
  · exact madeOf_of_joined (by cbv) hprojection hproject.symm

/-! ### Trees -/

/-- A builder in its present state, or in its last one when it was merged into its creator. -/
structure Member where
  builder : Builder
  merged : Bool

/-- The builders that grew from one, by their addresses. -/
def BuilderTree := Address → Option Member

namespace BuilderTree

def root : BuilderTree :=
  fun address => if address = [] then some ⟨.empty "", false⟩ else none

def put (tree : BuilderTree) (address : Address) (member : Member) : BuilderTree :=
  Function.update tree address (some member)

/-- A builder that was not merged. -/
def Holds (tree : BuilderTree) (address : Address) (builder : Builder) : Prop :=
  tree address = some ⟨builder, false⟩

def Merged (tree : BuilderTree) (address : Address) : Prop :=
  ∃ builder, tree address = some ⟨builder, true⟩

variable {table : TableSchema}

/-- One more call that succeeds: an addition to a builder, a nested builder, or a merge of a nested
builder into its creator. Each step comes with what it hands out. -/
inductive Step (table : TableSchema) : BuilderTree → Log → BuilderTree → Prop
  | call {tree : BuilderTree} {address : Address} {builder later : Builder}
    {handouts : List Handout} (call : BuilderCall) (hholds : tree.Holds address builder)
    (hrun : (call.perform table).run.run builder = (.ok (), later))
    (hhands : builder.aliases.HandsOut handouts later.aliases) :
    Step table tree (handouts.map (Prod.mk address)) (tree.put address ⟨later, false⟩)
  | nest {tree : BuilderTree} {address : Address} {builder nested later : Builder}
    (hholds : tree.Holds address builder) (hrun : Builder.nested.run builder = (nested, later)) :
    Step table tree [] ((tree.put address ⟨later, false⟩).put (address ++ [builder.children])
      ⟨nested, false⟩)
  | merge {tree : BuilderTree} {address : Address} {index : Nat} {builder nested later : Builder}
    (hholds : tree.Holds address builder) (hnested : tree.Holds (address ++ [index]) nested)
    (hrun : (Builder.merge nested).run.run builder = (.ok (), later)) :
    Step table tree [] ((tree.put (address ++ [index]) ⟨nested, true⟩).put address ⟨later, false⟩)

/-- A tree grown from one builder call by call, with all that was handed out on the way. -/
inductive Grown (table : TableSchema) : BuilderTree → Log → Prop
  | root : Grown table root []
  | step {tree later : BuilderTree} {log added : Log} (hgrown : Grown table tree log)
    (hstep : Step table tree added later) : Grown table later (log ++ added)

/-- Nothing is at or below the address that the next nested builder gets. -/
def Fresh (tree : BuilderTree) : Prop :=
  ∀ address member, tree address = some member → ∀ index rest,
    member.builder.children ≤ index → tree (address ++ index :: rest) = none

/-- What is true of every tree while it grows. -/
structure Sound (tree : BuilderTree) (log : Log) : Prop where
  own : log.Sound
  made : ∀ address handout, (address, handout) ∈ log → tree address ≠ none
  account : ∀ address member, tree address = some member →
    Account log tree.Merged address member.builder.aliases
  texts : ∀ address member, tree address = some member → ∀ text ∈ member.builder.texts,
    MadeOf member.builder.aliases.tokens text
  fresh : tree.Fresh

/-! ### Changes of one builder -/

section Changes

variable {tree : BuilderTree} {log : Log} {address other : Address} {member : Member}
  {builder : Builder} {held : Member}

theorem put_self : tree.put address member address = some member :=
  Function.update_self ..

theorem put_of_ne (hother : other ≠ address) : tree.put address member other = tree other :=
  Function.update_of_ne hother ..

theorem forall_put {property : Address → Member → Prop} (haddress : property address member)
    (hothers : ∀ other held, other ≠ address → tree other = some held → property other held) :
    ∀ other held, tree.put address member other = some held → property other held := by
  intro other held hheld
  by_cases hother : other = address
  · subst hother
    rw [put_self] at hheld
    cases hheld
    exact haddress
  · rw [put_of_ne hother] at hheld
    exact hothers other held hother hheld

theorem put_ne_none (hmade : tree other ≠ none) : tree.put address member other ≠ none := by
  by_cases hother : other = address
  · rw [hother, put_self]
    exact Option.some_ne_none _
  · rw [put_of_ne hother]
    exact hmade

theorem Holds.not_merged (hholds : tree.Holds address builder) : ¬ tree.Merged address := by
  rintro ⟨held, hheld⟩
  rw [hholds] at hheld
  cases hheld

/-- A builder that was not merged stays so. -/
theorem merged_put (hlive : ¬ tree.Merged address) :
    (tree.put address ⟨builder, false⟩).Merged = tree.Merged := by
  funext other
  by_cases hother : other = address
  · subst hother
    refine propext ⟨?_, fun hmerged => absurd hmerged hlive⟩
    rintro ⟨held, hheld⟩
    rw [put_self] at hheld
    cases hheld
  · simp only [Merged, put_of_ne hother]

theorem merged_put_merged :
    (tree.put address ⟨builder, true⟩).Merged = fun other => tree.Merged other ∨ other = address := by
  funext other
  by_cases hother : other = address
  · subst hother
    simp [Merged, put_self]
  · simp [Merged, put_of_ne hother, hother]

/-- A builder that is replaced keeps count of the builders nested so far. -/
theorem Fresh.put (hfresh : tree.Fresh) (hheld : tree address = some held)
    (hchildren : held.builder.children ≤ member.builder.children) :
    (tree.put address member).Fresh := by
  refine forall_put (fun index rest hindex => ?_) fun other present hother hpresent index rest
    hindex => ?_
  · rw [put_of_ne (by simp)]
    exact hfresh address held hheld index rest (hchildren.trans hindex)
  · have hfree := hfresh other present hpresent index rest hindex
    rw [put_of_ne, hfree]
    intro hequal
    rw [hequal, hheld] at hfree
    cases hfree

/-- A builder at an address that its creator has counted and that was free. -/
theorem Fresh.put_nested {index : Nat} (hfresh : tree.Fresh) (hheld : tree address = some held)
    (hcounted : index < held.builder.children)
    (hfree : ∀ rest, tree (address ++ index :: rest) = none) :
    (tree.put (address ++ [index]) member).Fresh := by
  refine forall_put (fun next rest _ => ?_) fun other present hother hpresent next rest hnext => ?_
  · rw [put_of_ne (by simp), List.append_assoc]
    exact hfree _
  · rw [put_of_ne, hfresh other present hpresent next rest hnext]
    intro hequal
    rcases List.eq_nil_or_concat' rest with rfl | ⟨others, last, rfl⟩
    · obtain ⟨rfl, hindex⟩ := List.append_inj' hequal rfl
      cases hindex
      rw [hheld] at hpresent
      cases hpresent
      omega
    · rw [← List.cons_append, ← List.append_assoc] at hequal
      obtain ⟨hbelow, _⟩ := List.append_inj' hequal rfl
      have hnone := hfresh other present hpresent next others hnext
      rw [hbelow, hheld] at hnone
      cases hnone

end Changes

/-! ### Growth keeps what is true -/

theorem sound_root : Sound root [] where
  own := ⟨fun _ _ hmem => absurd hmem List.not_mem_nil, List.nodup_nil⟩
  made _ _ hmem := absurd hmem List.not_mem_nil
  account address member hmember := by
    unfold root at hmember
    split at hmember
    · rename_i haddress
      cases hmember
      rw [haddress]
      exact .empty fun handout hreaches => by
        obtain ⟨_, _, hmem⟩ := hreaches
        cases hmem
    · cases hmember
  texts address member hmember text hmem := by
    unfold root at hmember
    split at hmember <;> cases hmember
    cases hmem
  fresh address member hmember index rest _ := by
    simp [root]

section Steps

variable {tree : BuilderTree} {log : Log} {address : Address} {index : Nat}
  {builder nested later : Builder}

theorem Sound.call (hsound : Sound tree log) (hholds : tree.Holds address builder)
    {call : BuilderCall} (hrun : (call.perform table).run.run builder = (.ok (), later))
    {handouts : List Handout} (hhands : builder.aliases.HandsOut handouts later.aliases) :
    Sound (tree.put address ⟨later, false⟩) (log ++ handouts.map (Prod.mk address)) := by
  have hlive := hholds.not_merged
  have haccount := hsound.account address _ hholds
  obtain ⟨hown, hlater⟩ := haccount.handsOut hsound.own hhands
  obtain ⟨hchildren, taken, htaken, htexts⟩ :=
    BuilderCall.takes_perform table call haccount.isStem hrun
  refine ⟨hown, fun origin handout hmem => ?_, ?_, ?_, ?_⟩
  · rcases List.mem_append.mp hmem with hold | hnew
    · exact put_ne_none (hsound.made origin handout hold)
    · obtain ⟨_, _, hequal⟩ := List.mem_map.mp hnew
      cases hequal
      rw [put_self]
      exact Option.some_ne_none _
  · rw [merged_put hlive]
    refine forall_put hlater fun other member hother hmember => ?_
    exact (hsound.account other member hmember).frame hother hlive handouts
  · refine forall_put (fun text hmem => ?_) fun other member _ => hsound.texts other member
    rcases htexts text hmem with hold | hmade
    · exact (hsound.texts _ _ hholds text hold).mono
        (haccount.tokens_subset hlater fun _ hreaches => hreaches.append _)
    · -- The new texts are described by handouts that lead to the same generator.
      refine hmade.mono fun token htoken => ?_
      obtain ⟨handout, hhandout, rfl⟩ := List.mem_map.mp htoken
      refine (haccount.handsOut hsound.own htaken).2.mem_tokens ⟨_, .own, ?_⟩
      exact List.mem_append_right _ (List.mem_map_of_mem hhandout)
  · exact hsound.fresh.put hholds hchildren.ge

/-- The next nested builder gets an address of its own. -/
theorem Sound.nest_free (hsound : Sound tree log) (hholds : tree.Holds address builder) :
    tree (address ++ [builder.children]) = none :=
  hsound.fresh address _ hholds _ [] (Nat.le_refl _)

theorem Sound.nest (hsound : Sound tree log) (hholds : tree.Holds address builder)
    (hrun : Builder.nested.run builder = (nested, later)) :
    Sound ((tree.put address ⟨later, false⟩).put (address ++ [builder.children]) ⟨nested, false⟩)
      log := by
  cases hrun
  have hfree := hsound.nest_free hholds
  have haccount := hsound.account address _ hholds
  have hlive := hholds.not_merged
  have hunmerged : ¬ tree.Merged (address ++ [builder.children]) := by
    rintro ⟨held, hheld⟩
    rw [hfree] at hheld
    cases hheld
  refine ⟨hsound.own, fun origin handout hmem =>
    put_ne_none (put_ne_none (hsound.made origin handout hmem)), ?_, ?_, ?_⟩
  · have hmerged : (tree.put address
        ⟨{ builder with children := builder.children + 1 }, false⟩).Merged = tree.Merged :=
      merged_put hlive
    rw [merged_put (hmerged ▸ hunmerged), hmerged]
    refine forall_put ?_ fun other member _ => forall_put haccount
      (fun other member _ => hsound.account other member) other member
    rw [Builder.empty, haccount.stem, ← stemOf_append]
    -- The address is new, so nothing was handed out at it or below it.
    refine .empty fun handout hreaches => ?_
    obtain ⟨origin, hwithin, hmem⟩ := hreaches
    obtain ⟨rest, rfl⟩ := hwithin.exists_append
    refine hsound.made _ _ hmem ?_
    rw [List.append_assoc]
    exact hsound.fresh address _ hholds _ rest (Nat.le_refl _)
  · refine forall_put (fun text hmem => by cases hmem) fun other member _ => ?_
    exact forall_put (hsound.texts address _ hholds)
      (fun other member _ => hsound.texts other member) other member
  · refine (hsound.fresh.put hholds (Nat.le_succ _)).put_nested put_self (Nat.lt_succ_self _) ?_
    intro rest
    rw [put_of_ne (by simp)]
    exact hsound.fresh address _ hholds _ rest (Nat.le_refl _)

theorem Sound.merge (hsound : Sound tree log) (hholds : tree.Holds address builder)
    (hnested : tree.Holds (address ++ [index]) nested)
    (hrun : (Builder.merge nested).run.run builder = (.ok (), later)) :
    Sound ((tree.put (address ++ [index]) ⟨nested, true⟩).put address ⟨later, false⟩) log := by
  have haccount := hsound.account address _ hholds
  have haccountNested := hsound.account _ _ hnested
  obtain ⟨⟨⟩, between, hwith, hmodify⟩ := run_bind_ok hrun
  obtain ⟨aliases, hmerge, rfl⟩ := Builder.run_withAliases_ok hwith
  obtain ⟨_, hmergeRun, hlater⟩ :=
    haccount.exists_merge hsound.own hnested.not_merged haccountNested
  rw [hmerge] at hmergeRun
  cases hmergeRun
  cases hmodify
  have hheld : (tree.put (address ++ [index]) ⟨nested, true⟩) address = some ⟨builder, false⟩ := by
    rw [put_of_ne (by simp), hholds]
  refine ⟨hsound.own, fun origin handout hmem =>
    put_ne_none (put_ne_none (hsound.made origin handout hmem)), ?_, ?_, ?_⟩
  · rw [merged_put (Holds.not_merged hheld), merged_put_merged]
    have hbefore : ∀ other member,
        (tree.put (address ++ [index]) ⟨nested, true⟩) other = some member →
        Account log tree.Merged other member.builder.aliases :=
      forall_put haccountNested fun other member _ => hsound.account other member
    -- The merge counts for the creator alone: no other builder can have absorbed the creator yet.
    refine forall_put hlater fun other member hother hmember => ?_
    refine (hbefore other member hmember).congr fun origin => ?_
    exact Within.merge_iff_of_ne hholds.not_merged hother
  · have hbefore : ∀ other member,
        (tree.put (address ++ [index]) ⟨nested, true⟩) other = some member →
        ∀ text ∈ member.builder.texts, MadeOf member.builder.aliases.tokens text :=
      forall_put (hsound.texts (address ++ [index]) ⟨nested, false⟩ hnested)
        fun other member _ => hsound.texts other member
    refine forall_put (fun text hmem => ?_) fun other member _ => hbefore other member
    rcases Builder.mem_texts_of_merge hrun hmem with hold | htaken
    · refine (hsound.texts _ _ hholds text hold).mono (haccount.tokens_subset hlater ?_)
      exact fun _ hreaches => Log.Reaches.merge_iff.mpr (.inl hreaches)
    · refine (hsound.texts _ _ hnested text htaken).mono (haccountNested.tokens_subset hlater ?_)
      exact fun _ hreaches => Log.Reaches.merge_iff.mpr (.inr hreaches)
  · have hbefore : (tree.put (address ++ [index]) ⟨nested, true⟩).Fresh :=
      hsound.fresh.put hnested (Nat.le_refl _)
    exact hbefore.put hheld (Nat.le_refl _)

theorem Sound.step {added : Log} {next : BuilderTree} (hsound : Sound tree log)
    (hstep : Step table tree added next) : Sound next (log ++ added) := by
  cases hstep with
  | call _ hholds hrun hhands => exact hsound.call hholds hrun hhands
  | nest hholds hrun => exact (List.append_nil log).symm ▸ hsound.nest hholds hrun
  | merge hholds hnested hrun => exact (List.append_nil log).symm ▸ hsound.merge hholds hnested hrun

theorem Grown.sound (hgrown : Grown table tree log) : Sound tree log := by
  induction hgrown with
  | root => exact sound_root
  | step _ hstep ih => exact ih.step hstep

end Steps

/-! ### Placeholders are unique -/

/-- A text refers only to placeholders that are bound. -/
def RefersTo (bindings : Bindings) (text : String) : Prop :=
  ∃ tokens, Lexes text tokens ∧ ∀ placeholder,
    (.name placeholder ∈ tokens → Entries.contains bindings.names placeholder = true) ∧
    (.value placeholder ∈ tokens → Entries.contains bindings.values placeholder = true)

/-- Calls that succeed are steps and merges succeed. Compiled texts refer to bound placeholders only,
a placeholder is handed out by one builder only and there for one segment or one value, and a request
binds exactly what was handed out by its builder and by the builders merged into it. -/
structure Unambiguous (table : TableSchema) (tree : BuilderTree) (log : Log) : Prop where
  calls : ∀ address builder later (call : BuilderCall), tree.Holds address builder →
    (call.perform table).run.run builder = (.ok (), later) → ∃ handouts : List Handout,
      Step table tree (handouts.map (Prod.mk address)) (tree.put address ⟨later, false⟩)
  merges : ∀ address index builder nested, tree.Holds address builder →
    tree.Holds (address ++ [index]) nested →
    ∃ later, (Builder.merge nested).run.run builder = (.ok (), later)
  refers : ∀ address builder, tree.Holds address builder → ∀ text ∈ builder.compile.texts,
    RefersTo builder.compile.bindings text
  segments : ∀ address segment other placeholder again,
    (address, .name segment placeholder) ∈ log → (address, .name other again) ∈ log →
    (placeholder = again ↔ segment = other)
  apart : ∀ address owner handout other, (address, handout) ∈ log → (owner, other) ∈ log →
    address ≠ owner → handout.token ≠ other.token
  once : log.valuePlaceholders.Nodup
  names : ∀ address builder, tree.Holds address builder → ∀ placeholder segment,
    Entries.find? builder.compile.bindings.names placeholder = some segment ↔
      log.Reaches tree.Merged address (.name segment placeholder)
  values : ∀ address builder, tree.Holds address builder → ∀ placeholder bound,
    Entries.find? builder.compile.bindings.values placeholder = some bound ↔
      log.Reaches tree.Merged address (.value bound placeholder)

theorem bindings_compile (builder : Builder) :
    builder.compile.bindings = ⟨builder.aliases.names, builder.aliases.values⟩ := by
  have hgetD : ∀ {α : Type} (entries : List α),
      (if entries.isEmpty then none else some entries).getD [] = entries := by
    intro α entries
    cases entries <;> rfl
  exact congrArg₂ Bindings.mk (hgetD builder.aliases.names) (hgetD builder.aliases.values)

variable {tree : BuilderTree} {log : Log}

theorem Sound.exists_merge (hsound : Sound tree log) {address : Address} {index : Nat}
    {builder nested : Builder} (hholds : tree.Holds address builder)
    (hnested : tree.Holds (address ++ [index]) nested) :
    ∃ later, (Builder.merge nested).run.run builder = (.ok (), later) := by
  obtain ⟨aliases, hmerge, _⟩ := (hsound.account _ _ hholds).exists_merge hsound.own
    hnested.not_merged (hsound.account _ _ hnested)
  have hwith : (Builder.withAliases (Aliases.merge nested.aliases)).run.run builder =
      (.ok (), { builder with aliases }) := by
    change (((Aliases.merge nested.aliases).run.run builder.aliases).1,
      { builder with aliases := ((Aliases.merge nested.aliases).run.run builder.aliases).2 }) = _
    rw [hmerge]
  exact ⟨_, run_bind_of_ok hwith⟩

theorem Sound.refers (hsound : Sound tree log) {address : Address} {builder : Builder}
    (hholds : tree.Holds address builder) {text : String} (hmem : text ∈ builder.compile.texts) :
    RefersTo builder.compile.bindings text := by
  obtain ⟨tokens, hlexes, hgiven⟩ :=
    Builder.madeOf_compile (hsound.texts address _ hholds) text hmem
  rw [bindings_compile]
  exact ⟨tokens, hlexes, fun placeholder =>
    ⟨fun hname => Aliases.name_mem_tokens.mp (hgiven _ hname rfl),
      fun hvalue => Aliases.value_mem_tokens.mp (hgiven _ hvalue rfl)⟩⟩

/-- Within one builder, placeholders differ exactly when their segments do. -/
theorem Sound.segments (hsound : Sound tree log) {address : Address}
    {segment other placeholder again : String}
    (hfirst : (address, .name segment placeholder) ∈ log)
    (hsecond : (address, .name other again) ∈ log) : placeholder = again ↔ segment = other := by
  obtain ⟨member, hmember⟩ := Option.ne_none_iff_exists'.mp (hsound.made _ _ hfirst)
  have haccount := hsound.account address member hmember
  obtain ⟨index, hindex, rfl⟩ := (haccount.numbered _ _).mp hfirst
  obtain ⟨position, hposition, rfl⟩ := (haccount.numbered _ _).mp hsecond
  constructor
  · intro hequal
    obtain ⟨_, rfl⟩ := namePlaceholder_stemOf_inj hequal
    rw [hindex] at hposition
    exact Option.some.inj hposition
  · rintro rfl
    obtain ⟨hbound, _⟩ := List.getElem?_eq_some_iff.mp hindex
    rw [(List.getElem?_inj hbound haccount.distinct).mp (hindex.trans hposition.symm)]

theorem Grown.unambiguous {table : TableSchema} (hgrown : Grown table tree log) :
    Unambiguous table tree log := by
  have hsound := hgrown.sound
  constructor
  · intro address builder later call hholds hrun
    have haccount := hsound.account address _ hholds
    obtain ⟨_, handouts, hhands, _⟩ := BuilderCall.takes_perform table call haccount.isStem hrun
    exact ⟨handouts, .call call hholds hrun hhands⟩
  · exact fun address index builder nested => hsound.exists_merge
  · exact fun address builder hholds text => hsound.refers hholds
  · exact fun address segment other placeholder again => hsound.segments
  · intro address owner handout other hfirst hsecond hdifferent htoken
    exact hdifferent ((hsound.own.own _ _ hfirst).eq_of_token (hsound.own.own _ _ hsecond) htoken)
  · exact hsound.own.once
  · intro address builder hholds placeholder segment
    rw [bindings_compile]
    exact (hsound.account address _ hholds).names placeholder segment
  · intro address builder hholds placeholder bound
    rw [bindings_compile]
    exact (hsound.account address _ hholds).values placeholder bound

/-- A builder that sets an attribute, and a nested one that does so and is merged into it. -/
theorem grown_unambiguous_merged : ∃ tree : BuilderTree, ∃ log : Log,
    log = [([], .name "a" "#n0"), ([], .value (.string "x") ":v0"), ([0], .name "a" "#c0_n0"),
      ([0], .name "b" "#c0_n1"), ([0], .value (.string "y") ":c0_v0")] ∧
    Grown default tree log ∧ tree.Merged [0] ∧ Unambiguous default tree log := by
  have hroot : root.Holds [] (.empty "") := rfl
  have hset : ((BuilderCall.clause (.setAttribute ["a"] (.string "x"))).perform default).run.run
      (.empty "") = (.ok (), ⟨⟨"", ["a"], [("#n0", "a")], [(":v0", .string "x")], 1⟩,
        ["#n0 = :v0"], [], [], [], [], [], [], 0⟩) := rfl
  have hsetHands : (Aliases.empty "").HandsOut [.name "a" "#n0", .value (.string "x") ":v0"]
      ⟨"", ["a"], [("#n0", "a")], [(":v0", .string "x")], 1⟩ :=
    .name rfl (.value rfl (.nothing _))
  have hbelow : ((BuilderCall.clause (.setAttribute ["a", "b"] (.string "y"))).perform
      default).run.run (.empty "c0_") = (.ok (), ⟨⟨"c0_", ["a", "b"],
        [("#c0_n0", "a"), ("#c0_n1", "b")], [(":c0_v0", .string "y")], 1⟩,
        ["#c0_n0.#c0_n1 = :c0_v0"], [], [], [], [], [], [], 0⟩) := rfl
  have hbelowHands : (Aliases.empty "c0_").HandsOut
      [.name "a" "#c0_n0", .name "b" "#c0_n1", .value (.string "y") ":c0_v0"]
      ⟨"c0_", ["a", "b"], [("#c0_n0", "a"), ("#c0_n1", "b")], [(":c0_v0", .string "y")], 1⟩ :=
    .name rfl (.name rfl (.value rfl (.nothing _)))
  have hfirst : Grown default _ _ := .step .root (.call _ hroot hset hsetHands)
  have hnested := hfirst.step (.nest put_self rfl)
  have hsecond := hnested.step (.call _ put_self hbelow hbelowHands)
  have hmerged := hsecond.step (@Step.merge _ _ [] 0 _ _ _ rfl rfl rfl)
  exact ⟨_, _, rfl, hmerged, ⟨_, rfl⟩, hmerged.unambiguous⟩

end BuilderTree

end Expression

end RecordStore
