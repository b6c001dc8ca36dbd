import RecordStore.Proofs.Schema.Accepted

/-!
# References without a way back

The fields of a type refer to the types of the objects they hold. A walk along the references is on
distinct types, so that a bound of as many types as there are gives up no walk: it ends, refuses
exactly a type that leads back to itself, and otherwise leaves the stack as it was.
-/

namespace RecordStore

open Relation (ReflTransGen TransGen)

/-! ### Ways back -/

section Ways

variable {refers : String → String → Prop} {path : List String} {start : String}

/-- None of the names that a name leads to, itself among them, leads back to itself. -/
def AcyclicFrom (refers : String → String → Prop) (start : String) : Prop :=
  ∀ name, ReflTransGen refers start name → ¬ TransGen refers name name

/-- No name that a name goes on to is on the path. -/
def Avoids (refers : String → String → Prop) (path : List String) (start : String) : Prop :=
  ∀ name, TransGen refers start name → name ∉ path

/-- A way back to a name is a way to the end of a path that the name is on. -/
theorem acyclicFrom_and_avoids_iff :
    AcyclicFrom refers start ∧ Avoids refers path start ↔ ∀ next, refers start next →
      next ∉ path ++ [start] ∧
        AcyclicFrom refers next ∧ Avoids refers (path ++ [start]) next := by
  constructor
  · rintro ⟨hacyclic, havoids⟩ next hnext
    have hoff : ∀ name, ReflTransGen refers next name → name ∉ path ++ [start] := by
      intro name hname hmem
      rcases List.mem_append.mp hmem with hmem | hmem
      · exact havoids name (.head' hnext hname) hmem
      · rw [List.mem_singleton.mp hmem] at hname
        exact hacyclic start .refl (.head' hnext hname)
    exact ⟨hoff next .refl, fun name hname => hacyclic name (.head hnext hname),
      fun name hname => hoff name hname.to_reflTransGen⟩
  · intro hall
    have hoff : ∀ next, refers start next → ∀ name, ReflTransGen refers next name →
        name ∉ path ++ [start] := by
      intro next hnext name hname
      rcases ReflTransGen.cases_head hname with rfl | hname
      · exact (hall next hnext).1
      · exact (hall next hnext).2.2 name (TransGen.head'_iff.mpr hname)
    refine ⟨fun name hname hback => ?_, fun name hname hmem => ?_⟩
    · rcases ReflTransGen.cases_head hname with rfl | ⟨next, hnext, hrest⟩
      · obtain ⟨next, hnext, hrest⟩ := TransGen.head'_iff.mp hback
        exact hoff next hnext start hrest (List.mem_append_right _ List.mem_cons_self)
      · exact (hall next hnext).2.1 name hrest hback
    · obtain ⟨next, hnext, hrest⟩ := TransGen.head'_iff.mp hname
      exact hoff next hnext name hrest (List.mem_append_left _ hmem)

/-- What leads to a name of no cycle is not what the name goes on to. -/
theorem AcyclicFrom.avoids (hacyclic : AcyclicFrom refers start)
    (hway : ∀ name ∈ path, ReflTransGen refers name start) : Avoids refers path start :=
  fun name hname hmem => hacyclic start .refl (hname.trans_left (hway name hmem))

end Ways

/-! ### Walks -/

theorem Walk.run_bind {α β : Type} (first : Walk α) (next : α → Walk β) (stack : List String) :
    (first >>= next).run.run stack = (first.run.run stack).bind fun (outcome, left) =>
      match outcome with
      | .ok value => (next value).run.run left
      | .error error => some (.error error, left) := by
  rw [ExceptT.run_bind, StateT.run_bind]
  cases first.run.run stack with
  | none => rfl
  | some result =>
    obtain ⟨_ | value, left⟩ := result <;> rfl

/-- How a walk ends from a stack once its bound is enough, whatever the bound: it accepts and leaves
the stack as it was, or it refuses. -/
inductive Ends (walk : Nat → Walk Unit) (enough : Nat) (stack : List String) (accepted : Prop)
    (refused : Error → List String → Prop) : Prop
  | accepts : accepted →
      (∀ bound, enough ≤ bound → (walk bound).run.run stack = some (.ok (), stack)) →
      Ends walk enough stack accepted refused
  | refuses {error : Error} {left : List String} : ¬ accepted → refused error left →
      (∀ bound, enough ≤ bound → (walk bound).run.run stack = some (.error error, left)) →
      Ends walk enough stack accepted refused

namespace Ends

variable {walk : Nat → Walk Unit} {enough : Nat} {stack : List String} {accepted : Prop}
  {refused : Error → List String → Prop}

theorem congr {other : Prop} (hends : Ends walk enough stack accepted refused)
    (hother : accepted ↔ other) : Ends walk enough stack other refused :=
  propext hother ▸ hends

theorem of_run_eq {other : Nat → Walk Unit} (hends : Ends walk enough stack accepted refused)
    (hrun : ∀ bound, enough ≤ bound → (other bound).run.run stack = (walk bound).run.run stack) :
    Ends other enough stack accepted refused := by
  cases hends with
  | accepts haccepted hends =>
    exact .accepts haccepted fun bound hbound => (hrun bound hbound).trans (hends bound hbound)
  | refuses hnot hrefused hends =>
    exact .refuses hnot hrefused fun bound hbound => (hrun bound hbound).trans (hends bound hbound)

theorem mono {other : Error → List String → Prop} (hends : Ends walk enough stack accepted refused)
    (hother : ∀ error left, refused error left → other error left) :
    Ends walk enough stack accepted other := by
  cases hends with
  | accepts haccepted hrun => exact .accepts haccepted hrun
  | refuses hnot hrefused hrun => exact .refuses hnot (hother _ _ hrefused) hrun

/-- A bound that is one less on the way takes one more to be enough. -/
theorem succ (hends : Ends (fun bound => walk (bound + 1)) enough stack accepted refused) :
    Ends walk (enough + 1) stack accepted refused := by
  have hbefore : ∀ bound, enough + 1 ≤ bound → ∃ before, enough ≤ before ∧ bound = before + 1 :=
    fun bound hbound => ⟨bound - 1, by omega, by omega⟩
  cases hends with
  | accepts haccepted hrun =>
    refine .accepts haccepted fun bound hbound => ?_
    obtain ⟨before, henough, rfl⟩ := hbefore bound hbound
    exact hrun before henough
  | refuses hnot hrefused hrun =>
    refine .refuses hnot hrefused fun bound hbound => ?_
    obtain ⟨before, henough, rfl⟩ := hbefore bound hbound
    exact hrun before henough

/-- A list is walked over in turn, up to the first refusal. -/
theorem forM {α : Type} {items : List α} {step : Nat → α → Walk Unit} {accepts : α → Prop}
    (hall : ∀ item ∈ items, Ends (step · item) enough stack (accepts item) refused) :
    Ends (fun bound => items.forM (step bound)) enough stack (∀ item ∈ items, accepts item)
      refused := by
  induction items with
  | nil => exact .accepts (fun _ hmem => nomatch hmem) fun _ _ => rfl
  | cons first rest ih =>
    obtain ⟨hfirst, hrest⟩ := List.forall_mem_cons.mp hall
    have hcons : ∀ bound, ((first :: rest).forM (step bound)).run.run stack =
        (step bound first >>= fun _ => rest.forM (step bound)).run.run stack := fun _ => rfl
    cases hfirst with
    | accepts haccepts hrun =>
      -- The first leaves the stack as it was, so that the rest is walked over from the same stack.
      refine ((ih hrest).of_run_eq fun bound hbound => ?_).congr
        (List.forall_mem_cons.trans (and_iff_right haccepts)).symm
      rw [hcons, Walk.run_bind, hrun bound hbound]
      rfl
    | refuses hnot hrefused hrun =>
      refine .refuses (fun hevery => hnot (List.forall_mem_cons.mp hevery).1) hrefused ?_
      intro bound hbound
      rw [hcons, Walk.run_bind, hrun bound hbound]
      rfl

end Ends

/-! ### Following references -/

variable {types : List TypeSchema} {stack : List String} {source target start : String}

/-- Whether the type of one name has a field that holds objects of the type of another. -/
def References (types : List TypeSchema) (source target : String) : Prop :=
  ∃ field ∈ (types.find? fun type => type.name = source).elim [] TypeSchema.fields,
    field.type.element = some (.object target)

theorem References.target_mem
    (hclosed : ∀ type ∈ types, ∀ field ∈ type.fields, ∀ child,
      field.type.element = some (.object child) → child ∈ types.map TypeSchema.name)
    (hrefers : References types source target) : target ∈ types.map TypeSchema.name := by
  obtain ⟨field, hfield, htarget⟩ := hrefers
  cases hfound : types.find? fun type => type.name = source with
  | none =>
    rw [hfound] at hfield
    cases hfield
  | some type =>
    rw [hfound] at hfield
    exact hclosed type (List.mem_of_find?_eq_some hfound) field hfield target htarget

/-- A walk was refused on a way from a type whose last type refers to one on the stack. -/
def LeadsBack (types : List TypeSchema) (stack : List String) (source : String) (error : Error)
    (left : List String) : Prop :=
  ∃ way target, left = stack ++ source :: way ∧
    List.IsChain (References types) (source :: way ++ [target]) ∧ target ∈ left ∧
    error = .schema (.cyclic left target)

theorem LeadsBack.here (hrefers : References types source target)
    (hmem : target ∈ stack ++ [source]) :
    LeadsBack types stack source (Error.schema (.cyclic (stack ++ [source]) target))
      (stack ++ [source]) :=
  ⟨[], target, rfl, .cons_cons hrefers (.singleton target), hmem, rfl⟩

theorem LeadsBack.further {error : Error} {left : List String}
    (hrefers : References types source target)
    (hback : LeadsBack types (stack ++ [source]) target error left) :
    LeadsBack types stack source error left := by
  obtain ⟨way, last, hleft, hchain, hmem, herror⟩ := hback
  refine ⟨target :: way, last, ?_, .cons_cons hrefers hchain, hmem, herror⟩
  rw [hleft, List.append_assoc, List.singleton_append]

theorem FieldSchema.run_follow {walk : String → Walk Unit} {field : FieldSchema}
    (htarget : field.type.element = some (.object target)) :
    (field.follow walk).run.run stack =
      if target ∈ stack then some (.error (.schema (.cyclic stack target)), stack)
      else (walk target).run.run stack := by
  rw [FieldSchema.follow, htarget]
  change (if target ∈ stack then (throw (.schema (.cyclic stack target)) : Walk Unit)
    else walk target).run.run stack = _
  split <;> rfl

/-- A field is followed to the type that it refers to. -/
theorem ends_follow {walk : Nat → String → Walk Unit} {enough : Nat} {accepts : String → Prop}
    {refused : Error → List String → Prop} {field : FieldSchema}
    (hback : ∀ target, field.type.element = some (.object target) → target ∈ stack →
      refused (.schema (.cyclic stack target)) stack)
    (hwalk : ∀ target, field.type.element = some (.object target) → target ∉ stack →
      Ends (walk · target) enough stack (accepts target) refused) :
    Ends (fun bound => field.follow (walk bound)) enough stack
      (∀ target, field.type.element = some (.object target) → target ∉ stack ∧ accepts target)
      refused := by
  by_cases hobject : ∃ target, field.type.element = some (.object target)
  · obtain ⟨target, htarget⟩ := hobject
    by_cases hmem : target ∈ stack
    · refine .refuses (fun hall => (hall target htarget).1 hmem) (hback target htarget hmem) ?_
      intro bound _
      rw [FieldSchema.run_follow htarget, if_pos hmem]
    · refine ((hwalk target htarget hmem).of_run_eq fun bound _ => ?_).congr ?_
      · rw [FieldSchema.run_follow htarget, if_neg hmem]
      · simp [htarget, hmem]
  · refine .accepts (fun target htarget => absurd ⟨target, htarget⟩ hobject) fun bound _ => ?_
    rw [FieldSchema.follow]
    split
    · rename_i target htarget
      exact absurd ⟨target, htarget⟩ hobject
    · rfl

/-- A type is walked over with its name on the stack, which is taken off at the end. -/
theorem Ends.followReferences_succ {enough : Nat} {accepted : Prop}
    {refused : Error → List String → Prop}
    (hfields : Ends (fun bound =>
        ((types.find? fun type => type.name = source).elim [] TypeSchema.fields).forM
          (FieldSchema.follow (followReferences types bound)))
      enough (stack ++ [source]) accepted refused) :
    Ends (followReferences types · source) (enough + 1) stack accepted refused := by
  have hpush : ∀ bound, (followReferences types (bound + 1) source).run.run stack =
      ((((types.find? fun type => type.name = source).elim [] TypeSchema.fields).forM
          (FieldSchema.follow (followReferences types bound)) >>= fun _ =>
        (modify List.dropLast : Walk Unit)).run.run (stack ++ [source])) := fun _ => rfl
  refine Ends.succ ?_
  cases hfields with
  | accepts haccepted hrun =>
    refine .accepts haccepted fun bound hbound => ?_
    rw [hpush, Walk.run_bind, hrun bound hbound]
    change some (Except.ok (), (stack ++ [source]).dropLast) = _
    rw [List.dropLast_concat]
  | refuses hnot hrefused hrun =>
    refine .refuses hnot hrefused fun bound hbound => ?_
    rw [hpush, Walk.run_bind, hrun bound hbound]
    rfl

/-- The step of the walk: from a type it goes on to each type that is referred to. -/
theorem ends_followReferences_succ {enough : Nat} {accepts : String → Prop}
    (hwalk : ∀ target, References types source target → target ∉ stack ++ [source] →
      Ends (followReferences types · target) enough (stack ++ [source]) (accepts target)
        (LeadsBack types (stack ++ [source]) target)) :
    Ends (followReferences types · source) (enough + 1) stack
      (∀ target, References types source target → target ∉ stack ++ [source] ∧ accepts target)
      (LeadsBack types stack source) := by
  have hfields : ∀ field ∈ (types.find? fun type => type.name = source).elim [] TypeSchema.fields,
      Ends (fun bound => field.follow (followReferences types bound)) enough (stack ++ [source])
        (∀ target, field.type.element = some (.object target) →
          target ∉ stack ++ [source] ∧ accepts target) (LeadsBack types stack source) := by
    intro field hfield
    refine ends_follow (fun target htarget hmem => .here ⟨field, hfield, htarget⟩ hmem) ?_
    intro target htarget hnew
    have hrefers : References types source target := ⟨field, hfield, htarget⟩
    exact (hwalk target hrefers hnew).mono fun _ _ hback => hback.further hrefers
  refine (Ends.forM hfields).followReferences_succ.congr ⟨?_, ?_⟩
  · rintro hall target ⟨field, hfield, htarget⟩
    exact hall field hfield target htarget
  · intro hall field hfield target htarget
    exact hall target ⟨field, hfield, htarget⟩

/-! ### Where every reference names a type -/

section Closed

variable (hclosed : ∀ type ∈ types, ∀ field ∈ type.fields, ∀ child,
  field.type.element = some (.object child) → child ∈ types.map TypeSchema.name)

include hclosed

/-- The walk from a type. The types on the way from where it started are distinct and declared, so
that the bound is not used up before every type is on the way. -/
theorem ends_followReferences {given way : List String} {enough : Nat}
    (hdistinct : (way ++ [source]).Nodup)
    (hdeclared : way ++ [source] ⊆ types.map TypeSchema.name)
    (henough : types.length ≤ way.length + enough) :
    Ends (followReferences types · source) enough (given ++ way)
      (AcyclicFrom (References types) source ∧ Avoids (References types) (given ++ way) source)
      (LeadsBack types (given ++ way) source) := by
  induction enough generalizing way source with
  | zero =>
    -- There is no way left to be on: it would be longer than there are types.
    have hlength := (hdistinct.subperm hdeclared).length_le
    rw [List.length_append, List.length_singleton, List.length_map] at hlength
    omega
  | succ enough ih =>
    refine (ends_followReferences_succ fun target hrefers hnew => ?_).congr
      acyclicFrom_and_avoids_iff.symm
    rw [List.append_assoc] at hnew ⊢
    have hoff : target ∉ way ++ [source] := fun hmem => hnew (List.mem_append_right _ hmem)
    refine ih ?_ ?_ ?_
    · exact List.nodup_append_comm.mp (List.nodup_cons.mpr ⟨hoff, hdistinct⟩)
    · exact List.append_subset.mpr ⟨hdeclared, fun name hname =>
        List.mem_singleton.mp hname ▸ hrefers.target_mem hclosed⟩
    · rw [List.length_append, List.length_singleton]
      omega

variable (hstart : start ∈ types.map TypeSchema.name)

include hstart

/-- Whatever is on the stack where a walk starts, as many types as there are is bound enough. -/
theorem ends_followReferences_length (stack : List String) :
    Ends (followReferences types · start) types.length stack
      (AcyclicFrom (References types) start ∧ Avoids (References types) stack start)
      (LeadsBack types stack start) := by
  have hends := @ends_followReferences types start hclosed stack [] types.length
    (List.nodup_singleton start) (fun name hname => List.mem_singleton.mp hname ▸ hstart)
    (Nat.le_add_left _ _)
  rwa [List.append_nil] at hends

/-- Whatever is on the stack, a walk ends without being on more types at once than there are. It
succeeds exactly when nothing that it comes to leads back to itself or to a name on the stack, and
leaves the stack as it was. Names on the stack that lead to the start, as those on the way there do,
make no difference. -/
theorem followReferences_decides (stack : List String) :
    ∃ outcome left,
      (∀ bound, types.length ≤ bound →
        (followReferences types bound start).run.run stack = some (outcome, left)) ∧
      (outcome = .ok () ↔
        AcyclicFrom (References types) start ∧ Avoids (References types) stack start) ∧
      ((∀ name ∈ stack, ReflTransGen (References types) name start) →
        (outcome = .ok () ↔ AcyclicFrom (References types) start)) ∧
      (outcome = .ok () → left = stack) := by
  cases ends_followReferences_length hclosed hstart stack with
  | accepts haccepted hrun =>
    exact ⟨_, _, hrun, iff_of_true rfl haccepted, fun _ => iff_of_true rfl haccepted.1, fun _ => rfl⟩
  | refuses hnot _ hrun =>
    refine ⟨_, _, hrun, iff_of_false nofun hnot, fun hway => iff_of_false nofun ?_, nofun⟩
    exact fun hacyclic => hnot ⟨hacyclic, hacyclic.avoids hway⟩

theorem checkAcyclic_eq_ok_iff :
    checkAcyclic types start = .ok () ↔ AcyclicFrom (References types) start := by
  rw [checkAcyclic]
  cases ends_followReferences_length hclosed hstart [] with
  | accepts haccepted hrun =>
    rw [hrun _ le_rfl]
    exact iff_of_true rfl haccepted.1
  | refuses hnot _ hrun =>
    rw [hrun _ le_rfl]
    exact iff_of_false nofun fun hacyclic => hnot ⟨hacyclic, hacyclic.avoids nofun⟩

/-- What is refused is shown: a way from the start, and the type on it that its last type holds. -/
theorem checkAcyclic_eq_error {error : Error} (hcheck : checkAcyclic types start = .error error) :
    ∃ way target, List.IsChain (References types) (start :: way ++ [target]) ∧
      target ∈ start :: way ∧ error = .schema (.cyclic (start :: way) target) := by
  rw [checkAcyclic] at hcheck
  cases ends_followReferences_length hclosed hstart [] with
  | accepts _ hrun =>
    rw [hrun _ le_rfl] at hcheck
    cases hcheck
  | refuses _ hback hrun =>
    rw [hrun _ le_rfl] at hcheck
    cases hcheck
    obtain ⟨way, target, rfl, hchain, hmem, herror⟩ := hback
    exact ⟨way, target, hchain, hmem, herror⟩

end Closed

/-- A field of single objects. -/
def FieldSchema.object (name typeName : String) : FieldSchema where
  name
  wireName := name
  type := .scalar (.object typeName)
  default := none
  persist := true
  serialize := true
  replaceOnWrite := false
  deltaMerge := false
  compress := false
  rekeyById := false
  expiry := false

/-- Parcels with stops, whose shared addresses hold objects of the type of a name. -/
def parcelTypes (held : String) : List TypeSchema :=
  [⟨"Parcel", [.object "sender" "Address", .object "receiver" "Address",
      { FieldSchema.object "stops" "Stop" with type := ⟨.list, some (.object "Stop")⟩ }]⟩,
    ⟨"Stop", [.object "place" "Address"]⟩,
    ⟨"Address", [.object "land" held]⟩,
    ⟨"Country", []⟩]

/-- The walk goes on to a stop with its parcel on the stack. It comes to the parcel again where
addresses hold parcels. -/
theorem followReferences_decides_parcels :
    AcyclicFrom (References (parcelTypes "Country")) "Stop" ∧
      ¬ AcyclicFrom (References (parcelTypes "Parcel")) "Stop" := by
  have hclosed : ∀ held ∈ ["Country", "Parcel"], ∀ type ∈ parcelTypes held, ∀ field ∈ type.fields,
      ∀ child, field.type.element = some (.object child) →
        child ∈ (parcelTypes held).map TypeSchema.name := by
    simp [parcelTypes, FieldSchema.object, ValueType.scalar]
  have hdecides : ∀ held ∈ ["Country", "Parcel"], ∃ outcome left,
      (followReferences (parcelTypes held) 4 "Stop").run.run ["Parcel"] = some (outcome, left) ∧
      (outcome = .ok () ↔ AcyclicFrom (References (parcelTypes held)) "Stop") := by
    intro held hmem
    obtain ⟨outcome, left, hrun, -, hdecides, -⟩ :=
      followReferences_decides (hclosed held hmem) (.tail _ (.head _)) ["Parcel"]
    refine ⟨outcome, left, hrun 4 le_rfl, hdecides fun name hname => ?_⟩
    rw [List.mem_singleton.mp hname]
    exact .single ⟨_, .tail _ (.tail _ (.head _)), rfl⟩
  have haccepted : (followReferences (parcelTypes "Country") 4 "Stop").run.run ["Parcel"] =
      some (.ok (), ["Parcel"]) := rfl
  have hrefused : (followReferences (parcelTypes "Parcel") 4 "Stop").run.run ["Parcel"] =
      some (.error (.schema (.cyclic ["Parcel", "Stop", "Address"] "Parcel")),
        ["Parcel", "Stop", "Address"]) := rfl
  obtain ⟨_, _, hrun, hcountry⟩ := hdecides "Country" (.head _)
  obtain ⟨_, _, hrun', hparcel⟩ := hdecides "Parcel" (.tail _ (.head _))
  cases hrun.symm.trans haccepted
  cases hrun'.symm.trans hrefused
  refine ⟨hcountry.mp rfl, fun hacyclic => ?_⟩
  cases hparcel.mpr hacyclic

end RecordStore
