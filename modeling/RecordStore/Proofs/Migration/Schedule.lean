import RecordStore.Proofs.Entries
import RecordStore.Proofs.Schema.Registry

/-!
# Schedules of migrations

Due steps run in ascending order of version and sequence, those that share both in the order of
their registration. There is one such schedule, and it is what a registry makes of the steps that
were registered with it.
-/

namespace RecordStore

namespace Migration

/-- Whether a step is to a version above the stored one, up to that of the table. -/
def isDue (stored current : UInt32) (step : Migration) : Bool :=
  stored < step.version && step.version ≤ current

def isAt (version sequence : UInt32) (step : Migration) : Bool :=
  step.version = version && step.sequence = sequence

variable {first second : Migration}

theorem precedes_iff : first.precedes second = true ↔
    first.version < second.version ∨
      (first.version = second.version ∧ first.sequence ≤ second.sequence) := by
  simp [precedes]

theorem precedes_trans (first second third : Migration) (hfirst : first.precedes second = true)
    (hsecond : second.precedes third = true) : first.precedes third = true := by
  rw [precedes_iff, UInt32.lt_iff_toNat_lt, UInt32.le_iff_toNat_le, ← UInt32.toNat_inj] at *
  omega

theorem precedes_total (first second : Migration) :
    (first.precedes second || second.precedes first) = true := by
  rw [Bool.or_eq_true, precedes_iff, precedes_iff]
  simp only [UInt32.lt_iff_toNat_lt, UInt32.le_iff_toNat_le, ← UInt32.toNat_inj]
  omega

/-- Steps that precede each other have the same version and sequence. -/
theorem isAt_of_precedes (hfirst : first.precedes second = true)
    (hsecond : second.precedes first = true) :
    second.isAt first.version first.sequence = true := by
  rw [precedes_iff, UInt32.lt_iff_toNat_lt, UInt32.le_iff_toNat_le, ← UInt32.toNat_inj] at hfirst hsecond
  simp only [isAt, Bool.and_eq_true, decide_eq_true_eq, ← UInt32.toNat_inj]
  omega

theorem precedes_of_isAt {version sequence : UInt32} (hfirst : first.isAt version sequence = true)
    (hsecond : second.isAt version sequence = true) : first.precedes second = true := by
  simp only [isAt, Bool.and_eq_true, decide_eq_true_eq] at hfirst hsecond
  rw [precedes_iff, hfirst.1, hfirst.2, hsecond.1, hsecond.2]
  exact .inr ⟨rfl, UInt32.le_refl _⟩

theorem isAt_self : first.isAt first.version first.sequence = true := by
  simp [isAt]

end Migration

/-- The order in which due steps run: each of them once, ascending, and those of one version and
sequence as they were registered. -/
structure IsSchedule (due steps : List Migration) : Prop where
  perm : steps.Perm due
  ascending : steps.Pairwise fun earlier later =>
    earlier.version < later.version ∨
      (earlier.version = later.version ∧ earlier.sequence ≤ later.sequence)
  stable : ∀ version sequence, steps.filter (Migration.isAt version sequence) =
    due.filter (Migration.isAt version sequence)

namespace IsSchedule

variable {due steps others : List Migration}

theorem pairwise_precedes (hsteps : IsSchedule due steps) :
    steps.Pairwise fun earlier later => earlier.precedes later = true :=
  hsteps.ascending.imp Migration.precedes_iff.mpr

theorem mergeSort (due : List Migration) : IsSchedule due (due.mergeSort Migration.precedes) where
  perm := List.mergeSort_perm due _
  ascending := by
    have hsorted := List.pairwise_mergeSort Migration.precedes_trans Migration.precedes_total due
    exact hsorted.imp Migration.precedes_iff.mp
  stable := by
    intro version sequence
    -- Sorting keeps every ascending sublist, such as the steps of one version and sequence.
    have hties : (due.filter (Migration.isAt version sequence)).Pairwise
        fun earlier later => earlier.precedes later = true := by
      apply List.pairwise_of_forall_mem_list
      intro earlier hearlier later hlater
      exact Migration.precedes_of_isAt (List.mem_filter.mp hearlier).2 (List.mem_filter.mp hlater).2
    have hkept := List.sublist_mergeSort Migration.precedes_trans Migration.precedes_total hties List.filter_sublist
    have hsublist := hkept.filter (Migration.isAt version sequence)
    simp only [List.filter_filter, Bool.and_self] at hsublist
    have hlength := ((List.mergeSort_perm due Migration.precedes).filter
      (Migration.isAt version sequence)).length_eq
    exact (hsublist.eq_of_length hlength.symm).symm

theorem filter (hsteps : IsSchedule due steps) (kept : Migration → Bool) :
    IsSchedule (due.filter kept) (steps.filter kept) where
  perm := hsteps.perm.filter kept
  ascending := hsteps.ascending.filter kept
  stable := by
    intro version sequence
    rw [List.filter_comm, hsteps.stable, List.filter_comm]

/-- The first of two schedules of the same steps begins as the other one does. -/
theorem head_precedes {first second : Migration} {rest : List Migration}
    (hsteps : IsSchedule due (first :: rest)) (hmem : second ∈ due) :
    first.precedes second = true := by
  rcases List.mem_cons.mp (hsteps.perm.mem_iff.mpr hmem) with rfl | hmem
  · exact Migration.precedes_of_isAt Migration.isAt_self Migration.isAt_self
  · exact (List.pairwise_cons.mp hsteps.pairwise_precedes).1 second hmem

theorem unique (hsteps : IsSchedule due steps) (hothers : IsSchedule due others) :
    steps = others := by
  induction steps generalizing due others with
  | nil => exact (hothers.perm.trans hsteps.perm.symm).eq_nil.symm
  | cons first rest ih =>
    cases others with
    | nil => exact (hsteps.perm.trans hothers.perm.symm).eq_nil
    | cons second tail =>
      have hfirstMem : first ∈ due := hsteps.perm.mem_iff.mp List.mem_cons_self
      have hsecondMem : second ∈ due := hothers.perm.mem_iff.mp List.mem_cons_self
      have hisAt : second.isAt first.version first.sequence = true :=
        Migration.isAt_of_precedes (hsteps.head_precedes hsecondMem)
          (hothers.head_precedes hfirstMem)
      have hties := (hsteps.stable first.version first.sequence).trans
        (hothers.stable first.version first.sequence).symm
      rw [List.filter_cons_of_pos Migration.isAt_self, List.filter_cons_of_pos hisAt] at hties
      obtain ⟨rfl, _⟩ := List.cons.inj hties
      have hperm : tail.Perm rest :=
        ((hothers.perm.trans hsteps.perm.symm).cons_inv)
      have hstable : ∀ version sequence, tail.filter (Migration.isAt version sequence) =
          rest.filter (Migration.isAt version sequence) := by
        intro version sequence
        have hboth := (hothers.stable version sequence).trans (hsteps.stable version sequence).symm
        rw [List.filter_cons, List.filter_cons] at hboth
        split at hboth
        · exact (List.cons.inj hboth).2
        · exact hboth
      rw [ih ⟨.refl rest, (List.pairwise_cons.mp hsteps.ascending).2, fun _ _ => rfl⟩
        ⟨hperm, (List.pairwise_cons.mp hothers.ascending).2, hstable⟩]

end IsSchedule

/-! ### Registered steps -/

namespace Registry

/-- The steps registered for a table, in the order of their registration. -/
def registeredFor (name : String) (registrations : List (String × Migration)) : List Migration :=
  (registrations.filter fun registration => registration.1 = name).map Prod.snd

/-- What registering some steps of declared tables leaves. -/
structure Registers (tables : List TableSchema) (registrations : List (String × Migration))
    (registered : List (String × List Migration)) : Prop where
  held : ∀ name, (Entries.find? registered name).getD [] = registeredFor name registrations
  bounded : ∀ registration ∈ registrations, ∀ table,
    (tables.find? fun table => table.name = registration.1) = some table →
      registration.2.version ≤ table.version

variable {tables : List TableSchema} {registrations : List (String × Migration)}
  {registered later : List (String × List Migration)} {registration : String × Migration}

theorem registeredFor_append (name : String) :
    registeredFor name (registrations ++ [registration]) =
      registeredFor name registrations ++
        if registration.1 = name then [registration.2] else [] := by
  unfold registeredFor
  rw [List.filter_append, List.map_append]
  by_cases hname : registration.1 = name <;> simp [hname]

theorem Registers.register (hregisters : Registers tables registrations registered)
    (hregister : Registry.register tables registered registration = .ok later) :
    Registers tables (registrations ++ [registration]) later := by
  unfold Registry.register at hregister
  split at hregister
  · cases hregister
  · rename_i table htable
    obtain ⟨⟨⟩, hcheck, hdone⟩ := bind_eq_ok_iff.mp hregister
    cases hdone
    have hversion := check_ok hcheck
    constructor
    · intro name
      rw [Entries.find?_insert, registeredFor_append, ← hregisters.held name]
      by_cases hname : registration.1 = name
      · subst hname
        rw [if_pos rfl, if_pos rfl]
        rfl
      · rw [if_neg hname, if_neg hname, List.append_nil]
    · intro other hmem found hfound
      rcases List.mem_append.mp hmem with hmem | hmem
      · exact hregisters.bounded other hmem found hfound
      · rw [List.mem_singleton.mp hmem] at hfound ⊢
        rw [htable] at hfound
        cases hfound
        simpa using (Bool.and_eq_true_iff.mp hversion).2

theorem registers_nil : Registers tables [] [] where
  held _ := rfl
  bounded _ hmem := absurd hmem List.not_mem_nil

variable {description : SchemaDescription} {registry : Registry}

theorem registers_of_build (hbuild : build description registrations = .ok registry) :
    ∃ registered, Registers registry.tables registrations registered ∧
      registry.migrations =
        registered.map fun entry => (entry.1, entry.2.mergeSort Migration.precedes) := by
  obtain ⟨tables, _, hbuild⟩ := bind_eq_ok_iff.mp hbuild
  obtain ⟨registered, hregistered, hdone⟩ := bind_eq_ok_iff.mp hbuild
  cases hdone
  refine ⟨registered, ?_, rfl⟩
  exact foldlM_invariant (Registers tables) (fun _ _ _ _ hheld => hheld.register) registers_nil
    hregistered

/-- A registry keeps the steps registered for each of its tables, sorted. -/
theorem migrationsOf_of_build (hbuild : build description registrations = .ok registry)
    (name : String) :
    registry.migrationsOf name =
      (registeredFor name registrations).mergeSort Migration.precedes := by
  obtain ⟨registered, hregisters, hmigrations⟩ := registers_of_build hbuild
  have hfind := @Entries.find?_map _ _ registered
    (fun steps : List Migration => steps.mergeSort Migration.precedes) name
  rw [migrationsOf, hmigrations, hfind, ← hregisters.held name]
  cases Entries.find? registered name <;> simp

/-- No step is registered to a version above that of its table. -/
theorem version_le_of_build {name : String} {table : TableSchema} {step : Migration}
    (hbuild : build description registrations = .ok registry)
    (htable : registry.requireTable name = .ok table)
    (hstep : step ∈ registeredFor name registrations) : step.version ≤ table.version := by
  obtain ⟨registered, hregisters, _⟩ := registers_of_build hbuild
  obtain ⟨registration, hmem, rfl⟩ := List.mem_map.mp hstep
  obtain ⟨hmem, hname⟩ := List.mem_filter.mp hmem
  apply hregisters.bounded registration hmem table
  rw [of_decide_eq_true hname]
  exact find?_of_requireTable htable

/-- The steps that a registry runs on items of a stored version are the schedule of those due. -/
theorem isSchedule_pending {name : String} {table : TableSchema} (stored : UInt32)
    (hbuild : build description registrations = .ok registry)
    (htable : registry.requireTable name = .ok table) :
    IsSchedule ((registeredFor name registrations).filter (Migration.isDue stored table.version))
      ((registry.migrationsOf name).filter fun step => stored < step.version) := by
  have hdue : (registeredFor name registrations).filter (Migration.isDue stored table.version) =
      (registeredFor name registrations).filter fun step => stored < step.version := by
    apply List.filter_congr
    intro step hstep
    have hle := version_le_of_build hbuild htable hstep
    simp [Migration.isDue, hle]
  rw [hdue, migrationsOf_of_build hbuild]
  exact (IsSchedule.mergeSort _).filter _

end Registry

end RecordStore
