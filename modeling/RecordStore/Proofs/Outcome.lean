import Mathlib
import RecordStore.Error.Basic

/-!
# Computations that may fail

What a sequence of steps did when it succeeded: each step succeeded, on what the steps before it had
left.
-/

namespace RecordStore

theorem ok_bind {ε α β : Type} (value : α) (next : α → Except ε β) :
    (Except.ok value >>= next) = next value := rfl

theorem bind_eq_ok_iff {ε α β : Type} {first : Except ε α} {next : α → Except ε β} {result : β} :
    (first >>= next) = .ok result ↔ ∃ middle, first = .ok middle ∧ next middle = .ok result := by
  cases first with
  | error error =>
    constructor
    · intro hbind
      cases hbind
    · rintro ⟨_, hfirst, _⟩
      cases hfirst
  | ok middle =>
    constructor
    · intro hbind
      exact ⟨middle, rfl, hbind⟩
    · rintro ⟨_, hfirst, hnext⟩
      cases hfirst
      exact hnext

theorem exists_bind_eq_ok_iff {ε α β : Type} {first : Except ε α} {next : α → Except ε β} :
    (∃ result, (first >>= next) = .ok result) ↔
      ∃ middle, first = .ok middle ∧ ∃ result, next middle = .ok result := by
  simp only [bind_eq_ok_iff]
  exact ⟨fun ⟨result, middle, hfirst, hnext⟩ => ⟨middle, hfirst, result, hnext⟩,
    fun ⟨middle, hfirst, result, hnext⟩ => ⟨result, middle, hfirst, hnext⟩⟩

theorem map_eq_ok_iff {ε α β : Type} {first : Except ε α} {change : α → β} {result : β} :
    first.map change = .ok result ↔ ∃ middle, first = .ok middle ∧ change middle = result := by
  cases first <;> simp [Except.map]

theorem exists_map_eq_ok_iff {ε α β : Type} {first : Except ε α} {change : α → β} :
    (∃ result, first.map change = .ok result) ↔ ∃ middle, first = .ok middle := by
  cases first <;> simp [Except.map]

theorem toOption_eq_some_iff {ε α : Type} {outcome : Except ε α} {value : α} :
    outcome.toOption = some value ↔ outcome = .ok value := by
  cases outcome <;> simp [Except.toOption]

/-- What each step of a fold keeps holds at its end. -/
theorem foldlM_invariant {ε α σ : Type} {step : σ → α → Except ε σ} (invariant : List α → σ → Prop)
    (hstep : ∀ before item state next, invariant before state → step state item = .ok next →
      invariant (before ++ [item]) next)
    {before items : List α} {state result : σ} (hstate : invariant before state)
    (hfold : items.foldlM step state = .ok result) : invariant (before ++ items) result := by
  induction items generalizing before state with
  | nil =>
    cases hfold
    rw [List.append_nil]
    exact hstate
  | cons item rest ih =>
    rw [List.foldlM_cons] at hfold
    obtain ⟨next, hnext, hrest⟩ := bind_eq_ok_iff.mp hfold
    have hall := ih (hstep before item state next hstate hnext) hrest
    rw [List.append_assoc, List.singleton_append] at hall
    exact hall

/-- The last step of a fold starts where the steps before it ended. -/
theorem foldlM_concat_eq_ok_iff {ε α σ : Type} {step : σ → α → Except ε σ} {items : List α} {item : α}
    {state result : σ} : (items ++ [item]).foldlM step state = .ok result ↔
      ∃ middle, items.foldlM step state = .ok middle ∧ step middle item = .ok result := by
  rw [List.foldlM_append, bind_eq_ok_iff]
  refine exists_congr fun middle => and_congr_right fun _ => ?_
  rw [List.foldlM_cons]
  cases step middle item <;> rfl

theorem forM_ok {ε α : Type} {items : List α} {check : α → Except ε Unit}
    (hall : items.forM check = .ok ()) : ∀ item ∈ items, check item = .ok () := by
  induction items with
  | nil =>
    intro item hmem
    cases hmem
  | cons first rest ih =>
    obtain ⟨⟨⟩, hfirst, hrest⟩ := bind_eq_ok_iff.mp hall
    intro item hmem
    rcases List.mem_cons.mp hmem with rfl | hmem
    · exact hfirst
    · exact ih hrest item hmem

theorem forM_eq_ok {ε α : Type} {items : List α} {check : α → Except ε Unit}
    (hall : ∀ item ∈ items, check item = .ok ()) : items.forM check = .ok () := by
  induction items with
  | nil => rfl
  | cons first rest ih =>
    change (check first >>= fun _ => rest.forM check) = _
    rw [hall first List.mem_cons_self, ok_bind]
    exact ih fun item hmem => hall item (.tail _ hmem)

theorem forM_eq_ok_iff {ε α : Type} {items : List α} {check : α → Except ε Unit} :
    items.forM check = .ok () ↔ ∀ item ∈ items, check item = .ok () :=
  ⟨forM_ok, forM_eq_ok⟩

theorem mapM_ok {ε α β : Type} {items : List α} {change : α → Except ε β} {results : List β}
    (hall : items.mapM change = .ok results) :
    List.Forall₂ (fun item result => change item = .ok result) items results := by
  induction items generalizing results with
  | nil =>
    cases hall
    exact .nil
  | cons item rest ih =>
    rw [List.mapM_cons] at hall
    obtain ⟨result, hresult, hrest⟩ := bind_eq_ok_iff.mp hall
    obtain ⟨others, hothers, hdone⟩ := bind_eq_ok_iff.mp hrest
    cases hdone
    exact .cons hresult (ih hothers)

theorem mapM_concat_eq_ok_iff {ε α β : Type} {items : List α} {item : α}
    {change : α → Except ε β} {results : List β} : (items ++ [item]).mapM change = .ok results ↔
      ∃ before last, items.mapM change = .ok before ∧ change item = .ok last ∧
        before ++ [last] = results := by
  rw [List.mapM_append, bind_eq_ok_iff]
  refine exists_congr fun before => ?_
  rw [exists_and_left]
  refine and_congr_right fun _ => ?_
  rw [List.mapM_cons, List.mapM_nil]
  cases change item with
  | error error => exact ⟨fun hdone => (nomatch hdone), fun ⟨_, hlast, _⟩ => (nomatch hlast)⟩
  | ok last =>
    constructor
    · intro hdone
      cases hdone
      exact ⟨last, rfl, rfl⟩
    · rintro ⟨_, ⟨⟩, rfl⟩
      rfl

theorem mapM_zip_map {ε α β γ : Type} {items : List α} {change : α → β}
    {step : β × α → Except ε γ} :
    ((items.map change).zip items).mapM step = items.mapM fun item => step (change item, item) := by
  rw [← List.map_prod_right_eq_zip, List.mapM_map]
  rfl

theorem map_eq_of_mapM {ε α β γ : Type} {items : List α} {change : α → Except ε β}
    {results : List β} {before : α → γ} {after : β → γ}
    (hchange : ∀ item result, change item = .ok result → after result = before item)
    (hall : items.mapM change = .ok results) : results.map after = items.map before := by
  have hrelated : List.Forall₂ Eq (items.map before) (results.map after) := by
    rw [List.forall₂_map_left_iff, List.forall₂_map_right_iff]
    exact (mapM_ok hall).imp fun item result hresult => (hchange item result hresult).symm
  rw [List.forall₂_eq_eq_eq] at hrelated
  exact hrelated.symm

theorem exists_mem_of_forall₂ {α β : Type} {relates : α → β → Prop} {items : List α}
    {results : List β} (hall : List.Forall₂ relates items results) :
    ∀ result ∈ results, ∃ item ∈ items, relates item result := by
  induction hall with
  | nil =>
    intro result hmem
    cases hmem
  | cons hfirst _ ih =>
    intro result hmem
    rcases List.mem_cons.mp hmem with rfl | hmem
    · exact ⟨_, List.mem_cons_self, hfirst⟩
    · obtain ⟨item, hitem, hrelates⟩ := ih result hmem
      exact ⟨item, List.mem_cons_of_mem _ hitem, hrelates⟩

/-! ### Computations with a state that may fail -/

section Running

variable {σ α β : Type}

theorem run_bind_ok {first : ExceptT Error (StateM σ) α} {next : α → ExceptT Error (StateM σ) β}
    {state later : σ} {result : β}
    (hrun : (first >>= next).run.run state = (.ok result, later)) :
    ∃ middle between, first.run.run state = (.ok middle, between) ∧
      (next middle).run.run between = (.ok result, later) := by
  rw [ExceptT.run_bind, StateT.run_bind] at hrun
  rcases hfirst : first.run.run state with ⟨outcome, between⟩
  rw [hfirst] at hrun
  cases outcome with
  | error error => cases hrun
  | ok middle => exact ⟨middle, between, rfl, hrun⟩

theorem run_bind_of_ok {first : ExceptT Error (StateM σ) α}
    {next : α → ExceptT Error (StateM σ) β} {state between : σ} {middle : α}
    (hfirst : first.run.run state = (.ok middle, between)) :
    (first >>= next).run.run state = (next middle).run.run between := by
  rw [ExceptT.run_bind, StateT.run_bind, hfirst]
  rfl

theorem run_bind_of_error {first : ExceptT Error (StateM σ) α}
    {next : α → ExceptT Error (StateM σ) β} {state later : σ} {error : Error}
    (hfirst : first.run.run state = (.error error, later)) :
    (first >>= next).run.run state = (.error error, later) := by
  rw [ExceptT.run_bind, StateT.run_bind, hfirst]
  rfl

theorem run_bind_error {first : ExceptT Error (StateM σ) α}
    {next : α → ExceptT Error (StateM σ) β} {state later : σ} {error : Error}
    (hrun : (first >>= next).run.run state = (.error error, later)) :
    first.run.run state = (.error error, later) ∨
      ∃ middle between, first.run.run state = (.ok middle, between) ∧
        (next middle).run.run between = (.error error, later) := by
  rcases hfirst : first.run.run state with ⟨failed | middle, between⟩
  · rw [run_bind_of_error hfirst] at hrun
    cases hrun
    exact .inl rfl
  · rw [run_bind_of_ok hfirst] at hrun
    exact .inr ⟨middle, between, rfl, hrun⟩

theorem run_map (change : α → β) (computation : ExceptT Error (StateM σ) α) (state : σ) :
    (change <$> computation).run.run state =
      ((computation.run.run state).1.map change, (computation.run.run state).2) := by
  rw [ExceptT.run_map, StateT.run_map]
  rfl

theorem run_of_map_error {change : α → β} {computation : ExceptT Error (StateM σ) α}
    {state later : σ} {error : Error}
    (hrun : (change <$> computation).run.run state = (.error error, later)) :
    computation.run.run state = (.error error, later) := by
  rw [run_map] at hrun
  rcases hfirst : computation.run.run state with ⟨failed | result, between⟩
  · rw [hfirst] at hrun
    cases hrun
    rfl
  · rw [hfirst] at hrun
    cases hrun

theorem run_tryCatch_of_ok {first : ExceptT Error (StateM σ) α}
    {handle : Error → ExceptT Error (StateM σ) α} {state later : σ} {result : α}
    (hfirst : first.run.run state = (.ok result, later)) :
    (tryCatch first handle).run.run state = (.ok result, later) := by
  rw [ExceptT.run_tryCatch, StateT.run_bind, hfirst]
  rfl

theorem run_tryCatch_of_error {first : ExceptT Error (StateM σ) α}
    {handle : Error → ExceptT Error (StateM σ) α} {state later : σ} {error : Error}
    (hfirst : first.run.run state = (.error error, later)) :
    (tryCatch first handle).run.run state = (handle error).run.run later := by
  rw [ExceptT.run_tryCatch, StateT.run_bind, hfirst]
  rfl

theorem run_pure_ok {value result : α} {state later : σ}
    (hrun : (pure value : ExceptT Error (StateM σ) α).run.run state = (.ok result, later)) :
    result = value ∧ later = state := by
  cases hrun
  exact ⟨rfl, rfl⟩

theorem run_except (outcome : Except Error α) (state : σ) :
    (liftM outcome : ExceptT Error (StateM σ) α).run.run state = (outcome, state) := by
  cases outcome <;> rfl

theorem liftM_ok (value : α) :
    (liftM (.ok value : Except Error α) : ExceptT Error (StateM σ) α) = pure value := rfl

theorem run_except_ok {outcome : Except Error α} {result : α} {state later : σ}
    (hrun : (liftM outcome : ExceptT Error (StateM σ) α).run.run state = (.ok result, later)) :
    outcome = .ok result ∧ later = state := by
  cases outcome with
  | error error => cases hrun
  | ok value =>
    cases hrun
    exact ⟨rfl, rfl⟩

theorem run_except_bind_ok {outcome : Except Error α} {next : α → ExceptT Error (StateM σ) β}
    {state later : σ} {result : β}
    (hrun : (liftM outcome >>= next).run.run state = (.ok result, later)) :
    ∃ middle, outcome = .ok middle ∧ (next middle).run.run state = (.ok result, later) := by
  obtain ⟨middle, between, hlift, hnext⟩ := run_bind_ok hrun
  obtain ⟨hok, rfl⟩ := run_except_ok hlift
  exact ⟨middle, hok, hnext⟩

theorem run_except_bind_error {outcome : Except Error α}
    {next : α → ExceptT Error (StateM σ) β} {state later : σ} {error : Error}
    (hrun : (liftM outcome >>= next).run.run state = (.error error, later)) :
    outcome = .error error ∧ later = state ∨
      ∃ middle, outcome = .ok middle ∧ (next middle).run.run state = (.error error, later) := by
  cases outcome with
  | error failed =>
    cases hrun
    exact .inl ⟨rfl, rfl⟩
  | ok middle => exact .inr ⟨middle, rfl, hrun⟩

theorem run_get_bind_ok {next : σ → ExceptT Error (StateM σ) β} {state later : σ} {result : β}
    (hrun : ((MonadState.get : ExceptT Error (StateM σ) σ) >>= next).run.run state =
      (.ok result, later)) : (next state).run.run state = (.ok result, later) := hrun

theorem run_get_bind_error {next : σ → ExceptT Error (StateM σ) β} {state later : σ} {error : Error}
    (hrun : ((MonadState.get : ExceptT Error (StateM σ) σ) >>= next).run.run state =
      (.error error, later)) : (next state).run.run state = (.error error, later) := hrun

theorem run_lift_ok {computation : StateM σ α} {result : α} {state later : σ}
    (hrun : (liftM computation : ExceptT Error (StateM σ) α).run.run state = (.ok result, later)) :
    computation.run state = (result, later) := by
  have hlift : (liftM computation : ExceptT Error (StateM σ) α).run.run state =
      (.ok (computation.run state).1, (computation.run state).2) := rfl
  rw [hlift] at hrun
  rcases hresult : computation.run state with ⟨value, between⟩
  rw [hresult] at hrun
  cases hrun
  rfl

end Running

/-! ### Invariants of the state -/

/-- The computation keeps an invariant of its state, whether it succeeds or fails. -/
def Preserves {σ α : Type} (invariant : σ → Prop) (computation : ExceptT Error (StateM σ) α) :
    Prop :=
  ∀ state, invariant state → invariant (computation.run.run state).2

namespace Preserves

variable {σ α β : Type} {invariant : σ → Prop}

theorem bind {first : ExceptT Error (StateM σ) α} {next : α → ExceptT Error (StateM σ) β}
    (hfirst : Preserves invariant first) (hnext : ∀ value, Preserves invariant (next value)) :
    Preserves invariant (first >>= next) := by
  intro state hstate
  have hmiddle := hfirst state hstate
  rw [ExceptT.run_bind, StateT.run_bind]
  rcases hrun : first.run.run state with ⟨outcome, between⟩
  rw [hrun] at hmiddle
  cases outcome with
  | error error => exact hmiddle
  | ok value => exact hnext value between hmiddle

theorem pure (value : α) :
    Preserves invariant (Pure.pure value : ExceptT Error (StateM σ) α) :=
  fun _ hstate => hstate

theorem throw (error : Error) :
    Preserves invariant (MonadExcept.throw error : ExceptT Error (StateM σ) α) :=
  fun _ hstate => hstate

theorem lift (outcome : Except Error α) :
    Preserves invariant (liftM outcome : ExceptT Error (StateM σ) α) := by
  intro state hstate
  cases outcome <;> exact hstate

theorem get : Preserves invariant (MonadState.get : ExceptT Error (StateM σ) σ) :=
  fun _ hstate => hstate

theorem get_bind {next : σ → ExceptT Error (StateM σ) β}
    (hnext : ∀ state, invariant state → Preserves invariant (next state)) :
    Preserves invariant (MonadState.get >>= next) :=
  fun state hstate => hnext state hstate state hstate

theorem modify {change : σ → σ} (hchange : ∀ state, invariant state → invariant (change state)) :
    Preserves invariant (modify change : ExceptT Error (StateM σ) PUnit) :=
  hchange

theorem mapM_mem {items : List α} {change : α → ExceptT Error (StateM σ) β}
    (hitems : ∀ item ∈ items, Preserves invariant (change item)) :
    Preserves invariant (items.mapM change) := by
  induction items with
  | nil => exact .pure []
  | cons item rest ih =>
    rw [List.mapM_cons]
    refine (hitems item List.mem_cons_self).bind fun _ => ?_
    exact (ih fun other hmem => hitems other (List.mem_cons_of_mem _ hmem)).bind fun _ => .pure _

theorem mapM {items : List α} {change : α → ExceptT Error (StateM σ) β}
    (hitems : ∀ item, Preserves invariant (change item)) :
    Preserves invariant (items.mapM change) :=
  mapM_mem fun item _ => hitems item

theorem forM_mem {items : List α} {visit : α → ExceptT Error (StateM σ) PUnit}
    (hitems : ∀ item ∈ items, Preserves invariant (visit item)) :
    Preserves invariant (items.forM visit) := by
  induction items with
  | nil => exact .pure _
  | cons item rest ih =>
    exact (hitems item List.mem_cons_self).bind
      fun _ => ih fun other hmem => hitems other (List.mem_cons_of_mem _ hmem)

theorem forM {items : List α} {visit : α → ExceptT Error (StateM σ) PUnit}
    (hitems : ∀ item, Preserves invariant (visit item)) :
    Preserves invariant (items.forM visit) :=
  forM_mem fun item _ => hitems item

theorem foldlM {items : List α} {step : β → α → ExceptT Error (StateM σ) β}
    (hstep : ∀ item ∈ items, ∀ held, Preserves invariant (step held item)) (held : β) :
    Preserves invariant (items.foldlM step held) := by
  induction items generalizing held with
  | nil => exact .pure _
  | cons item rest ih =>
    rw [List.foldlM_cons]
    exact (hstep item List.mem_cons_self held).bind
      (ih fun other hmem => hstep other (List.mem_cons_of_mem _ hmem))

theorem tryCatch {first : ExceptT Error (StateM σ) α} {handle : Error → ExceptT Error (StateM σ) α}
    (hfirst : Preserves invariant first) (hhandle : ∀ error, Preserves invariant (handle error)) :
    Preserves invariant (MonadExcept.tryCatch first handle) := by
  intro state hstate
  have hmiddle := hfirst state hstate
  rcases hrun : first.run.run state with ⟨outcome, between⟩
  rw [hrun] at hmiddle
  cases outcome with
  | ok value =>
    rw [run_tryCatch_of_ok hrun]
    exact hmiddle
  | error error =>
    rw [run_tryCatch_of_error hrun]
    exact hhandle error between hmiddle

theorem of_run {computation : ExceptT Error (StateM σ) α}
    (hrun : ∀ state outcome later, invariant state →
      computation.run.run state = (outcome, later) → invariant later) :
    Preserves invariant computation :=
  fun state hstate => hrun state _ _ hstate rfl

end Preserves

/-- What follows a computation may rely on how that ran. -/
theorem holds_bind {σ α β : Type} {invariant : σ → Prop} {first : ExceptT Error (StateM σ) α}
    {next : α → ExceptT Error (StateM σ) β} {state : σ}
    (hfirst : invariant (first.run.run state).2)
    (hnext : ∀ value between, first.run.run state = (.ok value, between) → invariant between →
      invariant ((next value).run.run between).2) :
    invariant ((first >>= next).run.run state).2 := by
  rw [ExceptT.run_bind, StateT.run_bind]
  rcases hrun : first.run.run state with ⟨outcome, between⟩
  rw [hrun] at hfirst
  cases outcome with
  | error error => exact hfirst
  | ok value => exact hnext value between hrun hfirst

/-- The computation keeps an invariant of its state, and what it yields has a property. -/
def Yields {σ α : Type} (invariant : σ → Prop) (property : α → Prop)
    (computation : ExceptT Error (StateM σ) α) : Prop :=
  ∀ state, invariant state → invariant (computation.run.run state).2 ∧
    ∀ value, (computation.run.run state).1 = .ok value → property value

namespace Yields

variable {σ α β : Type} {invariant : σ → Prop} {property : α → Prop} {later : β → Prop}

theorem preserves {computation : ExceptT Error (StateM σ) α}
    (hyields : Yields invariant property computation) : Preserves invariant computation :=
  fun state hstate => (hyields state hstate).1

theorem of_preserves {computation : ExceptT Error (StateM σ) α}
    (hpreserves : Preserves invariant computation) :
    Yields invariant (fun _ => True) computation :=
  fun state hstate => ⟨hpreserves state hstate, fun _ _ => trivial⟩

theorem bind {first : ExceptT Error (StateM σ) α} {next : α → ExceptT Error (StateM σ) β}
    (hfirst : Yields invariant property first)
    (hnext : ∀ value, property value → Yields invariant later (next value)) :
    Yields invariant later (first >>= next) := by
  intro state hstate
  obtain ⟨hmiddle, hvalue⟩ := hfirst state hstate
  rw [ExceptT.run_bind, StateT.run_bind]
  rcases hrun : first.run.run state with ⟨outcome, between⟩
  rw [hrun] at hmiddle hvalue
  cases outcome with
  | error error => exact ⟨hmiddle, fun _ hok => by cases hok⟩
  | ok value => exact hnext value (hvalue value rfl) between hmiddle

theorem mono {computation : ExceptT Error (StateM σ) α} {other : α → Prop}
    (hyields : Yields invariant property computation)
    (hmono : ∀ value, property value → other value) : Yields invariant other computation :=
  fun state hstate => ⟨(hyields state hstate).1, fun value hok =>
    hmono value ((hyields state hstate).2 value hok)⟩

/-- What follows what is yielded needs only to keep the invariant. -/
theorem bind_preserves {first : ExceptT Error (StateM σ) α}
    {next : α → ExceptT Error (StateM σ) β} (hfirst : Yields invariant property first)
    (hnext : ∀ value, property value → Preserves invariant (next value)) :
    Preserves invariant (first >>= next) :=
  (hfirst.bind fun value hvalue => of_preserves (hnext value hvalue)).preserves

theorem bind_run {first : ExceptT Error (StateM σ) α} {next : α → ExceptT Error (StateM σ) β}
    {state : σ} (hfirst : Yields invariant property first) (hstate : invariant state)
    (hnext : ∀ value between, first.run.run state = (.ok value, between) → property value →
      invariant between → invariant ((next value).run.run between).2) :
    invariant ((first >>= next).run.run state).2 :=
  holds_bind (hfirst state hstate).1 fun value between hrun =>
    hnext value between hrun ((hfirst state hstate).2 value (by rw [hrun]))

theorem pure {value : α} (hvalue : property value) :
    Yields invariant property (Pure.pure value : ExceptT Error (StateM σ) α) :=
  fun _ hstate => ⟨hstate, fun _ hok => by cases hok; exact hvalue⟩

theorem throw (error : Error) :
    Yields invariant property (MonadExcept.throw error : ExceptT Error (StateM σ) α) :=
  fun _ hstate => ⟨hstate, fun _ hok => by cases hok⟩

theorem lift {outcome : Except Error α} (houtcome : ∀ value, outcome = .ok value → property value) :
    Yields invariant property (liftM outcome : ExceptT Error (StateM σ) α) := by
  intro state hstate
  cases outcome with
  | error error => exact ⟨hstate, fun _ hok => by cases hok⟩
  | ok value => exact ⟨hstate, fun _ hok => by cases hok; exact houtcome value rfl⟩

theorem tryCatch {first : ExceptT Error (StateM σ) α} {handle : Error → ExceptT Error (StateM σ) α}
    (hfirst : Yields invariant property first)
    (hhandle : ∀ error, Yields invariant property (handle error)) :
    Yields invariant property (MonadExcept.tryCatch first handle) := by
  intro state hstate
  obtain ⟨hmiddle, hvalue⟩ := hfirst state hstate
  rcases hrun : first.run.run state with ⟨outcome, between⟩
  rw [hrun] at hmiddle hvalue
  cases outcome with
  | ok value =>
    rw [run_tryCatch_of_ok hrun]
    exact ⟨hmiddle, hvalue⟩
  | error error =>
    rw [run_tryCatch_of_error hrun]
    exact hhandle error between hmiddle

theorem get : Yields invariant invariant (MonadState.get : ExceptT Error (StateM σ) σ) :=
  fun _ hstate => ⟨hstate, fun _ hok => by cases hok; exact hstate⟩

theorem mapM {items : List α} {change : α → ExceptT Error (StateM σ) β}
    (hitems : ∀ item ∈ items, Yields invariant later (change item)) :
    Yields invariant (fun results => ∀ result ∈ results, later result) (items.mapM change) := by
  induction items with
  | nil => exact .pure (by simp)
  | cons item rest ih =>
    rw [List.mapM_cons]
    refine (hitems item List.mem_cons_self).bind fun first hfirst => ?_
    refine (ih fun other hmem => hitems other (List.mem_cons_of_mem _ hmem)).bind fun others hall =>
      .pure ?_
    simpa using ⟨hfirst, hall⟩

end Yields

end RecordStore
