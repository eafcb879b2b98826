import NoPend.Lib.Proc

set_option autoImplicit false

/- Rules for the calls that a run makes, and for two runs side by side. -/
namespace Proc

variable {ε σ α β : Type}

section Trace

variable {ι ρ κ : Type}

/-- The calls of `call` in a run: the run is made of these, in this order, and of steps that
leave alone the part `view` of the state. -/
inductive Trace (call : ι → Proc ε σ ρ) (view : σ → κ) :
    {α : Type} → Proc ε σ α → σ → List ι → Except ε α → σ → Prop where
  | call (argument : ι) (before : σ) :
      Trace call view (call argument) before [argument] (exec (call argument) before).1
        (exec (call argument) before).2
  | quiet {α : Type} (m : Proc ε σ α) (before : σ)
    (same : view (exec m before).2 = view before) :
      Trace call view m before [] (exec m before).1 (exec m before).2
  | bind {α β : Type} {m : Proc ε σ α} {f : α → Proc ε σ β} {before state after : σ}
    {value : α}
      {outcome : Except ε β} {done rest : List ι}
        (first : Trace call view m before done (.ok value) state)
      (second : Trace call view (f value) state rest outcome after) :
      Trace call view (m >>= f) before (done ++ rest) outcome after
  | stop {α β : Type} {m : Proc ε σ α} {f : α → Proc ε σ β} {before after : σ}
    {reason : ε} {done : List ι} (first : Trace call view m before done (.error reason) after) :
      Trace call view (m >>= f) before done (.error reason) after

variable {call : ι → Proc ε σ ρ} {view : σ → κ}

/-- What a call does to the view is all that a run does to it. -/
theorem Trace.view_eq {step : κ → ι → κ}
    (one : ∀ argument before, view (exec (call argument) before).2 = step (view before) argument)
    {m : Proc ε σ α} {before after : σ} {calls : List ι} {outcome : Except ε α}
    (trace : Trace call view m before calls outcome after) :
    view after = calls.foldl step (view before) := by
  induction trace with
  | call argument before => exact one argument before
  | quiet m before same => exact same
  | bind _ _ first second => rw [second, first, List.foldl_append]
  | stop _ ih => exact ih

theorem Trace.exec_eq {m : Proc ε σ α} {before after : σ} {calls : List ι}
    {outcome : Except ε α}
    (trace : Trace call view m before calls outcome after) : exec m before = (outcome, after) := by
  induction trace with
  | call argument before => rfl
  | quiet m before same => rfl
  | bind _ _ first second => rw [exec_bind, first, ← second]
  | stop _ ih => rw [exec_bind, ih]

theorem Trace.get_bind {f : σ → Proc ε σ α} {before after : σ} {calls : List ι}
    {outcome : Except ε α} (trace : Trace call view (f before) before calls outcome after) :
    Trace call view (get >>= f) before calls outcome after :=
  .bind (.quiet get before rfl) trace

theorem Trace.modify_bind {g : σ → σ} {f : PUnit → Proc ε σ α} {before after : σ}
    {calls : List ι} {outcome : Except ε α} (same : view (g before) = view before)
    (trace : Trace call view (f ⟨⟩) (g before) calls outcome after) :
    Trace call view (modify g >>= f) before calls outcome after :=
  .bind (.quiet (modify g) before same) trace

/-- Every run of the procedure can be traced, and `P` holds of the arguments of its calls. -/
def Traced (call : ι → Proc ε σ ρ) (view : σ → κ) (P : ι → Prop) (m : Proc ε σ α) :
    Prop :=
  ∀ before, ∃ calls, Trace call view m before calls (exec m before).1 (exec m before).2 ∧
    ∀ argument ∈ calls, P argument

variable {P : ι → Prop}

theorem Traced.quiet {m : Proc ε σ α} (same : ∀ before, view (exec m before).2 = view before) :
    Traced call view P m :=
  fun before => ⟨[], .quiet m before (same before), by simp⟩

theorem Traced.ret (value : α) : Traced call view P (pure value) := .quiet fun _ => rfl

theorem Traced.throw (reason : ε) : Traced call view P (throw reason : Proc ε σ α) :=
  .quiet fun _ => rfl

theorem Traced.lift (e : Except ε α) : Traced call view P (liftM e : Proc ε σ α) :=
  .quiet fun _ => rfl

theorem Traced.get : Traced call view P (get : Proc ε σ σ) := .quiet fun _ => rfl

theorem Traced.modify {f : σ → σ} (same : ∀ before, view (f before) = view before) :
    Traced call view P (modify f : Proc ε σ PUnit) :=
  .quiet same

theorem Traced.one {argument : ι} (holds : P argument) : Traced call view P (call argument) :=
  fun before => ⟨[argument], .call argument before, by simpa using holds⟩

/-- What follows may use that the first part can return the value. -/
theorem Traced.bind_returned {m : Proc ε σ α} {f : α → Proc ε σ β}
    (first : Traced call view P m)
    (second : ∀ value, (∃ before after, Runs m before value after) →
      Traced call view P (f value)) :
    Traced call view P (m >>= f) := by
  intro before
  obtain ⟨done, trace, holds⟩ := first before
  have ran : ∀ value, (exec m before).1 = .ok value → Traced call view P (f value) :=
    fun value returned => second value ⟨before, _, Prod.ext returned rfl⟩
  rw [exec_bind]
  generalize exec m before = ended at trace ran ⊢
  obtain ⟨outcome, state⟩ := ended
  cases outcome with
  | error reason => exact ⟨done, trace.stop, holds⟩
  | ok value =>
      obtain ⟨rest, more, holds'⟩ := ran value rfl state
      refine ⟨done ++ rest, trace.bind more, fun argument member => ?_⟩
      rcases List.mem_append.mp member with old | new
      · exact holds argument old
      · exact holds' argument new

theorem Traced.bind {m : Proc ε σ α} {f : α → Proc ε σ β} (first : Traced call view P m)
    (second : ∀ value, Traced call view P (f value)) : Traced call view P (m >>= f) :=
  first.bind_returned fun value _ => second value

theorem Traced.lift_bind {e : Except ε α} {f : α → Proc ε σ β}
    (second : ∀ value, e = .ok value → Traced call view P (f value)) :
    Traced call view P (liftM e >>= f : Proc ε σ β) := by
  refine (Traced.lift e).bind_returned fun value => ?_
  rintro ⟨before, after, returned⟩
  exact second value (congrArg Prod.fst returned)

theorem Traced.forM {body : α → Proc ε σ PUnit} (items : List α)
    (each : ∀ x, Traced call view P (body x)) : Traced call view P (items.forM body) := by
  induction items with
  | nil => exact .ret _
  | cons x rest ih => exact (each x).bind fun _ => ih

theorem Traced.foldlM {body : β → α → Proc ε σ β} (items : List α)
    (each : ∀ value, ∀ x ∈ items, Traced call view P (body value x)) (start : β) :
    Traced call view P (items.foldlM body start) := by
  induction items generalizing start with
  | nil => exact .ret _
  | cons x rest ih =>
      rw [List.foldlM_cons]
      exact (each start x (by simp)).bind
        (ih fun value y member => each value y (List.mem_cons_of_mem _ member))

theorem Traced.mapM {body : α → Proc ε σ β} (items : List α)
    (each : ∀ x, Traced call view P (body x)) : Traced call view P (items.mapM body) := by
  induction items with
  | nil => exact .ret _
  | cons x rest ih =>
      rw [List.mapM_cons]
      exact (each x).bind fun _ => ih.bind fun _ => .ret _

theorem Traced.iterate {exhausted : ε} {body : α → Proc ε σ (α ⊕ β)}
    (round : ∀ current, Traced call view P (body current)) (fuel : Nat) (current : α) :
    Traced call view P (iterate exhausted body fuel current) := by
  induction fuel generalizing current with
  | zero => exact .throw _
  | succ fuel ih =>
      refine (round current).bind fun outcome => ?_
      cases outcome with
      | inl next => exact ih next
      | inr result => exact .ret result

end Trace

section Lockstep

/-- Two runs side by side: from related states they end alike, in related states, and a value
they return satisfies `Post`. -/
def Lockstep (R : σ → σ → Prop) (Post : α → Prop) (m m' : Proc ε σ α) : Prop :=
  ∀ s s', R s s' → (exec m s).1 = (exec m' s').1 ∧ R (exec m s).2 (exec m' s').2 ∧
    ∀ value, (exec m s).1 = .ok value → Post value

variable {R : σ → σ → Prop} {Post : α → Prop} {m m' : Proc ε σ α}

theorem Lockstep.runs (steps : Lockstep R Post m m') {s s' after : σ} {value : α}
    (related : R s s')
    (runs : Runs m s value after) : ∃ after', Runs m' s' value after' ∧ R after after' := by
  obtain ⟨same, kept, _⟩ := steps s s' related
  rw [runs] at same kept
  exact ⟨(exec m' s').2, Prod.ext same.symm rfl, kept⟩

/-- The rule for steps that are known to return. -/
theorem Lockstep.of_runs
    (step : ∀ s s', R s s' → ∃ value after after', Runs m s value after ∧
    Runs m' s' value after' ∧ R after after' ∧ Post value) : Lockstep R Post m m' := by
  intro s s' related
  obtain ⟨value, after, after', runs, runs', kept, post⟩ := step s s' related
  rw [runs, runs']
  refine ⟨rfl, kept, fun other same => ?_⟩
  cases same
  exact post

theorem Lockstep.ret {value : α} (post : Post value) :
    Lockstep R Post (pure value : Proc ε σ α) (pure value) := by
  refine Lockstep.of_runs fun s s' related => ?_
  exact ⟨value, s, s', Runs.ret _ _, Runs.ret _ _, related, post⟩

theorem Lockstep.lift (Post : α → Prop) {e : Except ε α}
    (post : ∀ value, e = .ok value → Post value) :
    Lockstep R Post (liftM e : Proc ε σ α) (liftM e) :=
  fun _ _ related => ⟨rfl, related, post⟩

theorem Lockstep.throw (reason : ε) :
    Lockstep R Post (throw reason : Proc ε σ α) (throw reason) := by
  intro s s' related
  exact ⟨rfl, related, fun _ same => nomatch same⟩

theorem Lockstep.modify {f f' : σ → σ} (step : ∀ s s', R s s' → R (f s) (f' s')) :
    Lockstep R (fun _ => True) (modify f : Proc ε σ PUnit) (modify f') :=
  fun s s' related => ⟨rfl, step s s' related, fun _ _ => trivial⟩

/-- A value that every run of the first procedure returns may be used. -/
theorem Lockstep.strengthen {Post' : α → Prop} (steps : Lockstep R Post m m')
    (known : ∀ s s', R s s' → ∀ value after, Runs m s value after → Post' value) :
    Lockstep R Post' m m' := by
  intro s s' related
  obtain ⟨same, kept, _⟩ := steps s s' related
  exact ⟨same, kept, fun value returned => known s s' related value _ (Prod.ext returned rfl)⟩

theorem Lockstep.bind {Mid : β → Prop} {n n' : Proc ε σ β} {f f' : β → Proc ε σ α}
    (first : Lockstep R Mid n n')
    (second : ∀ value, Mid value → Lockstep R Post (f value) (f' value)) :
    Lockstep R Post (n >>= f) (n' >>= f') := by
  intro s s' related
  obtain ⟨same, kept, mid⟩ := first s s' related
  rw [exec_bind, exec_bind]
  generalize exec n s = ended at same kept mid ⊢
  generalize exec n' s' = ended' at same kept ⊢
  obtain ⟨outcome, state⟩ := ended
  obtain ⟨outcome', state'⟩ := ended'
  dsimp only at same kept mid
  subst same
  cases outcome with
  | error reason => exact ⟨rfl, kept, fun _ same => nomatch same⟩
  | ok value => exact second value (mid value rfl) state state' kept

theorem Lockstep.foldlM {β : Type} (Inv : β → Prop) {body body' : β → α → Proc ε σ β}
    (items : List α) (each : ∀ value, Inv value → ∀ x ∈ items,
      Lockstep R Inv (body value x) (body' value x)) {start : β} (inv : Inv start) :
    Lockstep R Inv (items.foldlM body start) (items.foldlM body' start) := by
  induction items generalizing start with
  | nil => exact Lockstep.ret inv
  | cons x rest ih =>
      rw [List.foldlM_cons, List.foldlM_cons]
      exact (each start inv x (by simp)).bind fun value here =>
        ih (fun value inv y member => each value inv y (List.mem_cons_of_mem _ member)) here

theorem Lockstep.forM {body body' : α → Proc ε σ PUnit} (items : List α)
    (each : ∀ x ∈ items, Lockstep R (fun _ => True) (body x) (body' x)) :
    Lockstep R (fun _ => True) (items.forM body) (items.forM body') := by
  induction items with
  | nil => exact Lockstep.ret trivial
  | cons x rest ih =>
      exact (each x (by simp)).bind fun _ _ =>
        ih fun y member => each y (List.mem_cons_of_mem _ member)

theorem Lockstep.iterate {β : Type} {exhausted : ε} (Inv : α → Prop) (Out : β → Prop)
    {body body' : α → Proc ε σ (α ⊕ β)}
    (round : ∀ current, Inv current →
      Lockstep R (Sum.elim Inv Out) (body current) (body' current))
    (fuel : Nat) {current : α} (inv : Inv current) :
    Lockstep R Out (Proc.iterate exhausted body fuel current)
      (Proc.iterate exhausted body' fuel current) := by
  induction fuel generalizing current with
  | zero => exact Lockstep.throw _
  | succ fuel ih =>
      refine (round current inv).bind fun outcome here => ?_
      cases outcome with
      | inl next => exact ih here
      | inr result => exact Lockstep.ret here

end Lockstep

section Keeps

variable {κ : Type} {view : σ → κ}

/-- The procedure leaves the part `view` of the state alone, also when it throws. -/
def Keeps (view : σ → κ) (m : Proc ε σ α) : Prop :=
    ∀ before, view (exec m before).2 = view before

theorem Keeps.of_runs {m : Proc ε σ α} (keeps : Keeps view m) {before after : σ} {value : α}
    (runs : Runs m before value after) : view after = view before := by
  have kept := keeps before
  rwa [runs] at kept

theorem Keeps.ret (value : α) : Keeps view (pure value : Proc ε σ α) := fun _ => rfl

theorem Keeps.throw (reason : ε) : Keeps view (throw reason : Proc ε σ α) := fun _ => rfl

theorem Keeps.lift (e : Except ε α) : Keeps view (liftM e : Proc ε σ α) := fun _ => rfl

theorem Keeps.get : Keeps view (get : Proc ε σ σ) := fun _ => rfl

theorem Keeps.modify {f : σ → σ} (same : ∀ before, view (f before) = view before) :
    Keeps view (modify f : Proc ε σ PUnit) := same

theorem Keeps.bind {m : Proc ε σ α} {f : α → Proc ε σ β} (first : Keeps view m)
    (second : ∀ value, Keeps view (f value)) : Keeps view (m >>= f) := by
  intro before
  have here := first before
  rw [exec_bind]
  generalize exec m before = ended at here ⊢
  obtain ⟨outcome, state⟩ := ended
  cases outcome with
  | error reason => exact here
  | ok value => exact (second value state).trans here

theorem Keeps.foldlM {body : β → α → Proc ε σ β} (items : List α)
    (each : ∀ value x, Keeps view (body value x)) (start : β) :
    Keeps view (items.foldlM body start) := by
  induction items generalizing start with
  | nil => exact .ret _
  | cons x rest ih =>
      rw [List.foldlM_cons]
      exact (each start x).bind ih

end Keeps

section Logs

variable {ι κ : Type} {Frame : σ → Prop} {view : σ → κ} {step : κ → ι → κ}
  {m : Proc ε σ α} {value : α} {calls : List ι}

/-- From every state in the frame the procedure returns `value` and stays in the frame, and
what it does to the part `view` of the state is what the steps `calls` do. -/
def Logs (Frame : σ → Prop) (view : σ → κ) (step : κ → ι → κ) (m : Proc ε σ α)
    (value : α) (calls : List ι) : Prop :=
  ∀ before, Frame before →
    ∃ after, Runs m before value after ∧ Frame after ∧
      view after = calls.foldl step (view before)

theorem Logs.settles (logs : Logs Frame view step m value calls) : Settles Frame m value := by
  intro before frame
  obtain ⟨after, runs, kept, _⟩ := logs before frame
  exact ⟨after, runs, kept⟩

/-- What holds of some run holds of every run that returns. -/
theorem Logs.of_runs (logs : Logs Frame view step m value calls) {before after : σ} {value' : α}
    (frame : Frame before) (runs : Runs m before value' after) :
    value' = value ∧ Frame after ∧ view after = calls.foldl step (view before) := by
  obtain ⟨_, runs', kept, seen⟩ := logs before frame
  obtain ⟨rfl, rfl⟩ := runs.unique runs'
  exact ⟨rfl, kept, seen⟩

theorem Logs.ret (value : α) : Logs Frame view step (pure value : Proc ε σ α) value [] :=
  fun before frame => ⟨before, Runs.ret value before, frame, rfl⟩

theorem Logs.of_ok {e : Except ε α} (ok : e = .ok value) :
    Logs Frame view step (liftM e : Proc ε σ α) value [] :=
  fun before frame => ⟨before, Runs.of_ok ok before, frame, rfl⟩

theorem Logs.bind {f : α → Proc ε σ β} {result : β} {more : List ι}
    (first : Logs Frame view step m value calls)
    (second : Logs Frame view step (f value) result more) :
    Logs Frame view step (m >>= f) result (calls ++ more) := by
  intro before frame
  obtain ⟨state, runs, kept, seen⟩ := first before frame
  obtain ⟨after, runs', final, seen'⟩ := second state kept
  refine ⟨after, runs.bind runs', final, ?_⟩
  rw [seen', seen, List.foldl_append]

/-- A step without calls comes first. -/
theorem Logs.of_ok_bind {e : Except ε α} (ok : e = .ok value) {f : α → Proc ε σ β}
    {result : β} (second : Logs Frame view step (f value) result calls) :
    Logs Frame view step (liftM e >>= f : Proc ε σ β) result calls :=
  (Logs.of_ok ok).bind second

/-- Steps without calls come last. -/
theorem Logs.bind_quiet {f : α → Proc ε σ β} {result : β}
    (first : Logs Frame view step m value calls)
    (second : Logs Frame view step (f value) result []) :
    Logs Frame view step (m >>= f) result calls := by
  have whole := first.bind second
  rwa [List.append_nil] at whole

end Logs

section Within

variable {R : σ → σ → Prop} [IsPreorder σ R]

/-- The state that the procedure leaves is related to the one it began in, also when it throws. -/
def Within (R : σ → σ → Prop) (m : Proc ε σ α) : Prop :=
    ∀ before, R before (exec m before).2

omit [IsPreorder σ R] in
theorem Within.of_runs {m : Proc ε σ α} (within : Within R m) {before after : σ} {value : α}
    (runs : Runs m before value after) : R before after := by
  have related := within before
  rwa [runs] at related

theorem Within.ret (value : α) : Within R (pure value : Proc ε σ α) :=
    fun before => refl_of R before

theorem Within.throw (reason : ε) : Within R (throw reason : Proc ε σ α) :=
    fun before => refl_of R before

theorem Within.lift (e : Except ε α) : Within R (liftM e : Proc ε σ α) :=
    fun before => refl_of R before

theorem Within.get : Within R (get : Proc ε σ σ) := fun before => refl_of R before

omit [IsPreorder σ R] in
theorem Within.modify {f : σ → σ} (step : ∀ before, R before (f before)) :
    Within R (modify f : Proc ε σ PUnit) := step

/-- What follows is only asked about values that some run returns. -/
theorem Within.bind_returned {m : Proc ε σ α} {f : α → Proc ε σ β} (first : Within R m)
    (second : ∀ value, (∃ before after, Runs m before value after) → Within R (f value)) :
    Within R (m >>= f) := by
  intro before
  have here := first before
  have ran : ∀ value, (exec m before).1 = .ok value → Within R (f value) :=
      fun value returned =>
    second value ⟨before, _, Runs.of_returns value returned⟩
  rw [exec_bind]
  generalize exec m before = ended at here ran ⊢
  obtain ⟨outcome, state⟩ := ended
  cases outcome with
  | error reason => exact here
  | ok value => exact trans_of R here (ran value rfl state)

theorem Within.bind {m : Proc ε σ α} {f : α → Proc ε σ β} (first : Within R m)
    (second : ∀ value, Within R (f value)) : Within R (m >>= f) :=
  first.bind_returned fun value _ => second value

theorem Within.forM {ι : Type*} {body : ι → Proc ε σ PUnit} (items : List ι)
    (each : ∀ x, Within R (body x)) : Within R (items.forM body) := by
  induction items with
  | nil => exact .ret _
  | cons x rest ih => exact (each x).bind fun _ => ih

theorem Within.foldlM {body : β → α → Proc ε σ β} (items : List α)
    (each : ∀ value x, Within R (body value x)) (start : β) :
    Within R (items.foldlM body start) := by
  induction items generalizing start with
  | nil => exact .ret _
  | cons x rest ih =>
      rw [List.foldlM_cons]
      exact (each start x).bind ih

theorem Within.mapM {body : α → Proc ε σ β} (items : List α)
    (each : ∀ x, Within R (body x)) :
    Within R (items.mapM body) := by
  induction items with
  | nil => exact .ret _
  | cons x rest ih =>
      rw [List.mapM_cons]
      exact (each x).bind fun _ => ih.bind fun _ => .ret _

theorem Within.iterate {exhausted : ε} {body : α → Proc ε σ (α ⊕ β)}
    (round : ∀ current, Within R (body current)) (fuel : Nat) (current : α) :
    Within R (iterate exhausted body fuel current) := by
  induction fuel generalizing current with
  | zero => exact .throw _
  | succ fuel ih =>
      refine (round current).bind fun outcome => ?_
      cases outcome with
      | inl next => exact ih next
      | inr result => exact .ret result

end Within

end Proc
