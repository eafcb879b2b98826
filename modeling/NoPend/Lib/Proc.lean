import Mathlib.Tactic

set_option autoImplicit false

/-- A procedure with state `σ` that may throw `ε`. The state reached before a throw
survives it, as the fields of an object do. -/
abbrev Proc (ε σ α : Type) := ExceptT ε (StateM σ) α

namespace Proc

variable {ε σ α β γ : Type}

/-- The outcome of a call together with the state it leaves. -/
def exec (m : Proc ε σ α) (before : σ) : Except ε α × σ := (m.run).run before

theorem exec_bind (m : Proc ε σ α) (f : α → Proc ε σ β) (before : σ) :
    exec (m >>= f) before =
      match exec m before with
      | (.ok middle, state) => exec (f middle) state
      | (.error reason, state) => (.error reason, state) := by
  change (ExceptT.bind m f) before = _
  simp only [ExceptT.bind, ExceptT.mk, bind, StateT.bind, exec, ExceptT.run, StateT.run]
  rcases m before with ⟨outcome, state⟩
  cases outcome <;> rfl

theorem exec_tryCatch (m : Proc ε σ α) (handler : ε → Proc ε σ α) (before : σ) :
    exec (tryCatch m handler) before =
      match exec m before with
      | (.ok value, state) => (.ok value, state)
      | (.error reason, state) => exec (handler reason) state := by
  change exec (ExceptT.tryCatch m handler) before = _
  simp only [ExceptT.tryCatch, ExceptT.mk, bind, StateT.bind, exec, ExceptT.run, StateT.run]
  rcases m before with ⟨outcome, state⟩
  cases outcome <;> rfl

/-- From `before` the procedure returns `value` normally and leaves `after`. -/
def Runs (m : Proc ε σ α) (before : σ) (value : α) (after : σ) : Prop :=
  exec m before = (.ok value, after)

/-- From `before` the procedure throws `reason` and leaves `after`. -/
def Throws (m : Proc ε σ α) (before : σ) (reason : ε) (after : σ) : Prop :=
  exec m before = (.error reason, after)

theorem Runs.unique {m : Proc ε σ α} {before after after' : σ} {value value' : α}
    (first : Runs m before value after) (second : Runs m before value' after') :
    value = value' ∧ after = after' := by
  have same := first.symm.trans second
  simp only [Prod.mk.injEq, Except.ok.injEq] at same
  exact same

theorem Runs.of_returns {m : Proc ε σ α} {before : σ} (value : α)
    (returns : (exec m before).1 = .ok value) : Runs m before value (exec m before).2 :=
  Prod.ext returns rfl

theorem Runs.of_isOk {m : Proc ε σ α} {before : σ} (ok : (exec m before).1.isOk = true) :
    ∃ value, Runs m before value (exec m before).2 := by
  cases outcome : (exec m before).1 with
  | error reason =>
      rw [outcome] at ok
      cases ok
  | ok value => exact ⟨value, Runs.of_returns value outcome⟩

theorem Runs.not_throws {m : Proc ε σ α} {before after after' : σ} {value : α} {reason : ε}
    (runs : Runs m before value after) : ¬ Throws m before reason after' := by
  intro throws
  have same := runs.symm.trans throws
  simp at same

@[simp] theorem runs_pure {before after : σ} {value value' : α} :
    Runs (pure value : Proc ε σ α) before value' after ↔
    value' = value ∧ after = before := by
  constructor
  · intro runs
    have same : (Except.ok value, before) = (Except.ok value', after) := runs
    simp only [Prod.mk.injEq, Except.ok.injEq] at same
    exact ⟨same.1.symm, same.2.symm⟩
  · rintro ⟨rfl, rfl⟩
    rfl

theorem runs_bind {m : Proc ε σ α} {f : α → Proc ε σ β} {before after : σ} {value : β} :
    Runs (m >>= f) before value after ↔
      ∃ middle state, Runs m before middle state ∧ Runs (f middle) state value after := by
  simp only [Runs, exec_bind]
  rcases exec m before with ⟨outcome, state⟩
  cases outcome with
  | error reason => simp
  | ok middle => simp

theorem Runs.bind {m : Proc ε σ α} {f : α → Proc ε σ β} {before state after : σ}
    {middle : α} {value : β} (first : Runs m before middle state)
    (second : Runs (f middle) state value after) : Runs (m >>= f) before value after :=
  runs_bind.mpr ⟨middle, state, first, second⟩

/-- A throw after steps that return. -/
theorem Runs.bind_throws {m : Proc ε σ α} {f : α → Proc ε σ β} {before state after : σ}
    {middle : α} {reason : ε} (first : Runs m before middle state)
    (second : Throws (f middle) state reason after) : Throws (m >>= f) before reason after := by
  unfold Throws
  rw [exec_bind, first]
  exact second

theorem Throws.bind {m : Proc ε σ α} {before after : σ} {reason : ε}
    (throws : Throws m before reason after)
    (f : α → Proc ε σ β) : Throws (m >>= f) before reason after := by
  unfold Throws
  rw [exec_bind, throws]

@[simp] theorem runs_map {m : Proc ε σ α} {f : α → β} {before after : σ} {value : β} :
    Runs (f <$> m) before value after ↔
    ∃ middle, Runs m before middle after ∧ value = f middle := by
  rw [← bind_pure_comp, runs_bind]
  constructor
  · rintro ⟨middle, state, first, second⟩
    simp only [runs_pure] at second
    obtain ⟨rfl, rfl⟩ := second
    exact ⟨middle, first, rfl⟩
  · rintro ⟨middle, first, rfl⟩
    exact ⟨middle, after, first, by simp⟩

@[simp] theorem runs_get {before after value : σ} :
    Runs (get : Proc ε σ σ) before value after ↔ value = before ∧ after = before := by
  constructor
  · intro runs
    have same : (Except.ok before, before) = (Except.ok value, after) := runs
    simp only [Prod.mk.injEq, Except.ok.injEq] at same
    exact ⟨same.1.symm, same.2.symm⟩
  · rintro ⟨rfl, rfl⟩
    rfl

@[simp] theorem runs_set {before after fresh : σ} {value : PUnit} :
    Runs (set fresh : Proc ε σ PUnit) before value after ↔ after = fresh := by
  constructor
  · intro runs
    have same : (Except.ok PUnit.unit, fresh) = (Except.ok value, after) := runs
    simp only [Prod.mk.injEq] at same
    exact same.2.symm
  · rintro rfl
    rfl

@[simp] theorem runs_modify {f : σ → σ} {before after : σ} {value : PUnit} :
    Runs (modify f : Proc ε σ PUnit) before value after ↔ after = f before := by
  constructor
  · intro runs
    have same : (Except.ok PUnit.unit, f before) = (Except.ok value, after) := runs
    simp only [Prod.mk.injEq] at same
    exact same.2.symm
  · rintro rfl
    rfl

@[simp] theorem runs_throw {reason : ε} {before after : σ} {value : α} :
    ¬ Runs (throw reason : Proc ε σ α) before value after := by
  intro runs
  have same : (Except.error reason, before) = (Except.ok value, after) := runs
  simp at same

@[simp] theorem runs_lift {e : Except ε α} {before after : σ} {value : α} :
    Runs (liftM e : Proc ε σ α) before value after ↔ e = .ok value ∧ after = before := by
  constructor
  · intro runs
    have same : (e, before) = (Except.ok value, after) := runs
    simp only [Prod.mk.injEq] at same
    exact ⟨same.1, same.2.symm⟩
  · rintro ⟨rfl, rfl⟩
    rfl

theorem Runs.ret (value : α) (before : σ) :
    Runs (pure value : Proc ε σ α) before value before :=
  rfl

theorem Runs.get (before : σ) : Runs (get : Proc ε σ σ) before before before := rfl

theorem Runs.modify (f : σ → σ) (before : σ) :
    Runs (modify f : Proc ε σ PUnit) before ⟨⟩ (f before) := rfl

theorem Runs.set (fresh before : σ) : Runs (set fresh : Proc ε σ PUnit) before ⟨⟩ fresh :=
    rfl

theorem Runs.of_ok {e : Except ε α} {value : α} (ok : e = .ok value) (before : σ) :
    Runs (liftM e : Proc ε σ α) before value before :=
  runs_lift.mpr ⟨ok, rfl⟩

theorem Runs.tryCatch {m : Proc ε σ α} (handler : ε → Proc ε σ α) {before after : σ}
    {value : α}
    (runs : Runs m before value after) : Runs (tryCatch m handler) before value after := by
  unfold Runs
  rw [exec_tryCatch, runs]

/-- What is thrown is handled in the state that the throw leaves. -/
theorem Throws.tryCatch {m : Proc ε σ α} {handler : ε → Proc ε σ α}
    {before state after : σ} {reason : ε} {value : α} (throws : Throws m before reason state)
    (runs : Runs (handler reason) state value after) :
    Runs (tryCatch m handler) before value after := by
  unfold Runs
  rw [exec_tryCatch, throws]
  exact runs

/-- A `while` loop: the body either continues with a new loop variable or leaves
the loop with a result. Running out of fuel throws `exhausted`. -/
def iterate (exhausted : ε) (body : α → Proc ε σ (α ⊕ β)) : Nat → α → Proc ε σ β
  | 0, _ => throw exhausted
  | fuel + 1, current => do
      match ← body current with
      | .inl next => iterate exhausted body fuel next
      | .inr result => pure result

/-- The loop variables and states with which the rounds of a loop begin. -/
inductive Rounds (body : α → Proc ε σ (α ⊕ β)) (first : α) (before : σ) :
    α → σ → Prop
  | start : Rounds body first before first before
  | next {current next : α} {state after : σ} (reached : Rounds body first before current state)
      (round : Runs (body current) state (.inl next) after) : Rounds body first before next after

section Inversion

theorem of_get_bind {f : σ → Proc ε σ α} {before after : σ} {value : α}
    (runs : Runs (get >>= f) before value after) : Runs (f before) before value after :=
  runs

theorem of_modify_bind {g : σ → σ} {f : PUnit → Proc ε σ α} {before after : σ}
    {value : α}
    (runs : Runs (modify g >>= f) before value after) : Runs (f ⟨⟩) (g before) value after :=
  runs

theorem of_lift_bind {e : Except ε α} {f : α → Proc ε σ β} {before after : σ} {value : β}
    (runs : Runs (liftM e >>= f : Proc ε σ β) before value after) :
    ∃ middle, e = .ok middle ∧ Runs (f middle) before value after := by
  cases e with
  | error reason => cases congrArg Prod.fst runs
  | ok middle => exact ⟨middle, rfl, runs⟩

/-- What every round keeps, and every leaving round establishes, holds of a run that returns. -/
theorem Runs.of_iterate {exhausted : ε} {body : α → Proc ε σ (α ⊕ β)}
    (Inv : α → σ → Prop) (Post : β → σ → Prop)
    (stays : ∀ current state next after, Inv current state →
      Runs (body current) state (.inl next) after → Inv next after)
    (leaves : ∀ current state result after, Inv current state →
      Runs (body current) state (.inr result) after → Post result after)
    {fuel : Nat} {current : α} {state after : σ} {result : β} (inv : Inv current state)
    (runs : Runs (iterate exhausted body fuel current) state result after) : Post result after := by
  induction fuel generalizing current state with
  | zero => cases congrArg Prod.fst runs
  | succ fuel ih =>
      obtain ⟨outcome, middle, round, rest⟩ := runs_bind.mp runs
      cases outcome with
      | inl next => exact ih (stays current state next middle inv round) rest
      | inr final =>
          obtain ⟨rfl, rfl⟩ := runs_pure.mp rest
          exact leaves current state result after inv round

theorem Runs.of_forM {body : α → Proc ε σ PUnit} (Inv : List α → σ → Prop)
    {items : List α}
    (round : ∀ done x rest state after, items = done ++ x :: rest → Inv done state →
      Runs (body x) state ⟨⟩ after → Inv (done ++ [x]) after)
    {state after : σ} (start : Inv [] state) (runs : Runs (items.forM body) state ⟨⟩ after) :
    Inv items after := by
  suffices general : ∀ rest done state, items = done ++ rest → Inv done state →
      Runs (rest.forM body) state ⟨⟩ after → Inv items after by
    exact general items [] state rfl start runs
  intro rest
  induction rest with
  | nil =>
      intro done state split inv runs
      obtain rfl : state = after := congrArg Prod.snd runs
      rw [split, List.append_nil]
      exact inv
  | cons x rest ih =>
      intro done state split inv runs
      obtain ⟨_, middle, first, later⟩ := runs_bind.mp runs
      exact ih (done ++ [x]) middle (by rw [split]; simp)
        (round done x rest state middle split inv first) later

end Inversion

/-- The rule for `iterate`: an invariant whose measure drops at every round that
continues, and a postcondition that every leaving round establishes. -/
theorem iterate_runs (exhausted : ε) (body : α → Proc ε σ (α ⊕ β))
    (Inv : α → σ → Prop) (Post : β → σ → Prop) (measure : α → σ → Nat)
    (round : ∀ current state, Inv current state →
      (∃ result after, Runs (body current) state (.inr result) after ∧ Post result after) ∨
      ∃ next after, Runs (body current) state (.inl next) after ∧ Inv next after ∧
        measure next after < measure current state)
    (fuel : Nat) (current : α) (state : σ) (inv : Inv current state)
    (enough : measure current state < fuel) :
    ∃ result after, Runs (iterate exhausted body fuel current) state result after ∧
      Post result after := by
  induction fuel generalizing current state with
  | zero => omega
  | succ fuel ih =>
      rcases round current state inv with ⟨result, after, runs, post⟩ | ⟨next, after,
        runs, kept, less⟩
      · exact ⟨result, after, runs.bind (by simp), post⟩
      · obtain ⟨result, final, rest, post⟩ := ih next after kept (by omega)
        exact ⟨result, final, runs.bind rest, post⟩

/-- More fuel, and a body that runs wherever the old one does, change no run. -/
theorem iterate_more {exhausted : ε} {body body' : α → Proc ε σ (α ⊕ β)}
    (agree : ∀ current state value after, Runs (body current) state value after →
      Runs (body' current) state value after) {fuel fuel' : Nat} (more : fuel ≤ fuel')
    {current : α} {state after : σ} {result : β}
    (runs : Runs (iterate exhausted body fuel current) state result after) :
    Runs (iterate exhausted body' fuel' current) state result after := by
  induction fuel generalizing fuel' current state with
  | zero => exact absurd runs runs_throw
  | succ fuel ih =>
      obtain ⟨fuel', rfl⟩ : ∃ k, fuel' = k + 1 := ⟨fuel' - 1, by omega⟩
      obtain ⟨outcome, middle, first, rest⟩ := runs_bind.mp runs
      refine Runs.bind (agree _ _ _ _ first) ?_
      cases outcome with
      | inl next => exact ih (by omega) rest
      | inr value => exact rest

/-- The rule for a loop over a list: the invariant speaks of the items done so far. -/
theorem forM_runs {ι : Type*} (body : ι → Proc ε σ PUnit) (Inv : List ι → σ → Prop)
    (items : List ι)
    (round : ∀ done item rest state, items = done ++ item :: rest → Inv done state →
      ∃ after, Runs (body item) state ⟨⟩ after ∧ Inv (done ++ [item]) after)
    (state : σ) (start : Inv [] state) :
    ∃ after, Runs (items.forM body) state ⟨⟩ after ∧ Inv items after := by
  suffices general : ∀ rest done state, items = done ++ rest → Inv done state →
      ∃ after, Runs (rest.forM body) state ⟨⟩ after ∧ Inv items after by
    exact general items [] state rfl start
  intro rest
  induction rest with
  | nil =>
      intro done state split inv
      refine ⟨state, by simp, ?_⟩
      simpa only [split, List.append_nil] using inv
  | cons item rest ih =>
      intro done state split inv
      obtain ⟨middle, runs, kept⟩ := round done item rest state split inv
      obtain ⟨after, more, final⟩ := ih (done ++ [item]) middle (by simp [split]) kept
      refine ⟨after, ?_, final⟩
      exact runs.bind more

/-- A loop over a list returns if its body does, in every state. -/
theorem forM_total {body : α → Proc ε σ PUnit} {items : List α}
    (each : ∀ item ∈ items, ∀ state, ∃ after, Runs (body item) state ⟨⟩ after)
    (state : σ) :
    ∃ after, Runs (items.forM body) state ⟨⟩ after := by
  induction items generalizing state with
  | nil => exact ⟨state, Runs.ret PUnit.unit state⟩
  | cons item rest ih =>
      obtain ⟨middle, runs⟩ := each item (by simp) state
      obtain ⟨after, more⟩ := ih (fun x member => each x (List.mem_cons_of_mem _ member)) middle
      exact ⟨after, runs.bind more⟩

/-- The rule for a fold over a list. -/
theorem foldlM_runs (body : β → α → Proc ε σ β) (Inv : β → σ → Prop)
    (items : List α)
    (round : ∀ value state item, item ∈ items → Inv value state →
      ∃ next after, Runs (body value item) state next after ∧ Inv next after)
    (value : β) (state : σ) (start : Inv value state) :
    ∃ result after, Runs (items.foldlM body value) state result after ∧ Inv result after := by
  induction items generalizing value state with
  | nil => exact ⟨value, state, by simp, start⟩
  | cons item rest ih =>
      obtain ⟨next, middle, first, kept⟩ := round value state item (by simp) start
      obtain ⟨result, after, later, final⟩ :=
        ih (fun value state other member => round value state other (List.mem_cons_of_mem _ member))
          next middle kept
      refine ⟨result, after, ?_, final⟩
      rw [List.foldlM_cons]
      exact first.bind later

/-- The rule for `mapM`: every result is related to its item. -/
theorem mapM_runs (body : α → Proc ε σ β) (Inv : σ → Prop) (rel : α → β → Prop)
    (items : List α)
    (each : ∀ x ∈ items, ∀ state, Inv state →
      ∃ value after, Runs (body x) state value after ∧ rel x value ∧ Inv after)
    (state : σ) (start : Inv state) :
    ∃ values after,
      Runs (items.mapM body) state values after ∧ List.Forall₂ rel items values ∧
      Inv after := by
  induction items generalizing state with
  | nil => exact ⟨[], state, by simp, List.Forall₂.nil, start⟩
  | cons x rest ih =>
      obtain ⟨value, middle, first, related, kept⟩ := each x (by simp) state start
      obtain ⟨values, after, later, all, final⟩ :=
        ih (fun y member => each y (List.mem_cons_of_mem _ member)) middle kept
      refine ⟨value :: values, after, ?_, List.Forall₂.cons related all, final⟩
      rw [List.mapM_cons]
      exact first.bind (later.bind (Runs.ret _ _))

/-- Each value that a `mapM` returns is one that its body returned for its item. -/
theorem Runs.of_mapM {body : α → Proc ε σ β} {items : List α} {before after : σ}
    {values : List β} (runs : Runs (items.mapM body) before values after) :
    List.Forall₂ (fun x value => ∃ state state', Runs (body x) state value state')
      items values := by
  induction items generalizing before after values with
  | nil =>
      obtain ⟨rfl, _⟩ := runs_pure.mp runs
      exact .nil
  | cons x rest ih =>
      rw [List.mapM_cons] at runs
      obtain ⟨value, middle, first, more⟩ := runs_bind.mp runs
      obtain ⟨others, last, later, final⟩ := runs_bind.mp more
      obtain ⟨rfl, _⟩ := runs_pure.mp final
      exact .cons ⟨before, middle, first⟩ (ih later)

/-- From every state in the frame the procedure returns `value`, and it stays in the frame:
its result does not depend on the rest of the state. -/
def Settles (Frame : σ → Prop) (m : Proc ε σ α) (value : α) : Prop :=
  ∀ before, Frame before → ∃ after, Runs m before value after ∧ Frame after

theorem Settles.ret {Frame : σ → Prop} (value : α) :
    Settles Frame (pure value : Proc ε σ α) value :=
  fun before frame => ⟨before, Runs.ret value before, frame⟩

theorem Settles.of_ok {Frame : σ → Prop} {e : Except ε α} {value : α} (ok : e = .ok value) :
    Settles Frame (liftM e : Proc ε σ α) value :=
  fun before frame => ⟨before, Runs.of_ok ok before, frame⟩

theorem Settles.bind {Frame : σ → Prop} {m : Proc ε σ α} {f : α → Proc ε σ β}
    {middle : α}
    {value : β} (first : Settles Frame m middle) (second : Settles Frame (f middle) value) :
    Settles Frame (m >>= f) value := by
  intro before frame
  obtain ⟨state, runs, kept⟩ := first before frame
  obtain ⟨after, more, final⟩ := second state kept
  exact ⟨after, runs.bind more, final⟩

/-- The rule for loops whose rounds settle. A family of loops, each in a frame of its own,
that agrees on every round agrees on the result, whatever fuel each loop has. -/
theorem iterate_settles {ι : Type} (Frame : ι → σ → Prop) (exhausted : ε)
    (body : ι → α → Proc ε σ (α ⊕ β)) (Inv : α → Prop) (Post : β → Prop)
    (measure : α → Nat)
    (round : ∀ current, Inv current →
      (∃ result, (∀ i, Settles (Frame i) (body i current) (.inr result)) ∧ Post result) ∨
      ∃ next, (∀ i, Settles (Frame i) (body i current) (.inl next)) ∧ Inv next ∧
        measure next < measure current)
    (current : α) (inv : Inv current) :
    ∃ result, (∀ i fuel, measure current < fuel →
      Settles (Frame i) (iterate exhausted (body i) fuel current) result) ∧ Post result := by
  induction bound : measure current using Nat.strong_induction_on generalizing current with
  | _ size ih =>
      subst bound
      rcases round current inv with ⟨result, settles, post⟩ | ⟨next, settles, kept, less⟩
      · refine ⟨result, fun i fuel enough => ?_, post⟩
        obtain ⟨fuel, rfl⟩ : ∃ k, fuel = k + 1 := ⟨fuel - 1, by omega⟩
        exact (settles i).bind (Settles.ret result)
      · obtain ⟨result, rest, post⟩ := ih (measure next) less next kept rfl
        refine ⟨result, fun i fuel enough => ?_, post⟩
        obtain ⟨fuel, rfl⟩ : ∃ k, fuel = k + 1 := ⟨fuel - 1, by omega⟩
        exact (settles i).bind (rest i fuel (by omega))

end Proc

namespace Except

variable {ε α β : Type}

theorem bind_ok {e : Except ε α} {f : α → Except ε β} {value : β} :
    (e >>= f) = .ok value ↔ ∃ middle, e = .ok middle ∧ f middle = .ok value := by
  cases e with
  | error reason => simp [bind, Except.bind]
  | ok middle => simp [bind, Except.bind]

theorem mapM_ok {f : α → Except ε β} {g : α → β} {items : List α}
    (each : ∀ x ∈ items, f x = .ok (g x)) : items.mapM f = .ok (items.map g) := by
  induction items with
  | nil => rfl
  | cons x rest ih =>
      have first := each x (by simp)
      have later := ih fun y member => each y (List.mem_cons_of_mem _ member)
      simp only [List.mapM_cons, first, later, List.map_cons]
      rfl

theorem mapM_total {f : α → Except ε β} {items : List α}
    (each : ∀ x ∈ items, ∃ value, f x = .ok value) :
    ∃ values, items.mapM f = .ok values := by
  induction items with
  | nil => exact ⟨[], rfl⟩
  | cons x rest ih =>
      obtain ⟨value, here⟩ := each x (by simp)
      obtain ⟨values, later⟩ := ih fun y member => each y (List.mem_cons_of_mem _ member)
      exact ⟨value :: values, by rw [List.mapM_cons, here, later]; rfl⟩

theorem anyM_ok {f : α → Except ε Bool} {g : α → Bool} {items : List α}
    (each : ∀ x ∈ items, f x = .ok (g x)) : items.anyM f = .ok (items.any g) := by
  induction items with
  | nil => rfl
  | cons x rest ih =>
      have first := each x (by simp)
      have later := ih fun y member => each y (List.mem_cons_of_mem _ member)
      simp only [List.anyM, first, later, List.any_cons, bind, Except.bind]
      cases g x <;> rfl

theorem forall₂_of_mapM {f : α → Except ε β} {items : List α} {values : List β}
    (done : items.mapM f = .ok values) :
    List.Forall₂ (fun x value => f x = .ok value) items values := by
  induction items generalizing values with
  | nil =>
      obtain rfl := Except.ok.inj done
      exact .nil
  | cons x rest ih =>
      rw [List.mapM_cons] at done
      obtain ⟨first, here, later⟩ := bind_ok.mp done
      obtain ⟨others, more, result⟩ := bind_ok.mp later
      obtain rfl := Except.ok.inj result
      exact .cons here (ih more)

/-- Every value of a list that `mapM` returns comes from an item. -/
theorem mem_of_mapM {f : α → Except ε β} {items : List α} {values : List β}
    (done : items.mapM f = .ok values) {value : β} (member : value ∈ values) :
    ∃ x ∈ items, f x = .ok value := by
  induction items generalizing values with
  | nil =>
      cases done
      simp at member
  | cons x rest ih =>
      rw [List.mapM_cons] at done
      obtain ⟨first, here, later⟩ := bind_ok.mp done
      obtain ⟨others, more, result⟩ := bind_ok.mp later
      rw [← Except.ok.inj result] at member
      rcases List.mem_cons.mp member with rfl | old
      · exact ⟨x, by simp, here⟩
      · obtain ⟨y, inside, step⟩ := ih more old
        exact ⟨y, List.mem_cons_of_mem _ inside, step⟩

/-- Every item of a list has its value in what `mapM` returns. -/
theorem ok_of_mapM {f : α → Except ε β} {items : List α} {values : List β}
    (done : items.mapM f = .ok values) {x : α} (member : x ∈ items) :
    ∃ value ∈ values, f x = .ok value := by
  induction items generalizing values with
  | nil => simp at member
  | cons y rest ih =>
      rw [List.mapM_cons] at done
      obtain ⟨first, here, later⟩ := bind_ok.mp done
      obtain ⟨others, more, result⟩ := bind_ok.mp later
      rw [← Except.ok.inj result]
      rcases List.mem_cons.mp member with rfl | old
      · exact ⟨first, by simp, here⟩
      · obtain ⟨value, inside, step⟩ := ih more old
        exact ⟨value, List.mem_cons_of_mem _ inside, step⟩

/-- A search that returns has found an item, or has been answered by all items. -/
theorem anyM_cases {f : α → Except ε Bool} {items : List α} {found : Bool}
    (done : items.anyM f = .ok found) :
    (found = true ∧ ∃ x ∈ items, f x = .ok true) ∨
    (found = false ∧ ∀ x ∈ items, f x = .ok false) := by
  induction items with
  | nil =>
      cases done
      exact Or.inr ⟨rfl, by simp⟩
  | cons x rest ih =>
      obtain ⟨here, answer, later⟩ := bind_ok.mp done
      cases here with
      | true => exact Or.inl ⟨(Except.ok.inj later).symm, x, by simp, answer⟩
      | false =>
          rcases ih later with ⟨some, y, member, yes⟩ | ⟨none, all⟩
          · exact Or.inl ⟨some, y, List.mem_cons_of_mem _ member, yes⟩
          · refine Or.inr ⟨none, fun y member => ?_⟩
            rcases List.mem_cons.mp member with rfl | old
            · exact answer
            · exact all y old

/-- Where nothing is found in a list, nothing is found in its first part. -/
theorem anyM_of_append {f : α → Except ε Bool} {items more : List α}
    (none : (items ++ more).anyM f = .ok false) : items.anyM f = .ok false := by
  rcases anyM_cases none with ⟨impossible, _⟩ | ⟨_, all⟩
  · cases impossible
  · rw [anyM_ok fun x member => all x (List.mem_append_left _ member)]
    simp

theorem foldlM_post {f : β → α → Except ε β} (Inv : β → Prop) {items : List α}
    (round : ∀ value x next, Inv value → f value x = .ok next → Inv next) {start result : β}
    (inv : Inv start) (done : items.foldlM f start = .ok result) : Inv result := by
  induction items generalizing start with
  | nil =>
      obtain rfl := Except.ok.inj done
      exact inv
  | cons x rest ih =>
      rw [List.foldlM_cons] at done
      obtain ⟨next, step, later⟩ := bind_ok.mp done
      exact ih (round start x next inv step) later

/-- The rule for a fold over a list: the invariant speaks of the items done so far. -/
theorem foldlM_inv (f : β → α → Except ε β) (Inv : List α → β → Prop)
    (items : List α)
    (round : ∀ done x value, x ∈ items → Inv done value →
      ∃ next, f value x = .ok next ∧ Inv (done ++ [x]) next)
    (start : β) (inv : Inv [] start) :
    ∃ result, items.foldlM f start = .ok result ∧ Inv items result := by
  suffices general : ∀ rest done value, (∀ x ∈ rest, x ∈ items) → Inv done value →
      ∃ result, rest.foldlM f value = .ok result ∧ Inv (done ++ rest) result by
    exact general items [] start (fun _ member => member) inv
  intro rest
  induction rest with
  | nil => exact fun done value _ inv => ⟨value, rfl, by simpa using inv⟩
  | cons x rest ih =>
      intro done value within inv
      obtain ⟨next, first, kept⟩ := round done x value (within x (by simp)) inv
      obtain ⟨result, later, final⟩ :=
        ih (done ++ [x]) next (fun y member => within y (List.mem_cons_of_mem _ member)) kept
      refine ⟨result, ?_, by simpa using final⟩
      rw [List.foldlM_cons, first]
      exact later

/-- A fold returns if each of its steps does, whatever it is given. -/
theorem foldlM_total {f : β → α → Except ε β} {items : List α}
    (each : ∀ x ∈ items, ∀ value, ∃ next, f value x = .ok next) (start : β) :
    ∃ result, items.foldlM f start = .ok result := by
  induction items generalizing start with
  | nil => exact ⟨start, rfl⟩
  | cons x rest ih =>
      obtain ⟨next, first⟩ := each x (by simp) start
      obtain ⟨result, later⟩ := ih (fun y member => each y (List.mem_cons_of_mem _ member)) next
      exact ⟨result, by rw [List.foldlM_cons, first]; exact later⟩

end Except

namespace Option

variable {α β : Type}

theorem listMapM_some {f : α → Option β} {g : α → β} {items : List α}
    (each : ∀ x ∈ items, f x = some (g x)) : items.mapM f = some (items.map g) := by
  induction items with
  | nil => rfl
  | cons x rest ih =>
      have first := each x (by simp)
      have later := ih fun y member => each y (List.mem_cons_of_mem _ member)
      simp only [List.mapM_cons, first, later, List.map_cons]
      rfl

theorem mem_of_listMapM {f : α → Option β} {items : List α} {results : List β}
    (done : items.mapM f = some results) {y : β} (member : y ∈ results) :
    ∃ x ∈ items, f x = some y := by
  induction items generalizing results with
  | nil =>
      rw [← Option.some.inj done] at member
      cases member
  | cons x rest ih =>
      rw [List.mapM_cons] at done
      obtain ⟨first, here, later⟩ := Option.bind_eq_some_iff.mp done
      obtain ⟨others, there, same⟩ := Option.bind_eq_some_iff.mp later
      rw [← Option.some.inj same] at member
      rcases List.mem_cons.mp member with rfl | old
      · exact ⟨x, by simp, here⟩
      · obtain ⟨z, listed, found⟩ := ih there old
        exact ⟨z, List.mem_cons_of_mem _ listed, found⟩

theorem length_of_listMapM {f : α → Option β} {items : List α} {results : List β}
    (done : items.mapM f = some results) : results.length = items.length := by
  induction items generalizing results with
  | nil =>
      rw [← Option.some.inj done]
      rfl
  | cons x rest ih =>
      rw [List.mapM_cons] at done
      obtain ⟨first, _, later⟩ := Option.bind_eq_some_iff.mp done
      obtain ⟨others, there, same⟩ := Option.bind_eq_some_iff.mp later
      rw [← Option.some.inj same, List.length_cons, List.length_cons, ih there]

theorem listMapM_none {f : α → Option β} {items : List α} {x : α} (member : x ∈ items)
    (fails : f x = none) : items.mapM f = none := by
  induction items with
  | nil => cases member
  | cons y rest ih =>
      rw [List.mapM_cons]
      rcases List.mem_cons.mp member with rfl | later
      · rw [fails]
        rfl
      · rw [ih later]
        cases f y <;> rfl

end Option
