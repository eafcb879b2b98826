import NoPend.FaultResolver.Pending

set_option autoImplicit false

/- The life of a resolver object: any sequence of `setSafeValues`, `conduct` and `reset`. A
resolver whose `conduct_with_safevalues` can be repeated behaves, after every normal return
of `conduct`, as a new one. -/
namespace NoPend

open AbstractFaultResolver Proc

/-- One call of a client. `order` is the order in which this call of `conduct` walks hash sets. -/
inductive LifeCall where
  | setSafeValues (safeValues : Comb)
  | conduct (order : IterOrder Comb)
  | reset

/-- How the last `conduct` since the last `reset` ended, if there was one. -/
inductive Phase where
  | idle
  | returned
  | threw
deriving DecidableEq

structure Life where
  resolver : AbstractFaultResolver
  phase : Phase

namespace Life

/-- One call. A client catches what `conduct` throws and keeps the object. -/
def perform (conduct : IterOrder Comb → ResolverM Unit) (life : Life) : LifeCall → Life
  | .setSafeValues safeValues => { life with resolver := life.resolver.setSafeValues safeValues }
  | .reset => ⟨life.resolver.reset, .idle⟩
  | .conduct order =>
      match (conduct order).exec life.resolver with
      | (.ok _, after) => ⟨after, .returned⟩
      | (.error _, after) => ⟨after, .threw⟩

/-- Calls on an object one after the other. -/
def performAll (conduct : IterOrder Comb → ResolverM Unit) (r : AbstractFaultResolver)
    (calls : List LifeCall) : Life :=
  calls.foldl (perform conduct) ⟨r, .idle⟩

/-- Every vector of safe values fits the faults, and none is set between a normal return of
`conduct` and the next `reset`. -/
def Legal (n : Nat) (MFC_real : List Comb) (conduct : IterOrder Comb → ResolverM Unit)
    (r : AbstractFaultResolver) (calls : List LifeCall) : Prop :=
  ∀ done v rest, calls = done ++ .setSafeValues v :: rest →
    SafeFor n MFC_real v ∧ (performAll conduct r done).phase ≠ .returned

/-- After a `conduct` that threw, `conduct` is not called again before a `reset`. -/
def Careful (conduct : IterOrder Comb → ResolverM Unit) (r : AbstractFaultResolver)
    (calls : List LifeCall) : Prop :=
  ∀ done order rest, calls = done ++ .conduct order :: rest →
    (performAll conduct r done).phase ≠ .threw

/-- The object shows what a new one shows after `setSafeValues` with the same safe values and
`conduct`, in whatever order that walks its sets. -/
def AsNew (create : Except Exn AbstractFaultResolver) (conduct : IterOrder Comb → ResolverM Unit)
    (r : AbstractFaultResolver) : Prop :=
  ∃ v new, r.safeValues = some v ∧ create = .ok new ∧ ∀ order, ∃ after,
    (conduct order).Runs (new.setSafeValues v) ⟨⟩ after ∧
      (∀ c, c ∈ r.MFC_identified ↔ c ∈ after.MFC_identified) ∧
      ∀ c, r.checkPending c = after.checkPending c

theorem perform_returns {conduct : IterOrder Comb → ResolverM Unit} {life : Life}
    {order : IterOrder Comb} {after : AbstractFaultResolver}
    (runs : (conduct order).Runs life.resolver ⟨⟩ after) :
    life.perform conduct (.conduct order) = ⟨after, .returned⟩ := by
  rw [perform, runs]

theorem perform_throws {conduct : IterOrder Comb → ResolverM Unit} {life : Life}
    {order : IterOrder Comb} {reason : Exn} {after : AbstractFaultResolver}
    (throws : (conduct order).Throws life.resolver reason after) :
    life.perform conduct (.conduct order) = ⟨after, .threw⟩ := by
  rw [perform, throws]

theorem performAll_append (conduct : IterOrder Comb → ResolverM Unit) (r : AbstractFaultResolver)
    (calls : List LifeCall) (call : LifeCall) :
    performAll conduct r (calls ++ [call]) = (performAll conduct r calls).perform conduct call := by
  simp [performAll]

end Life

section Once

variable {r : AbstractFaultResolver} {message : String} {body : ResolverM Unit}

theorem conductOnce_again (again : r.conducted = true) :
    (conductOnce message body).Runs r ⟨⟩ r := by
  refine (Runs.get r).bind ?_
  rw [if_pos again]
  exact Runs.ret _ _

/-- Without safe values `conduct` throws, but only after it has set `conducted`. -/
theorem conductOnce_throws (first : r.conducted = false) (missing : r.safeValues = none) :
    (conductOnce message body).Throws r (.runtime message) { r with conducted := true } := by
  refine (Runs.get r).bind_throws ?_
  rw [if_neg (by rw [first]; decide)]
  refine (Runs.modify _ r).bind_throws ((Runs.get _).bind_throws ?_)
  rw [if_pos (by rw [missing]; rfl)]
  rfl

end Once

/-- `conduct_with_safevalues` can be repeated on one object. `Early` holds of the records of
any number of runs, `Late` once there was one, and then neither the identified combinations
nor `checkPending` tell how many there were. -/
structure Repeats (n : Nat) (MFC_real : List Comb) (Tfail : List Testcase)
    (body : IterOrder Comb → ResolverM Unit) (Early Late : AbstractFaultResolver → Prop)
    (Found : Comb → Prop) : Prop where
  start : ∀ r, r.healthyCombs = [] → r.faultyCombs = [] → Early r
  records : ∀ r r', SameRecords r r' → Early r → Early r'
  early : ∀ r, Late r → Early r
  alike : ∀ r r', Late r → Late r' → ∀ c, r.checkPending c = r'.checkPending c
  runs : ∀ (r : AbstractFaultResolver) (v : Comb) (order : IterOrder Comb), Uses MFC_real v r →
    SafeFor n MFC_real v → r.Tfail = Tfail → r.MFC_identified = HashSet.empty → Early r →
    ∃ after, (body order).Runs r ⟨⟩ after ∧ Uses MFC_real v after ∧
      after.Tfail = Tfail ∧ after.conducted = r.conducted ∧
      (∀ c, c ∈ after.MFC_identified ↔ Found c) ∧ Late after

/-- The fields that a run of `conduct_with_safevalues` leaves alone. -/
structure SameFrame (r r' : AbstractFaultResolver) : Prop where
  tests : r'.Tfail = r.Tfail
  safeValues : r'.safeValues = r.safeValues
  conducted : r'.conducted = r.conducted
  verdict : r'.checker.verdict = r.checker.verdict

theorem SameFrame.step {r r' r'' : AbstractFaultResolver} (frame : SameFrame r r')
    (same : SameConfig r' r'') (combs : List Comb) : SameFrame r (identified r'' combs) :=
  ⟨same.Tfail.trans frame.tests, same.safeValues.trans frame.safeValues,
    same.conducted.trans frame.conducted, same.verdict.trans frame.verdict⟩

namespace Life

variable {n : Nat} {MFC_real : List Comb} {Tfail : List Testcase}
  {body : IterOrder Comb → ResolverM Unit} {Early Late : AbstractFaultResolver → Prop}
  {Found : Comb → Prop} {message : String}

/-- What holds of the object between two calls, in each phase of its life. -/
structure Inv (n : Nat) (MFC_real : List Comb) (Tfail : List Testcase)
    (Early Late : AbstractFaultResolver → Prop) (Found : Comb → Prop) (life : Life) : Prop where
  verdict : life.resolver.checker.verdict = Checker.judge MFC_real
  tests : life.resolver.Tfail = Tfail
  safe : ∀ v, life.resolver.safeValues = some v → SafeFor n MFC_real v
  records : Early life.resolver
  idle : life.phase = .idle →
    life.resolver.conducted = false ∧ life.resolver.MFC_identified = HashSet.empty
  returned : life.phase = .returned → life.resolver.conducted = true ∧
    (∃ v, life.resolver.safeValues = some v) ∧
      (∀ c, c ∈ life.resolver.MFC_identified ↔ Found c) ∧
    Late life.resolver

/-- `conduct` on an object that is idle or has returned before. -/
theorem Inv.conduct (repeats : Repeats n MFC_real Tfail body Early Late Found) {life : Life}
    (inv : Inv n MFC_real Tfail Early Late Found life) (message : String)
    (careful : life.phase ≠ .threw) (order : IterOrder Comb) :
    (∃ after, (conductOnce message (body order)).Runs life.resolver ⟨⟩ after ∧
      Inv n MFC_real Tfail Early Late Found ⟨after, .returned⟩) ∨
    ∃ reason after, (conductOnce message (body order)).Throws life.resolver reason after ∧
      Inv n MFC_real Tfail Early Late Found ⟨after, .threw⟩ := by
  obtain ⟨r, phase⟩ := life
  cases phase with
  | threw => exact absurd rfl careful
  | returned => exact Or.inl ⟨r, conductOnce_again (inv.returned rfl).1, inv⟩
  | idle =>
      obtain ⟨first, none⟩ := inv.idle rfl
      cases present : r.safeValues with
      | none =>
          refine Or.inr ⟨_, _, conductOnce_throws first present, inv.verdict, inv.tests, inv.safe,
            repeats.records r _ ⟨rfl, rfl⟩ inv.records, ?_, ?_⟩
          · intro impossible
            cases impossible
          · intro impossible
            cases impossible
      | some v =>
          have fits := inv.safe v present
          obtain ⟨after, runs, uses, tests, conducted, found, late⟩ :=
            repeats.runs { r with conducted := true } v order ⟨inv.verdict, present⟩
              fits inv.tests none (repeats.records r _ ⟨rfl, rfl⟩ inv.records)
          refine Or.inl ⟨after, conductOnce_runs first (by rw [present]; rfl) runs,
            uses.1, tests, ?_,
            repeats.early _ late, fun impossible => (nomatch impossible), fun _ =>
              ⟨conducted, ⟨v, uses.2⟩, found, late⟩⟩
          intro w same
          rw [uses.2] at same
          rw [← Option.some.inj same]
          exact fits

theorem inv_created (repeats : Repeats n MFC_real Tfail body Early Late Found)
    {Tpass : List Testcase} {random : Nat → Bool} {r : AbstractFaultResolver}
    (created : AbstractFaultResolver.create (Checker.ofMFS MFC_real) Tpass Tfail random = .ok r) :
    Inv n MFC_real Tfail Early Late Found ⟨r, .idle⟩ := by
  obtain ⟨_, rfl⟩ := create_eq created
  exact ⟨rfl, rfl, fun v none => (nomatch none), repeats.start _ rfl rfl, fun _ => ⟨rfl, rfl⟩,
    fun impossible => (nomatch impossible)⟩

/-- One call keeps the invariant. -/
theorem Inv.perform (repeats : Repeats n MFC_real Tfail body Early Late Found) {life : Life}
    (inv : Inv n MFC_real Tfail Early Late Found life) {call : LifeCall}
    (legal : ∀ v, call = .setSafeValues v → SafeFor n MFC_real v ∧ life.phase ≠ .returned)
    (careful : ∀ order, call = .conduct order → life.phase ≠ .threw) :
    Inv n MFC_real Tfail Early Late Found
      (life.perform (fun order => conductOnce message (body order)) call) := by
  cases call with
  | setSafeValues v =>
      obtain ⟨fits, notReturned⟩ := legal v rfl
      refine ⟨inv.verdict, inv.tests, ?_, repeats.records life.resolver _ ⟨rfl, rfl⟩
        inv.records, inv.idle, ?_⟩
      · intro w same
        rw [← Option.some.inj same]
        exact fits
      · exact fun returned => absurd returned notReturned
  | reset =>
      refine ⟨inv.verdict, inv.tests, inv.safe, repeats.records
        life.resolver _ ⟨rfl, rfl⟩ inv.records, fun _ => ⟨rfl, rfl⟩, ?_⟩
      exact fun impossible => (nomatch impossible)
  | conduct order =>
      rcases inv.conduct repeats message (careful order rfl) order with
        ⟨after, runs, kept⟩ | ⟨reason, after, throws, kept⟩
      · rw [perform_returns runs]
        exact kept
      · rw [perform_throws throws]
        exact kept

theorem Inv.performAll (repeats : Repeats n MFC_real Tfail body Early Late Found)
    {r : AbstractFaultResolver} (start : Inv n MFC_real Tfail Early Late Found ⟨r, .idle⟩)
    {calls : List LifeCall}
    (legal : Legal n MFC_real (fun order => conductOnce message (body order)) r calls)
    (careful : Careful (fun order => conductOnce message (body order)) r calls) :
    Inv n MFC_real Tfail Early Late Found
      (Life.performAll (fun order => conductOnce message (body order)) r calls) := by
  induction calls using List.reverseRecOn with
  | nil => exact start
  | append_singleton calls call ih =>
      have before := ih
        (fun done v rest split => legal done v (rest ++ [call]) (by rw [split]; simp))
        (fun done order rest split => careful done order (rest ++ [call]) (by rw [split]; simp))
      rw [performAll_append]
      refine before.perform repeats (fun v same => ?_) (fun order same => ?_)
      · exact legal calls v [] (by rw [same])
      · exact careful calls order [] (by rw [same])

/-- After every normal return of a careful client's `conduct` the object is as a new one. -/
theorem asNew_of_returns (repeats : Repeats n MFC_real Tfail body Early Late Found)
    {Tpass : List Testcase} {random : Nat → Bool} {r : AbstractFaultResolver}
    (created : AbstractFaultResolver.create (Checker.ofMFS MFC_real) Tpass Tfail random = .ok r)
    {calls : List LifeCall} {order : IterOrder Comb}
    (legal : Legal n MFC_real (fun order => conductOnce message (body order)) r calls)
    (careful : Careful (fun order => conductOnce message (body order)) r
      (calls ++ [.conduct order])) {after : AbstractFaultResolver}
    (returns : (conductOnce message (body order)).Runs
      (Life.performAll (fun order => conductOnce message (body order)) r calls).resolver
        ⟨⟩ after) :
    AsNew (AbstractFaultResolver.create (Checker.ofMFS MFC_real) Tpass Tfail random)
      (fun order => conductOnce message (body order)) after := by
  have start := inv_created repeats created
  have inv := start.performAll repeats legal
    (fun done order' rest split => careful done order' (rest ++ [.conduct order])
      (by rw [split]; simp))
  rcases inv.conduct repeats message (careful calls order [] rfl) order with
    ⟨after', runs, kept⟩ | ⟨reason, after', throws, _⟩
  · obtain ⟨_, rfl⟩ := returns.unique runs
    obtain ⟨_, ⟨v, current⟩, found, late⟩ := kept.returned rfl
    have fits := kept.safe v current
    have ready : Inv n MFC_real Tfail Early Late Found ⟨r.setSafeValues v, .idle⟩ :=
      ⟨start.verdict, start.tests, fun w same => by rw [← Option.some.inj same]; exact fits,
        repeats.records r _ ⟨rfl, rfl⟩ start.records, start.idle,
        fun impossible => (nomatch impossible)⟩
    refine ⟨v, r, current, created, fun order' => ?_⟩
    rcases ready.conduct repeats message (by simp) order' with
      ⟨new, runsNew, keptNew⟩ | ⟨reason, new, throws, _⟩
    · obtain ⟨_, _, foundNew, lateNew⟩ := keptNew.returned rfl
      exact ⟨new, runsNew, fun c => (found c).trans (foundNew c).symm,
        repeats.alike after new late lateNew⟩
    · obtain ⟨first, none⟩ := ready.idle rfl
      obtain ⟨new', runsNew, _⟩ :=
        repeats.runs { r.setSafeValues v with conducted := true } v order'
          ⟨start.verdict, rfl⟩ fits start.tests none
          (repeats.records r _ ⟨rfl, rfl⟩ start.records)
      exact absurd throws (conductOnce_runs first rfl runsNew).not_throws
  · exact absurd throws returns.not_throws

end Life

end NoPend
