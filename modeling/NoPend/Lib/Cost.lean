import NoPend.Lib.Proc
import Mathlib.Data.Nat.Size

set_option autoImplicit false

/- What a run adds to a number that the state carries, for runs that return. -/
namespace Proc

variable {ε σ α β : Type} {cost : σ → Nat}

/-- A run that returns `value` adds at most `bound value` to the cost. -/
def Spends (cost : σ → Nat) (m : Proc ε σ α) (bound : α → Nat) : Prop :=
  ∀ before value after, Runs m before value after → cost after ≤ cost before + bound value

theorem Spends.weaken {m : Proc ε σ α} {bound more : α → Nat} (spends : Spends cost m bound)
    (le : ∀ value, bound value ≤ more value) : Spends cost m more :=
  fun before value after runs => (spends before value after runs).trans
    (Nat.add_le_add_left (le value) _)

theorem Spends.ret (value : α) (bound : α → Nat) :
    Spends cost (pure value : Proc ε σ α) bound := by
  intro before value' after runs
  obtain ⟨_, rfl⟩ := runs_pure.mp runs
  exact Nat.le_add_right _ _

theorem Spends.throw (reason : ε) (bound : α → Nat) :
    Spends cost (throw reason : Proc ε σ α) bound :=
  fun _ _ _ runs => absurd runs runs_throw

theorem Spends.get (bound : σ → Nat) : Spends cost (get : Proc ε σ σ) bound := by
  intro before value after runs
  obtain ⟨_, rfl⟩ := (Runs.get before).unique runs
  exact Nat.le_add_right _ _

theorem Spends.modify {f : σ → σ} {k : Nat}
    (adds : ∀ state, cost (f state) ≤ cost state + k) :
    Spends cost (modify f : Proc ε σ PUnit) fun _ => k := by
  intro before value after runs
  obtain ⟨_, rfl⟩ := (Runs.modify f before).unique runs
  exact adds before

theorem Spends.lift (e : Except ε α) (bound : α → Nat) :
    Spends cost (liftM e : Proc ε σ α) bound := by
  intro before value after runs
  obtain ⟨_, rfl⟩ := runs_lift.mp runs
  exact Nat.le_add_right _ _

theorem Spends.lift_bind {e : Except ε α} {f : α → Proc ε σ β} {bound : β → Nat}
    (rest : ∀ middle, e = .ok middle → Spends cost (f middle) bound) :
    Spends cost (liftM e >>= f : Proc ε σ β) bound := by
  intro before value after runs
  obtain ⟨middle, ok, later⟩ := of_lift_bind runs
  exact rest middle ok before value after later

/-- The costs of a sequence add up. -/
theorem Spends.bind {m : Proc ε σ α} {f : α → Proc ε σ β} {first : α → Nat}
    {second : α → β → Nat}
    {total : β → Nat} (here : Spends cost m first)
    (there : ∀ middle, Spends cost (f middle) (second middle))
    (sum : ∀ middle value, first middle + second middle value ≤ total value) :
    Spends cost (m >>= f) total := by
  intro before value after runs
  obtain ⟨middle, state, start, rest⟩ := runs_bind.mp runs
  have one := here before middle state start
  have two := there middle state value after rest
  have both := sum middle value
  omega

/-- A first part of constant cost. -/
theorem Spends.step {m : Proc ε σ α} {f : α → Proc ε σ β} {j k : Nat}
    (here : Spends cost m fun _ => j)
    (there : ∀ middle, Spends cost (f middle) fun _ => k) :
    Spends cost (m >>= f) fun _ => j + k :=
  here.bind there fun _ _ => le_refl _

/-- A last part that costs nothing. -/
theorem Spends.last {m : Proc ε σ α} {f : α → Proc ε σ β} {k : Nat}
    (here : Spends cost m fun _ => k)
    (free : ∀ middle, Spends cost (f middle) fun _ => 0) : Spends cost (m >>= f) fun _ => k :=
  here.bind free fun _ _ => le_refl _

/-- A first part that costs nothing. -/
theorem Spends.free {m : Proc ε σ α} {f : α → Proc ε σ β} {bound : β → Nat}
    (here : Spends cost m fun _ => 0)
    (there : ∀ middle, Spends cost (f middle) bound) : Spends cost (m >>= f) bound :=
  here.bind there fun _ value => (Nat.zero_add (bound value)).le

/-- The costs of the rounds of a loop add up. -/
theorem Spends.foldlM {body : β → α → Proc ε σ β} {price : α → Nat} (items : List α)
    (each : ∀ value x, Spends cost (body value x) fun _ => price x) (start : β) :
    Spends cost (items.foldlM body start) fun _ => (items.map price).sum := by
  induction items generalizing start with
  | nil => exact .ret _ _
  | cons x rest ih =>
      rw [List.foldlM_cons]
      exact (each start x).bind ih fun _ _ => by simp

theorem Spends.forM {body : α → Proc ε σ PUnit} {price : α → Nat} (items : List α)
    (each : ∀ x, Spends cost (body x) fun _ => price x) :
    Spends cost (items.forM body) fun _ => (items.map price).sum := by
  induction items with
  | nil => exact .ret _ _
  | cons x rest ih =>
      exact (each x).bind (fun _ => ih) fun _ _ => by simp

/-- The rule of the potential: a round that continues is paid by the drop of the potential, and the
round that leaves the loop by what is left of it. -/
theorem Spends.iterate {exhausted : ε} {body : α → Proc ε σ (α ⊕ β)}
    (potential : α → Nat)
    (stays : ∀ current state next after, Runs (body current) state (.inl next) after →
      cost after + potential next ≤ cost state + potential current)
    (leaves : ∀ current state result after, Runs (body current) state (.inr result) after →
      cost after ≤ cost state + potential current) (fuel : Nat) (start : α) :
    Spends cost (iterate exhausted body fuel start) fun _ => potential start := by
  intro before value after runs
  refine Runs.of_iterate
    (fun current state => cost state + potential current ≤ cost before + potential start)
    (fun _ state => cost state ≤ cost before + potential start) ?_ ?_ (le_refl _) runs
  · intro current state next later inv round
    exact (stays current state next later round).trans inv
  · intro current state result later inv round
    exact (leaves current state result later round).trans inv

end Proc

/-- Half a number has a binary digit less. -/
theorem Nat.size_half {half whole : Nat} (positive : 0 < whole) (le : half ≤ whole / 2) :
    half.size + 1 ≤ whole.size := by
  rw [Nat.succ_le_iff, Nat.lt_size]
  rcases Nat.eq_zero_or_pos half with rfl | some
  · exact positive
  · obtain ⟨k, digits⟩ : ∃ k, half.size = k + 1 := ⟨half.size - 1, by
      have := Nat.size_pos.mpr some
      omega⟩
    have low : 2 ^ k ≤ half := Nat.lt_size.mp (by omega)
    rw [digits, Nat.pow_succ]
    omega

theorem Nat.size_eq_log {m : Nat} (positive : 0 < m) : m.size = Nat.log 2 m + 1 := by
  refine Nat.le_antisymm (Nat.size_le.mpr (Nat.lt_pow_succ_log_self (by decide) m)) ?_
  rw [Nat.succ_le_iff, Nat.lt_size]
  exact Nat.pow_log_le_self 2 positive.ne'
