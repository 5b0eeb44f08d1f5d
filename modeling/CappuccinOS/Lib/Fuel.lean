import Mathlib

/-!
# Stateful computations that wait

A driver waits in loops of which no bound is known, so the loops of its model take fuel.

1. `Action`: a computation on a state that returns or fails; what it did to the state stays in both
   cases.
2. `Settles`: with enough fuel a computation has one outcome, and more fuel does not change it.
   Rules for a bind, a `for` loop that does not wait, and one turn of a loop that waits.
-/

namespace CappuccinOS

/-- A computation on a state that returns or fails. -/
def Action (σ ε α : Type) : Type := σ → Except ε α × σ

namespace Action

variable {σ ε α β : Type}

instance : Monad (Action σ ε) where
  pure a s := (.ok a, s)
  bind m f s :=
    match m s with
    | (.ok a, s) => f a s
    | (.error e, s) => (.error e, s)

/-- Stop with an error. -/
def throw (e : ε) : Action σ ε α := fun s => (.error e, s)

/-- Change the state. -/
def modify (f : σ → σ) : Action σ ε Unit := fun s => (.ok (), f s)

/-- Change the state and return. -/
def step (f : σ → α × σ) : Action σ ε α := fun s => (.ok (f s).1, (f s).2)

/-- A computation that has no state. -/
def lift (x : Except ε α) : Action σ ε α := fun s => (x, s)

/-- A computation that is made `n` times. -/
def times : ℕ → Action σ ε Unit → Action σ ε Unit
  | 0, _ => pure ()
  | n + 1, m => do
    m
    times n m

/-- The outcome of a computation as a value. -/
def attempt (m : Action σ ε α) : Action σ ε (Except ε α) := fun s => (.ok (m s).1, (m s).2)

@[simp] theorem pure_apply (a : α) (s : σ) : (pure a : Action σ ε α) s = (.ok a, s) := rfl

@[simp] theorem throw_apply (e : ε) (s : σ) : (throw e : Action σ ε α) s = (.error e, s) := rfl

@[simp] theorem modify_apply (f : σ → σ) (s : σ) : (modify f : Action σ ε Unit) s = (.ok (), f s) :=
  rfl

@[simp] theorem step_apply (f : σ → α × σ) (s : σ) :
    (step f : Action σ ε α) s = (.ok (f s).1, (f s).2) := rfl

@[simp] theorem lift_apply (x : Except ε α) (s : σ) : (lift x : Action σ ε α) s = (x, s) := rfl

theorem bind_apply_ok {m : Action σ ε α} {f : α → Action σ ε β} {s s' : σ} {a : α}
    (h : m s = (.ok a, s')) : (m >>= f) s = f a s' := by
  show (match m s with
    | (.ok a, s) => f a s
    | (.error e, s) => (.error e, s)) = _
  rw [h]

theorem bind_apply_error {m : Action σ ε α} {f : α → Action σ ε β} {s s' : σ} {e : ε}
    (h : m s = (.error e, s')) : (m >>= f) s = (.error e, s') := by
  show (match m s with
    | (.ok a, s) => f a s
    | (.error e, s) => (.error e, s)) = _
  rw [h]

theorem times_ok {m : Action σ ε Unit} {R : σ → σ → Prop} (hrefl : ∀ s, R s s)
    (htrans : ∀ {s s' s''}, R s s' → R s' s'' → R s s'')
    (h : ∀ s, ∃ s', m s = (.ok (), s') ∧ R s s') (n : ℕ) (s : σ) :
    ∃ s', times n m s = (.ok (), s') ∧ R s s' := by
  induction n generalizing s with
  | zero => exact ⟨s, rfl, hrefl s⟩
  | succ n ih =>
    obtain ⟨s₁, hfirst, hR₁⟩ := h s
    obtain ⟨s', hrest, hR⟩ := ih s₁
    exact ⟨s', (bind_apply_ok hfirst).trans hrest, htrans hR₁ hR⟩

theorem attempt_apply {m : Action σ ε α} {s s' : σ} {r : Except ε α} (h : m s = (r, s')) :
    attempt m s = (.ok r, s') := by
  rw [attempt, h]

end Action

/-- With enough fuel the outcome of `m` is `r`, and it leaves `s'`. -/
def Settles {σ ε α : Type} (m : ℕ → Action σ ε α) (s : σ) (r : Except ε α) (s' : σ) : Prop :=
  ∃ n, ∀ fuel, n ≤ fuel → m fuel s = (r, s')

namespace Settles

variable {σ ε α β : Type} {m : ℕ → Action σ ε α} {f : ℕ → α → Action σ ε β} {s s' s'' : σ} {a : α}
  {e : ε} {r : Except ε β} {q : Except ε α}

theorem of_forall (h : ∀ fuel, m fuel s = (q, s')) : Settles m s q s' := ⟨0, fun fuel _ => h fuel⟩

theorem lift {x : Except ε α} (h : x = q) : Settles (fun _ => Action.lift x) s q s :=
  .of_forall fun _ => by rw [Action.lift_apply, h]

theorem modify (f : σ → σ) (s : σ) :
    Settles (fun _ => (Action.modify f : Action σ ε Unit)) s (.ok ()) (f s) :=
  .of_forall fun _ => rfl

theorem step {f : σ → α × σ} (h : f s = (a, s')) :
    Settles (fun _ => (Action.step f : Action σ ε α)) s (.ok a) s' :=
  .of_forall fun _ => by rw [Action.step_apply, h]

theorem bind (hm : Settles m s (.ok a) s') (hf : Settles (fun fuel => f fuel a) s' r s'') :
    Settles (fun fuel => m fuel >>= f fuel) s r s'' := by
  obtain ⟨n, hn⟩ := hm
  obtain ⟨k, hk⟩ := hf
  refine ⟨max n k, fun fuel hfuel => ?_⟩
  exact (Action.bind_apply_ok (hn fuel (le_trans (le_max_left n k) hfuel))).trans
    (hk fuel (le_trans (le_max_right n k) hfuel))

theorem bind_error (hm : Settles m s (.error e) s') :
    Settles (fun fuel => m fuel >>= f fuel) s (.error e) s' := by
  obtain ⟨n, hn⟩ := hm
  exact ⟨n, fun fuel hfuel => Action.bind_apply_error (hn fuel hfuel)⟩

theorem attempt (hm : Settles m s q s') :
    Settles (fun fuel => (m fuel).attempt) s (.ok q) s' := by
  obtain ⟨n, hn⟩ := hm
  exact ⟨n, fun fuel hfuel => Action.attempt_apply (hn fuel hfuel)⟩

theorem exit (h : ∀ fuel, m (fuel + 1) s = (q, s')) : Settles m s q s' := by
  refine ⟨1, fun fuel hfuel => ?_⟩
  obtain ⟨k, rfl⟩ := Nat.exists_eq_add_of_le' hfuel
  exact h k

theorem turn (h : ∀ fuel, m (fuel + 1) s = m fuel s') (hm : Settles m s' q s'') :
    Settles m s q s'' := by
  obtain ⟨n, hn⟩ := hm
  refine ⟨n + 1, fun fuel hfuel => ?_⟩
  obtain ⟨k, rfl⟩ := Nat.exists_eq_add_of_le' (le_trans (Nat.le_add_left 1 n) hfuel)
  rw [h]
  exact hn k (Nat.le_of_succ_le_succ hfuel)

/-- A loop ends if each turn is the last one or brings a measure down. -/
theorem loop {I : σ → Prop} {Q : Except ε α → σ → Prop} (measure : σ → ℕ)
    (h : ∀ s, I s → (∃ s', (∀ fuel, m (fuel + 1) s = m fuel s') ∧ I s' ∧ measure s' < measure s) ∨
      ∃ r s', (∀ fuel, m (fuel + 1) s = (r, s')) ∧ Q r s')
    (hs : I s) : ∃ r s', Settles m s r s' ∧ Q r s' := by
  induction hn : measure s using Nat.strong_induction_on generalizing s with
  | h n ih =>
    rcases h s hs with ⟨s', hturn, hI, hlt⟩ | ⟨r, s', hexit, hQ⟩
    · obtain ⟨r, s'', hsettles, hQ⟩ := ih (measure s') (hn ▸ hlt) hI rfl
      exact ⟨r, s'', .turn hturn hsettles, hQ⟩
    · exact ⟨r, s', .exit hexit, hQ⟩

end Settles

end CappuccinOS
