import CappuccinOS.Lib.Simulation

/-!
# The spin lock (`libs/sync/mutex.rs`)

`Mutex` is the flag and the data behind it. A thread takes it by turns of a compare-exchange, then
accesses the data through the guard, one piece at a time and with the steps of other threads
between, and dropping the guard clears the flag. A panic stops the thread for good: the panic
handler never returns, so the guard is not dropped.

1. `Step`: one step of one thread. What a request does under the lock is given by `code`.
2. `SpecStep`: the object as its clients want to see it. A request is answered at once, by the
   undisturbed evaluation of its code.
3. `forward_refines`: the lock refines the object. So the calls and returns of every run are those
   of a sequence of undisturbed requests, in the order of their returns (`mutex_serializes`).
4. `mutex_progress`, `mutex_poisoned`: a request can always be brought to its return, unless some
   request has panicked under the lock; then none ever returns again.
-/

namespace CappuccinOS.Sync

open Simulation

variable {T ρ σ α : Type*}

/-! ## The lock -/

structure Mutex (σ : Type*) where
  locked : Bool
  data : σ

namespace Mutex

def new (data : σ) : Mutex σ := ⟨false, data⟩

/-- One turn of the loop in `lock`: `compare_exchange(false, true)`, and whether it succeeded. -/
def compareExchange (m : Mutex σ) : Bool × Mutex σ :=
  if m.locked = false then (true, { m with locked := true }) else (false, m)

/-- `drop` of the guard. -/
def unlock (m : Mutex σ) : Mutex σ := { m with locked := false }

end Mutex

/-- What a thread is doing: nothing, waiting in `lock` for a request, holding the guard with the
rest of the request's program ahead, or stopped by a panic under the lock. -/
inductive Thread (ρ σ α : Type*) where
  | idle
  | spin (r : ρ)
  | hold (r : ρ) (rest : Prog σ α)
  | halted (r : ρ)

/-- The request a thread is busy with. -/
def Thread.request : Thread ρ σ α → Option ρ
  | idle => none
  | spin r => some r
  | hold r _ => some r
  | halted r => some r

/-- The thread has taken the lock and not given it back. -/
def Thread.Inside : Thread ρ σ α → Prop
  | idle => False
  | spin _ => False
  | hold _ _ => True
  | halted _ => True

/-- A lock and the threads that use it. -/
structure State (T ρ σ α : Type*) where
  mutex : Mutex σ
  threads : T → Thread ρ σ α

/-- What can be seen from outside. -/
inductive Event (T ρ α : Type*) where
  | call (t : T) (r : ρ)
  | ret (t : T) (r : ρ) (a : α)

variable [DecidableEq T]

/-- Thread `t` goes on as `x`, with the lock as `m`. -/
def State.set (s : State T ρ σ α) (t : T) (m : Mutex σ) (x : Thread ρ σ α) : State T ρ σ α :=
  ⟨m, Function.update s.threads t x⟩

/-- One step of one thread. -/
inductive Step (code : ρ → Prog σ α) : Steps (State T ρ σ α) (Event T ρ α)
  | call {s : State T ρ σ α} {t : T} {r : ρ} : s.threads t = .idle →
      Step code s (some (.call t r)) (s.set t s.mutex (.spin r))
  | acquire {s : State T ρ σ α} {t : T} {r : ρ} {m : Mutex σ} : s.threads t = .spin r →
      s.mutex.compareExchange = (true, m) → Step code s none (s.set t m (.hold r (code r)))
  | spin {s : State T ρ σ α} {t : T} {r : ρ} {m : Mutex σ} : s.threads t = .spin r →
      s.mutex.compareExchange = (false, m) → Step code s none (s.set t m (.spin r))
  | access {s : State T ρ σ α} {t : T} {r : ρ} {update : σ → σ} {next : σ → Prog σ α} :
      s.threads t = .hold r (.access update next) →
      Step code s none (s.set t { s.mutex with data := update s.mutex.data }
        (.hold r (next s.mutex.data)))
  | panic {s : State T ρ σ α} {t : T} {r : ρ} : s.threads t = .hold r .panic →
      Step code s none (s.set t s.mutex (.halted r))
  | unlock {s : State T ρ σ α} {t : T} {r : ρ} {a : α} : s.threads t = .hold r (.ret a) →
      Step code s (some (.ret t r a)) (s.set t s.mutex.unlock .idle)

/-- Nobody has called yet. -/
def State.init (T ρ α : Type*) {σ : Type*} (data : σ) : State T ρ σ α :=
  ⟨.new data, fun _ => .idle⟩

/-! ## The object behind the lock -/

/-- The data, and the requests that are not answered yet. -/
structure Spec (T ρ σ : Type*) where
  data : σ
  pending : T → Option ρ

/-- A request is made, or answered by the undisturbed evaluation of its code. -/
inductive SpecStep (code : ρ → Prog σ α) : Steps (Spec T ρ σ) (Event T ρ α)
  | call {a : Spec T ρ σ} {t : T} {r : ρ} : a.pending t = none →
      SpecStep code a (some (.call t r)) ⟨a.data, Function.update a.pending t (some r)⟩
  | ret {a : Spec T ρ σ} {t : T} {r : ρ} {v : α} {d : σ} : a.pending t = some r →
      (code r).eval a.data = some (v, d) →
      SpecStep code a (some (.ret t r v)) ⟨d, Function.update a.pending t none⟩

/-- No requests. -/
def Spec.init (T ρ : Type*) {σ : Type*} (data : σ) : Spec T ρ σ := ⟨data, fun _ => none⟩

/-! ## Refinement -/

/-- The lock's state stands for a state of the object: the data when the lock is free; while it is
taken, the one thread inside will have done to the object what its whole request does. -/
structure Refines (code : ρ → Prog σ α) (s : State T ρ σ α) (a : Spec T ρ σ) : Prop where
  pending : ∀ t, a.pending t = (s.threads t).request
  locked : s.mutex.locked = true ↔ ∃ t, (s.threads t).Inside
  exclusive : ∀ t u, (s.threads t).Inside → (s.threads u).Inside → t = u
  free : s.mutex.locked = false → s.mutex.data = a.data
  hold : ∀ t r p, s.threads t = .hold r p → p.eval s.mutex.data = (code r).eval a.data
  halted : ∀ t r, s.threads t = .halted r → (code r).eval a.data = none

section Refinement

variable {code : ρ → Prog σ α} {s s' : State T ρ σ α} {a : Spec T ρ σ} {t u : T}
  {m : Mutex σ} {x : Thread ρ σ α}

theorem State.set_self : (s.set t m x).threads t = x := Function.update_self ..

theorem State.set_of_ne (h : u ≠ t) : (s.set t m x).threads u = s.threads u :=
  Function.update_of_ne h ..

/-- A thread of the new state is the one that moved, or stands where it stood. -/
theorem State.set_cases (s : State T ρ σ α) (t u : T) (m : Mutex σ) (x : Thread ρ σ α) :
    u = t ∧ (s.set t m x).threads u = x ∨ u ≠ t ∧ (s.set t m x).threads u = s.threads u := by
  by_cases h : u = t
  · exact .inl ⟨h, h ▸ State.set_self⟩
  · exact .inr ⟨h, State.set_of_ne h⟩

theorem compareExchange_true {m m' : Mutex σ} (h : m.compareExchange = (true, m')) :
    m.locked = false ∧ m' = { m with locked := true } := by
  unfold Mutex.compareExchange at h
  by_cases hlocked : m.locked = false
  · rw [if_pos hlocked] at h
    exact ⟨hlocked, (Prod.mk.inj h).2.symm⟩
  · rw [if_neg hlocked] at h
    exact absurd (Prod.mk.inj h).1 Bool.false_ne_true

theorem compareExchange_false {m m' : Mutex σ} (h : m.compareExchange = (false, m')) :
    m.locked = true ∧ m' = m := by
  unfold Mutex.compareExchange at h
  by_cases hlocked : m.locked = false
  · rw [if_pos hlocked] at h
    exact absurd (Prod.mk.inj h).1.symm Bool.false_ne_true
  · rw [if_neg hlocked] at h
    exact ⟨by simpa using hlocked, (Prod.mk.inj h).2.symm⟩

omit [DecidableEq T] in
theorem refines_init (data : σ) :
    Refines code (State.init T ρ α data) (Spec.init T ρ data) where
  pending := fun _ => rfl
  locked := ⟨nofun, fun ⟨_, h⟩ => h.elim⟩
  exclusive := fun _ _ h => h.elim
  free := fun _ => rfl
  hold := nofun
  halted := nofun

theorem Refines.pending_update (h : Refines code s a) (t : T) (o : Option ρ) (m : Mutex σ)
    (hx : x.request = o) (v : T) :
    Function.update a.pending t o v = ((s.set t m x).threads v).request := by
  rcases State.set_cases s t v m x with ⟨rfl, hv⟩ | ⟨hne, hv⟩
  · rw [hv, Function.update_self, hx]
  · rw [hv, Function.update_of_ne hne, h.pending v]

theorem Refines.pending_keep (h : Refines code s a) (m : Mutex σ)
    (hx : x.request = (s.threads t).request) (v : T) :
    a.pending v = ((s.set t m x).threads v).request := by
  rcases State.set_cases s t v m x with ⟨rfl, hv⟩ | ⟨hne, hv⟩
  · rw [hv, hx, h.pending v]
  · rw [hv, h.pending v]

/-- A thread outside the lock stays outside: nothing about the lock changes. -/
theorem Refines.set_outside (h : Refines code s a) (ht : ¬ (s.threads t).Inside)
    (hx : ¬ x.Inside) {pending : T → Option ρ}
    (hp : ∀ v, pending v = ((s.set t s.mutex x).threads v).request) :
    Refines code (s.set t s.mutex x) ⟨a.data, pending⟩ := by
  have hinside : ∀ v, ((s.set t s.mutex x).threads v).Inside → (s.threads v).Inside ∧ v ≠ t := by
    intro v hv
    rcases State.set_cases s t v s.mutex x with ⟨rfl, he⟩ | ⟨hne, he⟩
    · rw [he] at hv
      exact absurd hv hx
    · rw [he] at hv
      exact ⟨hv, hne⟩
  refine ⟨hp, h.locked.trans ⟨?_, ?_⟩, fun v w hv hw => ?_, h.free, fun v r p hv => ?_,
    fun v r hv => ?_⟩
  · rintro ⟨v, hv⟩
    refine ⟨v, ?_⟩
    rwa [State.set_of_ne]
    rintro rfl
    exact ht hv
  · rintro ⟨v, hv⟩
    exact ⟨v, (hinside v hv).1⟩
  · exact h.exclusive v w (hinside v hv).1 (hinside w hw).1
  · have hin := hinside v (by rw [hv]; trivial)
    rw [State.set_of_ne hin.2] at hv
    exact h.hold v r p hv
  · have hin := hinside v (by rw [hv]; trivial)
    rw [State.set_of_ne hin.2] at hv
    exact h.halted v r hv

/-- The thread inside is the only one, so what holds of it holds of every thread inside. -/
theorem Refines.set_inside (h : Refines code s a) (ht : (s.threads t).Inside) {d : σ}
    (hx : x.Inside) (hreq : x.request = (s.threads t).request)
    (hhold : ∀ r p, x = .hold r p → p.eval d = (code r).eval a.data)
    (hhalted : ∀ r, x = .halted r → (code r).eval a.data = none) :
    Refines code (s.set t { s.mutex with data := d } x) a := by
  have honly : ∀ v, ((s.set t { s.mutex with data := d } x).threads v).Inside → v = t := by
    intro v hv
    rcases State.set_cases s t v { s.mutex with data := d } x with ⟨he, -⟩ | ⟨-, he⟩
    · exact he
    · rw [he] at hv
      exact h.exclusive v t hv ht
  have hself : (s.set t { s.mutex with data := d } x).threads t = x := State.set_self
  have hlocked : s.mutex.locked = true := h.locked.mpr ⟨t, ht⟩
  refine ⟨h.pending_keep _ hreq, ⟨fun _ => ⟨t, by rwa [hself]⟩, fun _ => hlocked⟩,
    fun v w hv hw => (honly v hv).trans (honly w hw).symm, fun hfree => ?_, fun v r p hv => ?_,
    fun v r hv => ?_⟩
  · exact absurd (hlocked.symm.trans hfree) nofun
  · have hvt := honly v (by rw [hv]; trivial)
    rw [hvt, hself] at hv
    exact hhold r p hv
  · have hvt := honly v (by rw [hv]; trivial)
    rw [hvt, hself] at hv
    exact hhalted r hv

omit [DecidableEq T] in
theorem Refines.outside_of_free (h : Refines code s a) (hfree : s.mutex.locked = false) (v : T) :
    ¬ (s.threads v).Inside := fun hv =>
  absurd ((h.locked.mpr ⟨v, hv⟩).symm.trans hfree) nofun

/-- Every step of the lock is matched by the object. -/
theorem forward_refines (code : ρ → Prog σ α) :
    Forward (Step code) (SpecStep (T := T) code) (Refines code) := by
  intro s e s' a h hstep
  cases hstep with
  | @call _ t r ht =>
    have hpend : a.pending t = none := by rw [h.pending, ht]; rfl
    refine ⟨_, Run.single (.call hpend), h.set_outside (by rw [ht]; exact id) id ?_⟩
    exact h.pending_update t (some r) _ rfl
  | @acquire _ t r m ht hcas =>
    obtain ⟨hfree, rfl⟩ := compareExchange_true hcas
    have hout := h.outside_of_free hfree
    have hdata := h.free hfree
    have hself : (s.set t { s.mutex with locked := true } (.hold r (code r))).threads t =
        .hold r (code r) := State.set_self
    have honly : ∀ v, ((s.set t { s.mutex with locked := true } (.hold r (code r))).threads
        v).Inside →
        v = t := by
      intro v hv
      rcases State.set_cases s t v { s.mutex with locked := true } (.hold r (code r))
        with ⟨he, -⟩ | ⟨-, he⟩
      · exact he
      · rw [he] at hv
        exact absurd hv (hout v)
    refine ⟨a, .refl, h.pending_keep _ (by rw [ht]; rfl), ⟨fun _ => ⟨t, by rw [hself]; trivial⟩,
      fun _ => rfl⟩, fun v w hv hw => (honly v hv).trans (honly w hw).symm,
      fun hl => absurd hl.symm Bool.false_ne_true, fun v r' p hv => ?_, fun v r' hv => ?_⟩
    · rw [honly v (by rw [hv]; trivial), hself] at hv
      cases hv
      exact congrArg _ hdata
    · rw [honly v (by rw [hv]; trivial), hself] at hv
      cases hv
  | @spin _ t r m ht hcas =>
    obtain ⟨-, rfl⟩ := compareExchange_false hcas
    exact ⟨a, .refl, h.set_outside (by rw [ht]; exact id) id (h.pending_keep _ (by rw [ht]))⟩
  | @access _ t r update next ht =>
    refine ⟨a, .refl, h.set_inside (by rw [ht]; trivial) trivial (by rw [ht]; rfl) ?_
      fun _ hr => by cases hr⟩
    intro r' p hp
    cases hp
    exact h.hold t r _ ht
  | @panic _ t r ht =>
    have hnone := h.hold t r _ ht
    refine ⟨a, .refl, h.set_inside (by rw [ht]; trivial) trivial (by rw [ht]; rfl)
      (fun _ _ hp => by cases hp) ?_⟩
    intro r' hr
    cases hr
    exact hnone.symm
  | @unlock _ t r v ht =>
    -- the object answers now, with what the thread computed
    have heval := h.hold t r _ ht
    rw [Prog.eval] at heval
    have hpend : a.pending t = some r := by rw [h.pending, ht]; rfl
    have hout : ∀ w, ¬ ((s.set t s.mutex.unlock .idle).threads w).Inside := by
      intro w hw
      rcases State.set_cases s t w s.mutex.unlock .idle with ⟨rfl, he⟩ | ⟨hne, he⟩
      · rw [he] at hw
        exact hw
      · rw [he] at hw
        exact hne (h.exclusive w t hw (by rw [ht]; trivial))
    refine ⟨_, Run.single (.ret hpend heval.symm), h.pending_update t none _ rfl,
      ⟨fun hl => absurd hl Bool.false_ne_true, fun hin => hin.elim fun w hw => absurd hw (hout w)⟩,
      fun w _ hw => absurd hw (hout w), fun _ => rfl,
      fun w r' p hw => absurd (show Thread.Inside _ by rw [hw]; trivial) (hout w),
      fun w r' hw => absurd (show Thread.Inside _ by rw [hw]; trivial) (hout w)⟩

end Refinement

/-! ## Runs -/

section Runs

variable {code : ρ → Prog σ α} {d : σ} {es : List (Event T ρ α)} {s s' : State T ρ σ α}
  {a : Spec T ρ σ} {t u : T} {r : ρ}

/-- **Serialization.** For any number of threads and any interleaving of their steps, the calls and
returns of a run are those of requests answered one at a time, each by the undisturbed evaluation
of its code on the data that the ones before it left. At most one thread is inside the lock, and a
free lock holds what these requests left. -/
theorem mutex_serializes (h : Run (Step code) (State.init T ρ α d) es s) :
    ∃ a, Run (SpecStep code) (Spec.init T ρ d) es a ∧ Refines code s a :=
  (forward_refines code).run (refines_init d) h

/-- A counter under the lock: the addition reads and writes in two accesses. -/
def demoAdd (n : ℕ) : Prog ℕ ℕ := .access id fun x => .access (fun _ => x + n) fun _ => .ret x

/-- One thread has taken the lock. -/
def demoTaken : State Bool ℕ ℕ ℕ :=
  ((State.init Bool ℕ ℕ 40).set true (.new 40) (.spin 2)).set true ⟨true, 40⟩ (.hold 2 (demoAdd 2))

/-- It has read the counter and not written it yet, and the other one has called. -/
def demoState : State Bool ℕ ℕ ℕ :=
  (demoTaken.set true ⟨true, 40⟩ (.hold 2 (.access (fun _ => 42) fun _ => .ret 40))).set
    false ⟨true, 40⟩ (.spin 5)

theorem demoState_reached :
    Run (Step demoAdd) (State.init Bool ℕ ℕ 40) [.call true 2, .call false 5] demoState := by
  have htaken : Run (Step demoAdd) (State.init Bool ℕ ℕ 40) [.call true 2] demoTaken :=
    Run.head (Step.call (t := true) (r := 2) rfl) (Run.single (Step.acquire (t := true) rfl rfl))
  exact htaken.trans (Run.head (Step.access (t := true) (r := 2) rfl)
    (Run.single (Step.call (t := false) (r := 5) rfl)))

/-- The object still has its first value, which the thread inside will change by 2. -/
theorem mutex_serializes_demo :
    ∃ a, Run (SpecStep demoAdd) (Spec.init Bool ℕ 40) [.call true 2, .call false 5] a ∧
      Refines demoAdd demoState a := mutex_serializes demoState_reached

/-- The thread that holds the guard comes to its end if its program does. -/
theorem finish (p : Prog σ α) (ht : s.threads t = .hold r p) (hp : p.eval s.mutex.data ≠ none) :
    ∃ es s', Run (Step code) s es s' ∧ s'.mutex.locked = false ∧ s'.threads t = .idle ∧
      ∀ u, u ≠ t → s'.threads u = s.threads u := by
  induction p generalizing s with
  | ret v =>
    exact ⟨_, _, Run.single (.unlock ht), rfl, State.set_self, fun u hu => State.set_of_ne hu⟩
  | panic => exact absurd rfl hp
  | access update next ih =>
    obtain ⟨es, s', hrun, hfree, hidle, hrest⟩ := ih s.mutex.data
      (s := s.set t { s.mutex with data := update s.mutex.data } (.hold r (next s.mutex.data)))
      State.set_self hp
    exact ⟨_, s', Run.head (.access ht) hrun, hfree, hidle, fun u hu =>
      (hrest u hu).trans (State.set_of_ne hu)⟩

/-- A thread that finds the lock free takes it and comes to its end. -/
theorem finish_spin (hcode : ∀ r d, (code r).eval d ≠ none) (ht : s.threads t = .spin r)
    (hfree : s.mutex.locked = false) :
    ∃ es s', Run (Step code) s es s' ∧ s'.threads t = .idle := by
  have hcas : s.mutex.compareExchange = (true, { s.mutex with locked := true }) := if_pos hfree
  have hhold : (s.set t { s.mutex with locked := true } (.hold r (code r))).threads t =
      .hold r (code r) := State.set_self
  obtain ⟨es, s', hrun, -, hidle, -⟩ := finish (code r) hhold (hcode r _)
  exact ⟨_, s', Run.head (.acquire ht hcas) hrun, hidle⟩

/-- **No deadlock.** If no request panics, every thread can be brought to its return from every
state that can be reached. -/
theorem mutex_progress (hcode : ∀ r d, (code r).eval d ≠ none)
    (h : Run (Step code) (State.init T ρ α d) es s) (t : T) :
    ∃ es' s', Run (Step code) s es' s' ∧ s'.threads t = .idle := by
  obtain ⟨a, -, hR⟩ := (forward_refines code).run (refines_init d) h
  -- whoever is inside holds the guard and comes to its end
  have hinside : ∀ u, (s.threads u).Inside → ∃ es s', Run (Step code) s es s' ∧
      s'.mutex.locked = false ∧ s'.threads u = .idle ∧ ∀ v, v ≠ u → s'.threads v = s.threads v := by
    intro u hu
    cases hthread : s.threads u with
    | idle | spin => rw [hthread] at hu; exact hu.elim
    | hold r p => exact finish p hthread (by rw [hR.hold u r p hthread]; exact hcode r _)
    | halted r => exact absurd (hR.halted u r hthread) (hcode r _)
  cases ht : s.threads t with
  | idle => exact ⟨[], s, .refl, ht⟩
  | hold r p =>
    obtain ⟨es', s', hrun, -, hidle, -⟩ := hinside t (by rw [ht]; trivial)
    exact ⟨es', s', hrun, hidle⟩
  | halted r => exact absurd (hR.halted t r ht) (hcode r _)
  | spin r =>
    by_cases hlocked : s.mutex.locked = true
    · obtain ⟨u, hu⟩ := hR.locked.mp hlocked
      obtain ⟨es₁, s₁, hrun₁, hfree, -, hrest⟩ := hinside u hu
      have htu : t ≠ u := by
        rintro rfl
        rw [ht] at hu
        exact hu
      obtain ⟨es₂, s₂, hrun₂, hidle⟩ := finish_spin hcode ((hrest t htu).trans ht) hfree
      exact ⟨_, s₂, hrun₁.trans hrun₂, hidle⟩
    · exact finish_spin hcode ht (by simpa using hlocked)

theorem mutex_progress_demo : ∃ es' s', Run (Step demoAdd) demoState es' s' ∧
    s'.threads false = .idle := by
  have hcode : ∀ n x, (demoAdd n).eval x ≠ none := fun n x => Option.some_ne_none (x, x + n)
  exact mutex_progress hcode demoState_reached false

/-- While a thread is stopped inside the lock, others can only wait. -/
theorem step_of_halted (hR : Refines code s a) (ht : s.threads t = .halted r)
    {e : Option (Event T ρ α)} (h : Step code s e s') :
    s'.mutex = s.mutex ∧ s'.threads t = .halted r ∧ ∀ l ∈ e, ∃ u q, l = .call u q := by
  have hlocked : s.mutex.locked = true := hR.locked.mpr ⟨t, by rw [ht]; trivial⟩
  have honly : ∀ u, (s.threads u).Inside → u = t := fun u hu =>
    hR.exclusive u t hu (by rw [ht]; trivial)
  have hkeep : ∀ {u : T} {m : Mutex σ} {x : Thread ρ σ α}, ¬ (s.threads u).Inside →
      (s.set u m x).threads t = .halted r := by
    intro u m x hu
    rw [State.set_of_ne, ht]
    rintro rfl
    exact hu (by rw [ht]; trivial)
  cases h with
  | @call _ u q hu =>
    refine ⟨rfl, hkeep (by rw [hu]; exact id), fun l hl => ⟨u, q, (Option.some.inj hl).symm⟩⟩
  | @acquire _ u q m hu hcas =>
    exact absurd ((compareExchange_true hcas).1.symm.trans hlocked) Bool.false_ne_true
  | @spin _ u q m hu hcas =>
    obtain ⟨-, rfl⟩ := compareExchange_false hcas
    exact ⟨rfl, hkeep (by rw [hu]; exact id), nofun⟩
  | @access _ u q update next hu =>
    obtain rfl := honly u (by rw [hu]; trivial)
    exact absurd (ht.symm.trans hu) nofun
  | @panic _ u q hu =>
    obtain rfl := honly u (by rw [hu]; trivial)
    exact absurd (ht.symm.trans hu) nofun
  | @unlock _ u q v hu =>
    obtain rfl := honly u (by rw [hu]; trivial)
    exact absurd (ht.symm.trans hu) nofun

/-- **A panic under the lock is final.** Once a thread has panicked inside, the data stays as it was
left, and no request returns any more: threads can only be called and wait. -/
theorem mutex_poisoned (h : Run (Step code) (State.init T ρ α d) es s)
    (ht : s.threads t = .halted r) {es' : List (Event T ρ α)} (h' : Run (Step code) s es' s') :
    s'.mutex = s.mutex ∧ s'.threads t = .halted r ∧ ∀ l ∈ es', ∃ u q, l = .call u q := by
  obtain ⟨a, -, hR⟩ := (forward_refines code).run (refines_init d) h
  induction h' with
  | refl => exact ⟨rfl, ht, nofun⟩
  | tail hrun hstep ih =>
    obtain ⟨hm, hhalt, hcalls⟩ := ih
    obtain ⟨a', -, hR'⟩ := (forward_refines code).run hR hrun
    obtain ⟨hm', hhalt', hcall⟩ := step_of_halted hR' hhalt hstep
    refine ⟨hm'.trans hm, hhalt', fun l hl => ?_⟩
    rcases List.mem_append.mp hl with hl | hl
    · exact hcalls l hl
    · exact hcall l (Option.mem_toList.mp hl)

/-- A request that changes the data and panics. -/
def demoPanic (n : ℕ) : Prog ℕ ℕ := .access (fun x => x + n) fun _ => .panic

/-- One thread has made it. -/
def demoHalted : State Bool ℕ ℕ ℕ :=
  ((((State.init Bool ℕ ℕ 40).set true (.new 40) (.spin 2)).set true ⟨true, 40⟩
    (.hold 2 (demoPanic 2))).set true ⟨true, 42⟩ (.hold 2 .panic)).set true ⟨true, 42⟩ (.halted 2)

theorem demoHalted_reached :
    Run (Step demoPanic) (State.init Bool ℕ ℕ 40) [.call true 2] demoHalted :=
  Run.head (Step.call (t := true) (r := 2) rfl)
    (Run.head (Step.acquire (t := true) (r := 2) rfl rfl)
      (Run.head (Step.access (t := true) (r := 2) rfl)
        (Run.single (Step.panic (t := true) (r := 2) rfl))))

theorem mutex_poisoned_demo :
    ∃ s', Run (Step demoPanic) demoHalted [.call false 5] s' ∧ s'.mutex = ⟨true, 42⟩ ∧
      s'.threads true = .halted 2 := by
  have h' : Run (Step demoPanic) demoHalted [.call false 5] _ :=
    Run.single (Step.call (t := false) (r := 5) rfl)
  obtain ⟨hm, hhalt, -⟩ := mutex_poisoned demoHalted_reached (t := true) rfl h'
  exact ⟨_, h', hm, hhalt⟩

end Runs

end CappuccinOS.Sync
