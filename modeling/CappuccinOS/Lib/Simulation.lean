import Mathlib

/-!
# Runs with labels, forward simulation, and programs over shared data

A step relation has a label on the steps that can be seen from outside. `Run` collects the labels.
A relation between the states of two systems that is kept by every step of the first, matched by a
run of the second with the same labels, carries runs over (`Forward.run`): what the first system
shows, the second shows too.

`Prog` is a program that reads and writes shared data piece by piece, and `Prog.eval` what it does
when it is left alone with the data.
-/

namespace CappuccinOS.Simulation

variable {σ τ ε α : Type*}

/-- A step relation; `none` is the label of a step that cannot be seen. -/
abbrev Steps (σ ε : Type*) := σ → Option ε → σ → Prop

/-- A run, with the labels seen. -/
inductive Run (step : Steps σ ε) (s : σ) : List ε → σ → Prop
  | refl : Run step s [] s
  | tail {es : List ε} {s' s'' : σ} {e : Option ε} :
      Run step s es s' → step s' e s'' → Run step s (es ++ e.toList) s''

namespace Run

variable {step : Steps σ ε} {s s' s'' : σ} {es es' : List ε}

theorem single {e : Option ε} (h : step s e s') : Run step s e.toList s' := by
  have := Run.tail .refl h
  rwa [List.nil_append] at this

theorem trans (h : Run step s es s') (h' : Run step s' es' s'') : Run step s (es ++ es') s'' := by
  induction h' with
  | refl => rwa [List.append_nil]
  | tail _ hstep ih =>
    rw [← List.append_assoc]
    exact .tail ih hstep

theorem head {e : Option ε} (h : step s e s') (h' : Run step s' es s'') :
    Run step s (e.toList ++ es) s'' := (single h).trans h'

/-- What every step keeps, every run keeps. -/
theorem invariant {I : σ → Prop} (hstep : ∀ s e s', I s → step s e s' → I s')
    (h : Run step s es s') (hs : I s) : I s' := by
  induction h with
  | refl => exact hs
  | tail _ h ih => exact hstep _ _ _ ih h

end Run

/-- Every step of the first system is matched by a run of the second with the same label. -/
def Forward (step : Steps σ ε) (spec : Steps τ ε) (R : σ → τ → Prop) : Prop :=
  ∀ s e s' t, R s t → step s e s' → ∃ t', Run spec t e.toList t' ∧ R s' t'

/-- A forward simulation carries runs over. -/
theorem Forward.run {step : Steps σ ε} {spec : Steps τ ε} {R : σ → τ → Prop}
    (hF : Forward step spec R) {s s' : σ} {t : τ} {es : List ε} (hR : R s t)
    (h : Run step s es s') : ∃ t', Run spec t es t' ∧ R s' t' := by
  induction h with
  | refl => exact ⟨t, .refl, hR⟩
  | tail _ hstep ih =>
    obtain ⟨t₁, hrun₁, hR₁⟩ := ih
    obtain ⟨t₂, hrun₂, hR₂⟩ := hF _ _ _ _ hR₁ hstep
    exact ⟨t₂, hrun₁.trans hrun₂, hR₂⟩

/-! ## Programs over shared data -/

/-- A program that accesses data of type `σ` piece by piece: it returns, or stops with a panic, or
changes the data and goes on with what it has read. -/
inductive Prog (σ α : Type*) where
  | ret (a : α)
  | panic
  | access (update : σ → σ) (next : σ → Prog σ α)

/-- The result and the data of a program that is not disturbed, unless it panics. -/
def Prog.eval : Prog σ α → σ → Option (α × σ)
  | ret a, d => some (a, d)
  | panic, _ => none
  | access update next, d => (next d).eval (update d)

/-- A program that accesses the data once. -/
def Prog.atomically (f : σ → Option (α × σ)) : Prog σ α :=
  .access (fun d => ((f d).map Prod.snd).getD d) fun d =>
    match f d with
    | some r => .ret r.1
    | none => .panic

theorem Prog.eval_atomically (f : σ → Option (α × σ)) (d : σ) : (atomically f).eval d = f d := by
  rw [atomically, eval]
  cases h : f d with
  | none => rfl
  | some r => rfl

end CappuccinOS.Simulation
