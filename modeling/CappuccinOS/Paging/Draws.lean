import CappuccinOS.Paging.Init

/-!
# What a call of `vmm_map` takes from the page allocator

1. `Draws M st st'`: between the two states the frames `st.next` to `st'.next` were handed out, and
   only these became page directories. `vmmMap_draws` proves it for every call that returns, with
   any arguments, also for those that split a page.
2. `Holds.congr`: the frames that are still to come do not matter for what the tables say now.
-/

namespace CappuccinOS.Paging

/-- From `st` to `st'` the frames from `st.next` on were handed out, up to `st'.next`. Only these
are new page directories, and no page directory is lost. -/
structure Draws (M : Machine) (st st' : State) : Prop where
  le : st.next ≤ st'.next
  drawn : ∀ k, st.next ≤ k → k < st'.next → ∃ g, M.frames k = some g
  kept : ∀ f t, st.mem f = some t → ∃ t', st'.mem f = some t'
  fresh : ∀ f t, st'.mem f = some t → (∃ t₀, st.mem f = some t₀) ∨
    ∃ k, st.next ≤ k ∧ k < st'.next ∧ M.frames k = some f
  entered : ∀ k g, st.next ≤ k → k < st'.next → M.frames k = some g → ∃ t, st'.mem g = some t

section Draws

variable {M : Machine} {st st' st'' : State}

theorem Draws.refl (M : Machine) (st : State) : Draws M st st :=
  ⟨le_rfl, fun _ h1 h2 => absurd h2 (by omega), fun _ t h => ⟨t, h⟩, fun _ t h => .inl ⟨t, h⟩,
    fun _ _ h1 h2 => absurd h2 (by omega)⟩

theorem Draws.trans (h : Draws M st st') (h' : Draws M st' st'') : Draws M st st'' := by
  have hle := h.le
  have hle' := h'.le
  refine ⟨le_trans hle hle', fun k h1 h2 => ?_, fun f t ht => ?_, fun f t ht => ?_,
    fun k g h1 h2 hg => ?_⟩
  · by_cases hk : k < st'.next
    · exact h.drawn k h1 hk
    · exact h'.drawn k (by omega) h2
  · obtain ⟨t', ht'⟩ := h.kept f t ht
    exact h'.kept f t' ht'
  · rcases h'.fresh f t ht with ⟨t', ht'⟩ | ⟨k, h1, h2, hk⟩
    · rcases h.fresh f t' ht' with hold | ⟨k, h1, h2, hk⟩
      · exact .inl hold
      · exact .inr ⟨k, h1, by omega, hk⟩
    · exact .inr ⟨k, by omega, h2, hk⟩
  · by_cases hk : k < st'.next
    · obtain ⟨t, ht⟩ := h.entered k g h1 hk hg
      exact h'.kept g t ht
    · exact h'.entered k g (by omega) h2 hg

theorem draws_write {f i e : ℕ} (h : st.write f i e = .ok st') : Draws M st st' := by
  unfold State.write at h
  split at h
  · rename_i t hmem
    obtain rfl := Except.ok.inj h
    refine ⟨le_rfl, fun k h1 h2 => absurd h2 (Nat.not_lt.mpr h1), fun g t' ht' => ?_,
      fun g t' ht' => ?_, fun k g h1 h2 => absurd h2 (Nat.not_lt.mpr h1)⟩
    · by_cases hg : g = f
      · exact ⟨_, by rw [hg]; exact Function.update_self ..⟩
      · exact ⟨t', (Function.update_of_ne hg ..).trans ht'⟩
    · by_cases hg : g = f
      · exact .inl ⟨t, hg ▸ hmem⟩
      · exact .inl ⟨t', (Function.update_of_ne hg ..).symm.trans ht'⟩
  · cases h

theorem draws_pmmAlloc {g : ℕ} (hg : M.frames st.next = some g) : Draws M st (pmmAlloc st g) := by
  have hone : ∀ k, st.next ≤ k → k < (pmmAlloc st g).next → k = st.next := by
    intro k h1 h2
    have : k < st.next + 1 := h2
    omega
  refine ⟨Nat.le_succ _, fun k h1 h2 => ⟨g, hone k h1 h2 ▸ hg⟩, fun f t ht => ?_, fun f t ht => ?_,
    fun k g' h1 h2 hk => ?_⟩
  · by_cases hf : f = g
    · exact ⟨_, (congrArg _ hf).trans pmmAlloc_mem_self⟩
    · exact ⟨t, (pmmAlloc_mem_of_ne hf).trans ht⟩
  · by_cases hf : f = g
    · exact .inr ⟨st.next, le_rfl, Nat.lt_succ_self _, hf ▸ hg⟩
    · exact .inl ⟨t, (pmmAlloc_mem_of_ne hf).symm.trans ht⟩
  · rw [hone k h1 h2, hg] at hk
    exact ⟨_, (congrArg _ (Option.some.inj hk).symm).trans pmmAlloc_mem_self⟩

theorem draws_linkTable {dir entry ret : ℕ} (h : linkTable M st dir entry = .ok (ret, st')) :
    Draws M st st' := by
  unfold linkTable at h
  split at h
  · cases h
  · rename_i g hg
    obtain ⟨st₁, hwrite, h⟩ := bind_eq_ok.mp h
    obtain ⟨-, rfl⟩ := Prod.mk.inj (pure_eq_ok.mp h)
    exact (draws_pmmAlloc hg).trans (draws_write hwrite)

/-- Every returning call of the function draws frames. -/
def Drawing (M : Machine) (f : MapFn) : Prop :=
  ∀ {st st' dir virt phys flags size}, f st dir virt phys flags size = .ok st' → Draws M st st'

variable {recur : MapFn} (hrecur : Drawing M recur)

include hrecur

theorem draws_mapLoop {dir virt phys flags step : ℕ} {size : PageSize} (turns i : ℕ)
    (h : mapLoop recur dir virt phys flags size step turns i st = .ok st') : Draws M st st' := by
  induction turns generalizing i st with
  | zero =>
    obtain rfl := Except.ok.inj h
    exact Draws.refl M _
  | succ turns ih =>
    rw [mapLoop] at h
    obtain ⟨st₁, hcall, h⟩ := bind_eq_ok.mp h
    exact (hrecur hcall).trans (ih (i + step) h)

theorem draws_getNextLevel {dir virt level entry ret : ℕ} {size : PageSize}
    (h : getNextLevel M recur st dir virt size level entry = .ok (ret, st')) : Draws M st st' := by
  unfold getNextLevel at h
  obtain ⟨e, -, h⟩ := bind_eq_ok.mp h
  split_ifs at h with htable hlarge
  · obtain ⟨-, rfl⟩ := Prod.mk.inj (pure_eq_ok.mp h)
    exact Draws.refl M _
  · -- a large page is split: a table and the pages that replace the old one
    unfold splitLarge at h
    obtain ⟨_, -, h⟩ := bind_eq_ok.mp h
    obtain ⟨_, -, h⟩ := bind_eq_ok.mp h
    obtain ⟨⟨_, st₁⟩, hlink, h⟩ := bind_eq_ok.mp h
    obtain ⟨st₂, hloop, h⟩ := bind_eq_ok.mp h
    obtain ⟨-, rfl⟩ := Prod.mk.inj (pure_eq_ok.mp h)
    exact (draws_linkTable hlink).trans (draws_mapLoop hrecur _ _ hloop)
  · exact draws_linkTable h

theorem draws_vmmMapBody : Drawing M (vmmMapBody M recur) := by
  intro st st' dir virt phys flags size h
  unfold vmmMapBody at h
  obtain ⟨⟨pml4, st₁⟩, h4, h⟩ := bind_eq_ok.mp h
  have hd4 : Draws M st st₁ := by
    cases hmode : M.mode with
    | fiveLevel =>
      rw [hmode] at h4
      exact draws_getNextLevel hrecur h4
    | fourLevel =>
      rw [hmode] at h4
      obtain ⟨-, rfl⟩ := Prod.mk.inj (pure_eq_ok.mp h4)
      exact Draws.refl M _
  obtain ⟨⟨pml3, st₂⟩, h3, h⟩ := bind_eq_ok.mp h
  have hd3 := hd4.trans (draws_getNextLevel hrecur h3)
  simp only at h
  split_ifs at h with h1 hgib hmib
  · exact hd3.trans (draws_write h)
  · exact hd3.trans (draws_mapLoop hrecur _ _ h)
  · obtain ⟨⟨pml2, st₃⟩, h2, h⟩ := bind_eq_ok.mp h
    exact (hd3.trans (draws_getNextLevel hrecur h2)).trans (draws_write h)
  · obtain ⟨⟨pml2, st₃⟩, h2, h⟩ := bind_eq_ok.mp h
    obtain ⟨⟨pml1, st₄⟩, h1', h⟩ := bind_eq_ok.mp h
    exact ((hd3.trans (draws_getNextLevel hrecur h2)).trans
      (draws_getNextLevel hrecur h1')).trans (draws_write h)

omit hrecur

/-- A call of `vmm_map` that returns, whatever it is asked to map. -/
theorem vmmMap_draws (fuel : ℕ) : Drawing M (vmmMap M fuel) := by
  induction fuel with
  | zero =>
    intro st st' dir virt phys flags size h
    cases h
  | succ fuel ih => exact draws_vmmMapBody ih

end Draws

/-! ## `vmm_init` -/

section Init

variable {p : Profile} {M : Machine} {fuel root : ℕ} {L : Limine} {st st' : State}

theorem draws_foldlM {σ : Type} {f : State → σ → Except Fault State}
    (hf : ∀ st st' x, f st x = .ok st' → Draws M st st') {l : List σ}
    (h : l.foldlM f st = .ok st') : Draws M st st' := by
  induction l generalizing st with
  | nil =>
    obtain rfl := pure_eq_ok.mp h
    exact Draws.refl M _
  | cons x l ih =>
    rw [List.foldlM_cons] at h
    obtain ⟨st₁, hx, h⟩ := bind_eq_ok.mp h
    exact (hf _ _ _ hx).trans (ih h)

theorem draws_mapRange {virt phys flags length : ℕ} {size : PageSize}
    (h : mapRange p M fuel root virt phys flags length size st = .ok st') : Draws M st st' := by
  refine draws_foldlM (fun st st' k hk => ?_) h
  obtain ⟨_, -, hk⟩ := bind_eq_ok.mp hk
  obtain ⟨_, -, hk⟩ := bind_eq_ok.mp hk
  exact vmmMap_draws fuel hk

theorem draws_mapKernel {e : Pmm.Entry} (h : mapKernel p M fuel root L st e = .ok st') :
    Draws M st st' := by
  unfold mapKernel at h
  split_ifs at h with he
  · obtain rfl := Except.ok.inj h
    exact Draws.refl M _
  · exact draws_mapRange h

theorem draws_mapAligned {base top : ℕ} (h : mapAligned p M fuel root L base top st = .ok st') :
    Draws M st st' := by
  unfold mapAligned at h
  split_ifs at h with hb
  · obtain rfl := Except.ok.inj h
    exact Draws.refl M _
  · obtain ⟨_, -, h⟩ := bind_eq_ok.mp h
    obtain ⟨_, -, h⟩ := bind_eq_ok.mp h
    obtain ⟨_, -, h⟩ := bind_eq_ok.mp h
    exact draws_mapRange h

theorem draws_mapEntry {e : Pmm.Entry} (h : mapEntry p M fuel root L st e = .ok st') :
    Draws M st st' := by
  unfold mapEntry at h
  by_cases he : e.entryType = .reserved ∨ e.entryType = .badMemory
  · rw [if_pos he] at h
    obtain rfl := Except.ok.inj h
    exact Draws.refl M _
  · rw [if_neg he] at h
    obtain ⟨top, -, h⟩ := bind_eq_ok.mp h
    exact draws_mapAligned h

theorem vmmInit_draws (h : vmmInit p M fuel root L = .ok st') :
    Draws M (State.init root) st' := by
  unfold vmmInit at h
  obtain ⟨st₁, h1, h⟩ := bind_eq_ok.mp h
  obtain ⟨st₂, h2, h3⟩ := bind_eq_ok.mp h
  exact ((draws_mapRange h1).trans (draws_foldlM (fun _ _ _ => draws_mapKernel) h2)).trans
    (draws_foldlM (fun _ _ _ => draws_mapEntry) h3)

end Init

/-! ## Frames that are still to come -/

section Congr

variable {M M' : Machine} {root : ℕ} {S : Shape} {st : State} {own : ℕ → Option (List ℕ)}
  {P : ℕ → Prop} {cs : List Call}

theorem Tree.congr (h : Tree M root S st own) (hframes : ∀ k < st.next, M'.frames k = M.frames k) :
    Tree M' root S st own where
  root_own := h.root_own
  owned := h.owned
  inj := h.inj
  alloc := fun hf => (h.alloc hf).imp id fun ⟨k, hk, hg⟩ => ⟨k, hk, (hframes k hk).trans hg⟩
  child := h.child
  large := h.large
  parent := h.parent

theorem Holds.congr (h : Holds M root P cs st) (hframes : ∀ k < st.next, M'.frames k = M.frames k)
    (hgib : M'.is1GibPageSupported = M.is1GibPageSupported) : Holds M' root P cs st := by
  obtain ⟨own, hT⟩ := h.tree
  exact ⟨⟨own, hT.congr hframes⟩, fun v => by rw [hgib]; exact h.walk_eq v⟩

end Congr

end CappuccinOS.Paging
