import CappuccinOS.Paging.Draws
import CappuccinOS.Pmm.Coverage

/-!
# The frames that the page allocator gives to `vmm_map`

The page tables are built over a machine that hands out frames. Here the machine is the page
allocator itself: the frames still to come are those that `pmm_alloc(1)` gives from the present
state on.

1. `Books`: what `Inv` says of the allocator and its live ranges, in whatever order these are
   listed, and that ranges start at page addresses. Every call keeps it.
2. `takeFrames_books`, `takeFrames_of_frames`: a row of single pages, and that the frames read off
   one by one are the row.
3. `freshFrames_machine`: so the allocator never hands a frame out twice, nor the root's. This is
   what the results about page tables rest on.
-/

namespace CappuccinOS.Kernel

open Cover
open Pmm (PhysicalMemoryManager Block pmmAllocNozero pmmDealloc bit)

/-! ## The books -/

/-- The allocator after init was `s₀`; now `live` is handed out. -/
structure Books (s₀ pmm : PhysicalMemoryManager) (live : List Block) : Prop where
  inv : Pmm.Inv s₀ ⟨pmm, live⟩
  page : ∀ b ∈ live, pageSize ∣ b.ptr ∧ b.ptr ≠ 0

namespace Books

variable {s₀ pmm pmm' : PhysicalMemoryManager} {live live' : List Block}

theorem perm (h : Books s₀ pmm live) (hp : live.Perm live') : Books s₀ pmm live' := by
  have hcov : ∀ i, cover (live'.map Block.interval) i = cover (live.map Block.interval) i :=
    fun i => cover_perm (hp.symm.map _) i
  have hI := h.inv
  refine ⟨⟨hI.len, hI.highest, hI.last, ?_, fun b hb => hI.pos b (hp.symm.subset hb), fun i => ?_,
    fun i hi => ?_, fun i => ?_⟩, fun b hb => h.page b (hp.symm.subset hb)⟩
  · exact hI.used.trans (hp.map Block.pages).sum_eq
  · exact (hcov i).le.trans (hI.once i)
  · exact hI.free i ((hcov i) ▸ hi)
  · exact (hI.bits i).trans (by rw [Pmm.State.owned, Pmm.State.owned, hcov i])

theorem init (h₀ : Pmm.PostInit s₀) : Books s₀ s₀ [] := ⟨Pmm.inv_init h₀.started, nofun⟩

theorem alloc (h : Books s₀ pmm live) (h₀ : Pmm.PostInit s₀) {pages addr : ℕ} (hpages : 1 ≤ pages)
    (hok : pmmAllocNozero pmm pages = .ok (addr, pmm')) (h0 : addr ≠ 0) :
    Books s₀ pmm' (⟨addr, pages⟩ :: live) := by
  refine ⟨Pmm.inv_alloc h.inv h₀.started hpages hok h0, fun b hb => ?_⟩
  rcases List.mem_cons.mp hb with rfl | hb
  · cases h.inv.allocated h₀.started hpages hok (.inl h0) with
    | null => exact absurd rfl h0
    | page => exact ⟨Dvd.intro_left _ rfl, h0⟩
  · exact h.page b hb

theorem allocNull (h : Books s₀ pmm live) (h₀ : Pmm.PostInit s₀) {pages : ℕ} (hpages : 1 ≤ pages)
    (hok : pmmAllocNozero pmm pages = .ok (0, pmm')) : Books s₀ pmm' live :=
  ⟨Pmm.inv_allocNull h.inv h₀.started h₀.page0 hpages hok, h.page⟩

theorem dealloc (h : Books s₀ pmm live) {b : Block} (hb : b ∈ live)
    (hok : pmmDealloc pmm b.ptr b.pages = .ok pmm') : Books s₀ pmm' (live.erase b) :=
  ⟨Pmm.inv_dealloc h.inv hb hok, fun c hc => h.page c (List.mem_of_mem_erase hc)⟩

theorem apart (h : Books s₀ pmm live) : (live.map Block.interval).Pairwise Interval.Apart :=
  pairwise_disjoint_of_cover_le_one h.inv.once

theorem nodup (h : Books s₀ pmm live) : (live.map Block.ptr).Nodup := by
  refine List.pairwise_map.mpr (List.Pairwise.imp_of_mem ?_ (List.pairwise_map.mp h.apart))
  intro b c hb hc hapart heq
  have h1 := h.inv.pos b hb
  have h2 := h.inv.pos c hc
  refine hapart (b.ptr / pageSize) ⟨⟨le_rfl, ?_⟩, ⟨?_, ?_⟩⟩
  · exact Nat.lt_add_of_pos_right h1
  · exact (congrArg (· / pageSize) heq).ge
  · show b.ptr / pageSize < c.ptr / pageSize + c.pages
    rw [heq]
    exact Nat.lt_add_of_pos_right h2

theorem free (h : Books s₀ pmm live) {b : Block} (hb : b ∈ live) {i : ℕ} (hi : b.interval.Mem i) :
    bit s₀ i = some false ∧ i < s₀.highestPageIdx :=
  h.inv.free i (exists_mem_iff_cover_pos.mp ⟨_, List.mem_map_of_mem hb, hi⟩)

theorem frameAddr (h : Books s₀ pmm live) (hhigh : s₀.highestPageIdx * pageSize ≤ 2 ^ 48)
    {b : Block}
    (hb : b ∈ live) : Paging.FrameAddr b.ptr := by
  have hlt := (h.free hb ⟨le_rfl, Nat.lt_add_of_pos_right (h.inv.pos b hb)⟩).2
  obtain ⟨k, hk⟩ := (h.page b hb).1
  have hdiv : b.interval.start = k := by
    show b.ptr / pageSize = k
    rw [hk, Nat.mul_div_cancel_left _ (by decide)]
  rw [hdiv] at hlt
  unfold pageSize at *
  constructor <;> omega

/-- In a good state every call for at least one page returns. -/
theorem returns (h : Books s₀ pmm live) (h₀ : Pmm.PostInit s₀) {pages : ℕ} (hpages : 1 ≤ pages) :
    ∃ addr pmm', pmmAllocNozero pmm pages = .ok (addr, pmm') := by
  refine Pmm.pmmAllocNozero_returns ?_ ?_ hpages
  · rw [h.inv.highest]
    exact h.inv.last
  · rw [h.inv.highest, h.inv.len]
    exact h₀.spans

end Books

/-! ## Single frames -/

/-- `pmm_alloc(1)`: the frame and the allocator after it, unless it gives null. -/
def allocFrame (s : PhysicalMemoryManager) : Option (ℕ × PhysicalMemoryManager) :=
  match pmmAllocNozero s 1 with
  | .ok (addr, s') => if addr = 0 then none else some (addr, s')
  | .error _ => none

theorem allocFrame_eq_some {s s' : PhysicalMemoryManager} {addr : ℕ} :
    allocFrame s = some (addr, s') ↔ pmmAllocNozero s 1 = .ok (addr, s') ∧ addr ≠ 0 := by
  unfold allocFrame
  split
  · rename_i a t h
    simp only [h, Option.ite_none_left_eq_some, Option.some.injEq, Except.ok.injEq, Prod.mk.injEq]
    constructor
    · rintro ⟨h0, rfl, rfl⟩
      exact ⟨⟨rfl, rfl⟩, h0⟩
    · rintro ⟨⟨rfl, rfl⟩, h0⟩
      exact ⟨h0, rfl, rfl⟩
  · rename_i h
    simp [h]

/-- The frame that the call after `k` others gives. -/
def nthFrame : ℕ → PhysicalMemoryManager → Option ℕ
  | 0, s => (allocFrame s).map (·.1)
  | k + 1, s => (allocFrame s).bind fun r => nthFrame k r.2

/-- `n` calls in a row: the frames and the allocator after them. -/
def takeFrames : ℕ → PhysicalMemoryManager → Option (List ℕ × PhysicalMemoryManager)
  | 0, s => some ([], s)
  | n + 1, s => (allocFrame s).bind fun r => (takeFrames n r.2).map fun q => (r.1 :: q.1, q.2)

theorem takeFrames_succ {n : ℕ} {s s' : PhysicalMemoryManager} {gs : List ℕ} :
    takeFrames (n + 1) s = some (gs, s') ↔
      ∃ g s₁ hs, allocFrame s = some (g, s₁) ∧ takeFrames n s₁ = some (hs, s') ∧ gs = g :: hs := by
  rw [takeFrames, Option.bind_eq_some_iff]
  constructor
  · rintro ⟨⟨g, s₁⟩, hg, h⟩
    obtain ⟨⟨hs, s''⟩, hhs, heq⟩ := Option.map_eq_some_iff.mp h
    cases heq
    exact ⟨g, s₁, hs, hg, hhs, rfl⟩
  · rintro ⟨g, s₁, hs, hg, hhs, rfl⟩
    exact ⟨(g, s₁), hg, by rw [hhs]; rfl⟩

theorem takeFrames_length {n : ℕ} {s s' : PhysicalMemoryManager} {gs : List ℕ}
    (h : takeFrames n s = some (gs, s')) : gs.length = n := by
  induction n generalizing s gs with
  | zero =>
    obtain ⟨rfl, -⟩ := Prod.mk.inj (Option.some.inj h)
    rfl
  | succ n ih =>
    obtain ⟨g, s₁, hs, -, hrest, rfl⟩ := takeFrames_succ.mp h
    rw [List.length_cons, ih hrest]

/-- The frames of a row, one by one, and the frames behind it. -/
theorem nthFrame_of_takeFrames {n : ℕ} {s s' : PhysicalMemoryManager} {gs : List ℕ}
    (h : takeFrames n s = some (gs, s')) (k : ℕ) :
    nthFrame k s = if k < n then gs[k]? else nthFrame (k - n) s' := by
  induction n generalizing s gs k with
  | zero =>
    obtain ⟨rfl, rfl⟩ := Prod.mk.inj (Option.some.inj h)
    rw [if_neg (by omega), Nat.sub_zero]
  | succ n ih =>
    obtain ⟨g, s₁, hs, hg, hrest, rfl⟩ := takeFrames_succ.mp h
    cases k with
    | zero => simp [nthFrame, hg]
    | succ k =>
      rw [nthFrame, hg, Option.bind_some, ih hrest k, List.getElem?_cons_succ]
      simp only [Nat.add_lt_add_iff_right, Nat.add_sub_add_right]

/-- Frames that can be read off one by one can be taken in a row. -/
theorem takeFrames_of_frames {n : ℕ} {s : PhysicalMemoryManager}
    (h : ∀ k < n, ∃ g, nthFrame k s = some g) : ∃ gs s', takeFrames n s = some (gs, s') := by
  induction n generalizing s with
  | zero => exact ⟨[], s, rfl⟩
  | succ n ih =>
    obtain ⟨g, hg⟩ := h 0 (Nat.succ_pos n)
    obtain ⟨⟨g, s₁⟩, hr, rfl⟩ := Option.map_eq_some_iff.mp hg
    obtain ⟨hs, s', hrest⟩ := ih (s := s₁) fun k hk => by
      obtain ⟨g', hg'⟩ := h (k + 1) (by omega)
      rw [nthFrame, hr, Option.bind_some] at hg'
      exact ⟨g', hg'⟩
    exact ⟨g :: hs, s', takeFrames_succ.mpr ⟨g, s₁, hs, hr, hrest, rfl⟩⟩

/-- No frame comes after the allocator has failed to give one. -/
theorem nthFrame_of_le {j k : ℕ} {s : PhysicalMemoryManager} {g : ℕ} (h : nthFrame k s = some g)
    (hjk : j ≤ k) : ∃ g', nthFrame j s = some g' := by
  induction j generalizing k s with
  | zero =>
    cases k with
    | zero => exact ⟨g, h⟩
    | succ k =>
      obtain ⟨r, hr, -⟩ := Option.bind_eq_some_iff.mp h
      exact ⟨r.1, by rw [nthFrame, hr]; rfl⟩
  | succ j ih =>
    obtain ⟨k, rfl⟩ : ∃ k', k = k' + 1 := ⟨k - 1, by omega⟩
    obtain ⟨r, hr, hk⟩ := Option.bind_eq_some_iff.mp h
    obtain ⟨g', hg'⟩ := ih hk (by omega)
    exact ⟨g', by rw [nthFrame, hr]; exact hg'⟩

/-- A single page as a live range. -/
def frameBlock (g : ℕ) : Block := ⟨g, 1⟩

theorem takeFrames_books {s₀ s s' : PhysicalMemoryManager} {live : List Block} {n : ℕ} {gs : List ℕ}
    (h : Books s₀ s live) (h₀ : Pmm.PostInit s₀) (ht : takeFrames n s = some (gs, s')) :
    Books s₀ s' (gs.map frameBlock ++ live) := by
  induction n generalizing s gs live with
  | zero =>
    obtain ⟨rfl, rfl⟩ := Prod.mk.inj (Option.some.inj ht)
    exact h
  | succ n ih =>
    obtain ⟨g, s₁, hs, hg, hrest, rfl⟩ := takeFrames_succ.mp ht
    obtain ⟨hok, h0⟩ := allocFrame_eq_some.mp hg
    exact (ih (h.alloc h₀ le_rfl hok h0) hrest).perm List.perm_middle

/-- The row joins the tables, which stand behind the root. -/
theorem Books.take {s₀ s s' : PhysicalMemoryManager} {root : ℕ} {tables gs : List ℕ}
    {rest : List Block} {n : ℕ}
    (h : Books s₀ s (frameBlock root :: tables.map frameBlock ++ rest)) (h₀ : Pmm.PostInit s₀)
    (ht : takeFrames n s = some (gs, s')) :
    Books s₀ s' (frameBlock root :: (tables ++ gs).map frameBlock ++ rest) := by
  refine (takeFrames_books h h₀ ht).perm ?_
  rw [List.map_append]
  simp only [List.cons_append, List.append_assoc]
  refine List.perm_middle.trans (List.Perm.cons _ ?_)
  rw [← List.append_assoc, ← List.append_assoc]
  exact List.perm_append_comm.append_right rest

/-! ## The allocator as the machine of the page tables -/

/-- The machine whose first frames are the tables in use, and whose frames still to come are those
of the allocator. -/
def machine (gib : Bool) (tables : List ℕ) (pmm : PhysicalMemoryManager) : Paging.Machine where
  mode := .fourLevel
  is1GibPageSupported := gib
  frames k := if k < tables.length then tables[k]? else nthFrame (k - tables.length) pmm

section Machine

variable {s₀ pmm pmm' : PhysicalMemoryManager} {gib : Bool} {tables gs : List ℕ} {rest : List Block}
  {n : ℕ}

/-- The frames taken in a row are the next frames of the machine. -/
theorem machine_frames_append (ht : takeFrames n pmm = some (gs, pmm')) (k : ℕ) :
    (machine gib (tables ++ gs) pmm').frames k = (machine gib tables pmm).frames k := by
  have hlen := takeFrames_length ht
  simp only [machine, List.length_append, hlen, nthFrame_of_takeFrames ht]
  by_cases h1 : k < tables.length
  · rw [if_pos (by omega), if_pos h1, List.getElem?_append_left h1]
  · by_cases h2 : k - tables.length < n
    · rw [if_pos (by omega), if_neg h1, if_pos h2, List.getElem?_append_right (by omega)]
    · rw [if_neg (by omega), if_neg h1, if_neg h2, Nat.sub_add_eq]

/-- The tables in use come first, whatever the allocator does. -/
theorem machine_frames_of_lt {k : ℕ} (hk : k < tables.length) :
    (machine gib tables pmm).frames k = tables[k]? := if_pos hk

theorem machine_frames_of_le {k : ℕ} (hk : tables.length ≤ k) :
    (machine gib tables pmm).frames k = nthFrame (k - tables.length) pmm :=
  if_neg (Nat.not_lt.mpr hk)

/-- What was drawn can be taken from the allocator in a row. -/
theorem takeFrames_of_drawn {k n : ℕ} (hk : k = tables.length)
    (hdrawn : ∀ j, k ≤ j → j < k + n → ∃ g, (machine gib tables pmm).frames j = some g) :
    ∃ gs pmm', takeFrames n pmm = some (gs, pmm') := by
  subst hk
  refine takeFrames_of_frames fun j hj => ?_
  obtain ⟨g, hg⟩ := hdrawn (tables.length + j) (by omega) (by omega)
  rw [machine_frames_of_le (by omega), Nat.add_sub_cancel_left] at hg
  exact ⟨g, hg⟩

/-- A frame of the machine is one of the tables, or of a row taken from the allocator. -/
theorem exists_row {k g : ℕ} (hg : (machine gib tables pmm).frames k = some g) :
    ∃ gs pmm', takeFrames (k + 1 - tables.length) pmm = some (gs, pmm') ∧
      ∀ j ≤ k, (machine gib tables pmm).frames j = (tables ++ gs)[j]? := by
  have hrow : ∃ gs pmm', takeFrames (k + 1 - tables.length) pmm = some (gs, pmm') := by
    refine takeFrames_of_frames fun j hj => ?_
    rw [machine_frames_of_le (by omega)] at hg
    exact nthFrame_of_le hg (by omega)
  obtain ⟨gs, pmm', ht⟩ := hrow
  have hlen := takeFrames_length ht
  refine ⟨gs, pmm', ht, fun j hj => ?_⟩
  rw [← machine_frames_append ht, machine_frames_of_lt (by rw [List.length_append]; omega)]

theorem freshFrames_machine {root : ℕ} (h₀ : Pmm.PostInit s₀)
    (hhigh : s₀.highestPageIdx * pageSize ≤ 2 ^ 48)
    (h : Books s₀ pmm (frameBlock root :: tables.map frameBlock ++ rest)) :
    Paging.FreshFrames (machine gib tables pmm) root := by
  -- a row of frames, with the tables and the root: all of them handed out, each once
  have hrow : ∀ {n gs pmm'}, takeFrames n pmm = some (gs, pmm') →
      (root :: (tables ++ gs)).Nodup ∧ ∀ g ∈ tables ++ gs, Paging.FrameAddr g := by
    intro n gs pmm' ht
    have hbooks := h.take h₀ ht
    constructor
    · have hnodup := hbooks.nodup
      rw [List.map_append, List.map_cons, List.map_map] at hnodup
      have hptr : (Block.ptr ∘ frameBlock) = id := rfl
      rw [hptr, List.map_id] at hnodup
      exact (List.nodup_append.mp hnodup).1
    · intro g hg
      refine hbooks.frameAddr (b := frameBlock g) hhigh ?_
      exact List.mem_append_left _ (List.mem_cons_of_mem _ (List.mem_map_of_mem hg))
  refine ⟨fun {j k g} hj hk => ?_, fun {k g} hk => ?_, fun {k g} hk => ?_⟩
  · have hwlog : ∀ {j k g}, j ≤ k → (machine gib tables pmm).frames j = some g →
        (machine gib tables pmm).frames k = some g → j = k := by
      intro j k g hle hj hk
      obtain ⟨gs, pmm', ht, hframes⟩ := exists_row hk
      rw [hframes j hle] at hj
      rw [hframes k le_rfl] at hk
      exact (List.getElem?_inj (List.getElem?_eq_some_iff.mp hj).1
        (List.nodup_cons.mp (hrow ht).1).2).mp (hj.trans hk.symm)
    rcases Nat.le_total j k with hle | hle
    · exact hwlog hle hj hk
    · exact (hwlog hle hk hj).symm
  · obtain ⟨gs, pmm', ht, hframes⟩ := exists_row hk
    rw [hframes k le_rfl] at hk
    exact (hrow ht).2 g (List.mem_of_getElem? hk)
  · obtain ⟨gs, pmm', ht, hframes⟩ := exists_row hk
    rw [hframes k le_rfl] at hk
    rintro rfl
    exact (List.nodup_cons.mp (hrow ht).1).1 (List.mem_of_getElem? hk)

end Machine

end CappuccinOS.Kernel
