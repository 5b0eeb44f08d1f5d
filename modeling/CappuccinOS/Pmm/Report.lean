import CappuccinOS.Pmm.Coverage

/-!
# What `usable_memory` reports

Along a run every page that is handed out is one clear bit less, so the number of clear bits and
`used_pages` have a constant sum (`clearPages_add_used`). After `pmm_init` that sum differs from
`usable_pages` in two ways (`clearPages_init`). The pages of the bitmap itself were counted as
usable and are not free. And a bitmap that is too short for its pages leaves some bits as they were
in memory: pages that are not usable may seem free. Both together decide what is reported in every
state of every run (`usableMemory_exact_iff`).
-/

namespace CappuccinOS.Pmm

open Cover

def usableMemory (p : Profile) (s : PhysicalMemoryManager) : Except Panic ℕ := do
  let total ← p.fit 64 (s.usablePages * 4096)
  let used ← p.fit 64 (s.usedPages * 4096)
  p.sub total used

/-- The clear bits among the pages below `highest_page_idx`. -/
def clearPages (s : PhysicalMemoryManager) : ℕ :=
  ((Finset.range s.highestPageIdx).filter fun i => bit s i = some false).card

/-- The states reached from `s₀` by successful allocations and releases of live allocations with
their own page count. -/
inductive Served (s₀ : PhysicalMemoryManager) : State → Prop
  | init : Served s₀ ⟨s₀, []⟩
  | alloc {s : State} {pages addr : ℕ} {pmm : PhysicalMemoryManager} : Served s₀ s →
      pmmAllocNozero s.pmm pages = .ok (addr, pmm) → addr ≠ 0 →
      Served s₀ ⟨pmm, ⟨addr, pages⟩ :: s.live⟩
  | dealloc {s : State} {b : Block} {pmm : PhysicalMemoryManager} : Served s₀ s → b ∈ s.live →
      pmmDealloc s.pmm b.ptr b.pages = .ok pmm → Served s₀ ⟨pmm, s.live.erase b⟩

/-! ## Runs of successful calls -/

/-- A request for no pages never succeeds: the count is compared after it was raised. -/
theorem pmmInnerAllocLoop_zero {limit turns p addr : ℕ} {s s' : PhysicalMemoryManager}
    (h : pmmInnerAllocLoop 0 limit turns s p = .ok (addr, s')) : addr = 0 := by
  induction turns generalizing s p with
  | zero => exact (Prod.mk.inj (pure_eq_ok.mp h)).1.symm
  | succ turns ih =>
    unfold pmmInnerAllocLoop at h
    by_cases hlt : s.lastUsedPageIdx < limit
    · rw [if_pos hlt] at h
      obtain ⟨b, -, h⟩ := bind_eq_ok.mp h
      cases b with
      | true => exact ih h
      | false => exact ih h
    · rw [if_neg hlt] at h
      exact (Prod.mk.inj (pure_eq_ok.mp h)).1.symm

theorem one_le_of_alloc {s s' : PhysicalMemoryManager} {pages addr : ℕ}
    (h : pmmAllocNozero s pages = .ok (addr, s')) (h0 : addr ≠ 0) : 1 ≤ pages := by
  rcases Nat.eq_zero_or_pos pages with rfl | hpos
  · obtain ⟨a₁, s₁, hok, ⟨h₁, -⟩ | ⟨-, a₂, s₂, hok₂, rfl, -⟩⟩ := pmmAllocNozero_eq_ok.mp h
    · exact absurd (pmmInnerAllocLoop_zero hok) h₁
    · exact absurd (pmmInnerAllocLoop_zero hok₂) h0
  · exact hpos

theorem inv_of_served {s₀ : PhysicalMemoryManager} (h₀ : Started s₀) {s : State}
    (h : Served s₀ s) : Inv s₀ s := by
  induction h with
  | init => exact inv_init h₀
  | alloc _ h h0 ih => exact inv_alloc ih h₀ (one_le_of_alloc h h0) h h0
  | dealloc _ hb h ih => exact inv_dealloc ih hb h

theorem usablePages_of_served {s₀ : PhysicalMemoryManager} (h₀ : Started s₀) {s : State}
    (h : Served s₀ s) : s.pmm.usablePages = s₀.usablePages := by
  induction h with
  | init => rfl
  | alloc hs h h0 ih =>
    cases (inv_of_served h₀ hs).allocated h₀ (one_le_of_alloc h h0) h (.inl h0) with
    | null => exact absurd rfl h0
    | page => exact ih
  | dealloc hs hb h ih =>
    obtain ⟨bm, hok, -⟩ := pmmDealloc_spec (inv_of_served h₀ hs) hb
    obtain rfl := Except.ok.inj (h.symm.trans hok)
    exact ih

theorem clearPages_add_used {s₀ : PhysicalMemoryManager} {s : State} (hI : Inv s₀ s) :
    clearPages s.pmm + s.pmm.usedPages = clearPages s₀ := by
  have hpage : ∀ i, (if bit s.pmm i = some false then 1 else 0) + cover s.owned i =
      if bit s₀ i = some false then 1 else 0 := by
    intro i
    have hbits := hI.bits i
    have honce := hI.once i
    by_cases hc : 0 < cover s.owned i
    · rw [if_pos hc] at hbits
      rw [hbits, if_neg (by simp), if_pos (hI.free i hc).1]
      omega
    · rw [if_neg hc] at hbits
      rw [hbits]
      omega
  have hin : ∀ v ∈ s.owned, v.start + v.len ≤ s₀.highestPageIdx := by
    intro v hv
    obtain ⟨b, hb, rfl⟩ := List.mem_map.mp hv
    have hpos := hI.pos b hb
    have := (hI.free _ (exists_mem_iff_cover_pos.mp ⟨_, hv, b.mem_last hpos⟩)).2
    show b.ptr / pageSize + b.pages ≤ _
    omega
  have hused : s.pmm.usedPages = (s.owned.map Interval.len).sum := by
    rw [hI.used, State.owned, List.map_map]
    rfl
  unfold clearPages
  rw [hused, ← sum_cover_range hin, hI.highest, Finset.card_filter, Finset.card_filter,
    ← Finset.sum_add_distrib]
  exact Finset.sum_congr rfl fun i _ => hpage i

/-! ## After `pmm_init` -/

/-- The bytes that the second loop takes for the bitmap. -/
def reserved (memmap : List Entry) : ℕ :=
  match takeBitmap (bitmapSize (highestAddr memmap / pageSize)) memmap with
  | some _ => bitmapSize (highestAddr memmap / pageSize)
  | none => 0

/-- The map as the second loop leaves it. -/
def leftMap (memmap : List Entry) : List Entry :=
  match takeBitmap (bitmapSize (highestAddr memmap / pageSize)) memmap with
  | some (_, memmap) => memmap
  | none => memmap

/-- The pages that are not free, although the bit that `pmm_init` does not set up for them happens
to be clear. -/
def strayPages (memmap : List Entry) (behind : List Byte) : ℕ :=
  ((Finset.range (highestAddr memmap / pageSize)).filter fun i =>
    cover (usable (leftMap memmap)) i = 0 ∧ StrayBit behind (reserved memmap) i).card

theorem Placed.eq {memmap memmap' : List Entry} {base : Option ℕ} {size : ℕ}
    (h : Placed memmap base memmap' size) : size = reserved memmap ∧ memmap' = leftMap memmap := by
  unfold reserved leftMap
  rcases h with ⟨b, -, rfl, htake⟩ | ⟨-, rfl, rfl, hnone⟩
  · rw [htake]
    exact ⟨rfl, rfl⟩
  · rw [hnone]
    exact ⟨rfl, rfl⟩

/-- A bitmap that reaches all pages has no such bits. -/
theorem strayPages_of_le {memmap : List Entry} (behind : List Byte)
    (h : highestAddr memmap / pageSize ≤ 8 * reserved memmap) : strayPages memmap behind = 0 := by
  refine Finset.card_eq_zero.mpr (Finset.filter_eq_empty_iff.mpr fun i hi hstray => ?_)
  have hlt := Finset.mem_range.mp hi
  have hge := hstray.2.1
  omega

/-- The pages of the map are those of the bitmap and those that are left. -/
theorem cover_leftMap {memmap : List Entry} (hw : Wellformed memmap) :
    ∃ taken : List Interval,
      (∀ v ∈ taken, v.start + v.len ≤ highestAddr memmap / pageSize) ∧
      (taken.map Interval.len).sum = reserved memmap / pageSize ∧
      ∀ i, cover (usable memmap) i = cover taken i + cover (usable (leftMap memmap)) i := by
  have hlt : highestAddr memmap / pageSize < 2 ^ 64 :=
    lt_of_le_of_lt (Nat.div_le_self _ _) (highestAddr_lt hw.fits)
  unfold reserved leftMap
  rcases htake : takeBitmap (bitmapSize (highestAddr memmap / pageSize)) memmap with - | ⟨b, left⟩
  · exact ⟨[], by simp, (Nat.zero_div _).symm, fun i => by rw [cover_nil, Nat.zero_add]⟩
  · refine ⟨[⟨b / pageSize, bitmapSize (highestAddr memmap / pageSize) / pageSize⟩], ?_,
      List.sum_singleton, fun i => cover_takeBitmap (pageSize_dvd_bitmapSize hlt) htake i⟩
    obtain ⟨before, e, after, hsplit, hu, hle, rfl, -⟩ := takeBitmap_some htake
    have he : e ∈ memmap := by
      rw [hsplit]
      exact List.mem_append_right _ List.mem_cons_self
    have hend := le_highestAddr he hu
    intro v hv
    obtain rfl := List.mem_singleton.mp hv
    exact le_trans Nat.div_add_div_le_add_div (Nat.div_le_div_right (by omega))

section Init

variable {p : Profile} {memmap : List Entry} {behind : List Byte} {r : Initialised}
  (hw : Wellformed memmap) (h : pmmInit p memmap behind = .ok r)

include hw h

theorem started_of_pmmInit : Started r.pmm := by
  obtain ⟨_, -, -, hhigh, hlast, -, hused, -⟩ := pmmInit_spec hw.fits h
  exact ⟨hlast, hused, highestAddr memmap, highestAddr_lt hw.fits, hhigh⟩

/-- After init the clear bits are those of the usable pages, without the bitmap's own pages, and
those that were clear before. -/
theorem clearPages_init :
    clearPages r.pmm + reserved memmap / pageSize =
      r.pmm.usablePages + strayPages memmap behind := by
  obtain ⟨size, hplaced, -, hhigh, -, husable, -, hbits⟩ := pmmInit_spec hw.fits h
  obtain ⟨hsize, hleft⟩ := hplaced.eq
  obtain ⟨taken, hin, hsum, hcov⟩ := cover_leftMap hw
  rw [hsize, hleft] at hbits
  have hpage : ∀ i, (if bit r.pmm i = some false then 1 else 0) + cover taken i =
      cover (usable memmap) i + if cover (usable (leftMap memmap)) i = 0 ∧
        StrayBit behind (reserved memmap) i then 1 else 0 := by
    intro i
    have hsplit := hcov i
    have hone := cover_usable_le_one hw i
    rw [if_congr (hbits i) rfl rfl]
    by_cases hc : 0 < cover (usable (leftMap memmap)) i
    · rw [if_pos (.inl hc), if_neg (fun hstray => hc.ne' hstray.1)]
      omega
    · rw [if_congr (or_iff_right hc) rfl rfl,
        if_congr (and_iff_right (Nat.eq_zero_of_not_pos hc)) rfl rfl]
      omega
  unfold clearPages strayPages
  rw [husable, hhigh, ← hsum, ← sum_cover_range hin,
    ← sum_cover_range fun v hv => usable_le_highest hv, Finset.card_filter, Finset.card_filter,
    ← Finset.sum_add_distrib, ← Finset.sum_add_distrib]
  exact Finset.sum_congr rfl fun i _ => hpage i

/-! ## The report -/

/-- What a run keeps: the clear bits and the pages given out are the usable pages, up to the pages
of the bitmap and the stray ones. -/
theorem clearPages_of_served {s : State} (hs : Served r.pmm s) :
    clearPages s.pmm + s.pmm.usedPages + reserved memmap / pageSize =
      s.pmm.usablePages + strayPages memmap behind := by
  have h₀ := started_of_pmmInit hw h
  rw [clearPages_add_used (inv_of_served h₀ hs), clearPages_init hw h,
    usablePages_of_served h₀ hs]

/-- The counters stay below the number of pages, so that their byte counts fit into 64 bits. -/
theorem counters_lt {s : State} (hs : Served r.pmm s) :
    s.pmm.usablePages * 4096 < 2 ^ 64 ∧ s.pmm.usedPages * 4096 < 2 ^ 64 := by
  have h₀ := started_of_pmmInit hw h
  have hI := inv_of_served h₀ hs
  obtain ⟨_, -, -, hhighest, -, htotal, -⟩ := pmmInit_spec hw.fits h
  have hhigh := highestAddr_lt hw.fits
  have hbytes : highestAddr memmap / pageSize * 4096 < 2 ^ 64 :=
    lt_of_le_of_lt (Nat.div_mul_le_self _ _) hhigh
  have husable : s.pmm.usablePages ≤ highestAddr memmap / pageSize := by
    rw [usablePages_of_served h₀ hs, htotal, ← sum_cover_range fun v hv => usable_le_highest hv]
    calc ∑ i ∈ Finset.range (highestAddr memmap / pageSize), cover (usable memmap) i
        ≤ ∑ _i ∈ Finset.range (highestAddr memmap / pageSize), 1 :=
          Finset.sum_le_sum fun i _ => cover_usable_le_one hw i
      _ = highestAddr memmap / pageSize := by simp
  have hused : s.pmm.usedPages ≤ highestAddr memmap / pageSize := by
    have hclear : clearPages r.pmm ≤ r.pmm.highestPageIdx := by
      unfold clearPages
      exact le_trans (Finset.card_filter_le _ _) (Finset.card_range _).le
    have hsum := clearPages_add_used hI
    rw [hhighest] at hclear
    omega
  exact ⟨lt_of_le_of_lt (Nat.mul_le_mul_right _ husable) hbytes,
    lt_of_le_of_lt (Nat.mul_le_mul_right _ hused) hbytes⟩

/-- As long as no more is used than there is, the difference is reported. -/
theorem usableMemory_eq (p' : Profile) {s : State} (hs : Served r.pmm s)
    (hle : s.pmm.usedPages ≤ s.pmm.usablePages) :
    usableMemory p' s.pmm = .ok (4096 * (s.pmm.usablePages - s.pmm.usedPages)) := by
  obtain ⟨husable, hused⟩ := counters_lt hw h hs
  unfold usableMemory
  rw [Profile.fit_of_lt p' husable, Profile.fit_of_lt p' hused]
  show p'.sub _ _ = _
  rw [Profile.sub_of_le p' (Nat.mul_le_mul_right _ hle), ← Nat.sub_mul, Nat.mul_comm]

end Init

/-- **When the report is the free memory.** For a map Limine can give, whatever lies in memory
behind the bitmap, and every run of successful calls behind a returning `pmm_init`: `usable_memory`
does not underflow and is 4096 times the number of clear bits exactly when the pages of the bitmap,
which are counted as usable, are as many as the pages with a stray clear bit, which are not. -/
theorem usableMemory_exact_iff {p : Profile} {memmap : List Entry} {behind : List Byte}
    {r : Initialised} (hw : Wellformed memmap) (h : pmmInit p memmap behind = .ok r) {s : State}
    (hs : Served r.pmm s) :
    (s.pmm.usedPages ≤ s.pmm.usablePages ∧
      usableMemory p s.pmm = .ok (4096 * clearPages s.pmm)) ↔
        strayPages memmap behind = reserved memmap / pageSize := by
  have hsum := clearPages_of_served hw h hs
  constructor
  · rintro ⟨hle, hreport⟩
    rw [usableMemory_eq hw h p hs hle, Except.ok.injEq] at hreport
    omega
  · intro heq
    have hle : s.pmm.usedPages ≤ s.pmm.usablePages := by omega
    refine ⟨hle, ?_⟩
    rw [usableMemory_eq hw h p hs hle, Except.ok.injEq]
    omega

theorem demoMap_init : ∃ r, pmmInit .release demoMap [0] = .ok r := by
  obtain ⟨r, -, hr, -⟩ := pmmInit_returns .release [0] demoMap_wellformed
    ⟨⟨0x1000, 0x10000, .usable⟩, by decide, rfl, by decide⟩ (by decide)
  exact ⟨r, hr⟩

theorem usableMemory_exact_iff_demo :
    ∃ r, pmmInit .release demoMap [0] = .ok r ∧ Served r.pmm ⟨r.pmm, []⟩ ∧
      ((r.pmm.usedPages ≤ r.pmm.usablePages ∧
        usableMemory .release r.pmm = .ok (4096 * clearPages r.pmm)) ↔
          strayPages demoMap [0] = reserved demoMap / pageSize) := by
  obtain ⟨r, hr⟩ := demoMap_init
  exact ⟨r, hr, .init, usableMemory_exact_iff demoMap_wellformed hr .init⟩

/-- Sixteen usable pages, fifteen of them free right after init: 65536 bytes are reported. -/
theorem usableMemory_too_large :
    ∃ r, pmmInit .release demoMap [0] = .ok r ∧ Served r.pmm ⟨r.pmm, []⟩ ∧
      usableMemory .release r.pmm = .ok 65536 ∧ 4096 * clearPages r.pmm = 61440 := by
  obtain ⟨r, hr⟩ := demoMap_init
  have hsum := clearPages_init demoMap_wellformed hr
  obtain ⟨-, -, -, -, -, htotal, hused, -⟩ := pmmInit_spec demoMap_wellformed.fits hr
  have hpages : r.pmm.usablePages = 16 := by
    rw [htotal]
    decide
  have hreserved : reserved demoMap / pageSize = 1 := by decide
  have hstray : strayPages demoMap [0] = 0 := strayPages_of_le _ (by decide)
  rw [hpages, hreserved, hstray] at hsum
  have hclear : clearPages r.pmm = 15 := by omega
  refine ⟨r, hr, .init, ?_, by rw [hclear]⟩
  rw [usableMemory_eq demoMap_wellformed hr .release .init (by rw [hused]; exact Nat.zero_le _)]
  show Except.ok (4096 * (r.pmm.usablePages - r.pmm.usedPages)) = _
  rw [hpages, hused]

end CappuccinOS.Pmm
