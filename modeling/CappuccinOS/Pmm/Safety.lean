import CappuccinOS.Pmm.Manager
import CappuccinOS.Lib.Cover

/-!
# The page allocator over whole runs

1. `pmmInnerAllocLoop_spec`: the search loop carries a window of `p` free pages that ends at the
   roving index. It either finds the first full window before the limit or shows that every
   window of the wanted length before the limit holds a taken page.
2. `allocated_of_ok`: the two passes together. An address is never that of page 0, since that
   reads as the null of a failed search; if page 0 is not free, a null changed nothing.
3. `Inv`: the pages of the live allocations are covered once each, and the bitmap is the initial
   one with exactly these pages taken.
-/

namespace CappuccinOS.Pmm

open Cover

/-! ## Setting and clearing a range -/

/-- A bit operation that writes `v` and touches nothing else, folded over a range of pages. -/
theorem foldlM_range_spec {op : PhysicalMemoryManager → ℕ → Except Panic PhysicalMemoryManager}
    {v : Bool}
    (hop : ∀ {s : PhysicalMemoryManager} {i : ℕ}, i < 8 * s.bitmap.length →
      ∃ bm, op s i = .ok { s with bitmap := bm } ∧ bm.length = s.bitmap.length ∧
        ∀ j, bit { s with bitmap := bm } j = if j = i then some v else bit s j) :
    ∀ (n page : ℕ) (s : PhysicalMemoryManager), page + n ≤ 8 * s.bitmap.length →
      ∃ bm, (List.range' page n).foldlM op s = .ok { s with bitmap := bm } ∧
        bm.length = s.bitmap.length ∧
        ∀ j, bit { s with bitmap := bm } j =
          if page ≤ j ∧ j < page + n then some v else bit s j := by
  intro n
  induction n with
  | zero =>
    intro page s _
    exact ⟨s.bitmap, rfl, rfl, fun j => by rw [if_neg (by omega)]⟩
  | succ n ih =>
    intro page s hlen
    obtain ⟨bm, hok, hbm, hbit⟩ := hop (s := s) (i := page) (by omega)
    obtain ⟨bm', hok', hbm', hbit'⟩ := ih (page + 1) { s with bitmap := bm }
        (by simp only [hbm]; omega)
    refine ⟨bm', ?_, hbm'.trans hbm, fun j => ?_⟩
    · rw [List.range'_succ, List.foldlM_cons, hok]
      exact hok'
    · rw [hbit' j, hbit j]
      by_cases hj : j = page
      · rw [if_neg (by omega), if_pos hj, if_pos (by omega)]
      · rw [if_neg hj]
        by_cases hr : page + 1 ≤ j ∧ j < page + 1 + n
        · rw [if_pos hr, if_pos (by omega)]
        · rw [if_neg hr, if_neg (by omega)]

/-! ## The search -/

/-- All pages of the window are free. -/
def FreeRun (s : PhysicalMemoryManager) (page pages : ℕ) : Prop :=
  ∀ i, page ≤ i → i < page + pages → bit s i = some false

/-- Some page of the window is taken. -/
def TakenIn (s : PhysicalMemoryManager) (page pages : ℕ) : Prop :=
  ∃ i, page ≤ i ∧ i < page + pages ∧ bit s i = some true

/-- The outcome of a search for `pages` pages from `start` to `limit`: none there, or the window
at `page` is now taken and the index stands behind it. -/
inductive Found (s : PhysicalMemoryManager) (start limit pages : ℕ) :
    ℕ → PhysicalMemoryManager → Prop
  | none : (∀ q, start ≤ q → q + pages ≤ limit → TakenIn s q pages) →
      Found s start limit pages 0 { s with lastUsedPageIdx := limit }
  | some {page : ℕ} {bm : List Byte} : start ≤ page → page + pages ≤ limit →
      FreeRun s page pages → bm.length = s.bitmap.length →
      (∀ j, bit { s with bitmap := bm } j =
        if page ≤ j ∧ j < page + pages then some true else bit s j) →
      Found s start limit pages (page * pageSize % wordSize)
        { s with bitmap := bm, lastUsedPageIdx := page + pages }

/-- A search that runs past the bitmap, or one of the two outcomes above. -/
def Searched (s : PhysicalMemoryManager) (start limit pages : ℕ)
    (r : Except Panic (ℕ × PhysicalMemoryManager)) : Prop :=
  (∃ addr s', r = .ok (addr, s') ∧ Found s start limit pages addr s') ∨
    (r = .error .bounds ∧ 8 * s.bitmap.length < limit)

theorem Searched.imp {s₁ s : PhysicalMemoryManager} {start₁ start limit pages : ℕ}
    {r : Except Panic (ℕ × PhysicalMemoryManager)} (h : Searched s₁ start₁ limit pages r)
    (hlen : s₁.bitmap.length = s.bitmap.length)
    (himp : ∀ addr s', Found s₁ start₁ limit pages addr s' → Found s start limit pages addr s') :
    Searched s start limit pages r := by
  rcases h with ⟨addr, s', hok, hf⟩ | ⟨herr, hlt⟩
  · exact .inl ⟨addr, s', hok, himp addr s' hf⟩
  · exact .inr ⟨herr, hlen ▸ hlt⟩

theorem Found.of_index {s s' : PhysicalMemoryManager} {i start limit pages addr : ℕ}
    (h : Found { s with lastUsedPageIdx := i } start limit pages addr s') :
    Found s start limit pages addr s' := by
  cases h with
  | none hall => exact .none hall
  | some h1 h2 h3 h4 h5 => exact .some h1 h2 h3 h4 h5

/-- No window that reaches back before a taken page can be free. -/
theorem Found.of_taken {s s' : PhysicalMemoryManager} {page start limit pages addr : ℕ}
    (h : Found s (page + 1) limit pages addr s') (hb : bit s page = Option.some true)
    (hle : start ≤ page) (hlt : page < start + pages) : Found s start limit pages addr s' := by
  cases h with
  | none hall =>
    refine .none fun q hq hq' => ?_
    by_cases hqp : q ≤ page
    · exact ⟨page, hqp, by omega, hb⟩
    · exact hall q (by omega) hq'
  | some h1 h2 h3 h4 h5 => exact .some (by omega) h2 h3 h4 h5

theorem pmmInnerAllocLoop_spec {pages limit : ℕ} :
    ∀ (turns : ℕ) (s : PhysicalMemoryManager) (p : ℕ), turns = limit - s.lastUsedPageIdx →
      s.lastUsedPageIdx ≤ limit → p < pages → p ≤ s.lastUsedPageIdx →
      FreeRun s (s.lastUsedPageIdx - p) p →
      Searched s (s.lastUsedPageIdx - p) limit pages (pmmInnerAllocLoop pages limit turns s p) := by
  intro turns
  induction turns with
  | zero =>
    intro s p hturns hlast hp _ _
    have heq : s.lastUsedPageIdx = limit := by omega
    refine .inl ⟨0, s, rfl, ?_⟩
    have hs : s = { s with lastUsedPageIdx := limit } := by rw [← heq]
    nth_rewrite 3 [hs]
    exact .none fun q hq hq' => absurd hq' (by omega)
  | succ turns ih =>
    intro s p hturns hlast hp hple hfree
    have hlt : s.lastUsedPageIdx < limit := by omega
    unfold pmmInnerAllocLoop
    rw [if_pos hlt]
    match hb : bit s s.lastUsedPageIdx with
    | none =>
      have htest : bitmapTest { s with lastUsedPageIdx := s.lastUsedPageIdx + 1 }
          s.lastUsedPageIdx = .error .bounds := bitmapTest_of_bit_none hb
      simp only [htest]
      refine .inr ⟨rfl, ?_⟩
      by_contra hge
      obtain ⟨b, hb'⟩ := bit_isSome (s := s) (i := s.lastUsedPageIdx) (by omega)
      rw [hb] at hb'
      cases hb'
    | some true =>
      have htest : bitmapTest { s with lastUsedPageIdx := s.lastUsedPageIdx + 1 }
          s.lastUsedPageIdx = .ok true := bitmapTest_of_bit hb
      simp only [htest]
      have hrec := ih { s with lastUsedPageIdx := s.lastUsedPageIdx + 1 } 0
        (by simp only; omega) (by simp only; omega) (by omega) (by simp only; omega)
        (fun i h1 h2 => absurd h2 (by omega))
      exact hrec.imp rfl fun addr s' hf =>
        (show Found s (s.lastUsedPageIdx + 1) limit pages addr s' from hf.of_index).of_taken hb
          (by omega) (by omega)
    | some false =>
      have htest : bitmapTest { s with lastUsedPageIdx := s.lastUsedPageIdx + 1 }
          s.lastUsedPageIdx = .ok false := bitmapTest_of_bit hb
      simp only [htest]
      have hfree' : FreeRun s (s.lastUsedPageIdx - p) (p + 1) := by
        intro i h1 h2
        by_cases hi : i = s.lastUsedPageIdx
        · rw [hi, hb]
        · exact hfree i h1 (by omega)
      by_cases hpages : p + 1 = pages
      · subst hpages
        obtain ⟨bm, hok, hlen, hbit⟩ := foldlM_range_spec bitmapSet_spec (p + 1)
          (s.lastUsedPageIdx - p) { s with lastUsedPageIdx := s.lastUsedPageIdx + 1 }
          (by have := lt_of_bit hb; simp only; omega)
        have hidx : s.lastUsedPageIdx - p + (p + 1) = s.lastUsedPageIdx + 1 := by omega
        have hf : Found s (s.lastUsedPageIdx - p) limit (p + 1) _ _ :=
          .some le_rfl (by omega) hfree' hlen hbit
        rw [hidx] at hf
        refine .inl ⟨_, _, ?_, hf⟩
        show (if p + 1 = p + 1 then _ else _) = _
        rw [if_pos rfl, Nat.add_sub_add_right, hok]
        rfl
      · have hrec := ih { s with lastUsedPageIdx := s.lastUsedPageIdx + 1 } (p + 1)
          (by simp only; omega) (by simp only; omega) (by omega) (by simp only; omega)
          (by simp only [Nat.add_sub_add_right]; exact hfree')
        simp only [Nat.add_sub_add_right] at hrec
        show Searched _ _ _ _ (if p + 1 = pages then _ else _)
        rw [if_neg hpages]
        exact hrec.imp rfl fun _ _ => Found.of_index

theorem pmmInnerAlloc_spec {s : PhysicalMemoryManager} {pages limit : ℕ} (hpages : 1 ≤ pages)
    (hlast : s.lastUsedPageIdx ≤ limit) :
    Searched s s.lastUsedPageIdx limit pages (pmmInnerAlloc s pages limit) := by
  have := pmmInnerAllocLoop_spec (limit - s.lastUsedPageIdx) s 0 rfl hlast hpages
    (Nat.zero_le _) fun i h1 h2 => absurd h2 (by omega)
  rw [Nat.sub_zero] at this
  exact this

theorem found_of_ok {s s' : PhysicalMemoryManager} {pages limit addr : ℕ} (hpages : 1 ≤ pages)
    (hlast : s.lastUsedPageIdx ≤ limit) (h : pmmInnerAlloc s pages limit = .ok (addr, s')) :
    Found s s.lastUsedPageIdx limit pages addr s' := by
  rcases pmmInnerAlloc_spec hpages hlast with ⟨_, _, hok, hf⟩ | ⟨herr, -⟩
  · obtain ⟨rfl, rfl⟩ := Prod.mk.inj (Except.ok.inj (h.symm.trans hok))
    exact hf
  · rw [h] at herr
    cases herr

theorem pmmInnerAlloc_returns {s : PhysicalMemoryManager} {pages limit : ℕ} (hpages : 1 ≤ pages)
    (hlast : s.lastUsedPageIdx ≤ limit) (hspan : limit ≤ 8 * s.bitmap.length) :
    ∃ addr s', pmmInnerAlloc s pages limit = .ok (addr, s') := by
  rcases pmmInnerAlloc_spec hpages hlast with ⟨addr, s', hok, -⟩ | ⟨-, hlt⟩
  · exact ⟨addr, s', hok⟩
  · omega

/-- The outcome of `pmm_alloc_nozero`. -/
inductive Allocated (s : PhysicalMemoryManager) (pages : ℕ) : ℕ → PhysicalMemoryManager → Prop
  | null {last : ℕ} : last ≤ s.highestPageIdx →
      (∀ q, q + pages ≤ s.highestPageIdx → TakenIn s q pages) →
      Allocated s pages 0 { s with lastUsedPageIdx := last }
  | page {page : ℕ} {bm : List Byte} : 0 < page → page + pages ≤ s.highestPageIdx →
      FreeRun s page pages → bm.length = s.bitmap.length →
      (∀ j, bit { s with bitmap := bm } j =
        if page ≤ j ∧ j < page + pages then some true else bit s j) →
      Allocated s pages (page * pageSize) ⟨bm, s.highestPageIdx, page + pages, s.usablePages,
        s.usedPages + pages⟩

theorem pmmAllocNozero_eq_ok {s s' : PhysicalMemoryManager} {pages addr : ℕ} :
    pmmAllocNozero s pages = .ok (addr, s') ↔
      ∃ a₁ s₁, pmmInnerAlloc s pages s.highestPageIdx = .ok (a₁, s₁) ∧
        ((a₁ ≠ 0 ∧ addr = a₁ ∧ s' = { s₁ with usedPages := s₁.usedPages + pages }) ∨
          (a₁ = 0 ∧ ∃ a₂ s₂,
            pmmInnerAlloc { s₁ with lastUsedPageIdx := 0 } pages s₁.lastUsedPageIdx = .ok (a₂, s₂) ∧
            addr = a₂ ∧
            ((a₂ = 0 ∧ s' = s₂) ∨
              (a₂ ≠ 0 ∧ s' = { s₂ with usedPages := s₂.usedPages + pages })))) := by
  unfold pmmAllocNozero
  rw [bind_eq_ok]
  constructor
  · rintro ⟨⟨a₁, s₁⟩, hok, h⟩
    refine ⟨a₁, s₁, hok, ?_⟩
    by_cases h₁ : a₁ = 0
    · simp only [if_pos h₁] at h
      obtain ⟨⟨a₂, s₂⟩, hok₂, h⟩ := bind_eq_ok.mp h
      refine .inr ⟨h₁, a₂, s₂, hok₂, ?_⟩
      by_cases h₂ : a₂ = 0
      · simp only [if_pos h₂] at h
        obtain ⟨rfl, rfl⟩ := Prod.mk.inj (pure_eq_ok.mp h)
        exact ⟨h₂.symm, .inl ⟨h₂, rfl⟩⟩
      · simp only [if_neg h₂] at h
        obtain ⟨rfl, rfl⟩ := Prod.mk.inj (pure_eq_ok.mp h)
        exact ⟨rfl, .inr ⟨h₂, rfl⟩⟩
    · simp only [if_neg h₁] at h
      obtain ⟨rfl, rfl⟩ := Prod.mk.inj (pure_eq_ok.mp h)
      exact .inl ⟨h₁, rfl, rfl⟩
  · rintro ⟨a₁, s₁, hok, ⟨h₁, rfl, rfl⟩ | ⟨h₁, a₂, s₂, hok₂, rfl, ⟨h₂, rfl⟩ | ⟨h₂, rfl⟩⟩⟩
    · exact ⟨_, hok, if_neg h₁⟩
    · refine ⟨_, hok, ?_⟩
      simp only [if_pos h₁]
      refine bind_eq_ok.mpr ⟨_, hok₂, ?_⟩
      simp only [h₂]
      rfl
    · refine ⟨_, hok, ?_⟩
      simp only [if_pos h₁]
      refine bind_eq_ok.mpr ⟨_, hok₂, ?_⟩
      simp only [if_neg h₂]
      rfl

/-- A page below the limit has an address that fits a word. -/
theorem page_addr {page pages highest : ℕ} (haddr : highest * pageSize < wordSize)
    (hle : page + pages ≤ highest) :
    page * pageSize % wordSize = page * pageSize ∧ (page * pageSize = 0 ↔ page = 0) := by
  have hlt : page * pageSize < wordSize :=
    lt_of_le_of_lt (Nat.mul_le_mul_right _ (by omega)) haddr
  refine ⟨Nat.mod_eq_of_lt hlt, ?_⟩
  unfold pageSize
  omega

/-- A call that returns an address, or null while page 0 is not free, did what `Allocated` says.
An address found is never that of page 0: a search that takes page 0 reports a failure. -/
theorem allocated_of_ok {s s' : PhysicalMemoryManager} {pages addr : ℕ}
    (hlast : s.lastUsedPageIdx ≤ s.highestPageIdx) (haddr : s.highestPageIdx * pageSize < wordSize)
    (hpages : 1 ≤ pages) (h : pmmAllocNozero s pages = .ok (addr, s'))
    (h0 : addr ≠ 0 ∨ bit s 0 ≠ some false) : Allocated s pages addr s' := by
  obtain ⟨a₁, s₁, hok, hcase⟩ := pmmAllocNozero_eq_ok.mp h
  have hf := found_of_ok hpages hlast hok
  rcases hcase with ⟨h₁, rfl, rfl⟩ | ⟨h₁, a₂, s₂, hok₂, rfl, hcase⟩
  · cases hf with
    | none => exact absurd rfl h₁
    | some hstart hle hfree hlen hbit =>
      obtain ⟨hmod, hzero⟩ := page_addr haddr hle
      rw [hmod] at h₁ ⊢
      exact .page (Nat.pos_of_ne_zero fun e => h₁ (hzero.mpr e)) hle hfree hlen hbit
  · -- the second pass runs from page 0 to where the first one stopped
    have hf₂ := found_of_ok hpages (s := { s₁ with lastUsedPageIdx := 0 })
      (Nat.zero_le s₁.lastUsedPageIdx) hok₂
    cases hf with
    | none hall =>
      cases hf₂ with
      | none hall₂ =>
        rcases hcase with ⟨-, rfl⟩ | ⟨h₂, -⟩
        · exact .null le_rfl fun q hq => hall₂ q (Nat.zero_le _) hq
        · exact absurd rfl h₂
      | @some page bm hstart hle hfree hlen hbit =>
        obtain ⟨hmod, hzero⟩ := page_addr haddr hle
        rw [hmod] at h0 hcase ⊢
        have hpos : page ≠ 0 := by
          rintro rfl
          rcases h0 with h0 | h0
          · exact h0 (hzero.mpr rfl)
          · exact h0 (hfree 0 le_rfl (by omega))
        rcases hcase with ⟨h₂, -⟩ | ⟨-, rfl⟩
        · exact absurd (hzero.mp h₂) hpos
        · exact .page (Nat.pos_of_ne_zero hpos) hle hfree hlen hbit
    | @some page bm hstart hle hfree hlen hbit =>
      -- the first pass took page 0: nothing is left of it for the second pass
      obtain ⟨hmod, hzero⟩ := page_addr haddr hle
      rw [hmod] at h₁
      obtain rfl := hzero.mp h₁
      cases hf₂ with
      | none hall₂ =>
        rcases h0 with h0 | h0
        · exact absurd rfl h0
        · exact absurd (hfree 0 le_rfl (by omega)) h0
      | @some page' bm' hstart' hle' hfree' hlen' hbit' =>
        have htaken := hbit page'
        rw [if_pos ⟨Nat.zero_le _, by simp only at hle'; omega⟩] at htaken
        have hfr : bit { s with bitmap := bm } page' = some false :=
          hfree' page' le_rfl (by omega)
        rw [htaken] at hfr
        cases hfr

theorem pmmAllocNozero_returns {s : PhysicalMemoryManager} {pages : ℕ}
    (hlast : s.lastUsedPageIdx ≤ s.highestPageIdx)
    (hspan : s.highestPageIdx ≤ 8 * s.bitmap.length) (hpages : 1 ≤ pages) :
    ∃ addr s', pmmAllocNozero s pages = .ok (addr, s') := by
  obtain ⟨a₁, s₁, hok⟩ := pmmInnerAlloc_returns hpages hlast hspan
  have hle : s₁.lastUsedPageIdx ≤ 8 * s₁.bitmap.length := by
    cases found_of_ok hpages hlast hok with
    | none => exact hspan
    | some _ hle _ hlen _ =>
      simp only [hlen]
      omega
  by_cases h₁ : a₁ = 0
  · obtain ⟨a₂, s₂, hok₂⟩ := pmmInnerAlloc_returns (s := { s₁ with lastUsedPageIdx := 0 }) hpages
      (Nat.zero_le s₁.lastUsedPageIdx) hle
    by_cases h₂ : a₂ = 0
    · exact ⟨a₂, s₂, pmmAllocNozero_eq_ok.mpr
        ⟨a₁, s₁, hok, .inr ⟨h₁, a₂, s₂, hok₂, rfl, .inl ⟨h₂, rfl⟩⟩⟩⟩
    · exact ⟨a₂, _, pmmAllocNozero_eq_ok.mpr
        ⟨a₁, s₁, hok, .inr ⟨h₁, a₂, s₂, hok₂, rfl, .inr ⟨h₂, rfl⟩⟩⟩⟩
  · exact ⟨a₁, _, pmmAllocNozero_eq_ok.mpr ⟨a₁, s₁, hok, .inl ⟨h₁, rfl, rfl⟩⟩⟩

/-- Not every page of the window is free when one is taken. -/
theorem not_freeRun_of_takenIn {s : PhysicalMemoryManager} {page pages : ℕ}
    (h : TakenIn s page pages) : ¬ FreeRun s page pages := by
  intro hfree
  obtain ⟨i, h1, h2, hi⟩ := h
  rw [hfree i h1 h2] at hi
  cases hi

/-- **The search is complete and its failure clean.** In every state with the roving index within
the pages and page 0 not free, and for every page count from 1: the call returns if the bytes at
the bitmap's address reach all pages; a call that returns gives null exactly when there is no run
of free pages of that length below `highest_page_idx`, and then changes neither the bitmap nor
`used_pages`; an address it gives is the start of such a run, and exactly the bits of that run
changed, from clear to set. -/
theorem pmmAllocNozero_complete {s : PhysicalMemoryManager}
    (hlast : s.lastUsedPageIdx ≤ s.highestPageIdx)
    (hhighest : ∃ highestAddr < wordSize, s.highestPageIdx = highestAddr / pageSize)
    (hpage0 : bit s 0 ≠ some false) {pages : ℕ} (hpages : 1 ≤ pages) :
    (s.highestPageIdx ≤ 8 * s.bitmap.length → ∃ r, pmmAllocNozero s pages = .ok r) ∧
    ∀ addr s', pmmAllocNozero s pages = .ok (addr, s') →
      (addr = 0 ↔ ¬ ∃ q, q + pages ≤ s.highestPageIdx ∧ FreeRun s q pages) ∧
      (addr = 0 → s'.bitmap = s.bitmap ∧ s'.usedPages = s.usedPages) ∧
      (addr ≠ 0 → ∃ page, addr = page * pageSize ∧ page + pages ≤ s.highestPageIdx ∧
        FreeRun s page pages ∧
        ∀ j, bit s' j = if page ≤ j ∧ j < page + pages then some true else bit s j) := by
  have haddr : s.highestPageIdx * pageSize < wordSize := by
    obtain ⟨a, ha, he⟩ := hhighest
    rw [he]
    exact lt_of_le_of_lt (Nat.div_mul_le_self a pageSize) ha
  constructor
  · intro hspan
    obtain ⟨addr, s', hok⟩ := pmmAllocNozero_returns hlast hspan hpages
    exact ⟨_, hok⟩
  · intro addr s' hok
    cases allocated_of_ok hlast haddr hpages hok (.inr hpage0) with
    | null _ hall =>
      refine ⟨⟨fun _ => ?_, fun _ => rfl⟩, fun _ => ⟨rfl, rfl⟩, fun h => absurd rfl h⟩
      rintro ⟨q, hq, hfree⟩
      exact not_freeRun_of_takenIn (hall q hq) hfree
    | @page page bm hpos hle hfree hlen hbit =>
      have hne : page * pageSize ≠ 0 := Nat.mul_ne_zero (by omega) (by decide)
      refine ⟨⟨fun h => absurd h hne, fun h => absurd ⟨page, hle, hfree⟩ h⟩, fun h => absurd h hne,
        fun _ => ⟨page, rfl, hle, hfree, hbit⟩⟩

/-! ## Runs -/

/-- A range of pages handed out and not yet freed. -/
structure Block where
  ptr : ℕ
  pages : ℕ
  deriving DecidableEq, Repr

/-- The page numbers of a block. -/
def Block.interval (b : Block) : Interval := ⟨b.ptr / pageSize, b.pages⟩

theorem Block.mem_last (b : Block) (h : 1 ≤ b.pages) :
    b.interval.Mem (b.ptr / pageSize + b.pages - 1) :=
  ⟨Nat.le_sub_one_of_lt (Nat.lt_add_of_pos_right h),
    Nat.sub_one_lt_of_lt (Nat.lt_add_of_pos_right (n := b.ptr / pageSize) h)⟩

/-- The manager and the allocations its clients hold. -/
structure State where
  pmm : PhysicalMemoryManager
  live : List Block

/-- The live page ranges. -/
def State.owned (s : State) : List Interval := s.live.map Block.interval

/-- One call: an allocation of at least one page, or the release of a live allocation with its own
page count. -/
inductive Step : State → State → Prop
  | alloc {s : State} {pages addr : ℕ} {pmm : PhysicalMemoryManager} :
      1 ≤ pages → pmmAllocNozero s.pmm pages = .ok (addr, pmm) → addr ≠ 0 →
      Step s ⟨pmm, ⟨addr, pages⟩ :: s.live⟩
  | allocNull {s : State} {pages : ℕ} {pmm : PhysicalMemoryManager} :
      1 ≤ pages → pmmAllocNozero s.pmm pages = .ok (0, pmm) → Step s ⟨pmm, s.live⟩
  | dealloc {s : State} {b : Block} {pmm : PhysicalMemoryManager} :
      b ∈ s.live → pmmDealloc s.pmm b.ptr b.pages = .ok pmm → Step s ⟨pmm, s.live.erase b⟩

/-- A state `pmm_init` can leave: nothing used yet, `highest_page_idx` is a 64-bit address divided
by the page size, the bitmap spans all pages below it, and page 0 is not free. -/
structure PostInit (s₀ : PhysicalMemoryManager) : Prop where
  last : s₀.lastUsedPageIdx = 0
  used : s₀.usedPages = 0
  highest : ∃ highestAddr < wordSize, s₀.highestPageIdx = highestAddr / pageSize
  spans : s₀.highestPageIdx ≤ 8 * s₀.bitmap.length
  page0 : bit s₀ 0 ≠ some false

/-- The part of `PostInit` that no memory map can break. -/
structure Started (s₀ : PhysicalMemoryManager) : Prop where
  last : s₀.lastUsedPageIdx = 0
  used : s₀.usedPages = 0
  highest : ∃ highestAddr < wordSize, s₀.highestPageIdx = highestAddr / pageSize

theorem PostInit.started {s₀ : PhysicalMemoryManager} (h : PostInit s₀) : Started s₀ :=
  ⟨h.last, h.used, h.highest⟩

/-- The states reached from `s₀` by calls that return. -/
def Reachable (s₀ : PhysicalMemoryManager) : State → Prop :=
  Relation.ReflTransGen Step ⟨s₀, []⟩

/-- What every call keeps, relative to the state after init. -/
structure Inv (s₀ : PhysicalMemoryManager) (s : State) : Prop where
  len : s.pmm.bitmap.length = s₀.bitmap.length
  highest : s.pmm.highestPageIdx = s₀.highestPageIdx
  last : s.pmm.lastUsedPageIdx ≤ s₀.highestPageIdx
  used : s.pmm.usedPages = (s.live.map Block.pages).sum
  pos : ∀ b ∈ s.live, 1 ≤ b.pages
  once : ∀ i, cover s.owned i ≤ 1
  free : ∀ i, 0 < cover s.owned i → bit s₀ i = some false ∧ i < s₀.highestPageIdx
  bits : ∀ i, bit s.pmm i = if 0 < cover s.owned i then some true else bit s₀ i

section Run

variable {s₀ : PhysicalMemoryManager}

theorem inv_init (h₀ : Started s₀) : Inv s₀ ⟨s₀, []⟩ where
  len := rfl
  highest := rfl
  last := by show s₀.lastUsedPageIdx ≤ _; rw [h₀.last]; exact Nat.zero_le _
  used := h₀.used
  pos := nofun
  once := fun _ => Nat.zero_le _
  free := fun _ h => absurd h (lt_irrefl 0)
  bits := fun _ => (if_neg (lt_irrefl 0)).symm

/-- A returning call on a good state, by `allocated_of_ok`. -/
theorem Inv.allocated {s : State} (hI : Inv s₀ s) (h₀ : Started s₀) {pages addr : ℕ}
    {pmm : PhysicalMemoryManager} (hpages : 1 ≤ pages)
    (h : pmmAllocNozero s.pmm pages = .ok (addr, pmm))
    (h0 : addr ≠ 0 ∨ bit s.pmm 0 ≠ some false) : Allocated s.pmm pages addr pmm := by
  refine allocated_of_ok (hI.highest ▸ hI.last) ?_ hpages h h0
  obtain ⟨a, ha, he⟩ := h₀.highest
  rw [hI.highest, he]
  exact lt_of_le_of_lt (Nat.div_mul_le_self a pageSize) ha

/-- A window that was free is in no live block; its pages become the pages of the new one. -/
theorem inv_alloc {s : State} (hI : Inv s₀ s) (h₀ : Started s₀) {pages addr : ℕ}
    {pmm : PhysicalMemoryManager} (hpages : 1 ≤ pages)
    (h : pmmAllocNozero s.pmm pages = .ok (addr, pmm)) (h0 : addr ≠ 0) :
    Inv s₀ ⟨pmm, ⟨addr, pages⟩ :: s.live⟩ := by
  cases hI.allocated h₀ hpages h (.inl h0) with
  | null => exact absurd rfl h0
  | @page page bm hpos hle hfree hlen hbit =>
    rw [hI.highest] at hle
    have hout : ∀ i, page ≤ i → i < page + pages →
        cover s.owned i = 0 ∧ bit s₀ i = some false := by
      intro i h1 h2
      have hb := hfree i h1 h2
      rw [hI.bits i] at hb
      split_ifs at hb with hc
      · cases hb
      · exact ⟨by omega, hb⟩
    have hcov : ∀ i, cover (Block.interval ⟨page * pageSize, pages⟩ :: s.owned) i =
        ind ⟨page, pages⟩ i + cover s.owned i := by
      intro i
      rw [cover_cons, Block.interval, Nat.mul_div_cancel _ (by decide)]
    refine ⟨hlen.trans hI.len, hI.highest, hle, ?_, ?_, fun i => ?_, fun i => ?_, fun i => ?_⟩
    · show s.pmm.usedPages + pages = pages + (s.live.map Block.pages).sum
      rw [hI.used, Nat.add_comm]
    · intro b hb
      rcases List.mem_cons.mp hb with rfl | hb
      · exact hpages
      · exact hI.pos b hb
    · show cover (Block.interval ⟨page * pageSize, pages⟩ :: s.owned) i ≤ 1
      rw [hcov i]
      by_cases hi : Interval.Mem ⟨page, pages⟩ i
      · rw [ind_of_mem hi, (hout i hi.1 hi.2).1]
      · rw [ind_of_not_mem hi, Nat.zero_add]; exact hI.once i
    · show 0 < cover (Block.interval ⟨page * pageSize, pages⟩ :: s.owned) i → _
      rw [hcov i]
      by_cases hi : Interval.Mem ⟨page, pages⟩ i
      · exact fun _ => ⟨(hout i hi.1 hi.2).2, lt_of_lt_of_le hi.2 hle⟩
      · rw [ind_of_not_mem hi, Nat.zero_add]; exact hI.free i
    · show bit { s.pmm with bitmap := bm } i =
        if 0 < cover (Block.interval ⟨page * pageSize, pages⟩ :: s.owned) i then _ else _
      rw [hbit i, hcov i]
      by_cases hi : page ≤ i ∧ i < page + pages
      · rw [if_pos hi, ind_of_mem (i := ⟨page, pages⟩) hi, if_pos (by omega)]
      · rw [if_neg hi, ind_of_not_mem (i := ⟨page, pages⟩) hi, Nat.zero_add]; exact hI.bits i

theorem Inv.page0 {s : State} (hI : Inv s₀ s) (h : bit s₀ 0 ≠ some false) :
    bit s.pmm 0 ≠ some false := by
  rw [hI.bits 0]
  split_ifs
  · simp
  · exact h

theorem inv_allocNull {s : State} (hI : Inv s₀ s) (h₀ : Started s₀) (hpage0 : bit s₀ 0 ≠ some false)
    {pages : ℕ} {pmm : PhysicalMemoryManager} (hpages : 1 ≤ pages)
    (h : pmmAllocNozero s.pmm pages = .ok (0, pmm)) : Inv s₀ ⟨pmm, s.live⟩ := by
  have hA := hI.allocated h₀ hpages h (.inr (hI.page0 hpage0))
  generalize haddr : 0 = addr at hA
  cases hA with
  | null hlast hall => exact { hI with last := hI.highest ▸ hlast }
  | page hpos => unfold pageSize at haddr; omega

theorem cover_erase {s : State} {b : Block} (hb : b ∈ s.live) (i : ℕ) :
    cover s.owned i = ind b.interval i + cover ((s.live.erase b).map Block.interval) i :=
  cover_perm ((List.perm_cons_erase hb).map Block.interval) i

theorem pmmDealloc_spec {s : State} (hI : Inv s₀ s) {b : Block} (hb : b ∈ s.live) :
    ∃ bm, pmmDealloc s.pmm b.ptr b.pages =
        .ok { s.pmm with bitmap := bm, usedPages := s.pmm.usedPages - b.pages } ∧
      bm.length = s.pmm.bitmap.length ∧
      ∀ j, bit { s.pmm with bitmap := bm } j =
        if b.interval.Mem j then some false else bit s.pmm j := by
  have hmem := b.mem_last (hI.pos b hb)
  have hcov : 0 < cover s.owned (b.ptr / pageSize + b.pages - 1) := by
    rw [cover_erase hb, ind_of_mem hmem]; omega
  have hlt := lt_of_bit (hI.free _ hcov).1
  obtain ⟨bm, hok, hlen, hbit⟩ := foldlM_range_spec bitmapReset_spec b.pages (b.ptr / pageSize)
    s.pmm (by rw [hI.len]; omega)
  refine ⟨bm, ?_, hlen, hbit⟩
  unfold pmmDealloc
  rw [hok]
  rfl

theorem inv_dealloc {s : State} (hI : Inv s₀ s) {b : Block} (hb : b ∈ s.live)
    {pmm : PhysicalMemoryManager} (h : pmmDealloc s.pmm b.ptr b.pages = .ok pmm) :
    Inv s₀ ⟨pmm, s.live.erase b⟩ := by
  obtain ⟨bm, hok, hlen, hbit⟩ := pmmDealloc_spec hI hb
  obtain rfl := Except.ok.inj (h.symm.trans hok)
  have hcov := cover_erase hb
  refine ⟨hlen.trans hI.len, hI.highest, hI.last, ?_,
    fun c hc => hI.pos c (List.mem_of_mem_erase hc),
    fun i => ?_, fun i hi => ?_, fun i => ?_⟩
  · have hsum : (s.live.map Block.pages).sum =
        b.pages + ((s.live.erase b).map Block.pages).sum :=
      ((List.perm_cons_erase hb).map Block.pages).sum_eq
    show s.pmm.usedPages - b.pages = _
    rw [hI.used, hsum, Nat.add_sub_cancel_left]
  · have h1 := hcov i
    have h2 := hI.once i
    show cover ((s.live.erase b).map Block.interval) i ≤ 1
    omega
  · refine hI.free i ?_
    rw [hcov i]
    exact Nat.lt_of_lt_of_le hi (Nat.le_add_left _ _)
  · show bit { s.pmm with bitmap := bm } i =
      if 0 < cover ((s.live.erase b).map Block.interval) i then _ else _
    have h1 := hcov i
    have h2 := hI.once i
    rw [hbit i]
    by_cases hi : b.interval.Mem i
    · rw [ind_of_mem hi] at h1
      rw [if_pos hi, if_neg (by omega), (hI.free i (by omega)).1]
    · rw [ind_of_not_mem hi, Nat.zero_add] at h1
      rw [if_neg hi, ← h1]
      exact hI.bits i

theorem inv_of_reachable (h₀ : PostInit s₀) {s : State} (h : Reachable s₀ s) : Inv s₀ s := by
  induction h with
  | refl => exact inv_init h₀.started
  | tail _ hstep ih =>
    cases hstep with
    | alloc hpages h h0 => exact inv_alloc ih h₀.started hpages h h0
    | allocNull hpages h => exact inv_allocNull ih h₀.started h₀.page0 hpages h
    | dealloc hb h => exact inv_dealloc ih hb h

end Run

/-- **Page allocator safety.** In every state reached from a state after init, every call
returns, the live allocations are disjoint page ranges of initially free pages below
`highest_page_idx`, a bit is clear exactly when its page was free after init and is not live, the
search index stays within the pages, and `used_pages` counts the live pages. -/
theorem pmm_safety {s₀ : PhysicalMemoryManager} (h₀ : PostInit s₀) {s : State}
    (h : Reachable s₀ s) :
    s.owned.Pairwise Interval.Apart ∧
      (∀ b ∈ s.live, ∀ i, b.interval.Mem i → bit s₀ i = some false ∧ i < s₀.highestPageIdx) ∧
      (∀ i, bit s.pmm i = some false ↔
        bit s₀ i = some false ∧ ¬ ∃ b ∈ s.live, b.interval.Mem i) ∧
      s.pmm.highestPageIdx = s₀.highestPageIdx ∧
      s.pmm.lastUsedPageIdx ≤ s.pmm.highestPageIdx ∧
      s.pmm.usedPages = (s.live.map Block.pages).sum ∧
      (∀ pages, 1 ≤ pages → ∃ r, pmmAllocNozero s.pmm pages = .ok r) ∧
      (∀ b ∈ s.live, ∃ r, pmmDealloc s.pmm b.ptr b.pages = .ok r) := by
  have hI := inv_of_reachable h₀ h
  have hlive : ∀ i, (∃ b ∈ s.live, b.interval.Mem i) ↔ 0 < cover s.owned i := by
    intro i
    rw [← exists_mem_iff_cover_pos]
    simp only [State.owned, List.mem_map, exists_exists_and_eq_and]
  refine ⟨pairwise_disjoint_of_cover_le_one hI.once, ?_, ?_, hI.highest, ?_, hI.used, ?_, ?_⟩
  · intro b hb i hi
    exact hI.free i ((hlive i).mp ⟨b, hb, hi⟩)
  · intro i
    rw [hI.bits i, hlive i]
    split_ifs with hc
    · simp [hc]
    · simp [hc]
  · rw [hI.highest]; exact hI.last
  · intro pages hpages
    have hspan : s.pmm.highestPageIdx ≤ 8 * s.pmm.bitmap.length := by
      rw [hI.highest, hI.len]
      exact h₀.spans
    obtain ⟨addr, pmm, hok⟩ := pmmAllocNozero_returns (hI.highest ▸ hI.last) hspan hpages
    exact ⟨_, hok⟩
  · intro b hb
    obtain ⟨bm, hok, -⟩ := pmmDealloc_spec hI hb
    exact ⟨_, hok⟩

/-- Sixteen pages, of which 2 to 7 are free. -/
def demoPmm : PhysicalMemoryManager := ⟨[0b00000011#8, 0xFF#8], 16, 0, 6, 0⟩

/-- The state after allocating two pages. -/
def demoState : State := ⟨⟨[0b00001111#8, 0xFF#8], 16, 4, 6, 2⟩, [⟨0x2000, 2⟩]⟩

/-- Seven pages in a row: the six free ones are not enough, although the search meets them. -/
theorem pmmAllocNozero_complete_demo :
    (demoPmm.highestPageIdx ≤ 8 * demoPmm.bitmap.length → ∃ r, pmmAllocNozero demoPmm 7 = .ok r) ∧
    ∀ addr s', pmmAllocNozero demoPmm 7 = .ok (addr, s') →
      (addr = 0 ↔ ¬ ∃ q, q + 7 ≤ demoPmm.highestPageIdx ∧ FreeRun demoPmm q 7) ∧
      (addr = 0 → s'.bitmap = demoPmm.bitmap ∧ s'.usedPages = demoPmm.usedPages) ∧
      (addr ≠ 0 → ∃ page, addr = page * pageSize ∧ page + 7 ≤ demoPmm.highestPageIdx ∧
        FreeRun demoPmm page 7 ∧
        ∀ j, bit s' j = if page ≤ j ∧ j < page + 7 then some true else bit demoPmm j) :=
  pmmAllocNozero_complete (by decide) ⟨0x10000, by decide, by decide⟩ (by decide) (by decide)

theorem pmm_safety_demo :
    PostInit demoPmm ∧ Reachable demoPmm demoState ∧
      demoState.owned.Pairwise Interval.Apart ∧ demoState.pmm.usedPages = 2 := by
  have h₀ : PostInit demoPmm := ⟨rfl, rfl, ⟨0x10000, by decide, by decide⟩, by decide, by decide⟩
  have h : Reachable demoPmm demoState :=
    Relation.ReflTransGen.single
      (Step.alloc (show 1 ≤ 2 by decide) (by decide) (by decide))
  have hs := pmm_safety h₀ h
  exact ⟨h₀, h, hs.1, hs.2.2.2.2.2.1⟩

end CappuccinOS.Pmm
