import CappuccinOS.Pmm.Init

/-!
# What the bitmap covers and what the counters report

1. `pmmInit_of_inBitmap`, `pmmInit_eq_ok`: the state after a returning `pmm_init`: the clear bits
   are the pages of the map that the second loop left.
2. `bitmapCovers_iff`: the bitmap holds a bit for every page below `highest_page_idx` unless the
   page count is 1 to 7 above a multiple of 32768.
3. `clearPages_add_used`: along a run every page that is handed out is one clear bit less, so the
   number of clear bits and `used_pages` have a constant sum. That sum is `usable_pages` without
   the pages of the bitmap itself, which `pmm_init` counts as usable (`usableMemory_eq`).
-/

namespace CappuccinOS.Pmm

open Cover

/-! ## The size of the bitmap -/

theorem bitmapSize_eq {highest : ℕ} (h : highest < 2 ^ 64) :
    bitmapSize highest = (highest / 8 + 4095) / 4096 * 4096 := by
  have hlt : highest / 8 + pageSize - 1 < wordSize := by unfold pageSize wordSize; omega
  exact and_wordNot_two_pow (k := 12) hlt (by norm_num)

theorem pageSize_dvd_bitmapSize {highest : ℕ} (h : highest < 2 ^ 64) :
    pageSize ∣ bitmapSize highest := by
  rw [bitmapSize_eq h]
  exact Dvd.intro_left _ rfl

/-- The two roundings together cover all pages unless the last byte is begun and the bytes before
it fill whole pages. -/
theorem bitmapSize_spans_iff {highest : ℕ} (h : highest < 2 ^ 64) :
    highest ≤ 8 * bitmapSize highest ↔ highest % 32768 = 0 ∨ 8 ≤ highest % 32768 := by
  rw [bitmapSize_eq h]
  omega

/-! ## The pages of a map -/

theorem mem_usable {memmap : List Entry} {v : Interval} :
    v ∈ usable memmap ↔ ∃ e ∈ memmap, e.entryType = .usable ∧ e.pages = v := by
  induction memmap with
  | nil => simp [usable]
  | cons e rest ih =>
    unfold usable
    split_ifs with hu
    · rw [List.mem_cons, ih, List.exists_mem_cons_iff]
      simp [hu, eq_comm]
    · rw [ih, List.exists_mem_cons_iff]
      simp [hu]

theorem le_highestAddr {memmap : List Entry} {e : Entry} (he : e ∈ memmap)
    (hu : e.entryType = .usable) : e.base + e.length ≤ highestAddr memmap := by
  induction memmap with
  | nil => cases he
  | cons f rest ih =>
    unfold highestAddr
    rcases List.mem_cons.mp he with rfl | he
    · rw [if_pos hu]
      exact le_max_left _ _
    · have := ih he
      split_ifs
      · exact le_trans this (le_max_right _ _)
      · exact this

theorem highestAddr_lt {memmap : List Entry}
    (hfits : ∀ e ∈ memmap, e.entryType = .usable → e.base + e.length < wordSize) :
    highestAddr memmap < wordSize := by
  induction memmap with
  | nil => exact Nat.two_pow_pos 64
  | cons e rest ih =>
    have ih := ih fun f hf => hfits f (List.mem_cons_of_mem _ hf)
    unfold highestAddr
    split_ifs with hu
    · exact max_lt (hfits e List.mem_cons_self hu) ih
    · exact ih

/-- Every usable page lies below the highest page index. -/
theorem usable_le_highest {memmap : List Entry} {v : Interval} (hv : v ∈ usable memmap) :
    v.start + v.len ≤ highestAddr memmap / pageSize := by
  obtain ⟨e, he, hu, rfl⟩ := mem_usable.mp hv
  have hle := le_highestAddr he hu
  show e.base / pageSize + e.length / pageSize ≤ _
  calc e.base / pageSize + e.length / pageSize ≤ (e.base + e.length) / pageSize :=
        Nat.div_add_div_le_add_div
    _ ≤ highestAddr memmap / pageSize := Nat.div_le_div_right hle

/-- Page `i` lies in a usable entry. -/
def UsablePage (memmap : List Entry) (i : ℕ) : Prop :=
  ∃ e ∈ memmap, e.entryType = .usable ∧ e.base ≤ i * pageSize ∧ i * pageSize < e.base + e.length

theorem pages_mem_iff {e : Entry} (hbase : pageSize ∣ e.base) (hlen : pageSize ∣ e.length) (i : ℕ) :
    e.pages.Mem i ↔ e.base ≤ i * pageSize ∧ i * pageSize < e.base + e.length := by
  obtain ⟨b, hb⟩ := hbase
  obtain ⟨l, hl⟩ := hlen
  simp only [Entry.pages, Interval.Mem, hb, hl]
  unfold pageSize
  omega

theorem cover_usable_pos {memmap : List Entry} (hw : Wellformed memmap) (i : ℕ) :
    0 < cover (usable memmap) i ↔ UsablePage memmap i := by
  rw [← exists_mem_iff_cover_pos]
  constructor
  · rintro ⟨v, hv, hi⟩
    obtain ⟨e, he, hu, rfl⟩ := mem_usable.mp hv
    obtain ⟨hb, hl⟩ := hw.aligned e he hu
    exact ⟨e, he, hu, (pages_mem_iff hb hl i).mp hi⟩
  · rintro ⟨e, he, hu, hi⟩
    obtain ⟨hb, hl⟩ := hw.aligned e he hu
    exact ⟨e.pages, mem_usable.mpr ⟨e, he, hu, rfl⟩, (pages_mem_iff hb hl i).mpr hi⟩

theorem usable_eq_map (memmap : List Entry) :
    usable memmap = (memmap.filter fun e => e.entryType = .usable).map Entry.pages := by
  induction memmap with
  | nil => rfl
  | cons e rest ih =>
    unfold usable
    split_ifs with hu
    · rw [List.filter_cons_of_pos (by simpa using hu), List.map_cons, ih]
    · rw [List.filter_cons_of_neg (by simpa using hu), ih]

theorem cover_usable_le_one {memmap : List Entry} (hw : Wellformed memmap) (i : ℕ) :
    cover (usable memmap) i ≤ 1 := by
  rw [usable_eq_map]
  refine cover_le_one_of_pairwise (List.pairwise_map.mpr (hw.apart.imp_of_mem ?_)) i
  intro e f he hf hapart x ⟨hx, hx'⟩
  obtain ⟨he, hu⟩ := List.mem_filter.mp he
  obtain ⟨hf, hu'⟩ := List.mem_filter.mp hf
  obtain ⟨hb, hl⟩ := hw.aligned e he (by simpa using hu)
  obtain ⟨hb', hl'⟩ := hw.aligned f hf (by simpa using hu')
  exact hapart (x * pageSize) ⟨(pages_mem_iff hb hl x).mp hx, (pages_mem_iff hb' hl' x).mp hx'⟩

/-! ## The state after `pmm_init` -/

/-- The bit of page `i` in what lies behind `size` bytes of the bitmap is clear. -/
def StrayBit (behind : List Byte) (size i : ℕ) : Prop :=
  8 * size ≤ i ∧ behind[i / 8 - size]?.map (fun b => b.getLsbD (i % 8)) = some false

instance (behind : List Byte) (size i : ℕ) : Decidable (StrayBit behind size i) :=
  inferInstanceAs (Decidable (_ ∧ _))

/-- A bitmap of ones: every page it reaches is taken. Behind it are the bits that were there. -/
theorem bit_replicate (size : ℕ) (behind : List Byte) (highest last usablePages used j : ℕ) :
    bit ⟨List.replicate size 0xFF#8 ++ behind, highest, last, usablePages, used⟩ j = some false ↔
      StrayBit behind size j := by
  have hones : ∀ k < 8, (0xFF#8).getLsbD k = true := by decide
  unfold bit StrayBit
  by_cases hj : j < 8 * size
  · have hlt : j / 8 < (List.replicate size 0xFF#8).length := by
      rw [List.length_replicate]
      omega
    rw [List.getElem?_append_left hlt, List.getElem?_replicate, if_pos (by omega), Option.map_some,
      hones _ (Nat.mod_lt _ (by norm_num))]
    refine iff_of_false (by simp) fun h => ?_
    omega
  · have hge : (List.replicate size 0xFF#8).length ≤ j / 8 := by
      rw [List.length_replicate]
      omega
    rw [List.getElem?_append_right hge, List.length_replicate]
    exact (and_iff_right (Nat.le_of_not_lt hj)).symm

/-- The manager the third loop starts from. -/
def bare (memmap : List Entry) (behind : List Byte) (size : ℕ) : PhysicalMemoryManager :=
  ⟨List.replicate size 0xFF#8 ++ behind, highestAddr memmap / pageSize, 0,
    ((usable memmap).map Interval.len).sum, 0⟩

/-- Where the bitmap lies and what the second loop leaves of the map. -/
def Placed (memmap : List Entry) (base : Option ℕ) (memmap' : List Entry) (size : ℕ) : Prop :=
  (∃ b, base = some b ∧ size = bitmapSize (highestAddr memmap / pageSize) ∧
    takeBitmap size memmap = some (b, memmap')) ∨
  (base = none ∧ size = 0 ∧ memmap' = memmap ∧
    takeBitmap (bitmapSize (highestAddr memmap / pageSize)) memmap = none)

section Init

variable {p : Profile} {memmap : List Entry} {behind : List Byte}
  (hfits : ∀ e ∈ memmap, e.entryType = .usable → e.base + e.length < wordSize)

include hfits

/-- A returning `pmm_init` is its third loop on the map the second one left. -/
theorem pmmInit_eq_ok {r : Initialised} :
    pmmInit p memmap behind = .ok r ↔ ∃ size, Placed memmap r.base r.memmap size ∧
      r.memmap.foldlM freeEntry (bare memmap behind size) = .ok r.pmm := by
  have hmax : max 0 (highestAddr memmap) = highestAddr memmap := max_eq_right (Nat.zero_le _)
  obtain ⟨pmm, base, memmap'⟩ := r
  unfold pmmInit
  simp only [scan_eq p hfits, bind, Except.bind, hmax, Nat.zero_add]
  constructor
  · intro h
    split at h
    · rename_i b m hm
      obtain ⟨s, hs, h⟩ := bind_eq_ok.mp h
      cases pure_eq_ok.mp h
      exact ⟨_, .inl ⟨b, rfl, rfl, hm⟩, hs⟩
    · rename_i hm
      obtain ⟨s, hs, h⟩ := bind_eq_ok.mp h
      cases pure_eq_ok.mp h
      exact ⟨0, .inr ⟨rfl, rfl, rfl, hm⟩, hs⟩
  · rintro ⟨size, ⟨b, rfl, rfl, hm⟩ | ⟨rfl, rfl, rfl, hm⟩, hs⟩
    · simp only [hm]
      exact bind_eq_ok.mpr ⟨_, hs, rfl⟩
    · simp only [hm]
      exact bind_eq_ok.mpr ⟨_, hs, rfl⟩

theorem pmmInit_spec {r : Initialised} (h : pmmInit p memmap behind = .ok r) :
    ∃ size, Placed memmap r.base r.memmap size ∧
      r.pmm.bitmap.length = size + behind.length ∧
      r.pmm.highestPageIdx = highestAddr memmap / pageSize ∧ r.pmm.lastUsedPageIdx = 0 ∧
      r.pmm.usablePages = ((usable memmap).map Interval.len).sum ∧ r.pmm.usedPages = 0 ∧
      ∀ i, bit r.pmm i = some false ↔ 0 < cover (usable r.memmap) i ∨ StrayBit behind size i := by
  obtain ⟨size, hplaced, hfree⟩ := (pmmInit_eq_ok hfits).mp h
  obtain ⟨bm, hok, hlen, hbit⟩ := freeEntries_spec (inBitmap_of_freeEntries hfree)
  have hpmm := Except.ok.inj (hfree.symm.trans hok)
  rw [hpmm]
  have hbare : (bare memmap behind size).bitmap.length = size + behind.length := by
    rw [bare, List.length_append, List.length_replicate]
  refine ⟨size, hplaced, hlen.trans hbare, rfl, rfl, rfl, rfl, fun i => ?_⟩
  rw [hbit i, ← bit_replicate size behind (highestAddr memmap / pageSize) 0
    ((usable memmap).map Interval.len).sum 0 i]
  by_cases hc : 0 < cover (usable r.memmap) i
  · rw [if_pos hc]
    exact iff_of_true rfl (.inl hc)
  · rw [if_neg hc]
    exact (or_iff_right hc).symm

end Init

/-! ## The bitmap covers the pages -/

/-- Page `i` lies in the `size` bytes at `base`. -/
def Within (base size i : ℕ) : Prop := base ≤ i * pageSize ∧ i * pageSize < base + size

/-- After `pmm_init` every access to the bit of a page below `highest_page_idx` stays in the bytes
that it has set up, and the clear bits in these are the usable pages the bitmap does not occupy. -/
def BitmapCovers (p : Profile) (memmap : List Entry) (behind : List Byte) : Prop :=
  ∃ r base, pmmInit p memmap behind = .ok r ∧ r.base = some base ∧
    (∀ i < r.pmm.highestPageIdx, i / 8 < bitmapSize r.pmm.highestPageIdx ∧
      (∃ b, bitmapTest r.pmm i = .ok b) ∧ (∃ s, bitmapSet r.pmm i = .ok s) ∧
      ∃ s, bitmapReset r.pmm i = .ok s) ∧
    ∀ i, (i < 8 * bitmapSize r.pmm.highestPageIdx ∧ bit r.pmm i = some false) ↔
      UsablePage memmap i ∧ ¬ Within base (bitmapSize r.pmm.highestPageIdx) i

theorem cover_left_pos_iff {memmap memmap' : List Entry} {base size : ℕ} (hw : Wellformed memmap)
    (hsize : pageSize ∣ size) (h : takeBitmap size memmap = some (base, memmap')) (i : ℕ) :
    0 < cover (usable memmap') i ↔ UsablePage memmap i ∧ ¬ Within base size i := by
  have hbase : pageSize ∣ base := by
    obtain ⟨before, e, after, rfl, hu, -, rfl, -⟩ := takeBitmap_some h
    exact (hw.aligned e (List.mem_append_right _ List.mem_cons_self) hu).1
  have hwithin : Interval.Mem ⟨base / pageSize, size / pageSize⟩ i ↔ Within base size i :=
    pages_mem_iff (e := ⟨base, size, .usable⟩) hbase hsize i
  have hsplit := cover_takeBitmap hsize h i
  have hle := cover_usable_le_one hw i
  rw [← cover_usable_pos hw, ← hwithin, ← ind_pos]
  omega

/-- What the second loop leaves stays below the highest page. -/
theorem left_le_highest {memmap memmap' : List Entry} {base size : ℕ} (hsize : pageSize ∣ size)
    (h : takeBitmap size memmap = some (base, memmap')) {v : Interval} (hv : v ∈ usable memmap') :
    v.len = 0 ∨ v.start + v.len ≤ highestAddr memmap / pageSize := by
  rcases Nat.eq_zero_or_pos v.len with hz | hpos
  · exact .inl hz
  -- the last page of the range is a page of the map before
  have hlast : v.Mem (v.start + v.len - 1) := ⟨by omega, by omega⟩
  have hcov : 0 < cover (usable memmap) (v.start + v.len - 1) := by
    rw [cover_takeBitmap hsize h]
    have := exists_mem_iff_cover_pos.mp ⟨v, hv, hlast⟩
    omega
  obtain ⟨u, hu, hmem⟩ := exists_mem_iff_cover_pos.mpr hcov
  have := usable_le_highest hu
  unfold Interval.Mem at hmem
  omega

/-- `pmm_init` returns when an entry can hold a bitmap that reaches all pages. -/
theorem pmmInit_returns (p : Profile) {memmap : List Entry} (behind : List Byte)
    (hw : Wellformed memmap)
    (hfit : ∃ e ∈ memmap, e.entryType = .usable ∧
      bitmapSize (highestAddr memmap / pageSize) ≤ e.length)
    (hspan : highestAddr memmap / pageSize ≤ 8 * bitmapSize (highestAddr memmap / pageSize)) :
    ∃ r base, pmmInit p memmap behind = .ok r ∧ r.base = some base ∧
      takeBitmap (bitmapSize (highestAddr memmap / pageSize)) memmap = some (base, r.memmap) := by
  have hlt : highestAddr memmap / pageSize < 2 ^ 64 :=
    lt_of_le_of_lt (Nat.div_le_self _ _) (highestAddr_lt hw.fits)
  obtain ⟨base, memmap', htake⟩ := takeBitmap_isSome hfit
  have hlen : bitmapSize (highestAddr memmap / pageSize) ≤
      (bare memmap behind (bitmapSize (highestAddr memmap / pageSize))).bitmap.length := by
    rw [bare, List.length_append, List.length_replicate]
    exact Nat.le_add_right _ _
  have hin : ∀ v ∈ usable memmap',
      InBitmap (bare memmap behind (bitmapSize (highestAddr memmap / pageSize))) v := by
    intro v hv
    have := left_le_highest (pageSize_dvd_bitmapSize hlt) htake hv
    unfold InBitmap
    omega
  obtain ⟨bm, hok, -⟩ := freeEntries_spec hin
  exact ⟨⟨_, some base, memmap'⟩, base,
    (pmmInit_eq_ok hw.fits).mpr ⟨_, .inl ⟨base, rfl, rfl, htake⟩, hok⟩, rfl, htake⟩

theorem spans_of_bitmapCovers {p : Profile} {memmap : List Entry} {behind : List Byte}
    (hw : Wellformed memmap) (h : BitmapCovers p memmap behind) :
    highestAddr memmap / pageSize ≤ 8 * bitmapSize (highestAddr memmap / pageSize) := by
  obtain ⟨r, base, hr, -, hin, -⟩ := h
  obtain ⟨size, -, -, hhigh, -⟩ := pmmInit_spec hw.fits hr
  rw [hhigh] at hin
  by_contra hgt
  have := (hin (8 * bitmapSize (highestAddr memmap / pageSize)) (by omega)).1
  omega

/-- **When the bitmap covers all managed pages.** For a map of page-aligned, non-overlapping usable
entries, one of which can hold the bitmap, and whatever lies behind it: unless the number of pages
below the highest usable address is 1 to 7 above a multiple of 32768. -/
theorem bitmapCovers_iff (p : Profile) {memmap : List Entry} (behind : List Byte)
    (hw : Wellformed memmap)
    (hfit : ∃ e ∈ memmap, e.entryType = .usable ∧
      bitmapSize (highestAddr memmap / pageSize) ≤ e.length) :
    BitmapCovers p memmap behind ↔ highestAddr memmap / pageSize % 32768 = 0 ∨
      8 ≤ highestAddr memmap / pageSize % 32768 := by
  have hlt : highestAddr memmap / pageSize < 2 ^ 64 :=
    lt_of_le_of_lt (Nat.div_le_self _ _) (highestAddr_lt hw.fits)
  rw [← bitmapSize_spans_iff hlt]
  refine ⟨spans_of_bitmapCovers hw, fun hspan => ?_⟩
  obtain ⟨r, base, hr, hbase, htake⟩ := pmmInit_returns p behind hw hfit hspan
  obtain ⟨size, hplaced, hlen, hhigh, -, -, -, hbits⟩ := pmmInit_spec hw.fits hr
  have hsize : size = bitmapSize (highestAddr memmap / pageSize) := by
    rcases hplaced with ⟨b, -, hsize, -⟩ | ⟨hnone, -⟩
    · exact hsize
    · rw [hnone] at hbase
      cases hbase
  refine ⟨r, base, hr, hbase, fun i hi => ?_, fun i => ?_⟩
  · have hi8 : i < 8 * r.pmm.bitmap.length := by
      rw [hlen, hsize]
      omega
    obtain ⟨b, hb⟩ := bit_isSome hi8
    obtain ⟨_, hset, -⟩ := bitmapSet_spec hi8
    obtain ⟨_, hreset, -⟩ := bitmapReset_spec hi8
    refine ⟨?_, ⟨b, bitmapTest_of_bit hb⟩, ⟨_, hset⟩, ⟨_, hreset⟩⟩
    rw [hhigh] at hi ⊢
    omega
  · rw [hbits i, hhigh, ← cover_left_pos_iff hw (pageSize_dvd_bitmapSize hlt) htake i, hsize]
    constructor
    · rintro ⟨hi, hcov | hstray⟩
      · exact hcov
      · exact absurd hi (Nat.not_lt.mpr hstray.1)
    · intro hcov
      -- a page of the map lies below the highest one
      obtain ⟨v, hv, hmem⟩ := exists_mem_iff_cover_pos.mpr hcov
      have hle := left_le_highest (pageSize_dvd_bitmapSize hlt) htake hv
      unfold Interval.Mem at hmem
      exact ⟨by omega, .inl hcov⟩

/-- Sixteen usable pages behind a reserved first page. -/
def demoMap : List Entry := [⟨0, 0x1000, .reserved⟩, ⟨0x1000, 0x10000, .usable⟩]

theorem demoMap_wellformed : Wellformed demoMap where
  aligned := by decide
  fits := by decide
  apart := List.pairwise_singleton _ _

theorem bitmapCovers_iff_demo :
    BitmapCovers .release demoMap [0] ↔ highestAddr demoMap / pageSize % 32768 = 0 ∨
      8 ≤ highestAddr demoMap / pageSize % 32768 :=
  bitmapCovers_iff .release [0] demoMap_wellformed
    ⟨⟨0x1000, 0x10000, .usable⟩, by decide, rfl, by decide⟩

/-- 128 MiB from the second page on: 32769 pages for a bitmap of 4096 bytes. -/
def overrunMap : List Entry := [⟨0x1000, 0x8000000, .usable⟩]

/-- The bit of the last page of `overrunMap` lies in the byte behind the bitmap. -/
theorem bitmap_overrun :
    Wellformed overrunMap ∧
      (∃ e ∈ overrunMap, e.entryType = .usable ∧
        bitmapSize (highestAddr overrunMap / pageSize) ≤ e.length) ∧
      ¬ BitmapCovers .release overrunMap [0] := by
  have hw : Wellformed overrunMap := ⟨by decide, by decide, List.pairwise_singleton _ _⟩
  refine ⟨hw, ⟨⟨0x1000, 0x8000000, .usable⟩, by decide, rfl, by decide⟩, fun h => ?_⟩
  have := spans_of_bitmapCovers hw h
  revert this
  decide

end CappuccinOS.Pmm
