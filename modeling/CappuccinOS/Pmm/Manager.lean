import CappuccinOS.Mem.Align
import CappuccinOS.Lib.Bits

/-!
# The physical memory manager (`mem/pmm.rs`)

One bit per page, set when the page is not free, and a roving index where the next search
starts. The bitmap is the list of bytes from its pointer on, as far as there is memory: those that
`pmm_init` has set up and what lies behind them. An access past the end of memory is an error of the
model.

`bit s i` is the state of page `i`. Each operation on the bitmap has one lemma that says what it
does to `bit` and that it touches nothing else (`bitmapSet_spec`, `bitmapReset_spec`).
-/

namespace CappuccinOS.Pmm

structure PhysicalMemoryManager where
  bitmap : List Byte
  highestPageIdx : ℕ
  lastUsedPageIdx : ℕ
  usablePages : ℕ
  usedPages : ℕ
  deriving DecidableEq, Repr

/-! ## The bitmap -/

/-- `bitmap_test`: whether the page is taken. -/
def bitmapTest (s : PhysicalMemoryManager) (bit : ℕ) : Except Panic Bool :=
  match s.bitmap[bit / 8]? with
  | none => .error .bounds
  | some b => .ok (b &&& 1#8 <<< (bit % 8) != 0#8)

/-- A read-modify-write of the byte that holds `bit`; `f` gets the byte and the bit's mask. -/
def bitmapModify (f : Byte → Byte → Byte) (s : PhysicalMemoryManager) (bit : ℕ) :
    Except Panic PhysicalMemoryManager :=
  match s.bitmap[bit / 8]? with
  | none => .error .bounds
  | some b => .ok { s with bitmap := s.bitmap.set (bit / 8) (f b (1#8 <<< (bit % 8))) }

def bitmapSet : PhysicalMemoryManager → ℕ → Except Panic PhysicalMemoryManager :=
  bitmapModify fun b mask => b ||| mask

def bitmapReset : PhysicalMemoryManager → ℕ → Except Panic PhysicalMemoryManager :=
  bitmapModify fun b mask => b &&& ~~~mask

/-! ## Allocation -/

/-- The loop of `pmm_inner_alloc`: `p` free pages have been seen in a row before
`last_used_page_idx`. The index grows by one in every turn, so `limit - last_used_page_idx`
turns are all there can be. -/
def pmmInnerAllocLoop (pages limit : ℕ) :
    ℕ → PhysicalMemoryManager → ℕ → Except Panic (ℕ × PhysicalMemoryManager)
  | 0, s, _ => pure (0, s)
  | turns + 1, s, p =>
    if s.lastUsedPageIdx < limit then do
      let idx := s.lastUsedPageIdx
      let s := { s with lastUsedPageIdx := idx + 1 }
      if ← bitmapTest s idx then
        pmmInnerAllocLoop pages limit turns s 0
      else if p + 1 = pages then
        let page := s.lastUsedPageIdx - pages
        let s ← (List.range' page pages).foldlM bitmapSet s
        pure (page * pageSize % wordSize, s)
      else
        pmmInnerAllocLoop pages limit turns s (p + 1)
    else
      pure (0, s)

/-- `pmm_inner_alloc`: the physical address found, or null. -/
def pmmInnerAlloc (s : PhysicalMemoryManager) (pages limit : ℕ) :
    Except Panic (ℕ × PhysicalMemoryManager) :=
  pmmInnerAllocLoop pages limit (limit - s.lastUsedPageIdx) s 0

/-- `pmm_alloc_nozero`: a search up to the end of memory, then one from page 0 up to where the
first one stopped. -/
def pmmAllocNozero (s : PhysicalMemoryManager) (pages : ℕ) :
    Except Panic (ℕ × PhysicalMemoryManager) := do
  let (addr, s) ← pmmInnerAlloc s pages s.highestPageIdx
  if addr = 0 then
    let last := s.lastUsedPageIdx
    let (addr, s) ← pmmInnerAlloc { s with lastUsedPageIdx := 0 } pages last
    if addr = 0 then
      pure (0, s)
    else
      pure (addr, { s with usedPages := s.usedPages + pages })
  else
    pure (addr, { s with usedPages := s.usedPages + pages })

def pmmDealloc (s : PhysicalMemoryManager) (ptr pages : ℕ) :
    Except Panic PhysicalMemoryManager := do
  let s ← (List.range' (ptr / pageSize) pages).foldlM bitmapReset s
  pure { s with usedPages := s.usedPages - pages }

/-! ## Bits -/

/-- The bit of page `i`, if the bitmap reaches it. -/
def bit (s : PhysicalMemoryManager) (i : ℕ) : Option Bool :=
  s.bitmap[i / 8]?.map fun b => b.getLsbD (i % 8)

theorem bit_isSome {s : PhysicalMemoryManager} {i : ℕ} (h : i < 8 * s.bitmap.length) :
    ∃ b, bit s i = some b := by
  have : i / 8 < s.bitmap.length := by omega
  exact ⟨s.bitmap[i / 8].getLsbD (i % 8), by simp [bit, this]⟩

theorem lt_of_bit {s : PhysicalMemoryManager} {i : ℕ} {b : Bool} (h : bit s i = some b) :
    i < 8 * s.bitmap.length := by
  obtain ⟨byte, hbyte, -⟩ := Option.map_eq_some_iff.mp h
  have := (List.getElem?_eq_some_iff.mp hbyte).1
  omega

theorem bitmapTest_of_bit {s : PhysicalMemoryManager} {i : ℕ} {b : Bool} (h : bit s i = some b) :
    bitmapTest s i = .ok b := by
  obtain ⟨byte, hbyte, rfl⟩ := Option.map_eq_some_iff.mp h
  unfold bitmapTest
  rw [hbyte, ← byte_mask_ne_zero byte (Nat.mod_lt i (by norm_num))]

theorem bitmapTest_of_bit_none {s : PhysicalMemoryManager} {i : ℕ} (h : bit s i = none) :
    bitmapTest s i = .error .bounds := by
  unfold bitmapTest
  rw [Option.map_eq_none_iff.mp h]

/-- A read-modify-write that puts `v` in the masked bit and keeps the other seven. -/
theorem bitmapModify_spec {f : Byte → Byte → Byte} {v : Bool}
    (hf : ∀ b : Byte, ∀ k < 8, ∀ j < 8,
      (f b (1#8 <<< k)).getLsbD j = if j = k then v else b.getLsbD j)
    {s : PhysicalMemoryManager} {i : ℕ} (hi : i < 8 * s.bitmap.length) :
    ∃ bm, bitmapModify f s i = .ok { s with bitmap := bm } ∧ bm.length = s.bitmap.length ∧
      ∀ j, bit { s with bitmap := bm } j = if j = i then some v else bit s j := by
  have hlt : i / 8 < s.bitmap.length := by omega
  refine ⟨s.bitmap.set (i / 8) (f s.bitmap[i / 8] (1#8 <<< (i % 8))), ?_, by simp, fun j => ?_⟩
  · unfold bitmapModify
    rw [List.getElem?_eq_getElem hlt]
  · unfold bit
    by_cases hj : j / 8 = i / 8
    · rw [hj, List.getElem?_set_self hlt, List.getElem?_eq_getElem hlt, Option.map_some,
        Option.map_some, hf _ _ (Nat.mod_lt _ (by norm_num)) _ (Nat.mod_lt _ (by norm_num))]
      have hiff : j % 8 = i % 8 ↔ j = i := by omega
      by_cases he : j = i
      · rw [if_pos (hiff.mpr he), if_pos he]
      · rw [if_neg (fun h => he (hiff.mp h)), if_neg he]
    · rw [List.getElem?_set_ne (fun h => hj h.symm), if_neg (fun h => hj (by rw [h]))]

theorem bitmapSet_spec {s : PhysicalMemoryManager} {i : ℕ} (hi : i < 8 * s.bitmap.length) :
    ∃ bm, bitmapSet s i = .ok { s with bitmap := bm } ∧ bm.length = s.bitmap.length ∧
      ∀ j, bit { s with bitmap := bm } j = if j = i then some true else bit s j := by
  refine bitmapModify_spec (fun b k hk j hj => ?_) hi
  rw [← BitVec.twoPow_eq, BitVec.getLsbD_or, BitVec.getLsbD_twoPow]
  by_cases h : j = k
  · simp [h, hk]
  · simp [h, Ne.symm h]

theorem bitmapReset_spec {s : PhysicalMemoryManager} {i : ℕ} (hi : i < 8 * s.bitmap.length) :
    ∃ bm, bitmapReset s i = .ok { s with bitmap := bm } ∧ bm.length = s.bitmap.length ∧
      ∀ j, bit { s with bitmap := bm } j = if j = i then some false else bit s j := by
  refine bitmapModify_spec (fun b k hk j hj => ?_) hi
  rw [← BitVec.twoPow_eq, BitVec.getLsbD_and, BitVec.getLsbD_not, BitVec.getLsbD_twoPow]
  by_cases h : j = k
  · simp [h, hk]
  · simp [h, Ne.symm h, hj]

end CappuccinOS.Pmm
