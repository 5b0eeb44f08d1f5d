import CappuccinOS.Heap.Remainder

/-!
# Requests that no region can serve

`alloc_from_node` compares the end of the block with the end of the region. In the higher half the
end of a large block leaves the word: under the `release` profile the sum wraps around to a small
number, which passes for an end inside the region.

1. `alignUp_release`: `align_up` on all words;
2. `sizeAlign_returns_iff`: when a layout can be padded;
3. `allocFromNode_release`: a region that is too small is taken exactly when the sum `Wraps`;
4. `refused_iff`: when a request that is larger than every region is refused.
-/

namespace CappuccinOS.Heap

/-- The first address of the higher half. -/
def higherHalf : ℕ := 0xFFFF800000000000

/-- The regions lie in the higher half. -/
def InHigherHalf (nodes : List MemNode) : Prop :=
  ∀ n ∈ nodes, higherHalf ≤ n.addr ∧ n.addr < wordSize ∧ n.addr + n.size ≤ wordSize

/-- The request is refused: the search finds nothing, and the call returns null and leaves the list
as it is. -/
def Refused (p : Profile) (a : LinkedListAllocator) (layout : Layout) : Prop :=
  (∀ layout', sizeAlign layout = .ok layout' → findRegion p layout' a.nodes = .ok none) ∧
    innerAlloc p a layout = .ok (0, a)

/-- `Layout::from_size_align` accepts the padded size, too. -/
def Padded (l : Layout) : Prop := Paddable l ∧ paddedSize l + (paddedAlign l - 1) ≤ isizeMax

/-- The end of a block at the aligned start of the region leaves the word, while the aligned start
itself and the end of the region do not. -/
def Wraps (n : MemNode) (l : Layout) : Prop :=
  n.addr + n.size < wordSize ∧ n.addr + (paddedAlign l - 1) < wordSize ∧
    wordSize ≤ alignedStart n l + paddedSize l

instance (n : MemNode) (l : Layout) : Decidable (Wraps n l) := inferInstanceAs (Decidable (_ ∧ _))

/-! ## Wrapping arithmetic -/

theorem alignUp_release {val k : ℕ} (hk : k < 64) (hval : val < wordSize) :
    alignUp .release val (2 ^ k) =
      .ok ((val + 2 ^ k - 1) % wordSize / 2 ^ k * 2 ^ k) := by
  have hpow : (2 ^ k).isPowerOfTwo := ⟨k, rfl⟩
  have hpos : 1 ≤ 2 ^ k := Nat.one_le_two_pow
  have hlt : 2 ^ k < wordSize := Nat.pow_lt_pow_right (by norm_num) hk
  have hlast : Profile.release.sub ((val + 2 ^ k) % wordSize) 1 =
      .ok ((val + 2 ^ k - 1) % wordSize) := by
    unfold wordSize at *
    by_cases hzero : (val + 2 ^ k) % 2 ^ 64 = 0
    · rw [hzero, Profile.sub_release_of_lt (by norm_num)]
      congr 1
      unfold wordSize
      omega
    · rw [Profile.sub_of_le _ (by omega)]
      congr 1
      omega
  unfold alignUp
  rw [check, if_pos hpow, Profile.add_release, Profile.sub_of_le _ hpos]
  simp only [bind, Except.bind, hlast]
  rw [and_wordNot_two_pow (Nat.mod_lt _ (by norm_num)) (by omega)]
  rfl

theorem endAddr_release (n : MemNode) :
    n.endAddr .release = .ok ((n.addr + n.size) % wordSize) := Profile.add_release _ _

/-! ## The padded layout -/

/-- `size_align` returns exactly for the layouts that can be padded. -/
theorem sizeAlign_returns_iff {l : Layout} : (∃ l', sizeAlign l = .ok l') ↔ Padded l := by
  constructor
  · rintro ⟨l', hl⟩
    obtain ⟨hsize, halign, hpad⟩ := sizeAlign_eq hl
    have hle := l'.size_le
    rw [hsize, halign] at hle
    exact ⟨hpad, hle⟩
  · rintro ⟨hpad, hle⟩
    exact sizeAlign_of_le hpad hle

theorem size_le_paddedSize (l : Layout) : l.size ≤ paddedSize l := by
  have hpos := Nat.pos_of_isPowerOfTwo (paddedAlign_pow l)
  exact (roundUp_bounds l.size hpos).1.trans (le_max_left _ _)

/-- The padded alignment as a power of two below the word size. -/
theorem Padded.align_eq {l : Layout} (h : Padded l) : ∃ k < 64, paddedAlign l = 2 ^ k := by
  obtain ⟨k, hk⟩ := paddedAlign_pow l
  refine ⟨k, ?_, hk⟩
  by_contra hge
  have hle : 2 ^ 64 ≤ 2 ^ k := Nat.pow_le_pow_right (by norm_num) (by omega)
  have hmax := h.2
  unfold isizeMax at hmax
  omega

/-! ## The search -/

section Search

variable {l l' : Layout} (hl : sizeAlign l = .ok l')

include hl

/-- A region that is smaller than the block is taken when the end of the block wraps around, and
only then. An aligned start that wraps is 0 and reads as null. -/
theorem allocFromNode_release {n : MemNode} (hhigh : higherHalf ≤ n.addr)
    (hword : n.addr < wordSize) (hend : n.addr + n.size ≤ wordSize)
    (hbig : n.size < paddedSize l) :
    allocFromNode .release n l' = .ok (if Wraps n l then alignedStart n l else 0) := by
  obtain ⟨hsize, halign, -⟩ := sizeAlign_eq hl
  have hpadded := sizeAlign_returns_iff.mp ⟨l', hl⟩
  obtain ⟨k, hk, hpow⟩ := hpadded.align_eq
  have hmax := hpadded.2
  have hstart := alignUp_release hk hword
  rw [← hpow, ← halign] at hstart
  obtain ⟨hle, hlt, -⟩ := alignedStart_bounds n l
  have hpos := Nat.pos_of_isPowerOfTwo (paddedAlign_pow l)
  unfold isizeMax at hmax
  unfold higherHalf at hhigh
  unfold allocFromNode
  rw [hstart, halign, hsize, endAddr_release]
  simp only [bind, Except.bind, Profile.add_release]
  by_cases hal : n.addr + (paddedAlign l - 1) < wordSize
  · have hmod : (n.addr + paddedAlign l - 1) % wordSize = n.addr + paddedAlign l - 1 :=
      Nat.mod_eq_of_lt (by omega)
    rw [hmod, ← alignedStart]
    unfold wordSize at *
    by_cases hwrap : 2 ^ 64 ≤ alignedStart n l + paddedSize l
    · by_cases htop : n.addr + n.size < 2 ^ 64
      · have hyes : Wraps n l := ⟨htop, hal, hwrap⟩
        rw [if_pos hyes, if_neg (by omega), Profile.sub_of_le _ (by omega)]
        simp only
        rw [if_neg (by unfold nodeSize; omega)]
        rfl
      · have hno : ¬ Wraps n l := fun h => htop h.1
        rw [if_neg hno, if_pos (by omega)]
        rfl
    · have hno : ¬ Wraps n l := fun h => hwrap h.2.2
      rw [if_neg hno, if_pos (by omega)]
      rfl
  · have hno : ¬ Wraps n l := fun h => hal h.2.1
    have hzero : (n.addr + paddedAlign l - 1) % wordSize / paddedAlign l * paddedAlign l = 0 := by
      rw [Nat.div_eq_of_lt, zero_mul]
      unfold wordSize at *
      omega
    rw [hzero, if_neg hno]
    split_ifs with hgt
    · rfl
    · rw [Profile.sub_of_le _ (by omega)]
      simp only
      split_ifs <;> rfl

/-- The outcome of the search when every region is too small. -/
theorem findRegion_release {nodes : List MemNode} (hhigh : InHigherHalf nodes)
    (hbig : ∀ n ∈ nodes, n.size < paddedSize l) :
    (findRegion .release l' nodes = .ok none ∧ ∀ n ∈ nodes, ¬ Wraps n l) ∨
      ∃ r ∈ nodes, ∃ rest, Wraps r l ∧ findRegion .release l' nodes = .ok (some (r, rest)) := by
  induction nodes with
  | nil => exact .inl ⟨rfl, nofun⟩
  | cons node tail ih =>
    obtain ⟨hhalf, hword, hend⟩ := hhigh node List.mem_cons_self
    have hnode := allocFromNode_release hl hhalf hword hend (hbig node List.mem_cons_self)
    unfold findRegion
    rw [hnode]
    by_cases hwrap : Wraps node l
    · have hne : alignedStart node l ≠ 0 := by
        have hle := (alignedStart_bounds node l).1
        unfold higherHalf at hhalf
        omega
      refine .inr ⟨node, List.mem_cons_self, tail, hwrap, ?_⟩
      rw [if_pos hwrap]
      exact if_neg hne
    · rw [if_neg hwrap]
      rcases ih (fun n hn => hhigh n (List.mem_cons_of_mem _ hn))
        (fun n hn => hbig n (List.mem_cons_of_mem _ hn)) with
        ⟨hnone, hall⟩ | ⟨r, hr, rest, hwraps, hsome⟩
      · refine .inl ⟨?_, List.forall_mem_cons.mpr ⟨hwrap, hall⟩⟩
        simp only [bind, Except.bind, if_pos, hnone]
        rfl
      · refine .inr ⟨r, List.mem_cons_of_mem _ hr, node :: rest, hwraps, ?_⟩
        simp only [bind, Except.bind, if_pos, hsome]
        rfl

end Search

/-- **When an oversized request is refused.** For regions in the higher half and a layout that is
larger than each of them: exactly when the layout can be padded and at no region the end of the
block wraps around. -/
theorem refused_iff {a : LinkedListAllocator} {layout : Layout} (hhigh : InHigherHalf a.nodes)
    (hbig : ∀ n ∈ a.nodes, n.size < layout.size) :
    Refused .release a layout ↔ Padded layout ∧ ∀ n ∈ a.nodes, ¬ Wraps n layout := by
  have hbig' : ∀ n ∈ a.nodes, n.size < paddedSize layout := fun n hn =>
    (hbig n hn).trans_le (size_le_paddedSize layout)
  constructor
  · rintro ⟨hfind, hcall⟩
    have hret : ∃ l', sizeAlign layout = .ok l' := by
      unfold innerAlloc at hcall
      obtain ⟨l', hl, -⟩ := bind_eq_ok.mp hcall
      exact ⟨l', hl⟩
    refine ⟨sizeAlign_returns_iff.mp hret, ?_⟩
    obtain ⟨l', hl⟩ := hret
    rcases findRegion_release hl hhigh hbig' with ⟨-, hall⟩ | ⟨r, -, rest, -, hsome⟩
    · exact hall
    · rw [hfind l' hl] at hsome
      cases hsome
  · rintro ⟨hpadded, hall⟩
    obtain ⟨l', hl⟩ := sizeAlign_returns_iff.mpr hpadded
    have hnone : findRegion .release l' a.nodes = .ok none := by
      rcases findRegion_release hl hhigh hbig' with ⟨hnone, -⟩ | ⟨r, hr, -, hwraps, -⟩
      · exact hnone
      · exact absurd hwraps (hall r hr)
    refine ⟨?_, innerAlloc_of_none hl hnone⟩
    intro l'' hl''
    obtain rfl := Except.ok.inj (hl.symm.trans hl'')
    exact hnone

/-- A heap at the start of the higher half, as `init` leaves it. -/
def highAllocator : LinkedListAllocator := ⟨⟨0xFFFFFFFF80000000, 0⟩, [⟨higherHalf, heapSize⟩]⟩

theorem highAllocator_inHigherHalf : InHigherHalf highAllocator.nodes := by
  intro n hn
  obtain rfl := List.mem_singleton.mp hn
  decide

/-- One byte more than the heap. -/
def largerLayout : Layout := ⟨heapSize + 1, 8, isPowerOfTwo_eight, by decide⟩

theorem refused_largerLayout : Refused .release highAllocator largerLayout := by
  refine (refused_iff highAllocator_inHigherHalf ?_).mpr ⟨by unfold Padded; decide, ?_⟩
  · intro n hn
    obtain rfl := List.mem_singleton.mp hn
    decide
  · intro n hn
    obtain rfl := List.mem_singleton.mp hn
    decide

/-- As many bytes as the higher half has. -/
def hugeLayout : Layout := ⟨2 ^ 47, 8, isPowerOfTwo_eight, by decide⟩

/-- The request is granted: the block ends at address 0, and the free list gains the region from
there to the end of the heap. -/
theorem not_refused_hugeLayout : InHigherHalf highAllocator.nodes ∧
    (∀ n ∈ highAllocator.nodes, n.size < hugeLayout.size) ∧
    ¬ Refused .release highAllocator hugeLayout ∧
    innerAlloc .release highAllocator hugeLayout =
      .ok (higherHalf, ⟨highAllocator.head, [⟨0, higherHalf + heapSize⟩]⟩) := by
  have hcall : innerAlloc .release highAllocator hugeLayout =
      .ok (higherHalf, ⟨highAllocator.head, [⟨0, higherHalf + heapSize⟩]⟩) := by decide
  refine ⟨highAllocator_inHigherHalf, ?_, ?_, hcall⟩
  · intro n hn
    obtain rfl := List.mem_singleton.mp hn
    decide
  · rintro ⟨-, hnull⟩
    rw [hcall] at hnull
    cases hnull

end CappuccinOS.Heap
