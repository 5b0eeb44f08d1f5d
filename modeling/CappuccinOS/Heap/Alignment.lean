import CappuccinOS.Heap.Conservation

/-!
# Alignment of the addresses `inner_alloc` returns

`alloc_from_node` tests whether the layout fits behind the *aligned* start of a region, but
`inner_alloc` carves the block off the region's own start. The address returned is therefore
aligned exactly when the chosen region happens to start at a multiple of the alignment
(`innerAlloc_contract_iff`); every node is 8-aligned, so alignments up to 8 are always served.
-/

namespace CappuccinOS.Heap

/-- `r` is the region `inner_alloc(layout)` takes: the first that `alloc_from_node` accepts. -/
def Chosen (p : Profile) (a : LinkedListAllocator) (layout : Layout) (r : MemNode) : Prop :=
  ∃ layout' rest, sizeAlign layout = .ok layout' ∧
    findRegion p layout' a.nodes = .ok (some (r, rest))

/-- The contract of `GlobalAlloc::alloc` for an address cut out of the region `r`. -/
def Contract (layout : Layout) (r : MemNode) (ptr : ℕ) : Prop :=
  layout.align ∣ ptr ∧ r.addr ≤ ptr ∧ ptr + layout.size ≤ r.addr + r.size

/-- A search that finds nothing makes the call return null and leaves the list as it is. -/
theorem innerAlloc_of_none {p : Profile} {a : LinkedListAllocator} {layout layout' : Layout}
    (hlayout : sizeAlign layout = .ok layout') (hfound : findRegion p layout' a.nodes = .ok none) :
    innerAlloc p a layout = .ok (0, a) := by
  unfold innerAlloc
  rw [hlayout]
  show (findRegion p layout' a.nodes >>= _) = _
  rw [hfound]
  rfl

/-- From a region that is found, the call returns its start, if it returns. -/
theorem innerAlloc_of_some {p : Profile} {a a' : LinkedListAllocator} {layout layout' : Layout}
    {r : MemNode} {rest : List MemNode} {ptr : ℕ} (hlayout : sizeAlign layout = .ok layout')
    (hfound : findRegion p layout' a.nodes = .ok (some (r, rest)))
    (h : innerAlloc p a layout = .ok (ptr, a')) : ptr = r.addr := by
  unfold innerAlloc at h
  rw [hlayout] at h
  change (findRegion p layout' a.nodes >>= _) = _ at h
  rw [hfound] at h
  obtain ⟨found, hsome, h⟩ := bind_eq_ok.mp h
  cases hsome
  obtain ⟨e, -, h⟩ := bind_eq_ok.mp h
  obtain ⟨regionEnd, -, h⟩ := bind_eq_ok.mp h
  obtain ⟨extra, -, h⟩ := bind_eq_ok.mp h
  split_ifs at h
  · obtain ⟨b, -, h⟩ := bind_eq_ok.mp h
    exact (Prod.mk.inj (pure_eq_ok.mp h)).1.symm
  · exact (Prod.mk.inj (pure_eq_ok.mp h)).1.symm

/-- A non-null address is the start of the chosen region, whatever the layout's alignment. -/
theorem innerAlloc_eq_chosen {p : Profile} {a a' : LinkedListAllocator} {layout : Layout} {ptr : ℕ}
    (h : innerAlloc p a layout = .ok (ptr, a')) (h0 : ptr ≠ 0) :
    ∃ r, Chosen p a layout r ∧ ptr = r.addr := by
  have hcall := h
  unfold innerAlloc at h
  obtain ⟨layout', hlayout, h⟩ := bind_eq_ok.mp h
  obtain ⟨found, hfound, h⟩ := bind_eq_ok.mp h
  match found with
  | none => exact absurd (Prod.mk.inj (pure_eq_ok.mp h)).1.symm h0
  | some (r, rest) =>
    exact ⟨r, ⟨layout', rest, hlayout, hfound⟩, innerAlloc_of_some hlayout hfound hcall⟩

/-- Without overflow the chosen region has room for the layout. -/
theorem size_le_of_chosen {a : LinkedListAllocator} {layout : Layout} {r : MemNode}
    (h : Chosen .dev a layout r) : layout.size ≤ r.size := by
  obtain ⟨layout', rest, hl, hf⟩ := h
  obtain ⟨_, _, start, -, -, hstart, h0⟩ := findRegion_some hf
  obtain ⟨-, hle, hfit, -⟩ := allocFromNode_dev hstart h0
  have := (sizeAlign_spec hl).2.1
  omega

theorem chosen_mem {p : Profile} {a : LinkedListAllocator} {layout : Layout} {r : MemNode}
    (h : Chosen p a layout r) : r ∈ a.nodes := by
  obtain ⟨layout', rest, -, hf⟩ := h
  obtain ⟨before, after, -, hn, -⟩ := findRegion_some hf
  rw [hn]
  exact List.mem_append_right _ List.mem_cons_self

theorem align_dvd_nodeAlign {layout : Layout} (h : layout.align ≤ nodeAlign) :
    layout.align ∣ nodeAlign := by
  obtain ⟨k, hk⟩ := layout.align_pow
  have hk3 : k ≤ 3 := by
    by_contra hlt
    have : 2 ^ 4 ≤ 2 ^ k := Nat.pow_le_pow_right (by norm_num) (by omega)
    unfold nodeAlign at h
    omega
  rw [hk]
  exact pow_dvd_pow 2 hk3

/-- **When an allocation meets the contract.** In every reachable state, a non-null address is
aligned and inside the chosen region exactly when that region starts at a multiple of the
alignment and is as long as the layout. The length can only fall short where the release profile
wraps, and alignments up to 8 are always met. -/
theorem innerAlloc_contract_iff {p : Profile} {H : Place} {s : State} (hs : Reachable p H s)
    {layout : Layout} {ptr : ℕ} {a : LinkedListAllocator}
    (h : innerAlloc p s.alloc layout = .ok (ptr, a)) (h0 : ptr ≠ 0) :
    ∃ r, Chosen p s.alloc layout r ∧
      (Contract layout r ptr ↔ layout.align ∣ r.addr ∧ layout.size ≤ r.size) ∧
      (p = .dev → layout.size ≤ r.size ∧ (layout.align ≤ nodeAlign → Contract layout r ptr)) := by
  obtain ⟨r, hr, rfl⟩ := innerAlloc_eq_chosen h h0
  have hiff : Contract layout r r.addr ↔ layout.align ∣ r.addr ∧ layout.size ≤ r.size := by
    unfold Contract
    constructor
    · rintro ⟨hal, -, hle⟩; exact ⟨hal, by omega⟩
    · rintro ⟨hal, hle⟩; exact ⟨hal, le_rfl, by omega⟩
  refine ⟨r, hr, hiff, ?_⟩
  rintro rfl
  have hsize := size_le_of_chosen hr
  refine ⟨hsize, fun hal => hiff.mpr ⟨?_, hsize⟩⟩
  exact (align_dvd_nodeAlign hal).trans ((inv_of_reachable hs).ok r (chosen_mem hr)).1

/-- Thirty-two bytes, aligned to sixteen. -/
def demoLayout16 : Layout := ⟨32, 16, isPowerOfTwo_sixteen, by decide⟩

theorem innerAlloc_contract_iff_demo :
    ∃ r, Chosen .dev demoState.alloc demoLayout r ∧
      (Contract demoLayout r 0x800018 ↔ demoLayout.align ∣ r.addr ∧ demoLayout.size ≤ r.size) ∧
      (Profile.dev = .dev → demoLayout.size ≤ r.size ∧
        (demoLayout.align ≤ nodeAlign → Contract demoLayout r 0x800018)) :=
  innerAlloc_contract_iff (a := ⟨⟨0x1000, 0⟩, [⟨0x800030, heapSize - 48⟩]⟩) demoState_reachable
    (by decide) (by decide)

/-- After one 24-byte allocation the heap's only region starts at 8 modulo 16, and a 16-aligned
request is answered with that start. -/
theorem innerAlloc_misaligned :
    Reachable .dev demoPlace demoState ∧
      innerAlloc .dev demoState.alloc demoLayout16 =
        .ok (0x800018, ⟨⟨0x1000, 0⟩, [⟨0x800038, heapSize - 56⟩]⟩) ∧
      ¬ demoLayout16.align ∣ 0x800018 :=
  ⟨demoState_reachable, by decide, by decide⟩

end CappuccinOS.Heap
