import CappuccinOS.Heap.Remainder

/-!
# The heap without overflow checks

Every function of the allocator does under `release` what it does under `dev`, unless `dev` stops
at an overflow (`agrees_innerAlloc`, `agrees_innerDealloc`). In a state that `Inv` describes none
does: a node ends with the heap at the latest, and merging two neighbours gives a node that ends
where the second one did. The search alone computes an address that depends on the request, and
`Place.Room` says that this one stays in the word (`innerAlloc_profile`, `innerDealloc_profile`,
`init_profile`).
-/

namespace CappuccinOS.Heap

open Cover

/-! ## Both profiles -/

theorem agrees_alignUp (val align : ℕ) :
    Agrees (alignUp .dev val align) (alignUp .release val align) :=
  (Agrees.refl _).bind fun _ => (Agrees.add _ _).bind fun _ => (Agrees.sub _ _).bind fun _ =>
    (Agrees.sub _ _).bind fun _ => .refl _

theorem agrees_addFreeRegion (a : LinkedListAllocator) (ptr size : ℕ) :
    Agrees (addFreeRegion .dev a ptr size) (addFreeRegion .release a ptr size) :=
  (agrees_alignUp _ _).bind fun _ => .refl _

theorem agrees_allocFromNode (node : MemNode) (layout : Layout) :
    Agrees (allocFromNode .dev node layout) (allocFromNode .release node layout) :=
  (agrees_alignUp _ _).bind fun _ => (Agrees.add _ _).bind fun _ => (Agrees.add _ _).bind fun _ =>
    .ite (.refl _) ((Agrees.sub _ _).bind fun _ => .refl _)

theorem agrees_findRegion (layout : Layout) (l : List MemNode) :
    Agrees (findRegion .dev layout l) (findRegion .release layout l) := by
  induction l with
  | nil => exact .refl _
  | cons node rest ih =>
    unfold findRegion
    exact (agrees_allocFromNode node layout).bind fun _ => .ite (ih.bind fun _ => .refl _) (.refl _)

theorem agrees_coalesceFrom (current : MemNode) (l : List MemNode) :
    Agrees (coalesceFrom .dev current l) (coalesceFrom .release current l) := by
  induction l generalizing current with
  | nil => exact .refl _
  | cons next rest ih =>
    unfold coalesceFrom
    exact (Agrees.add _ _).bind fun _ => .ite ((Agrees.add _ _).bind fun _ => ih _)
      ((ih next).bind fun _ => .refl _)

theorem agrees_innerAlloc (a : LinkedListAllocator) (layout : Layout) :
    Agrees (innerAlloc .dev a layout) (innerAlloc .release a layout) := by
  refine (Agrees.refl _).bind fun layout' =>
    (agrees_findRegion layout' a.nodes).bind fun found => ?_
  match found with
  | none => exact .refl _
  | some (region, rest) =>
    exact (Agrees.add _ _).bind fun _ => (Agrees.add _ _).bind fun _ =>
      (Agrees.sub _ _).bind fun _ =>
        .ite ((agrees_addFreeRegion _ _ _).bind fun _ => .refl _) (.refl _)

theorem agrees_innerDealloc (a : LinkedListAllocator) (ptr : ℕ) (layout : Layout) :
    Agrees (innerDealloc .dev a ptr layout) (innerDealloc .release a ptr layout) :=
  (Agrees.refl _).bind fun _ => (agrees_addFreeRegion _ _ _).bind fun _ =>
    (agrees_coalesceFrom _ _).bind fun _ => .refl _

/-! ## No overflow -/

/-- Heap and head node lie in the address space. -/
structure Place.InWord (H : Place) : Prop where
  head : H.head < wordSize
  base : H.base + heapSize < wordSize

/-- Aligned and with its size, a block for `l` would still end in the address space if it started
at the end of the heap. -/
def Place.Room (H : Place) (l : Layout) : Prop :=
  H.base + heapSize + paddedAlign l + paddedSize l ≤ wordSize

instance (H : Place) (l : Layout) : Decidable (H.Room l) := inferInstanceAs (Decidable (_ ≤ _))

theorem sizeAlign_ne_overflow (l : Layout) : sizeAlign l ≠ .error .overflow := by
  have hfrom : ∀ size align, Layout.fromSizeAlign size align ≠ .error .overflow := by
    intro size align h
    unfold Layout.fromSizeAlign at h
    split_ifs at h
    cases h
  exact bind_ne_error (hfrom _ _) fun _ => hfrom _ _

theorem addFreeRegion_ne_overflow {a : LinkedListAllocator} {ptr size : ℕ}
    (hlt : ptr + nodeAlign < wordSize) : addFreeRegion .dev a ptr size ≠ .error .overflow := by
  have hcheck : ∀ (c : Prop) [Decidable c], check c ≠ .error .overflow := by
    intro c _ h
    unfold check at h
    split_ifs at h
    cases h
  unfold addFreeRegion
  rw [alignUp_dev_of_lt (show nodeAlign.isPowerOfTwo from ⟨3, rfl⟩) hlt]
  exact bind_ne_error nofun fun _ => bind_ne_error (hcheck _) fun _ =>
    bind_ne_error (hcheck _) fun _ => nofun

/-- Merging keeps every node inside the word. -/
theorem coalesceFrom_ne_overflow {current : MemNode} {l : List MemNode}
    (h : ∀ n ∈ current :: l, n.addr + n.size < wordSize) :
    coalesceFrom .dev current l ≠ .error .overflow := by
  induction l generalizing current with
  | nil =>
    intro h
    cases h
  | cons next rest ih =>
    have hcurrent := h current List.mem_cons_self
    have hnext := h next (List.mem_cons_of_mem _ List.mem_cons_self)
    have hrest : ∀ n ∈ rest, n.addr + n.size < wordSize := fun n hn =>
      h n (List.mem_cons_of_mem _ (List.mem_cons_of_mem _ hn))
    unfold coalesceFrom
    rw [MemNode.endAddr, Profile.add_of_lt .dev hcurrent]
    show (if _ then _ else _) ≠ _
    split_ifs with hadj
    · -- the merged node ends where `next` did
      rw [Profile.add_of_lt .dev (show current.size + next.size < wordSize by omega)]
      refine ih fun n hn => ?_
      rcases List.mem_cons.mp hn with rfl | hn
      · show current.addr + (current.size + next.size) < wordSize
        omega
      · exact hrest n hn
    · exact bind_ne_error (ih (List.forall_mem_cons.mpr ⟨hnext, hrest⟩)) fun _ h => by cases h

section Kept

variable {H : Place} {s : State}

theorem Inv.within (hI : Inv H s) {i : Interval} (hi : i ∈ s.owned) (hpos : 0 < i.len) :
    H.base ≤ i.start ∧ i.start + i.len ≤ H.base + heapSize := by
  have hmem : ∀ x, i.Mem x → H.base ≤ x ∧ x < H.base + heapSize := by
    intro x hx
    have hcover := exists_mem_iff_cover_pos.mp ⟨i, hi, hx⟩
    rw [hI.cover x] at hcover
    exact ind_pos.mp hcover
  have hfirst := hmem i.start ⟨le_rfl, by omega⟩
  have hlast := hmem (i.start + i.len - 1) ⟨by omega, by omega⟩
  omega

theorem Inv.node_within (hI : Inv H s) {n : MemNode} (hn : n ∈ s.alloc.nodes) :
    n.addr + n.size ≤ H.base + heapSize :=
  (hI.within (i := n.interval) (List.mem_append_left _ (List.mem_map_of_mem hn))
    (lt_of_lt_of_le (by decide) (hI.ok n hn).2)).2

/-- With room behind the heap the search computes no address outside the word. -/
theorem Inv.noOverflow (hI : Inv H s) (hH : H.InWord) {l : Layout} (hroom : H.Room l) :
    NoOverflow s.alloc.nodes l := by
  intro n hn
  have hend := hI.node_within hn
  have hstart := (alignedStart_bounds n l).2.1
  have hsize := (hI.ok n hn).2
  have hbase := hH.base
  unfold Place.Room at hroom
  unfold nodeSize at hsize
  exact ⟨by omega, by omega, by omega⟩

theorem Inv.innerAlloc_ne_overflow (hI : Inv H s) (hH : H.InWord) {l : Layout}
    (hroom : H.Room l) : innerAlloc .dev s.alloc l ≠ .error .overflow := by
  have hno := hI.noOverflow hH hroom
  cases hl : sizeAlign l with
  | error e =>
    unfold innerAlloc
    rw [hl]
    exact fun h => sizeAlign_ne_overflow l (hl.trans (by cases h; rfl))
  | ok l' =>
    rcases findRegion_eq hl hno with ⟨hnone, -⟩ | ⟨before, r, after, hnodes, -, hr, hsome⟩
    · rw [innerAlloc_of_none hl hnone]
      exact fun h => by cases h
    · have hmem : r ∈ s.alloc.nodes := by
        rw [hnodes]
        exact List.mem_append_right _ List.mem_cons_self
      have hrem := remainder_cases (hI.ok r hmem).1 hr
      unfold nodeSize at hrem
      rw [innerAlloc_region hl hsome (hI.ok r hmem).1 (hno r hmem).1 (by omega) (by omega)]
      split_ifs <;> exact fun h => by cases h

theorem innerAlloc_profile (hI : Inv H s) (p : Profile) {l : Layout}
    (hroom : p = .release → H.InWord ∧ H.Room l) :
    innerAlloc p s.alloc l = innerAlloc .dev s.alloc l := by
  cases p with
  | dev => rfl
  | release =>
    obtain ⟨hH, hroom⟩ := hroom rfl
    exact (agrees_innerAlloc s.alloc l).eq_of_ne (hI.innerAlloc_ne_overflow hH hroom)

theorem Inv.innerDealloc_ne_overflow (hI : Inv H s) (hH : H.InWord) {b : Block}
    (hb : b ∈ s.live) : innerDealloc .dev s.alloc b.ptr b.layout ≠ .error .overflow := by
  have hbase := hH.base
  unfold innerDealloc
  cases hl : sizeAlign b.layout with
  | error e => exact fun h => sizeAlign_ne_overflow b.layout (hl.trans (by cases h; rfl))
  | ok l' =>
    have hsize : nodeSize ≤ l'.size := (sizeAlign_spec hl).2.2.2
    have hwithin : b.ptr + l'.size ≤ H.base + heapSize := by
      have hmem : b.interval ∈ s.owned := List.mem_append_right _ (List.mem_map_of_mem hb)
      rw [Block.interval, blockSize_eq hl] at hmem
      exact (hI.within hmem (lt_of_lt_of_le (by decide) hsize)).2
    unfold nodeSize at hsize
    show addFreeRegion .dev s.alloc b.ptr l'.size >>= _ ≠ _
    cases ha : addFreeRegion .dev s.alloc b.ptr l'.size with
    | error e =>
      have hne : addFreeRegion .dev s.alloc b.ptr l'.size ≠ .error .overflow :=
        addFreeRegion_ne_overflow (by unfold nodeAlign; omega)
      exact fun h => hne (ha.trans (by cases h; rfl))
    | ok a =>
      obtain ⟨-, -, rfl⟩ := addFreeRegion_dev ha
      show coalesceFrom .dev _ _ >>= _ ≠ _
      refine bind_ne_error (coalesceFrom_ne_overflow fun n hn => ?_) fun _ h => by cases h
      rcases List.mem_cons.mp hn with rfl | hn
      · show s.alloc.head.addr + s.alloc.head.size < wordSize
        rw [hI.head]
        exact hH.head
      · rcases List.mem_cons.mp ((insertNode_perm _ _).mem_iff.mp hn) with rfl | hn
        · exact lt_of_le_of_lt hwithin hbase
        · exact lt_of_le_of_lt (hI.node_within hn) hbase

/-- `inner_dealloc` of a live block does the same under both profiles. -/
theorem innerDealloc_profile (hI : Inv H s) (p : Profile) (hH : p = .release → H.InWord)
    {b : Block} (hb : b ∈ s.live) :
    innerDealloc p s.alloc b.ptr b.layout = innerDealloc .dev s.alloc b.ptr b.layout := by
  cases p with
  | dev => rfl
  | release =>
    exact (agrees_innerDealloc _ _ _).eq_of_ne (hI.innerDealloc_ne_overflow (hH rfl) hb)

end Kept

theorem init_profile (H : Place) (p : Profile) (hH : p = .release → H.InWord) :
    init p H = init .dev H := by
  cases p with
  | dev => rfl
  | release =>
    have hbase := (hH rfl).base
    refine (agrees_addFreeRegion _ _ _).eq_of_ne (addFreeRegion_ne_overflow ?_)
    unfold heapSize pageSize at hbase
    unfold nodeAlign
    omega

end CappuccinOS.Heap
