import CappuccinOS.Heap.Alignment

/-!
# When `inner_alloc` returns

`alloc_from_node` measures what a block leaves over behind the *aligned* start of a region and
rejects a leftover of 1 to 15 bytes; `inner_alloc` cuts the block off the region's own start and
gives back what is left behind that. The second leftover is longer by the padding in front of the
aligned start, a multiple of 8, and can be 8 bytes where the first was none: `add_free_region`
then stops on its own assertion.

1. `sizeAlign_returns`, `sizeAlign_eq`: the padded layout, and when `size_align` returns.
2. `allocFromNode_eq`, `findRegion_eq`: without overflow, the first region that `Accepts`.
3. `innerAlloc_returns_iff`: the call returns exactly when the layout can be padded and that first
   region is not a `Misfit`.
-/

namespace CappuccinOS.Heap

/-! ## The padded layout -/

/-- The alignment behind `size_align`. -/
def paddedAlign (l : Layout) : ℕ := max l.align nodeAlign

/-- The size behind `size_align`. -/
def paddedSize (l : Layout) : ℕ :=
  max ((l.size + paddedAlign l - 1) / paddedAlign l * paddedAlign l) nodeSize

/-- `size` still fits `isize::MAX` when it is rounded up to `max(align, 8)`. -/
def Paddable (l : Layout) : Prop := l.size + (paddedAlign l - 1) ≤ isizeMax

instance (l : Layout) : Decidable (Paddable l) := inferInstanceAs (Decidable (_ ≤ _))

theorem paddedAlign_pow (l : Layout) : (paddedAlign l).isPowerOfTwo := by
  unfold paddedAlign
  rcases max_choice l.align nodeAlign with h | h <;> rw [h]
  · exact l.align_pow
  · exact ⟨3, rfl⟩

theorem sizeAlign_eq {l l' : Layout} (h : sizeAlign l = .ok l') :
    l'.size = paddedSize l ∧ l'.align = paddedAlign l ∧ Paddable l := by
  unfold sizeAlign Layout.alignTo at h
  obtain ⟨al, hal, h⟩ := bind_eq_ok.mp h
  obtain ⟨hsize, halign⟩ := fromSizeAlign_eq_ok hal
  obtain ⟨hsize', halign'⟩ := fromSizeAlign_eq_ok h
  have hle := al.size_le
  rw [hsize, halign] at hle
  refine ⟨?_, halign'.trans halign, hle⟩
  rw [hsize']
  show max ((al.size + al.align - 1) / al.align * al.align) nodeSize = _
  rw [hsize, halign]
  rfl

theorem sizeAlign_of_le {l : Layout} (hpad : Paddable l)
    (hle : paddedSize l + (paddedAlign l - 1) ≤ isizeMax) : ∃ l', sizeAlign l = .ok l' := by
  have hpow := paddedAlign_pow l
  have hal : l.alignTo nodeAlign = .ok ⟨l.size, paddedAlign l, hpow, hpad⟩ :=
    dif_pos ⟨hpow, hpad⟩
  refine ⟨⟨paddedSize l, paddedAlign l, hpow, hle⟩, ?_⟩
  unfold sizeAlign
  rw [hal]
  exact dif_pos ⟨hpow, hle⟩

/-- A layout of at least one byte has an alignment of at most `2 ^ 62`, so only the rounding
itself can fail. -/
theorem sizeAlign_returns {l : Layout} (hsize : 1 ≤ l.size) (hpad : Paddable l) :
    ∃ l', sizeAlign l = .ok l' := by
  have hpow := paddedAlign_pow l
  have hle : paddedSize l + (paddedAlign l - 1) ≤ isizeMax := by
    have hpadded := (⟨l.size, paddedAlign l, hpow, hpad⟩ : Layout).padded_le
    simp only at hpadded
    have h62 : paddedAlign l ≤ 2 ^ 62 := by
      obtain ⟨k, hk⟩ := hpow
      have hk62 : k ≤ 62 := by
        by_contra hlt
        have : 2 ^ 63 ≤ 2 ^ k := Nat.pow_le_pow_right (by norm_num) (by omega)
        unfold Paddable isizeMax at hpad
        omega
      rw [hk]
      exact Nat.pow_le_pow_right (by norm_num) hk62
    unfold paddedSize
    rcases max_choice ((l.size + paddedAlign l - 1) / paddedAlign l * paddedAlign l) nodeSize
      with h | h <;> rw [h]
    · exact hpadded
    · unfold nodeSize isizeMax
      omega
  exact sizeAlign_of_le hpad hle

/-! ## The region the search takes -/

/-- The aligned start of a block in a region. -/
def alignedStart (n : MemNode) (l : Layout) : ℕ :=
  (n.addr + paddedAlign l - 1) / paddedAlign l * paddedAlign l

/-- The test of `alloc_from_node`: behind the aligned block there is nothing, or room for a node. -/
def Accepts (n : MemNode) (l : Layout) : Prop :=
  alignedStart n l ≠ 0 ∧ (alignedStart n l + paddedSize l = n.addr + n.size ∨
    alignedStart n l + paddedSize l + nodeSize ≤ n.addr + n.size)

instance (n : MemNode) (l : Layout) : Decidable (Accepts n l) := inferInstanceAs (Decidable (_ ∧ _))

/-- No address the search computes leaves the word. -/
def NoOverflow (nodes : List MemNode) (l : Layout) : Prop :=
  ∀ n ∈ nodes, n.addr + n.size < wordSize ∧ n.addr + paddedAlign l < wordSize ∧
    alignedStart n l + paddedSize l < wordSize

theorem alignedStart_bounds (n : MemNode) (l : Layout) :
    n.addr ≤ alignedStart n l ∧ alignedStart n l < n.addr + paddedAlign l ∧
      paddedAlign l ∣ alignedStart n l := by
  obtain ⟨hle, hlt⟩ := roundUp_bounds n.addr (Nat.pos_of_isPowerOfTwo (paddedAlign_pow l))
  exact ⟨hle, hlt, Dvd.intro_left _ rfl⟩

section Search

variable {l l' : Layout} (hl : sizeAlign l = .ok l')

include hl

theorem allocFromNode_eq {n : MemNode} (hend : n.addr + n.size < wordSize)
    (hal : n.addr + paddedAlign l < wordSize) (hfit : alignedStart n l + paddedSize l < wordSize) :
    allocFromNode .dev n l' = .ok (if Accepts n l then alignedStart n l else 0) := by
  obtain ⟨hsize, halign, -⟩ := sizeAlign_eq hl
  have hup : alignUp .dev n.addr l'.align = .ok (alignedStart n l) := by
    rw [halign]
    exact alignUp_dev_of_lt (paddedAlign_pow l) hal
  unfold allocFromNode
  rw [hup, hsize]
  simp only [MemNode.endAddr, Profile.add_of_lt .dev hfit, Profile.add_of_lt .dev hend, bind,
    Except.bind]
  by_cases hgt : alignedStart n l + paddedSize l > n.addr + n.size
  · have hno : ¬ Accepts n l := by
      rintro ⟨-, h | h⟩ <;> unfold nodeSize at * <;> omega
    rw [if_pos hgt, if_neg hno]
    rfl
  · rw [if_neg hgt, Profile.sub_of_le .dev (Nat.le_of_not_lt hgt)]
    unfold nodeSize
    simp only
    split_ifs with hex hacc hacc
    · obtain ⟨-, h | h⟩ := hacc <;> unfold nodeSize at * <;> omega
    · rfl
    · rfl
    · -- a start of 0 reads as null
      have hzero : alignedStart n l = 0 := by
        by_contra hne
        refine hacc ⟨hne, ?_⟩
        unfold nodeSize
        omega
      rw [hzero]
      rfl

/-- The outcome of `find_region` without overflow: no region is accepted, or the first one that
is. -/
theorem findRegion_eq {nodes : List MemNode} (hno : NoOverflow nodes l) :
    (findRegion .dev l' nodes = .ok none ∧ ∀ n ∈ nodes, ¬ Accepts n l) ∨
    ∃ before r after, nodes = before ++ r :: after ∧ (∀ n ∈ before, ¬ Accepts n l) ∧
      Accepts r l ∧ findRegion .dev l' nodes = .ok (some (r, before ++ after)) := by
  induction nodes with
  | nil => exact .inl ⟨rfl, nofun⟩
  | cons node rest ih =>
    obtain ⟨hend, hal, hfit⟩ := hno node List.mem_cons_self
    have hnode := allocFromNode_eq hl hend hal hfit
    unfold findRegion
    rw [hnode]
    by_cases hacc : Accepts node l
    · refine .inr ⟨[], node, rest, rfl, nofun, hacc, ?_⟩
      rw [if_pos hacc]
      exact if_neg hacc.1
    · rw [if_neg hacc]
      rcases ih fun n hn => hno n (List.mem_cons_of_mem _ hn) with
        ⟨hnone, hall⟩ | ⟨before, r, after, rfl, hbefore, hr, hsome⟩
      · refine .inl ⟨?_, List.forall_mem_cons.mpr ⟨hacc, hall⟩⟩
        simp only [bind, Except.bind, if_pos, hnone]
        rfl
      · refine .inr ⟨node :: before, r, after, rfl, List.forall_mem_cons.mpr
          ⟨hacc, hbefore⟩, hr, ?_⟩
        simp only [bind, Except.bind, if_pos, hsome]
        rfl

end Search

/-! ## The remainder -/

/-- The region the search takes starts 8 bytes before a multiple of the alignment, which is at
least 16, and is 8 bytes longer than the block: the block fits exactly behind the aligned start,
and cutting it off the region's start leaves 8 bytes. -/
def Misfit (nodes : List MemNode) (l : Layout) : Prop :=
  ∃ before r after, nodes = before ++ r :: after ∧ (∀ n ∈ before, ¬ Accepts n l) ∧
    nodeSize ≤ paddedAlign l ∧ paddedAlign l ∣ r.addr + 8 ∧ r.size = paddedSize l + 8

/-- An accepted region leaves nothing, 8 bytes or room for a node behind its first
`paddedSize` bytes, and 8 bytes only if the block fits exactly behind the aligned start. -/
theorem remainder_cases {n : MemNode} {l : Layout} (hn : nodeAlign ∣ n.addr) (h : Accepts n l) :
    n.size = paddedSize l ∨ paddedSize l + nodeSize ≤ n.size ∨
      (nodeSize ≤ paddedAlign l ∧ paddedAlign l ∣ n.addr + 8 ∧ n.size = paddedSize l + 8) := by
  obtain ⟨hle, hlt, hdvd⟩ := alignedStart_bounds n l
  have h8 : nodeAlign ∣ alignedStart n l := (nodeAlign_dvd_max l).trans hdvd
  have hp : nodeAlign ∣ paddedAlign l := nodeAlign_dvd_max l
  obtain ⟨a, ha⟩ := hn
  obtain ⟨b, hb⟩ := h8
  obtain ⟨c, hc⟩ := hp
  unfold nodeAlign at ha hb hc
  unfold nodeSize
  obtain ⟨-, h | h⟩ := h
  · by_cases heq : alignedStart n l = n.addr + 8
    · refine .inr (.inr ⟨by omega, heq ▸ hdvd, by omega⟩)
    · omega
  · unfold nodeSize at h
    omega

/-- Two first elements with a property are the same element. -/
theorem first_unique {α : Type} {p : α → Prop} {a b a' b' : List α} {x y : α}
    (ha : ∀ n ∈ a, ¬ p n) (hx : p x) (hb : ∀ n ∈ b, ¬ p n) (hy : p y)
    (h : a ++ x :: a' = b ++ y :: b') : x = y := by
  induction a generalizing b with
  | nil =>
    cases b with
    | nil => exact (List.cons.inj h).1
    | cons n b =>
      obtain ⟨rfl, -⟩ := List.cons.inj h
      exact absurd hx (hb x List.mem_cons_self)
  | cons m a ih =>
    cases b with
    | nil =>
      obtain ⟨rfl, -⟩ := List.cons.inj h
      exact absurd hy (ha m List.mem_cons_self)
    | cons n b =>
      exact ih (fun k hk => ha k (List.mem_cons_of_mem _ hk))
        (fun k hk => hb k (List.mem_cons_of_mem _ hk)) (List.cons.inj h).2

theorem accepts_of_misfit {n : MemNode} {l : Layout} (hal : nodeSize ≤ paddedAlign l)
    (hdvd : paddedAlign l ∣ n.addr + 8) (hsize : n.size = paddedSize l + 8) : Accepts n l := by
  have hstart : alignedStart n l = n.addr + 8 :=
    roundUp_unique (Nat.pos_of_isPowerOfTwo (paddedAlign_pow l)) hdvd (Nat.le_add_right _ _)
      (by unfold nodeSize at hal; omega)
  exact ⟨by omega, .inl (by omega)⟩

theorem addFreeRegion_eq {a : LinkedListAllocator} {ptr size : ℕ} (hptr : nodeAlign ∣ ptr)
    (hlt : ptr + nodeAlign < wordSize) :
    addFreeRegion .dev a ptr size =
      if nodeSize ≤ size then .ok { a with nodes := insertNode ⟨ptr, size⟩ a.nodes }
      else .error .assertion := by
  have hpow : nodeAlign.isPowerOfTwo := ⟨3, rfl⟩
  unfold addFreeRegion
  rw [alignUp_dev_of_dvd hpow hptr hlt]
  simp only [bind, Except.bind, check, if_pos]
  split_ifs <;> rfl

/-- `inner_alloc` on the region it takes: the block is the region's front, and what lies behind it
goes back to the list or stops the call. -/
theorem innerAlloc_region {a : LinkedListAllocator} {l l' : Layout} {r : MemNode}
    {rest : List MemNode} (hl : sizeAlign l = .ok l')
    (hfind : findRegion .dev l' a.nodes = .ok (some (r, rest))) (hr : nodeAlign ∣ r.addr)
    (hend : r.addr + r.size < wordSize) (hsize : paddedSize l ≤ r.size)
    (hextra : r.size = paddedSize l ∨ paddedSize l + 8 ≤ r.size) :
    innerAlloc .dev a l =
      if r.size = paddedSize l then .ok (r.addr, { a with nodes := rest })
      else if paddedSize l + nodeSize ≤ r.size then
        .ok (r.addr,
          { a with nodes := insertNode ⟨r.addr + paddedSize l, r.size - paddedSize l⟩ rest })
      else .error .assertion := by
  obtain ⟨hs, -, -⟩ := sizeAlign_eq hl
  have hdvd : nodeAlign ∣ r.addr + paddedSize l := by
    have := (sizeAlign_spec hl).2.2.1
    rw [hs] at this
    exact dvd_add hr this
  have hleft : r.addr + r.size - (r.addr + paddedSize l) = r.size - paddedSize l :=
    Nat.add_sub_add_left _ _ _
  unfold innerAlloc
  simp only [hl, hfind, hs, MemNode.endAddr, bind, Except.bind, Profile.add_of_lt .dev hend,
    Profile.add_of_lt .dev (show r.addr + paddedSize l < wordSize by omega),
    Profile.sub_of_le .dev (show r.addr + paddedSize l ≤ r.addr + r.size by omega), hleft]
  by_cases heq : r.size = paddedSize l
  · rw [if_neg (by omega), if_pos heq]
    rfl
  · rw [if_pos (by omega), if_neg heq,
      addFreeRegion_eq hdvd (by unfold nodeAlign; omega)]
    by_cases hge : paddedSize l + nodeSize ≤ r.size
    · rw [if_pos (by omega), if_pos hge]
      rfl
    · rw [if_neg (by omega), if_neg hge]

/-- **When an allocation trips no assertion.** In every reachable state and for every layout of at
least one byte whose search overflows no address, `inner_alloc` returns exactly when the layout's
size can be padded and the first region that `alloc_from_node` accepts is not a misfit. -/
theorem innerAlloc_returns_iff {H : Place} {s : State} (hs : Reachable .dev H s) {layout : Layout}
    (hsize : 1 ≤ layout.size) (hno : NoOverflow s.alloc.nodes layout) :
    (∃ r, innerAlloc .dev s.alloc layout = .ok r) ↔
      Paddable layout ∧ ¬ Misfit s.alloc.nodes layout := by
  have hok := (inv_of_reachable hs).ok
  by_cases hpad : Paddable layout
  · obtain ⟨l', hl⟩ := sizeAlign_returns hsize hpad
    rcases findRegion_eq hl hno with ⟨hnone, hall⟩ | ⟨before, r, after, hnodes, hbefore, hr, hsome⟩
    · -- no region: the call returns null
      have hret := innerAlloc_of_none hl hnone
      refine ⟨fun _ => ⟨hpad, ?_⟩, fun _ => ⟨_, hret⟩⟩
      rintro ⟨before, r, after, hnodes, -, hal, hdvd, hrsize⟩
      refine hall r ?_ (accepts_of_misfit hal hdvd hrsize)
      rw [hnodes]
      exact List.mem_append_right _ List.mem_cons_self
    · have hmem : r ∈ s.alloc.nodes := by
        rw [hnodes]
        exact List.mem_append_right _ List.mem_cons_self
      have hrem := remainder_cases (hok r hmem).1 hr
      have hcall := innerAlloc_region hl hsome (hok r hmem).1 (hno r hmem).1
        (by unfold nodeSize at hrem; omega) (by unfold nodeSize at hrem; omega)
      rw [hcall]
      constructor
      · rintro ⟨res, hres⟩
        refine ⟨hpad, ?_⟩
        rintro ⟨before', r', after', hnodes', hbefore', hal, hdvd, hrsize⟩
        -- the search takes the first accepted region, and the misfit is accepted
        have hr' : r' = r :=
          first_unique hbefore' (accepts_of_misfit hal hdvd hrsize) hbefore hr
            (hnodes'.symm.trans hnodes)
        subst hr'
        rw [if_neg (by omega), if_neg (by unfold nodeSize; omega)] at hres
        cases hres
      · rintro ⟨-, hfit⟩
        rcases hrem with heq | hge | ⟨hal, hdvd, hrsize⟩
        · exact ⟨_, if_pos heq⟩
        · rw [if_neg (by unfold nodeSize at hge; omega), if_pos hge]
          exact ⟨_, rfl⟩
        · exact absurd ⟨before, r, after, hnodes, hbefore, hal, hdvd, hrsize⟩ hfit
  · refine ⟨?_, fun h => absurd h.1 hpad⟩
    rintro ⟨res, hres⟩
    unfold innerAlloc at hres
    obtain ⟨l', hl, -⟩ := bind_eq_ok.mp hres
    exact absurd (sizeAlign_eq hl).2.2 hpad

theorem innerAlloc_returns_iff_demo :
    (∃ r, innerAlloc .dev demoState.alloc demoLayout = .ok r) ↔
      Paddable demoLayout ∧ ¬ Misfit demoState.alloc.nodes demoLayout := by
  apply innerAlloc_returns_iff demoState_reachable (by decide)
  intro n hn
  obtain rfl := List.mem_singleton.mp hn
  decide

/-- All but the first 32 bytes of the heap, aligned to sixteen. -/
def misfitLayout : Layout := ⟨heapSize - 32, 16, isPowerOfTwo_sixteen, by decide⟩

/-- Behind one 24-byte block, a 16-aligned request for the rest of the heap fits exactly from the
aligned start on, and the call stops on the 8 bytes left behind the unaligned one. -/
theorem innerAlloc_panics :
    Reachable .dev demoPlace demoState ∧ 1 ≤ misfitLayout.size ∧
      NoOverflow demoState.alloc.nodes misfitLayout ∧
      innerAlloc .dev demoState.alloc misfitLayout = .error .assertion := by
  refine ⟨demoState_reachable, by decide, ?_, by decide⟩
  intro n hn
  obtain rfl := List.mem_singleton.mp hn
  decide

end CappuccinOS.Heap
