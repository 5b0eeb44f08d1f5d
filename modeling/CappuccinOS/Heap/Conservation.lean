import CappuccinOS.Heap.Allocator
import CappuccinOS.Lib.Cover

/-!
# The heap loses and duplicates no byte

`Inv` is kept by every call of the `dev` profile that returns: the free regions and the live
blocks cover each byte of the heap exactly once and no other byte, and the free list is strictly
sorted, with every node aligned and long enough to hold itself.

1. Each allocator function has one lemma that says what a returning call did to the list
   (`addFreeRegion_dev`, `findRegion_some`, `innerAlloc_dev`, `coalesceMemory_dev`).
2. Cutting a region and merging two neighbours keep the cover count (`ind_split`), so the count
   of regions and blocks together is constant along a run (`inv_step`).
-/

namespace CappuccinOS.Heap

open Cover

/-! ## Layout arithmetic -/

theorem fromSizeAlign_eq_ok {size align : ℕ} {l : Layout}
    (h : Layout.fromSizeAlign size align = .ok l) : l.size = size ∧ l.align = align := by
  unfold Layout.fromSizeAlign at h
  split_ifs at h
  cases h
  exact ⟨rfl, rfl⟩

theorem nodeAlign_dvd_max (l : Layout) : nodeAlign ∣ max l.align nodeAlign := by
  obtain ⟨k, hk⟩ := l.align_pow
  rcases Nat.lt_or_ge k 3 with h | h
  · have : l.align ≤ nodeAlign := by
      rw [hk]; exact Nat.pow_le_pow_right (by norm_num) (show k ≤ 3 by omega)
    rw [max_eq_right this]
  · have hd : nodeAlign ∣ l.align := by
      rw [hk]; exact pow_dvd_pow 2 h
    rw [max_eq_left (Nat.le_of_dvd l.align_pos hd)]
    exact hd

theorem sizeAlign_spec {l l' : Layout} (h : sizeAlign l = .ok l') :
    l'.align = max l.align nodeAlign ∧ l.size ≤ l'.size ∧ nodeAlign ∣ l'.size ∧
      nodeSize ≤ l'.size := by
  unfold sizeAlign Layout.alignTo at h
  obtain ⟨al, hal, h⟩ := bind_eq_ok.mp h
  obtain ⟨hsize, halign⟩ := fromSizeAlign_eq_ok hal
  obtain ⟨hsize', halign'⟩ := fromSizeAlign_eq_ok h
  have hpad : al.size ≤ al.padToAlign.size := (roundUp_bounds al.size al.align_pos).1
  have hdvd : nodeAlign ∣ al.padToAlign.size := by
    show nodeAlign ∣ (al.size + al.align - 1) / al.align * al.align
    exact Dvd.dvd.mul_left (halign ▸ nodeAlign_dvd_max l) _
  rw [hsize', halign']
  refine ⟨halign, le_trans (hsize ▸ hpad) (le_max_left _ _), ?_, le_max_right _ _⟩
  rcases max_choice al.padToAlign.size nodeSize with e | e
  · rw [e]; exact hdvd
  · rw [e]; exact ⟨2, rfl⟩

/-! ## What each function does to the list -/

/-- The bytes of a free region. -/
def MemNode.interval (n : MemNode) : Interval := ⟨n.addr, n.size⟩

/-- The addresses of the nodes, in list order. -/
def addrs (l : List MemNode) : List ℕ := l.map MemNode.addr

/-- The list is strictly sorted by address. -/
def Sorted (l : List MemNode) : Prop := (addrs l).Pairwise (· < ·)

/-- A node the list may hold: aligned, and long enough for a `MemNode`. -/
def MemNode.Ok (n : MemNode) : Prop := nodeAlign ∣ n.addr ∧ nodeSize ≤ n.size

theorem insertNode_perm (n : MemNode) (l : List MemNode) : (insertNode n l).Perm (n :: l) := by
  induction l with
  | nil => exact List.Perm.refl _
  | cons next rest ih =>
    unfold insertNode
    split_ifs
    · exact List.Perm.refl _
    · exact (ih.cons next).trans (List.Perm.swap n next rest)

theorem sorted_insertNode {n : MemNode} {l : List MemNode} (hl : Sorted l)
    (hne : ∀ m ∈ l, m.addr ≠ n.addr) : Sorted (insertNode n l) := by
  induction l with
  | nil => exact List.pairwise_singleton _ _
  | cons next rest ih =>
    obtain ⟨hnext, hrest⟩ := List.pairwise_cons.mp hl
    unfold insertNode
    split_ifs with h
    · refine List.pairwise_cons.mpr ⟨?_, hl⟩
      intro a ha
      rcases List.mem_cons.mp ha with rfl | ha
      · exact h
      · exact lt_trans h (hnext a ha)
    · have hlt : next.addr < n.addr := by
        have := hne next List.mem_cons_self
        omega
      refine List.pairwise_cons.mpr ⟨?_, ih hrest fun m hm => hne m (List.mem_cons_of_mem _ hm)⟩
      intro a ha
      obtain ⟨m, hm, rfl⟩ := List.mem_map.mp ha
      rcases List.mem_cons.mp ((insertNode_perm n rest).mem_iff.mp hm) with rfl | hm
      · exact hlt
      · exact hnext _ (List.mem_map_of_mem hm)

theorem addFreeRegion_dev {a a' : LinkedListAllocator} {ptr size : ℕ}
    (h : addFreeRegion .dev a ptr size = .ok a') :
    nodeAlign ∣ ptr ∧ nodeSize ≤ size ∧
      a' = { a with nodes := insertNode ⟨ptr, size⟩ a.nodes } := by
  unfold addFreeRegion at h
  simp only [bind_eq_ok, check_eq_ok, exists_const, pure_eq_ok] at h
  obtain ⟨up, hup, rfl, hsize, rfl⟩ := h
  exact ⟨alignUp_dev_eq_self hup, hsize, rfl⟩

/-- A start accepted by `alloc_from_node` lies in the node with all of the layout behind it. -/
theorem allocFromNode_dev {node : MemNode} {layout : Layout} {start : ℕ}
    (h : allocFromNode .dev node layout = .ok start) (h0 : start ≠ 0) :
    node.addr ≠ 0 ∧ node.addr ≤ start ∧ start + layout.size ≤ node.addr + node.size ∧
      node.addr + node.size < wordSize := by
  unfold allocFromNode at h
  simp only [bind_eq_ok, MemNode.endAddr, Profile.add_dev_eq_ok] at h
  obtain ⟨st, hst, _, ⟨rfl, -⟩, _, ⟨rfl, hend⟩, h⟩ := h
  split_ifs at h with hgt
  · exact absurd (pure_eq_ok.mp h).symm h0
  · obtain ⟨extra, -, h⟩ := bind_eq_ok.mp h
    split_ifs at h with hex
    · exact absurd (pure_eq_ok.mp h).symm h0
    · obtain rfl := pure_eq_ok.mp h
      refine ⟨?_, (alignUp_dev hst).1, by omega, hend⟩
      intro hz
      obtain ⟨hpow, -, hr⟩ := alignUp_dev_eq_ok hst
      rw [hz, zero_add, Nat.div_eq_of_lt (by have := layout.align_pos; omega), zero_mul] at hr
      exact h0 hr

/-- `find_region` unlinks one node, the first that is accepted. -/
theorem findRegion_some {p : Profile} {layout : Layout} {l rest : List MemNode} {r : MemNode}
    (h : findRegion p layout l = .ok (some (r, rest))) :
    ∃ before after start, l = before ++ r :: after ∧ rest = before ++ after ∧
      allocFromNode p r layout = .ok start ∧ start ≠ 0 := by
  induction l generalizing rest with
  | nil => cases h
  | cons node tail ih =>
    unfold findRegion at h
    obtain ⟨start, hstart, h⟩ := bind_eq_ok.mp h
    split_ifs at h with h0
    · obtain ⟨q, hq, h⟩ := bind_eq_ok.mp h
      obtain ⟨⟨r', rest'⟩, rfl, he⟩ := Option.map_eq_some_iff.mp (pure_eq_ok.mp h)
      cases he
      obtain ⟨before, after, st, rfl, rfl, hst⟩ := ih hq
      exact ⟨node :: before, after, st, rfl, rfl, hst⟩
    · cases pure_eq_ok.mp h
      exact ⟨[], tail, start, rfl, rfl, hstart, h0⟩

/-- What a returning `inner_alloc` did: nothing (null), or it took the front of one region and
gave the remainder, if any, back. -/
theorem innerAlloc_dev {a a' : LinkedListAllocator} {layout : Layout} {ptr : ℕ}
    (h : innerAlloc .dev a layout = .ok (ptr, a')) :
    (ptr = 0 ∧ a' = a) ∨
    ∃ before r after layout', sizeAlign layout = .ok layout' ∧ a.nodes = before ++ r :: after ∧
      ptr = r.addr ∧ ptr ≠ 0 ∧ a'.head = a.head ∧
      ((r.size = layout'.size ∧ a'.nodes = before ++ after) ∨
        ∃ extra, r.size = layout'.size + extra ∧ nodeAlign ∣ r.addr + layout'.size ∧
          nodeSize ≤ extra ∧
          a'.nodes = insertNode ⟨r.addr + layout'.size, extra⟩ (before ++ after)) := by
  unfold innerAlloc at h
  obtain ⟨layout', hlayout, h⟩ := bind_eq_ok.mp h
  obtain ⟨found, hfound, h⟩ := bind_eq_ok.mp h
  match found with
  | none =>
    obtain ⟨rfl, rfl⟩ := Prod.mk.inj (pure_eq_ok.mp h)
    exact .inl ⟨rfl, rfl⟩
  | some (r, rest) =>
    obtain ⟨before, after, start, hnodes, rfl, hstart, hstart0⟩ := findRegion_some hfound
    obtain ⟨hr0, hle, hfit, -⟩ := allocFromNode_dev hstart hstart0
    simp only [bind_eq_ok, MemNode.endAddr, Profile.add_dev_eq_ok, Profile.sub_dev_eq_ok] at h
    obtain ⟨_, ⟨rfl, -⟩, _, ⟨rfl, -⟩, _, ⟨rfl, hsub⟩, h⟩ := h
    refine .inr ⟨before, r, after, layout', hlayout, hnodes, ?_⟩
    split_ifs at h with hextra
    · obtain ⟨b, hb, h⟩ := bind_eq_ok.mp h
      obtain ⟨rfl, rfl⟩ := Prod.mk.inj (pure_eq_ok.mp h)
      obtain ⟨hal, hsz, rfl⟩ := addFreeRegion_dev hb
      exact ⟨rfl, hr0, rfl, .inr ⟨_, by omega, hal, hsz, rfl⟩⟩
    · obtain ⟨rfl, rfl⟩ := Prod.mk.inj (pure_eq_ok.mp h)
      exact ⟨rfl, hr0, rfl, .inl ⟨by omega, rfl⟩⟩

/-- The coalescing loop merges neighbours: it drops nodes, moves none, and keeps the cover. -/
theorem coalesceFrom_dev {l l' : List MemNode} {current c : MemNode}
    (h : coalesceFrom .dev current l = .ok (c, l')) :
    (addrs (c :: l')).Sublist (addrs (current :: l)) ∧
      (∀ x, cover ((c :: l').map MemNode.interval) x =
        cover ((current :: l).map MemNode.interval) x) ∧
      (∀ k, (∀ n ∈ current :: l, k ≤ n.size) → ∀ n ∈ c :: l', k ≤ n.size) := by
  induction l generalizing current c l' with
  | nil =>
    cases pure_eq_ok.mp h
    exact ⟨List.Sublist.refl _, fun _ => rfl, fun _ hk => hk⟩
  | cons next rest ih =>
    unfold coalesceFrom at h
    simp only [bind_eq_ok, MemNode.endAddr, Profile.add_dev_eq_ok] at h
    obtain ⟨_, ⟨rfl, -⟩, h⟩ := h
    split_ifs at h with hadj
    · obtain ⟨_, ⟨rfl, -⟩, h⟩ := bind_eq_ok.mp h |>.imp fun _ =>
        And.imp_left Profile.add_dev_eq_ok.mp
      obtain ⟨hsub, hcov, hsz⟩ := ih h
      refine ⟨hsub.trans ?_, fun x => ?_, fun k hk => hsz k ?_⟩
      · exact (List.sublist_cons_self _ _).cons_cons _
      · rw [hcov x]
        simp only [List.map_cons, cover_cons, MemNode.interval, ind_split, hadj]
        omega
      · intro n hn
        have h1 := hk current List.mem_cons_self
        rcases List.mem_cons.mp hn with rfl | hn
        · exact le_trans h1 (Nat.le_add_right _ _)
        · exact hk n (List.mem_cons_of_mem _ (List.mem_cons_of_mem _ hn))
    · obtain ⟨⟨c', l''⟩, hr, h⟩ := bind_eq_ok.mp h
      cases pure_eq_ok.mp h
      obtain ⟨hsub, hcov, hsz⟩ := ih hr
      refine ⟨hsub.cons_cons _, fun x => ?_, fun k hk => ?_⟩
      · have := hcov x
        rw [List.map_cons, cover_cons, this]
        rfl
      · intro n hn
        rcases List.mem_cons.mp hn with rfl | hn
        · exact hk _ List.mem_cons_self
        · exact hsz k (fun m hm => hk m (List.mem_cons_of_mem _ hm)) n hn

/-- `coalesce_memory` when the head node, which is empty, does not end where the list starts. -/
theorem coalesceMemory_dev {a a' : LinkedListAllocator} (hsize : a.head.size = 0)
    (hhead : ∀ n ∈ a.nodes, n.addr ≠ a.head.addr) (h : coalesceMemory .dev a = .ok a') :
    a'.head = a.head ∧ (addrs a'.nodes).Sublist (addrs a.nodes) ∧
      (∀ x, cover (a'.nodes.map MemNode.interval) x = cover (a.nodes.map MemNode.interval) x) ∧
      (∀ k, (∀ n ∈ a.nodes, k ≤ n.size) → ∀ n ∈ a'.nodes, k ≤ n.size) := by
  obtain ⟨head, nodes⟩ := a
  unfold coalesceMemory at h
  obtain ⟨⟨c, l⟩, hr, h⟩ := bind_eq_ok.mp h
  cases pure_eq_ok.mp h
  match nodes with
  | [] =>
    cases pure_eq_ok.mp hr
    exact ⟨rfl, List.Sublist.refl _, fun _ => rfl, fun _ hk => hk⟩
  | next :: rest =>
    unfold coalesceFrom at hr
    simp only [bind_eq_ok, MemNode.endAddr, Profile.add_dev_eq_ok] at hr
    obtain ⟨_, ⟨rfl, -⟩, hr⟩ := hr
    have hne := hhead next List.mem_cons_self
    rw [if_neg (by rw [hsize]; exact fun e => hne e.symm)] at hr
    obtain ⟨⟨c', l'⟩, hr', he⟩ := bind_eq_ok.mp hr
    cases pure_eq_ok.mp he
    exact ⟨rfl, coalesceFrom_dev hr'⟩

/-! ## The invariant -/

/-- The bytes a layout takes, after `size_align`. -/
def blockSize (l : Layout) : ℕ :=
  match sizeAlign l with
  | .ok l' => l'.size
  | .error _ => 0

theorem blockSize_eq {l l' : Layout} (h : sizeAlign l = .ok l') : blockSize l = l'.size := by
  unfold blockSize; rw [h]

/-- The bytes of a live block. -/
def Block.interval (b : Block) : Interval := ⟨b.ptr, blockSize b.layout⟩

/-- The free regions and the live blocks. -/
def State.owned (s : State) : List Interval :=
  s.alloc.nodes.map MemNode.interval ++ s.live.map Block.interval

/-- What every call keeps. -/
structure Inv (H : Place) (s : State) : Prop where
  head : s.alloc.head = ⟨H.head, 0⟩
  sorted : Sorted s.alloc.nodes
  ok : ∀ n ∈ s.alloc.nodes, n.Ok
  cover : ∀ x, cover s.owned x = ind ⟨H.base, heapSize⟩ x

theorem ind_le_one (i : Interval) (x : ℕ) : ind i x ≤ 1 := by
  unfold ind; split_ifs <;> omega

theorem cover_insertNode (n : MemNode) (l : List MemNode) (x : ℕ) :
    Cover.cover ((insertNode n l).map MemNode.interval) x =
      ind n.interval x + Cover.cover (l.map MemNode.interval) x :=
  cover_perm ((insertNode_perm n l).map _) x

/-- A region that shares no byte with the list can be linked into it: no node starts where it
does, so the list stays strictly sorted. -/
theorem sorted_insertNode_of_cover {n : MemNode} {l : List MemNode} (hl : Sorted l) (hn : n.Ok)
    (hok : ∀ m ∈ l, m.Ok)
    (hcov : ∀ x, ind n.interval x + Cover.cover (l.map MemNode.interval) x ≤ 1) :
    Sorted (insertNode n l) := by
  refine sorted_insertNode hl fun m hm heq => ?_
  have h1 : ind n.interval n.addr = 1 := ind_start (i := n.interval) (by
    have := hn.2; unfold nodeSize at this; show 0 < n.size; omega)
  have h2 : ind m.interval m.addr = 1 := ind_start (i := m.interval) (by
    have := (hok m hm).2; unfold nodeSize at this; show 0 < m.size; omega)
  have h3 := ind_le_cover (List.mem_map_of_mem (f := MemNode.interval) hm) m.addr
  have h4 := hcov n.addr
  rw [heq] at h2 h3
  omega

theorem ok_insertNode {n : MemNode} {l : List MemNode} (hn : n.Ok) (hok : ∀ m ∈ l, m.Ok) :
    ∀ m ∈ insertNode n l, m.Ok := by
  intro m hm
  rcases List.mem_cons.mp ((insertNode_perm n l).mem_iff.mp hm) with rfl | hm
  · exact hn
  · exact hok m hm

theorem inv_init {H : Place} {a : LinkedListAllocator} (h : init .dev H = .ok a) :
    Inv H ⟨a, []⟩ := by
  obtain ⟨hal, hsz, rfl⟩ := addFreeRegion_dev h
  refine ⟨rfl, List.pairwise_singleton _ _, ?_, fun x => ?_⟩
  · intro n hn
    obtain rfl := List.mem_singleton.mp hn
    exact ⟨hal, hsz⟩
  · simp [State.owned, LinkedListAllocator.new, insertNode, MemNode.interval]

theorem good_unlink {before after : List MemNode} {r : MemNode}
    (hs : Sorted (before ++ r :: after)) (hok : ∀ n ∈ before ++ r :: after, n.Ok) :
    Sorted (before ++ after) ∧ ∀ n ∈ before ++ after, n.Ok := by
  have hsub : (before ++ after).Sublist (before ++ r :: after) :=
    (List.Sublist.refl before).append (List.sublist_cons_self r after)
  exact ⟨hs.sublist (hsub.map _), fun n hn => hok n (hsub.subset hn)⟩

theorem inv_alloc {H : Place} {s : State} (hI : Inv H s) {layout : Layout} {ptr : ℕ}
    {a : LinkedListAllocator} (h : innerAlloc .dev s.alloc layout = .ok (ptr, a)) (h0 : ptr ≠ 0) :
    Inv H ⟨a, ⟨ptr, layout⟩ :: s.live⟩ := by
  rcases innerAlloc_dev h with ⟨rfl, -⟩ | ⟨before, r, after, layout', hl, hnodes, rfl, -, hh, hrest⟩
  · exact absurd rfl h0
  have hcov : ∀ x, ind r.interval x + Cover.cover ((before ++ after).map MemNode.interval) x +
      Cover.cover (s.live.map Block.interval) x = ind ⟨H.base, heapSize⟩ x := by
    intro x
    rw [← hI.cover x, State.owned, hnodes]
    simp only [List.map_append, List.map_cons, cover_append, cover_cons]
    omega
  obtain ⟨hsorted, hok⟩ := good_unlink (hnodes ▸ hI.sorted) (hnodes ▸ hI.ok)
  have hblock : Block.interval ⟨r.addr, layout⟩ = ⟨r.addr, layout'.size⟩ := by
    rw [Block.interval, blockSize_eq hl]
  rcases hrest with ⟨hsize, hn⟩ | ⟨extra, hsize, hal, hsz, hn⟩
  · -- the region is used up
    refine ⟨hh.trans hI.head, hn ▸ hsorted, hn ▸ hok, fun x => ?_⟩
    rw [← hcov x, State.owned, hn]
    simp only [List.map_cons, cover_append, cover_cons, hblock, MemNode.interval, hsize]
    omega
  · -- the remainder goes back
    have hind : ∀ x, ind r.interval x =
        ind ⟨r.addr, layout'.size⟩ x + ind ⟨r.addr + layout'.size, extra⟩ x := by
      intro x
      rw [MemNode.interval, hsize, ind_split]
    have hnew : MemNode.Ok ⟨r.addr + layout'.size, extra⟩ := ⟨hal, hsz⟩
    refine ⟨hh.trans hI.head, hn ▸ ?_, hn ▸ ok_insertNode hnew hok, fun x => ?_⟩
    · refine sorted_insertNode_of_cover hsorted hnew hok fun x => ?_
      have h1 := hcov x
      have h2 := hind x
      have h3 := ind_le_one ⟨H.base, heapSize⟩ x
      show ind ⟨r.addr + layout'.size, extra⟩ x + _ ≤ 1
      omega
    · rw [← hcov x, State.owned, hn, hind x]
      simp only [List.map_cons, cover_append, cover_cons, hblock, cover_insertNode,
        MemNode.interval]
      omega

theorem inv_allocNull {H : Place} {s : State} (hI : Inv H s) {layout : Layout}
    {a : LinkedListAllocator} (h : innerAlloc .dev s.alloc layout = .ok (0, a)) :
    Inv H ⟨a, s.live⟩ := by
  rcases innerAlloc_dev h with ⟨-, rfl⟩ | ⟨_, _, _, _, _, _, _, h0, _⟩
  · exact hI
  · exact absurd rfl h0

/-- Every node of the list lies in the heap, hence not at the head node's address. -/
theorem node_addr_ne_head {H : Place} {l : List MemNode} (hok : ∀ n ∈ l, n.Ok)
    (hcov : ∀ x, Cover.cover (l.map MemNode.interval) x ≤ ind ⟨H.base, heapSize⟩ x) :
    ∀ n ∈ l, n.addr ≠ H.head := by
  intro n hn heq
  have h1 : ind n.interval n.addr = 1 := ind_start (i := n.interval) (by
    have := (hok n hn).2; unfold nodeSize at this; show 0 < n.size; omega)
  have h2 := ind_le_cover (List.mem_map_of_mem (f := MemNode.interval) hn) n.addr
  have h3 := hcov n.addr
  have hmem : Interval.Mem ⟨H.base, heapSize⟩ n.addr := ind_pos.mp (by omega)
  have := H.head_outside
  simp only [Interval.Mem] at hmem
  omega

theorem inv_dealloc {H : Place} {s : State} (hI : Inv H s) {b : Block} {a : LinkedListAllocator}
    (hb : b ∈ s.live) (h : innerDealloc .dev s.alloc b.ptr b.layout = .ok a) :
    Inv H ⟨a, s.live.erase b⟩ := by
  unfold innerDealloc at h
  obtain ⟨layout', hl, h⟩ := bind_eq_ok.mp h
  obtain ⟨m, hm, h⟩ := bind_eq_ok.mp h
  obtain ⟨hal, hsz, rfl⟩ := addFreeRegion_dev hm
  have hcov : ∀ x, ind ⟨b.ptr, layout'.size⟩ x +
      Cover.cover (s.alloc.nodes.map MemNode.interval) x +
      Cover.cover ((s.live.erase b).map Block.interval) x = ind ⟨H.base, heapSize⟩ x := by
    intro x
    have hperm := cover_perm ((List.perm_cons_erase hb).map Block.interval) x
    rw [← hI.cover x, State.owned, cover_append, hperm, List.map_cons, cover_cons,
      Block.interval, blockSize_eq hl]
    omega
  have hle : ∀ x, Cover.cover ((insertNode ⟨b.ptr, layout'.size⟩ s.alloc.nodes).map
      MemNode.interval) x ≤ ind ⟨H.base, heapSize⟩ x := by
    intro x
    have := hcov x
    rw [cover_insertNode]
    show ind ⟨b.ptr, layout'.size⟩ x + _ ≤ _
    omega
  have hnew : MemNode.Ok ⟨b.ptr, layout'.size⟩ := ⟨hal, hsz⟩
  have hok := ok_insertNode hnew hI.ok
  have hsorted : Sorted (insertNode ⟨b.ptr, layout'.size⟩ s.alloc.nodes) := by
    refine sorted_insertNode_of_cover hI.sorted hnew hI.ok fun x => ?_
    have h1 := hle x
    have h2 := ind_le_one ⟨H.base, heapSize⟩ x
    rw [cover_insertNode] at h1
    omega
  have hhead : ∀ n ∈ insertNode ⟨b.ptr, layout'.size⟩ s.alloc.nodes,
      n.addr ≠ s.alloc.head.addr := by
    rw [hI.head]; exact node_addr_ne_head hok hle
  obtain ⟨hh, hsub, hc, hk⟩ := coalesceMemory_dev (by show s.alloc.head.size = 0; rw [hI.head])
    hhead h
  refine ⟨hh.trans hI.head, hsorted.sublist hsub, fun n hn => ⟨?_, ?_⟩, fun x => ?_⟩
  · obtain ⟨n', hn', he⟩ := List.mem_map.mp (hsub.subset (List.mem_map_of_mem hn))
    exact he ▸ (hok n' hn').1
  · exact hk nodeSize (fun n hn => (hok n hn).2) n hn
  · rw [← hcov x, State.owned, cover_append, hc x, cover_insertNode, MemNode.interval]

theorem inv_step {H : Place} {s s' : State} (hI : Inv H s) (h : Step .dev s s') : Inv H s' := by
  cases h with
  | alloc _ h h0 => exact inv_alloc hI h h0
  | allocNull _ h => exact inv_allocNull hI h
  | dealloc hb h => exact inv_dealloc hI hb h

theorem inv_of_reachable {H : Place} {s : State} (h : Reachable .dev H s) : Inv H s := by
  obtain ⟨a, ha, hrun⟩ := h
  induction hrun with
  | refl => exact inv_init ha
  | tail _ hstep ih => exact inv_step ih hstep

/-- **Conservation.** In every run of returning calls, the free regions and the live blocks
partition the heap, and the free list is strictly sorted with aligned nodes of at least 16
bytes. -/
theorem heap_conservation {H : Place} {s : State} (h : Reachable .dev H s) :
    s.owned.Pairwise Interval.Apart ∧
      (∀ x, (∃ i ∈ s.owned, i.Mem x) ↔ H.base ≤ x ∧ x < H.base + heapSize) ∧
      Sorted s.alloc.nodes ∧ ∀ n ∈ s.alloc.nodes, nodeAlign ∣ n.addr ∧ nodeSize ≤ n.size := by
  have hI := inv_of_reachable h
  refine ⟨?_, fun x => ?_, hI.sorted, hI.ok⟩
  · exact pairwise_disjoint_of_cover_le_one fun x => hI.cover x ▸ ind_le_one _ x
  · rw [exists_mem_iff_cover_pos, hI.cover x, ind_pos]
    exact Iff.rfl

/-- A heap at 8 MiB with the head node at 4 KiB. -/
def demoPlace : Place := ⟨0x800000, 0x1000, by decide, by decide⟩

/-- Twenty-four bytes, aligned to eight. -/
def demoLayout : Layout := ⟨24, 8, isPowerOfTwo_eight, by decide⟩

/-- The heap after one allocation of `demoLayout`. -/
def demoState : State :=
  ⟨⟨⟨0x1000, 0⟩, [⟨0x800018, heapSize - 24⟩]⟩, [⟨0x800000, demoLayout⟩]⟩

theorem demoState_reachable : Reachable .dev demoPlace demoState :=
  ⟨⟨⟨0x1000, 0⟩, [⟨0x800000, heapSize⟩]⟩, by decide,
    Relation.ReflTransGen.single (Step.alloc (by decide) (by decide) (by decide))⟩

theorem heap_conservation_demo :
    demoState.owned.Pairwise Interval.Apart ∧
      (∀ x, (∃ i ∈ demoState.owned, i.Mem x) ↔ 0x800000 ≤ x ∧ x < 0x800000 + heapSize) ∧
      Sorted demoState.alloc.nodes ∧
      ∀ n ∈ demoState.alloc.nodes, nodeAlign ∣ n.addr ∧ nodeSize ≤ n.size :=
  heap_conservation demoState_reachable

end CappuccinOS.Heap
