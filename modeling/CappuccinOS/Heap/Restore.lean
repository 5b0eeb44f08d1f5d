import CappuccinOS.Heap.Conservation

/-!
# Freeing everything restores the heap

Only `inner_dealloc` merges regions, and one pass of `coalesce_memory` over the sorted list merges
whole chains of neighbours.

1. `coalesceFrom_chain`: behind the pass no node ends where the next one starts.
2. In a sorted list of disjoint regions that is a gap between any two of them
   (`separated_of_chain`).
3. `inner_alloc` cuts a region at the front, so a remainder keeps the end of its region and starts
   behind the block: an allocation closes no gap (`separated_alloc`).
4. Regions with gaps between them that cover the heap are one region
   (`Cover.eq_singleton_of_cover`).
-/

namespace CappuccinOS.Heap

open Cover

/-- The first region ends before the second one starts, with at least one byte between them. -/
def MemNode.Before (n m : MemNode) : Prop := n.addr + n.size < m.addr

/-- There is a gap between any two regions of the list. -/
def Separated (l : List MemNode) : Prop := l.Pairwise MemNode.Before

/-! ## Coalescing -/

theorem coalesceFrom_addr {l l' : List MemNode} {current c : MemNode}
    (h : coalesceFrom .dev current l = .ok (c, l')) : c.addr = current.addr := by
  induction l generalizing current with
  | nil =>
    cases pure_eq_ok.mp h
    rfl
  | cons next rest ih =>
    unfold coalesceFrom at h
    obtain ⟨e, -, h⟩ := bind_eq_ok.mp h
    split_ifs at h with hadj
    · obtain ⟨size, -, h⟩ := bind_eq_ok.mp h
      exact (ih h).trans rfl
    · obtain ⟨r, -, h⟩ := bind_eq_ok.mp h
      cases pure_eq_ok.mp h
      rfl

/-- Behind the pass no node ends where the next one starts. -/
theorem coalesceFrom_chain {l l' : List MemNode} {current c : MemNode}
    (h : coalesceFrom .dev current l = .ok (c, l')) :
    (c :: l').IsChain fun n m => n.addr + n.size ≠ m.addr := by
  induction l generalizing current c l' with
  | nil =>
    cases pure_eq_ok.mp h
    exact List.isChain_singleton _
  | cons next rest ih =>
    unfold coalesceFrom at h
    simp only [bind_eq_ok, MemNode.endAddr, Profile.add_dev_eq_ok] at h
    obtain ⟨_, ⟨rfl, -⟩, h⟩ := h
    split_ifs at h with hadj
    · obtain ⟨size, -, h⟩ := bind_eq_ok.mp h
      exact ih h
    · obtain ⟨⟨c', l''⟩, hr, h⟩ := bind_eq_ok.mp h
      cases pure_eq_ok.mp h
      refine List.isChain_cons_cons.mpr ⟨?_, ih hr⟩
      rw [coalesceFrom_addr hr]
      exact hadj

/-- In a sorted list of disjoint regions it is enough that neighbours have a gap. -/
theorem separated_of_chain {l : List MemNode} (hs : Sorted l) (hok : ∀ n ∈ l, n.Ok)
    (hcov : ∀ x, Cover.cover (l.map MemNode.interval) x ≤ 1)
    (hchain : l.IsChain fun n m => n.addr + n.size ≠ m.addr) : Separated l := by
  induction l with
  | nil => exact List.Pairwise.nil
  | cons n rest ih =>
    obtain ⟨hlt, hs'⟩ := List.pairwise_cons.mp hs
    have hcov' : ∀ x, Cover.cover (rest.map MemNode.interval) x ≤ 1 := by
      intro x
      have := hcov x
      rw [List.map_cons, cover_cons] at this
      omega
    have hrest : Separated rest :=
      ih hs' (fun m hm => hok m (List.mem_cons_of_mem _ hm)) hcov' hchain.tail
    refine List.pairwise_cons.mpr ⟨?_, hrest⟩
    cases rest with
    | nil => nofun
    | cons next tail =>
      have hne : n.addr + n.size ≠ next.addr := (List.isChain_cons_cons.mp hchain).1
      have hapart : n.addr + n.size ≤ next.addr := by
        by_contra hgt
        have hn : ind n.interval next.addr = 1 :=
          ind_of_mem ⟨le_of_lt (hlt next.addr List.mem_cons_self), Nat.lt_of_not_le hgt⟩
        have hnext : ind next.interval next.addr = 1 := ind_start (i := next.interval) (by
          have := (hok next (List.mem_cons_of_mem _ List.mem_cons_self)).2
          unfold nodeSize at this
          show 0 < next.size
          omega)
        have := hcov next.addr
        simp only [List.map_cons, cover_cons] at this
        omega
      have hgap : n.Before next := lt_of_le_of_ne hapart hne
      intro m hm
      rcases List.mem_cons.mp hm with rfl | hm
      · exact hgap
      · have := (List.pairwise_cons.mp hs').1 m.addr (List.mem_map_of_mem hm)
        unfold MemNode.Before at hgap ⊢
        omega

/-! ## The gaps along a run -/

theorem separated_perm {l l' : List MemNode} (h : l.Perm l') (hs : Sorted l')
    (hsep : ∀ n ∈ l, ∀ m ∈ l, n.addr < m.addr → n.Before m) : Separated l' := by
  have hs' : l'.Pairwise fun n m => n.addr < m.addr := List.pairwise_map.mp hs
  refine hs'.imp_of_mem fun hn hm hlt => ?_
  exact hsep _ (h.mem_iff.mpr hn) _ (h.mem_iff.mpr hm) hlt

/-- Two regions of a separated list, by the order of their addresses. -/
theorem Separated.before {l : List MemNode} (h : Separated l) {n m : MemNode} (hn : n ∈ l)
    (hm : m ∈ l) (hlt : n.addr < m.addr) : n.Before m := by
  induction l with
  | nil => cases hn
  | cons k rest ih =>
    obtain ⟨hk, hrest⟩ := List.pairwise_cons.mp h
    rcases List.mem_cons.mp hn with rfl | hn' <;> rcases List.mem_cons.mp hm with rfl | hm'
    · exact absurd hlt (lt_irrefl _)
    · exact hk m hm'
    · have := hk n hn'
      unfold MemNode.Before at this
      omega
    · exact ih hrest hn' hm'

/-- Cutting a block off the front of a region closes no gap: the remainder ends where the region
did, and the byte before it belongs to the block. -/
theorem separated_alloc {before after : List MemNode} {r : MemNode} {size extra : ℕ}
    (hsep : Separated (before ++ r :: after)) (hr : r.size = size + extra) (hpos : 0 < size)
    (hsorted : Sorted (insertNode ⟨r.addr + size, extra⟩ (before ++ after))) :
    Separated (insertNode ⟨r.addr + size, extra⟩ (before ++ after)) := by
  have hmem : ∀ n ∈ before ++ after, n ∈ before ++ r :: after := by
    intro n hn
    rcases List.mem_append.mp hn with hn | hn
    · exact List.mem_append_left _ hn
    · exact List.mem_append_right _ (List.mem_cons_of_mem _ hn)
  have hmemr : r ∈ before ++ r :: after := List.mem_append_right _ List.mem_cons_self
  have hsort : (before ++ r :: after).Pairwise fun n m => n.addr ≠ m.addr :=
    hsep.imp fun h => by unfold MemNode.Before at h; omega
  have hne : ∀ n ∈ before ++ after, n.addr ≠ r.addr := by
    obtain ⟨-, h2, h3⟩ := List.pairwise_append.mp hsort
    intro n hn
    rcases List.mem_append.mp hn with hn | hn
    · exact h3 n hn r List.mem_cons_self
    · exact ((List.pairwise_cons.mp h2).1 n hn).symm
  refine separated_perm (insertNode_perm _ _).symm hsorted ?_
  intro n hn m hm hlt
  rcases List.mem_cons.mp hn with rfl | hn <;> rcases List.mem_cons.mp hm with rfl | hm
  · exact absurd hlt (lt_irrefl _)
  · have := hsep.before hmemr (hmem m hm) (by simp only at hlt; omega)
    unfold MemNode.Before at this ⊢
    simp only
    omega
  · -- a region before the remainder lies before the block as well
    have hlt' : n.addr < r.addr := by
      rcases Nat.lt_or_ge n.addr r.addr with h | h
      · exact h
      · have := hsep.before hmemr (hmem n hn) (lt_of_le_of_ne h (hne n hn).symm)
        unfold MemNode.Before at this
        simp only at hlt
        omega
    have := hsep.before (hmem n hn) hmemr hlt'
    unfold MemNode.Before at this ⊢
    simp only
    omega
  · exact hsep.before (hmem n hn) (hmem m hm) hlt

/-- A returning `coalesce_memory` leaves no node that ends where the next one starts. -/
theorem coalesceMemory_chain {a a' : LinkedListAllocator} (h : coalesceMemory .dev a = .ok a') :
    a'.nodes.IsChain fun n m => n.addr + n.size ≠ m.addr := by
  unfold coalesceMemory at h
  obtain ⟨⟨c, l⟩, hr, h⟩ := bind_eq_ok.mp h
  cases pure_eq_ok.mp h
  exact (coalesceFrom_chain hr).tail

theorem Inv.cover_nodes {H : Place} {s : State} (hI : Inv H s) (x : ℕ) :
    Cover.cover (s.alloc.nodes.map MemNode.interval) x ≤ 1 := by
  have h1 := hI.cover x
  have h2 := ind_le_one ⟨H.base, heapSize⟩ x
  rw [State.owned, cover_append] at h1
  omega

theorem separated_step {H : Place} {s s' : State} (hI : Inv H s) (hsep : Separated s.alloc.nodes)
    (h : Step .dev s s') : Separated s'.alloc.nodes := by
  have hI' : Inv H s' := inv_step hI h
  cases h with
  | alloc _ h h0 =>
    rcases innerAlloc_dev h with ⟨hz, -⟩ | ⟨before, r, after, layout', hl, hnodes, -, -, -, hrest⟩
    · exact absurd hz h0
    rw [hnodes] at hsep
    rcases hrest with ⟨-, hn⟩ | ⟨extra, hsize, -, -, hn⟩
    · show Separated _
      rw [hn]
      exact hsep.sublist ((List.Sublist.refl before).append (List.sublist_cons_self r after))
    · have hpos : 0 < layout'.size := by
        have := (sizeAlign_spec hl).2.2.2
        unfold nodeSize at this
        omega
      have hsorted := hI'.sorted
      simp only [hn] at hsorted ⊢
      exact separated_alloc hsep hsize hpos hsorted
  | allocNull _ h =>
    rcases innerAlloc_dev h with ⟨-, rfl⟩ | ⟨_, _, _, _, _, _, _, h0, _⟩
    · exact hsep
    · exact absurd rfl h0
  | dealloc _ h =>
    unfold innerDealloc at h
    obtain ⟨layout', -, h⟩ := bind_eq_ok.mp h
    obtain ⟨m, -, h⟩ := bind_eq_ok.mp h
    exact separated_of_chain hI'.sorted hI'.ok hI'.cover_nodes (coalesceMemory_chain h)

theorem separated_of_reachable {H : Place} {s : State} (h : Reachable .dev H s) :
    Separated s.alloc.nodes := by
  obtain ⟨a, ha, hrun⟩ := h
  induction hrun with
  | refl =>
    obtain ⟨-, -, rfl⟩ := addFreeRegion_dev ha
    exact List.pairwise_singleton _ _
  | tail hprev hstep ih => exact separated_step (inv_of_reachable ⟨a, ha, hprev⟩) ih hstep

/-- With no block live, the list is the region `init` made. -/
theorem nodes_eq_of_live_nil {H : Place} {s : State} (hI : Inv H s)
    (hsep : Separated s.alloc.nodes) (hlive : s.live = []) :
    s.alloc.nodes = [⟨H.base, heapSize⟩] := by
  have hmap : s.alloc.nodes.map MemNode.interval = [⟨H.base, heapSize⟩] := by
    apply eq_singleton_of_cover
    · show 0 < heapSize
      decide
    · intro i hi
      obtain ⟨n, hn, rfl⟩ := List.mem_map.mp hi
      have := (hI.ok n hn).2
      unfold nodeSize at this
      show 0 < n.size
      omega
    · exact List.pairwise_map.mpr hsep
    · intro x
      rw [← hI.cover x, State.owned, hlive, List.map_nil, List.append_nil]
  obtain ⟨n, hn, hint⟩ := List.map_eq_singleton_iff.mp hmap
  have haddr : n.addr = H.base := congrArg Interval.start hint
  have hsize : n.size = heapSize := congrArg Interval.len hint
  rw [hn, ← haddr, ← hsize]

/-- **Freeing everything restores the heap.** In every run of returning calls no free region ends
where another one starts, and in every state of the run without live blocks the allocator is the
one `init` made: its list is the one initial region. -/
theorem heap_restored {H : Place} {s : State} (h : Reachable .dev H s) :
    (∀ n ∈ s.alloc.nodes, ∀ m ∈ s.alloc.nodes, n.addr + n.size ≠ m.addr) ∧
      (s.live = [] → s.alloc.nodes = [⟨H.base, heapSize⟩] ∧ init .dev H = .ok s.alloc) := by
  have hI := inv_of_reachable h
  have hsep := separated_of_reachable h
  refine ⟨?_, fun hlive => ?_⟩
  · intro n hn m hm heq
    have hsize := (hI.ok n hn).2
    unfold nodeSize at hsize
    have := hsep.before hn hm (by omega)
    unfold MemNode.Before at this
    omega
  · have hnodes := nodes_eq_of_live_nil hI hsep hlive
    obtain ⟨a, ha, -⟩ := h
    obtain ⟨-, -, rfl⟩ := addFreeRegion_dev ha
    refine ⟨hnodes, ?_⟩
    rw [ha]
    have hhead := hI.head
    obtain ⟨⟨head, nodes⟩, live⟩ := s
    simp only at hnodes hhead
    rw [hnodes, hhead]
    rfl

/-- Two blocks allocated and freed, the first one first: the second free merges on both sides. -/
theorem heap_restored_demo :
    ∃ s, Reachable .dev demoPlace s ∧ s.live = [] ∧
      (∀ n ∈ s.alloc.nodes, ∀ m ∈ s.alloc.nodes, n.addr + n.size ≠ m.addr) ∧
      s.alloc.nodes = [⟨0x800000, heapSize⟩] := by
  have h : Reachable .dev demoPlace ⟨⟨⟨0x1000, 0⟩, [⟨0x800000, heapSize⟩]⟩, []⟩ := by
    refine ⟨⟨⟨0x1000, 0⟩, [⟨0x800000, heapSize⟩]⟩, by decide, ?_⟩
    refine .head (b := demoState) (@Step.alloc .dev _ demoLayout 0x800000 _ (by decide) (by decide)
      (by decide)) ?_
    refine .head (b := ⟨⟨⟨0x1000, 0⟩, [⟨0x800030, heapSize - 48⟩]⟩,
      [⟨0x800018, demoLayout⟩, ⟨0x800000, demoLayout⟩]⟩) (@Step.alloc .dev _ demoLayout 0x800018 _
        (by decide) (by decide) (by decide)) ?_
    refine .head (b := ⟨⟨⟨0x1000, 0⟩, [⟨0x800000, 24⟩, ⟨0x800030, heapSize - 48⟩]⟩,
      [⟨0x800018, demoLayout⟩]⟩) (Step.dealloc (b := ⟨0x800000, demoLayout⟩) (by decide)
        (by decide)) ?_
    exact .single (Step.dealloc (b := ⟨0x800018, demoLayout⟩) (by decide) (by decide))
  obtain ⟨hadj, hone⟩ := heap_restored h
  exact ⟨_, h, rfl, hadj, (hone rfl).1⟩

end CappuccinOS.Heap
