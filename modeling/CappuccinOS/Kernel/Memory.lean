import CappuccinOS.Kernel.Frames
import CappuccinOS.Heap.Conservation
import CappuccinOS.Lib.Simulation

/-!
# The kernel's memory as one system

The page allocator, the page tables of the kernel's address space and the heap share the physical
memory: the tables and the heap live in pages that the page allocator gave out, next to the pages
of other clients. `System` holds all of them, and `Step` is one call to any of them.

1. `prepare`: the heap and the root of the address space get their pages. From there on the calls
   come in any order.
2. `Inv` is kept by every step (`inv_step`).
3. `map_delivers`, `holds_run`: a call of `vmm_map` that does not have to split a page returns
   unless memory runs out, and the tables follow the calls.
4. `Isolated`, `Inv.isolated`: no page ever serves two purposes.
-/

namespace CappuccinOS.Kernel

open Cover
open Pmm (PhysicalMemoryManager Block pmmAllocNozero pmmDealloc bit)
open Paging (Call Delivers lastWriter lift walk)

/-! ## States -/

def heapPages : ℕ := 1024

/-- The page allocator; the root and the other tables of the kernel's address space, with what is
in them; the heap with its physical address; the pages that other clients hold. -/
structure System where
  pmm : PhysicalMemoryManager
  root : ℕ
  tables : List ℕ
  dirs : Paging.State
  heapPhys : ℕ
  heap : Heap.State
  clients : List Block

/-- The pages handed out, by what they are used for. -/
def System.ranges (s : System) : List Block :=
  frameBlock s.root :: s.tables.map frameBlock ++ ⟨s.heapPhys, heapPages⟩ :: s.clients

/-- `pmm_alloc` during boot. The callers do not look at the address for null; there the model
stops. -/
def allocPages (s : PhysicalMemoryManager) (pages : ℕ) :
    Except Paging.Fault (ℕ × PhysicalMemoryManager) :=
  match pmmAllocNozero s pages with
  | .ok (addr, s) => if addr = 0 then .error .outOfMemory else .ok (addr, s)
  | .error e => .error (.panic e)

/-- `init_allocator`, and the page for the root in `vmm_init`. -/
def prepare (p : Profile) (pmm : PhysicalMemoryManager) (hhdm head : ℕ) :
    Except Paging.Fault System := do
  let (heapPhys, pmm) ← allocPages pmm heapPages
  let alloc ← lift (Heap.addFreeRegion p (.new head) (hhdm + heapPhys) Heap.heapSize)
  let (root, pmm) ← allocPages pmm 1
  pure ⟨pmm, root, [], Paging.State.init root, heapPhys, ⟨alloc, []⟩, []⟩

/-- The page tables are now `dirs`, which has taken frames from the allocator. -/
def System.adopt (s : System) (dirs : Paging.State) : Except Paging.Fault System :=
  match takeFrames (dirs.next - s.dirs.next) s.pmm with
  | some (gs, pmm) => .ok { s with pmm := pmm, tables := s.tables ++ gs, dirs := dirs }
  | none => .error .outOfMemory

/-- `vmm_map` on the kernel's address space. -/
def System.map (gib : Bool) (fuel : ℕ) (s : System) (c : Call) : Except Paging.Fault System := do
  let dirs ← c.map (machine gib s.tables s.pmm) fuel s.root s.dirs
  s.adopt dirs

/-- The page that a call of `vmm_map` asks for is one of the lower half, and it is not inside a
larger page that is mapped, which the call would have to split. -/
def System.Plain (s : System) (c : Call) : Prop :=
  c.virt < 2 ^ 47 ∧ ∀ leaf, walk s.dirs s.root c.virt = some leaf → leaf.size ≤ c.size.bytes

/-- One call that returns: of a client of the page allocator; of the heap, without an overflow; or
of `vmm_map` for a plain page, with the frames it needs. A call of `vmm_map` is the step's label. -/
inductive Step (gib : Bool) : System → Option Call → System → Prop
  | alloc {s : System} {pages addr : ℕ} {pmm : PhysicalMemoryManager} :
      1 ≤ pages → pmmAllocNozero s.pmm pages = .ok (addr, pmm) → addr ≠ 0 →
      Step gib s none { s with pmm := pmm, clients := ⟨addr, pages⟩ :: s.clients }
  | allocNull {s : System} {pages : ℕ} {pmm : PhysicalMemoryManager} :
      1 ≤ pages → pmmAllocNozero s.pmm pages = .ok (0, pmm) → Step gib s none { s with pmm := pmm }
  | dealloc {s : System} {b : Block} {pmm : PhysicalMemoryManager} :
      b ∈ s.clients → pmmDealloc s.pmm b.ptr b.pages = .ok pmm →
      Step gib s none { s with pmm := pmm, clients := s.clients.erase b }
  | heap {s : System} {h : Heap.State} : Heap.Step .dev s.heap h →
      Step gib s none { s with heap := h }
  | map {s s' : System} {fuel : ℕ} {c : Call} :
      2 ≤ fuel → s.Plain c → s.map gib fuel c = .ok s' → Step gib s (some c) s'

/-- A run, with the calls of `vmm_map` in it. -/
abbrev Run (gib : Bool) : System → List Call → System → Prop := Simulation.Run (Step gib)

/-! ## The invariant -/

/-- The page allocator after init, whether there are 1 GiB pages, the offset of the higher half,
and the address of the static that holds the head of the heap's list. -/
structure Site where
  s₀ : PhysicalMemoryManager
  gib : Bool
  hhdm : ℕ
  head : ℕ

/-- Page tables can hold all addresses of the managed memory, and the head node is not in its
image in the higher half. -/
structure Site.Sound (S : Site) : Prop where
  postInit : Pmm.PostInit S.s₀
  high : S.s₀.highestPageIdx * pageSize ≤ 2 ^ 48
  head : S.head < S.hhdm ∨ S.hhdm + S.s₀.highestPageIdx * pageSize ≤ S.head

/-- What every step keeps. -/
structure Inv (S : Site) (s : System) : Prop where
  books : Books S.s₀ s.pmm s.ranges
  next : s.dirs.next = s.tables.length
  dirs : ∀ f, (∃ t, s.dirs.mem f = some t) ↔ f = s.root ∨ f ∈ s.tables
  heap : ∃ H : Heap.Place, H.base = S.hhdm + s.heapPhys ∧ Heap.Inv H s.heap

section Invariant

variable {S : Site} {s s' : System}

theorem mem_init (root f : ℕ) : (∃ t, (Paging.State.init root).mem f = some t) ↔ f = root := by
  by_cases hf : f = root
  · subst hf
    simp [Paging.State.init]
  · simp [Paging.State.init, hf]

/-- The address of a live range, seen from the end of the managed memory. -/
theorem Books.ptr_add_le {s₀ pmm : PhysicalMemoryManager} {live : List Block}
    (h : Books s₀ pmm live) {b : Block} (hb : b ∈ live) :
    b.ptr + b.pages * pageSize ≤ s₀.highestPageIdx * pageSize := by
  have hpos := h.inv.pos b hb
  have hlast := (h.free hb (b.mem_last hpos)).2
  obtain ⟨k, hk⟩ := (h.page b hb).1
  rw [hk, Nat.mul_div_cancel_left _ (by decide)] at hlast
  rw [hk, mul_comm pageSize k, ← Nat.add_mul]
  exact Nat.mul_le_mul_right _ (by omega)

theorem allocPages_eq_ok {pmm pmm' : PhysicalMemoryManager} {pages addr : ℕ} :
    allocPages pmm pages = .ok (addr, pmm') ↔
      pmmAllocNozero pmm pages = .ok (addr, pmm') ∧ addr ≠ 0 := by
  unfold allocPages
  match hcall : pmmAllocNozero pmm pages with
  | .error e => simp
  | .ok (a, t) =>
    simp only [Except.ok.injEq, Prod.mk.injEq]
    by_cases h0 : a = 0
    · rw [if_pos h0]
      refine ⟨nofun, ?_⟩
      rintro ⟨⟨rfl, -⟩, hne⟩
      exact absurd h0 hne
    · rw [if_neg h0, Except.ok.injEq, Prod.mk.injEq]
      refine ⟨fun heq => ⟨heq, heq.1 ▸ h0⟩, And.left⟩

theorem lift_eq_ok {α : Type} {x : Except Panic α} {a : α} : lift x = .ok a ↔ x = .ok a := by
  cases x with
  | error e => exact ⟨nofun, nofun⟩
  | ok b => simp [lift, Except.mapError]

theorem inv_prepare (hS : S.Sound) (h : prepare .dev S.s₀ S.hhdm S.head = .ok s) : Inv S s := by
  unfold prepare at h
  obtain ⟨⟨heapPhys, pmm₁⟩, hheap, h⟩ := bind_eq_ok.mp h
  obtain ⟨a, ha, h⟩ := bind_eq_ok.mp h
  obtain ⟨⟨root, pmm₂⟩, hroot, h⟩ := bind_eq_ok.mp h
  obtain rfl := pure_eq_ok.mp h
  obtain ⟨hheap, h0⟩ := allocPages_eq_ok.mp hheap
  obtain ⟨hroot, h0'⟩ := allocPages_eq_ok.mp hroot
  have ha := lift_eq_ok.mp ha
  have hb₁ := (Books.init hS.postInit).alloc hS.postInit (by decide) hheap h0
  have hb₂ := hb₁.alloc hS.postInit le_rfl hroot h0'
  refine ⟨hb₂, rfl, fun f => ?_, ?_⟩
  · rw [mem_init]
    simp
  · have hal := (Heap.addFreeRegion_dev ha).1
    have hle := hb₁.ptr_add_le List.mem_cons_self
    have hhead : S.head < S.hhdm + heapPhys ∨ S.hhdm + heapPhys + Heap.heapSize ≤ S.head := by
      have hsize : Heap.heapSize = heapPages * pageSize := rfl
      rcases hS.head with hlow | hhigh
      · exact .inl (by omega)
      · exact .inr (by simp only at hle; omega)
    exact ⟨⟨S.hhdm + heapPhys, S.head, hal, hhead⟩, rfl, Heap.inv_init ha⟩

theorem freshFrames (hS : S.Sound) (hI : Inv S s) :
    Paging.FreshFrames (machine S.gib s.tables s.pmm) s.root :=
  freshFrames_machine hS.postInit hS.high hI.books

theorem adopt_eq_ok {dirs : Paging.State} : s.adopt dirs = .ok s' ↔
    ∃ gs pmm, takeFrames (dirs.next - s.dirs.next) s.pmm = some (gs, pmm) ∧
      s' = { s with pmm := pmm, tables := s.tables ++ gs, dirs := dirs } := by
  unfold System.adopt
  match takeFrames (dirs.next - s.dirs.next) s.pmm with
  | none => simp
  | some (gs, pmm) =>
    simp only [Except.ok.injEq, Option.some.injEq, Prod.mk.injEq]
    constructor
    · rintro rfl
      exact ⟨gs, pmm, ⟨rfl, rfl⟩, rfl⟩
    · rintro ⟨_, _, ⟨rfl, rfl⟩, rfl⟩
      rfl

/-- Tables that have drawn frames from the allocator can be adopted. -/
theorem adopt_returns (hI : Inv S s) {dirs : Paging.State}
    (hD : Paging.Draws (machine S.gib s.tables s.pmm) s.dirs dirs) :
    ∃ s', s.adopt dirs = .ok s' := by
  have hle := hD.le
  obtain ⟨gs, pmm, ht⟩ := takeFrames_of_drawn (n := dirs.next - s.dirs.next) hI.next
    fun j h1 h2 => hD.drawn j h1 (by omega)
  exact ⟨_, adopt_eq_ok.mpr ⟨gs, pmm, ht, rfl⟩⟩

theorem inv_adopt (hS : S.Sound) (hI : Inv S s) {dirs : Paging.State}
    (hD : Paging.Draws (machine S.gib s.tables s.pmm) s.dirs dirs) (h : s.adopt dirs = .ok s') :
    Inv S s' := by
  obtain ⟨gs, pmm, ht, rfl⟩ := adopt_eq_ok.mp h
  have hlen := takeFrames_length ht
  have hle := hD.le
  have hnext := hI.next
  have hframes : ∀ k, k < dirs.next →
      (machine S.gib s.tables s.pmm).frames k = (s.tables ++ gs)[k]? := by
    intro k hk
    rw [← machine_frames_append ht, machine_frames_of_lt]
    rw [List.length_append]
    omega
  refine ⟨hI.books.take hS.postInit ht, ?_, fun f => ?_, hI.heap⟩
  · show dirs.next = (s.tables ++ gs).length
    rw [List.length_append]
    omega
  · constructor
    · rintro ⟨t, hmem⟩
      rcases hD.fresh f t hmem with hold | ⟨k, -, hk, hg⟩
      · exact ((hI.dirs f).mp hold).imp_right fun h => List.mem_append_left _ h
      · rw [hframes k hk] at hg
        exact .inr (List.mem_of_getElem? hg)
    · rintro (hroot | hmem)
      · obtain ⟨t, ht⟩ := (hI.dirs f).mpr (.inl hroot)
        exact hD.kept f t ht
      · rcases List.mem_append.mp hmem with hold | hnew
        · obtain ⟨t, ht⟩ := (hI.dirs f).mpr (.inr hold)
          exact hD.kept f t ht
        · obtain ⟨k, hk⟩ := List.mem_iff_getElem?.mp hnew
          have hlt := (List.getElem?_eq_some_iff.mp hk).1
          refine hD.entered (s.tables.length + k) f (by omega) (by omega) ?_
          rw [hframes _ (by omega), List.getElem?_append_right (by omega),
            Nat.add_sub_cancel_left, hk]

theorem inv_step (hS : S.Sound) (hI : Inv S s) {c : Option Call} (h : Step S.gib s c s') :
    Inv S s' := by
  -- the clients' pages stand behind those of the kernel
  have hperm : ∀ (b : Block) (l : List Block),
      (b :: (frameBlock s.root :: s.tables.map frameBlock ++ ⟨s.heapPhys, heapPages⟩ :: l)).Perm
        (frameBlock s.root :: s.tables.map frameBlock ++ ⟨s.heapPhys, heapPages⟩ :: b :: l) :=
    fun b l => (List.perm_middle.symm).trans (List.Perm.append_left _ (List.Perm.swap ..))
  cases h with
  | @alloc pages addr pmm hpages hok h0 =>
    exact { hI with books := (hI.books.alloc hS.postInit hpages hok h0).perm (hperm _ _) }
  | allocNull hpages hok =>
    exact { hI with books := hI.books.allocNull hS.postInit hpages hok }
  | @dealloc b pmm hb hok =>
    have hranges : s.ranges.Perm (b :: (frameBlock s.root :: s.tables.map frameBlock ++
        ⟨s.heapPhys, heapPages⟩ :: s.clients.erase b)) :=
      (List.Perm.append_left _ ((List.perm_cons_erase hb).cons _)).trans (hperm _ _).symm
    have hbooks := (hI.books.perm hranges).dealloc List.mem_cons_self hok
    rw [List.erase_cons_head] at hbooks
    exact { hI with books := hbooks }
  | heap hstep =>
    obtain ⟨H, hbase, hH⟩ := hI.heap
    exact { hI with heap := ⟨H, hbase, Heap.inv_step hH hstep⟩ }
  | map _ _ hmap =>
    obtain ⟨dirs, hok, hadopt⟩ := bind_eq_ok.mp hmap
    exact inv_adopt hS hI (Paging.vmmMap_draws _ hok) hadopt

theorem inv_run (hS : S.Sound) (hI : Inv S s) {cs : List Call} (h : Run S.gib s cs s') :
    Inv S s' := h.invariant (fun _ _ _ hI hstep => inv_step hS hI hstep) hI

end Invariant

/-! ## Translations -/

section Translations

variable {S : Site} {s s' : System} {cs : List Call}

/-- The tables translate every address by the last of the calls `cs` for it. -/
def System.Holds (gib : Bool) (s : System) (cs : List Call) : Prop :=
  Paging.Holds (machine gib s.tables s.pmm) s.root (fun _ => True) cs s.dirs

theorem holds_adopt {dirs : Paging.State}
    (h : Paging.Holds (machine S.gib s.tables s.pmm) s.root (fun _ => True) cs dirs)
    (hadopt : s.adopt dirs = .ok s') : s'.Holds S.gib cs := by
  obtain ⟨gs, pmm, ht, rfl⟩ := adopt_eq_ok.mp hadopt
  exact h.congr (fun k _ => machine_frames_append ht k) rfl

/-- The clients' pages do not matter for the tables. -/
theorem holds_of_next (hI : Inv S s) (h : s.Holds S.gib cs) {s' : System} (hroot : s'.root = s.root)
    (htables : s'.tables = s.tables) (hdirs : s'.dirs = s.dirs) : s'.Holds S.gib cs := by
  unfold System.Holds
  rw [hroot, hdirs, htables]
  refine Paging.Holds.congr h (fun k hk => ?_) rfl
  rw [hI.next] at hk
  rw [machine_frames_of_lt hk, machine_frames_of_lt hk]

/-- A plain call returns unless memory runs out, and is added to the calls. -/
theorem map_delivers (hS : S.Sound) (hI : Inv S s) (h : s.Holds S.gib cs) {fuel : ℕ}
    (hfuel : 2 ≤ fuel) {c : Call} (hc : s.Plain c) :
    Delivers (s.map S.gib fuel c) fun s' => s'.Holds S.gib (cs ++ [c]) := by
  have hsmall : ∀ w, lastWriter cs c.virt = some w → w.leafSize S.gib ≤ c.size.bytes := by
    intro w hw
    refine hc.2 (w.leaf S.gib c.virt) ?_
    rw [h.walk_eq, hw]
    rfl
  have hcall := Paging.Holds.step (freshFrames hS hI) rfl (.inl hfuel) h hsmall fun _ => trivial
  rcases hcall with herr | ⟨dirs, hok, hholds⟩
  · exact .inl (by rw [System.map, herr]; rfl)
  · obtain ⟨s', hadopt⟩ := adopt_returns hI (Paging.vmmMap_draws _ hok)
    exact .inr ⟨s', bind_eq_ok.mpr ⟨dirs, hok, hadopt⟩, holds_adopt hholds hadopt⟩

theorem holds_step (hS : S.Sound) (hI : Inv S s) (h : s.Holds S.gib cs) {c : Call}
    (hstep : Step S.gib s (some c) s') : s'.Holds S.gib (cs ++ [c]) := by
  cases hstep with
  | map hfuel hc hmap =>
    rcases map_delivers hS hI h hfuel hc with herr | ⟨s₁, hok, h'⟩
    · exact absurd (hmap.symm.trans herr) nofun
    · obtain rfl := Except.ok.inj (hmap.symm.trans hok)
      exact h'

theorem holds_other (hI : Inv S s) (h : s.Holds S.gib cs) (hstep : Step S.gib s none s') :
    s'.Holds S.gib cs := by
  cases hstep with
  | alloc | allocNull | dealloc | heap => exact holds_of_next hI h rfl rfl rfl

/-- The tables follow the calls, whatever happens between these. -/
theorem holds_run (hS : S.Sound) (hI : Inv S s) (h : s.Holds S.gib cs) {calls : List Call}
    (hrun : Run S.gib s calls s') : s'.Holds S.gib (cs ++ calls) := by
  induction hrun with
  | refl => rwa [List.append_nil]
  | @tail calls s₁ s₂ c hrun hstep ih =>
    have hI₁ := inv_run hS hI hrun
    cases c with
    | none =>
      rw [Option.toList_none, List.append_nil]
      exact holds_other hI₁ ih hstep
    | some c =>
      rw [Option.toList_some, ← List.append_assoc]
      exact holds_step hS hI₁ ih hstep

theorem low_of_run (hrun : Run S.gib s cs s') : ∀ c ∈ cs, c.virt < 2 ^ 47 := by
  induction hrun with
  | refl => exact fun c hc => absurd hc List.not_mem_nil
  | @tail calls s₁ s₂ label hrun hstep ih =>
    intro c hc
    rcases List.mem_append.mp hc with hc | hc
    · exact ih c hc
    · cases hstep with
      | alloc | allocNull | dealloc | heap => cases hc
      | map _ hplain _ =>
        obtain rfl := List.mem_singleton.mp hc
        exact hplain.1

end Translations

/-! ## Isolation -/

/-- The pages handed out are apart, were free after init and are exactly those whose bits have
changed; the page directories lie in the root and the tables; the bytes of the heap lie in the
heap's pages, in pieces that are apart. -/
structure Isolated (S : Site) (s : System) : Prop where
  apart : (s.ranges.map Block.interval).Pairwise Interval.Apart
  free : ∀ b ∈ s.ranges, ∀ i, b.interval.Mem i →
    bit S.s₀ i = some false ∧ i < S.s₀.highestPageIdx
  bits : ∀ i, bit s.pmm i = some false ↔
    bit S.s₀ i = some false ∧ ¬ ∃ b ∈ s.ranges, b.interval.Mem i
  used : s.pmm.usedPages = (s.ranges.map Block.pages).sum
  dirs : ∀ f, (∃ t, s.dirs.mem f = some t) ↔ f = s.root ∨ f ∈ s.tables
  heapApart : s.heap.owned.Pairwise Interval.Apart
  heapBytes : ∀ i ∈ s.heap.owned, ∀ x, i.Mem x → S.hhdm ≤ x ∧
    Interval.Mem ⟨s.heapPhys / pageSize, heapPages⟩ ((x - S.hhdm) / pageSize)

theorem heap_page {hhdm phys x : ℕ} (hphys : pageSize ∣ phys)
    (h : Interval.Mem ⟨hhdm + phys, Heap.heapSize⟩ x) :
    hhdm ≤ x ∧ Interval.Mem ⟨phys / pageSize, heapPages⟩ ((x - hhdm) / pageSize) := by
  obtain ⟨k, rfl⟩ := hphys
  have h1 : hhdm + pageSize * k ≤ x := h.1
  have h2 : x < hhdm + pageSize * k + pageSize * heapPages := h.2
  have hpos : 0 < pageSize := by decide
  refine ⟨le_trans (Nat.le_add_right _ _) h1, ?_, ?_⟩
  · show pageSize * k / pageSize ≤ _
    rw [Nat.mul_div_cancel_left _ hpos, Nat.le_div_iff_mul_le hpos, mul_comm]
    omega
  · show _ < pageSize * k / pageSize + heapPages
    rw [Nat.mul_div_cancel_left _ hpos, Nat.div_lt_iff_lt_mul hpos, Nat.add_mul, mul_comm k,
      mul_comm heapPages]
    omega

theorem Inv.isolated {S : Site} {s : System} (hI : Inv S s) : Isolated S s := by
  have hlive : ∀ i, (∃ b ∈ s.ranges, b.interval.Mem i) ↔
      0 < cover (s.ranges.map Block.interval) i := by
    intro i
    rw [← exists_mem_iff_cover_pos]
    simp only [List.mem_map, exists_exists_and_eq_and]
  obtain ⟨H, hbase, hH⟩ := hI.heap
  refine ⟨hI.books.apart, fun b hb i hi => hI.books.free hb hi, fun i => ?_, hI.books.inv.used,
    hI.dirs, pairwise_disjoint_of_cover_le_one fun x => ?_, fun i hi x hx => ?_⟩
  · have hbits := hI.books.inv.bits i
    simp only [Pmm.State.owned] at hbits
    rw [hlive i, hbits]
    split_ifs with hc
    · simp [hc]
    · simp [hc]
  · rw [hH.cover x]
    exact Heap.ind_le_one _ x
  · have hpos := exists_mem_iff_cover_pos.mp ⟨i, hi, hx⟩
    rw [hH.cover x, ind_pos] at hpos
    rw [hbase] at hpos
    exact heap_page (hI.books.page ⟨s.heapPhys, heapPages⟩ (by simp [System.ranges])).1 hpos

end CappuccinOS.Kernel
