import CappuccinOS.Mem.Align

/-!
# The kernel heap: `LinkedListAllocator` (`mem/allocator.rs`)

The free list is kept inside the free memory itself, one `MemNode` at the start of each free
region. The model keeps the regions in list order; `head`, the empty node the list hangs from,
is a field of the static `ALLOCATOR` and has an address of its own. Every address computation
goes through `Profile.add` and `Profile.sub`, and the two assertions of `add_free_region` and the
`expect`s of `size_align` are errors of the model.
-/

namespace CappuccinOS.Heap

/-! ## Layouts -/

def isizeMax : ℕ := 2 ^ 63 - 1

/-- `core::alloc::Layout`: the alignment is a power of two, and the size rounded up to it stays
within `isize::MAX`. -/
structure Layout where
  size : ℕ
  align : ℕ
  align_pow : align.isPowerOfTwo
  size_le : size + (align - 1) ≤ isizeMax
  deriving DecidableEq

/-- `Layout::from_size_align(size, align)` with its error unwrapped. -/
def Layout.fromSizeAlign (size align : ℕ) : Except Panic Layout :=
  if h : align.isPowerOfTwo ∧ size + (align - 1) ≤ isizeMax then .ok ⟨size, align, h.1, h.2⟩
  else .error .unwrap

/-- `Layout::align_to(align)` with its error unwrapped. -/
def Layout.alignTo (l : Layout) (align : ℕ) : Except Panic Layout :=
  fromSizeAlign l.size (max l.align align)

theorem isPowerOfTwo_eight : Nat.isPowerOfTwo 8 := by decide

theorem isPowerOfTwo_sixteen : Nat.isPowerOfTwo 16 := by decide

theorem Layout.align_pos (l : Layout) : 0 < l.align := Nat.pos_of_isPowerOfTwo l.align_pow

theorem Layout.align_dvd (l : Layout) : l.align ∣ 2 ^ 63 := by
  obtain ⟨k, hk⟩ := l.align_pow
  have hle := l.size_le
  have hk63 : k ≤ 63 := by
    by_contra hlt
    have : 2 ^ 64 ≤ 2 ^ k := Nat.pow_le_pow_right (by norm_num) (by omega)
    unfold isizeMax at hle
    omega
  rw [hk]
  exact pow_dvd_pow 2 hk63

/-- A size that fits its alignment still fits after rounding up. -/
theorem Layout.padded_le (l : Layout) :
    (l.size + l.align - 1) / l.align * l.align + (l.align - 1) ≤ isizeMax := by
  have hpos := l.align_pos
  have hle := l.size_le
  obtain ⟨c, hc⟩ := l.align_dvd
  unfold isizeMax at *
  have hround := Nat.div_mul_le_self (l.size + l.align - 1) l.align
  have hmul : (l.size + l.align - 1) / l.align ≤ c - 1 := by
    have : (l.size + l.align - 1) / l.align < c := by
      rw [Nat.div_lt_iff_lt_mul hpos, mul_comm]
      omega
    omega
  have := Nat.mul_le_mul_right l.align hmul
  rw [Nat.sub_mul, one_mul, mul_comm c] at this
  omega

def Layout.padToAlign (l : Layout) : Layout where
  size := (l.size + l.align - 1) / l.align * l.align
  align := l.align
  align_pow := l.align_pow
  size_le := l.padded_le

/-! ## The free list -/

/-- A free region: the node at its start and its length. -/
structure MemNode where
  addr : ℕ
  size : ℕ
  deriving DecidableEq, Repr

def MemNode.endAddr (p : Profile) (n : MemNode) : Except Panic ℕ := p.add n.addr n.size

/-- `align_of::<MemNode>()`: a pointer and a `usize`. -/
def nodeAlign : ℕ := 8

/-- `size_of::<MemNode>()`. -/
def nodeSize : ℕ := 16

/-- The allocator: the list's head node and the regions linked behind it. -/
structure LinkedListAllocator where
  head : MemNode
  nodes : List MemNode
  deriving DecidableEq, Repr

/-- `LinkedListAllocator::new`, for a static whose head node lies at `head`. -/
def LinkedListAllocator.new (head : ℕ) : LinkedListAllocator := ⟨⟨head, 0⟩, []⟩

/-- The insertion of `add_free_region`: behind every node that does not lie after the new one. -/
def insertNode (node : MemNode) : List MemNode → List MemNode
  | [] => [node]
  | next :: rest =>
    if next.addr > node.addr then node :: next :: rest else next :: insertNode node rest

def addFreeRegion (p : Profile) (a : LinkedListAllocator) (ptr size : ℕ) :
    Except Panic LinkedListAllocator := do
  let up ← alignUp p ptr nodeAlign
  check (up = ptr)
  check (size ≥ nodeSize)
  pure { a with nodes := insertNode ⟨ptr, size⟩ a.nodes }

/-- The loop of `coalesce_memory` from `current_node`: the node as it ends up, and the list
behind it. -/
def coalesceFrom (p : Profile) (current : MemNode) :
    List MemNode → Except Panic (MemNode × List MemNode)
  | [] => pure (current, [])
  | next :: rest => do
    let e ← current.endAddr p
    if e = next.addr then
      let newSize ← p.add current.size next.size
      coalesceFrom p ⟨current.addr, newSize⟩ rest
    else
      let r ← coalesceFrom p next rest
      pure (current, r.1 :: r.2)

/-- `coalesce_memory`: the loop starts at the head node. -/
def coalesceMemory (p : Profile) (a : LinkedListAllocator) : Except Panic LinkedListAllocator := do
  let r ← coalesceFrom p a.head a.nodes
  pure ⟨r.1, r.2⟩

/-- `alloc_from_node`: the aligned start inside the node, or null. -/
def allocFromNode (p : Profile) (node : MemNode) (layout : Layout) : Except Panic ℕ := do
  let start ← alignUp p node.addr layout.align
  let e ← p.add start layout.size
  let nodeEnd ← node.endAddr p
  if e > nodeEnd then
    pure 0
  else
    let extra ← p.sub nodeEnd e
    if extra > 0 ∧ extra < nodeSize then pure 0 else pure start

/-- `find_region`: the first node `alloc_from_node` accepts, unlinked, and the list left. -/
def findRegion (p : Profile) (layout : Layout) :
    List MemNode → Except Panic (Option (MemNode × List MemNode))
  | [] => pure none
  | node :: rest => do
    let start ← allocFromNode p node layout
    if start = 0 then
      let r ← findRegion p layout rest
      pure (r.map fun q => (q.1, node :: q.2))
    else
      pure (some (node, rest))

def sizeAlign (layout : Layout) : Except Panic Layout := do
  let aligned ← layout.alignTo nodeAlign
  let padded := aligned.padToAlign
  Layout.fromSizeAlign (max padded.size nodeSize) padded.align

/-- `inner_alloc`: the address returned (0 is null) and the allocator after the call. -/
def innerAlloc (p : Profile) (a : LinkedListAllocator) (layout : Layout) :
    Except Panic (ℕ × LinkedListAllocator) := do
  let layout ← sizeAlign layout
  match ← findRegion p layout a.nodes with
  | some (region, rest) =>
    let a : LinkedListAllocator := { a with nodes := rest }
    let e ← p.add region.addr layout.size
    let regionEnd ← region.endAddr p
    let extra ← p.sub regionEnd e
    if extra > 0 then
      let a ← addFreeRegion p a e extra
      pure (region.addr, a)
    else
      pure (region.addr, a)
  | none => pure (0, a)

def innerDealloc (p : Profile) (a : LinkedListAllocator) (ptr : ℕ) (layout : Layout) :
    Except Panic LinkedListAllocator := do
  let layout ← sizeAlign layout
  let a ← addFreeRegion p a ptr layout.size
  coalesceMemory p a

/-! ## Runs -/

/-- `HEAP_PAGES` pages: 4 MiB. -/
def heapSize : ℕ := pageSize * 1024

/-- Where the heap lies: the region `pmm_alloc` gave to `init`, and the static that holds the
list's head node. The static is part of the kernel image, which the page allocator never hands
out. -/
structure Place where
  base : ℕ
  head : ℕ
  base_aligned : nodeAlign ∣ base
  head_outside : head < base ∨ base + heapSize ≤ head

/-- `init(HEAP_PAGES)`. -/
def init (p : Profile) (H : Place) : Except Panic LinkedListAllocator :=
  addFreeRegion p (.new H.head) H.base heapSize

/-- A block handed out by `inner_alloc` and not yet freed. -/
structure Block where
  ptr : ℕ
  layout : Layout
  deriving DecidableEq

/-- The allocator and the blocks its clients hold. -/
structure State where
  alloc : LinkedListAllocator
  live : List Block

/-- One call: an allocation of at least one byte, or the release of a live block with the layout
it was allocated with. -/
inductive Step (p : Profile) : State → State → Prop
  | alloc {s : State} {layout : Layout} {ptr : ℕ} {a : LinkedListAllocator} :
      1 ≤ layout.size → innerAlloc p s.alloc layout = .ok (ptr, a) → ptr ≠ 0 →
      Step p s ⟨a, ⟨ptr, layout⟩ :: s.live⟩
  | allocNull {s : State} {layout : Layout} {a : LinkedListAllocator} :
      1 ≤ layout.size → innerAlloc p s.alloc layout = .ok (0, a) → Step p s ⟨a, s.live⟩
  | dealloc {s : State} {b : Block} {a : LinkedListAllocator} :
      b ∈ s.live → innerDealloc p s.alloc b.ptr b.layout = .ok a →
      Step p s ⟨a, s.live.erase b⟩

/-- The states reached from `init` by calls that return. -/
def Reachable (p : Profile) (H : Place) (s : State) : Prop :=
  ∃ a, init p H = .ok a ∧ Relation.ReflTransGen (Step p) ⟨a, []⟩ s

end CappuccinOS.Heap
