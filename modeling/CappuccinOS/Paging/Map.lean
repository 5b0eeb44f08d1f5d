import CappuccinOS.Lib.Word

/-!
# Building page tables (`arch/x86_64/paging.rs`, `mem/vmm.rs`)

`State` is physical memory as far as it holds page directories: a frame address has 512 entries,
or it is not a page directory. The source turns a physical address into a `&mut PageDirectory`
without a check; where no page directory is there, the model stops with `Fault.notTable`.

`vmm_map` and `get_next_level` call each other, so they are given fuel for the depth of these
calls. Addresses are natural numbers: an aligned address plus an offset inside its page does not
leave the 64-bit range, and only bits 12 to 56 of a virtual address are looked at.
-/

namespace CappuccinOS.Paging

/-- How a call ends other than with a new state. -/
inductive Fault
  | panic (p : Panic)
  | notTable
  | outOfMemory
  | fuel
  deriving DecidableEq, Repr

/-- `limine::paging::Mode`. -/
inductive PagingMode
  | fourLevel
  | fiveLevel
  deriving DecidableEq, Repr

/-- What the code is told by its surroundings: the paging mode, whether the processor has 1 GiB
pages, and the frames that `pmm_alloc(1)` hands out, in this order, for as long as it has some. -/
structure Machine where
  mode : PagingMode
  is1GibPageSupported : Bool
  frames : ℕ → Option ℕ

/-- The page directories in memory, and how many frames have been handed out. -/
structure State where
  mem : ℕ → Option (ℕ → ℕ)
  next : ℕ

/-! ## Entries -/

def ptFlagValid : ℕ := 1 <<< 0
def ptFlagWrite : ℕ := 1 <<< 1
def ptFlagUser : ℕ := 1 <<< 2
def ptFlagLarge : ℕ := 1 <<< 7
def ptFlagNx : ℕ := 1 <<< 63
def ptPaddrMask : ℕ := 0x0000FFFFFFFFF000
def ptTableFlags : ℕ := ptFlagValid ||| ptFlagWrite ||| ptFlagUser

/-- `PageTableEntry::new`. -/
def newEntry (addr flags : ℕ) : ℕ := addr ||| flags

def addr (e : ℕ) : ℕ := e &&& ptPaddrMask

def isTable (e : ℕ) : Prop := e &&& (ptFlagValid ||| ptFlagLarge) = ptFlagValid

def isLarge (e : ℕ) : Prop :=
  e &&& (ptFlagValid ||| ptFlagLarge) = ptFlagValid ||| ptFlagLarge

instance (e : ℕ) : Decidable (isTable e) := inferInstanceAs (Decidable (_ = _))

instance (e : ℕ) : Decidable (isLarge e) := inferInstanceAs (Decidable (_ = _))

def vmmFlags (e : ℕ) : ℕ := e &&& (ptFlagWrite ||| ptFlagNx)

inductive PageSize
  | size4KiB
  | size2MiB
  | size1GiB
  deriving DecidableEq, Repr

/-- `page_size as usize`. -/
def PageSize.toNat : PageSize → ℕ
  | size4KiB => 0
  | size2MiB => 1
  | size1GiB => 2

/-- `PAGE_SIZES`, for the indices it has. -/
def pageSizes : ℕ → ℕ
  | 0 => 0x1000
  | 1 => 0x200000
  | 2 => 0x40000000
  | 3 => 0x8000000000
  | _ => 0x1000000000000

/-- `(virtual_addr & (0x1ff << shift)) >> shift`. -/
def tableIndex (virt shift : ℕ) : ℕ := (virt &&& 0x1ff <<< shift) >>> shift

/-! ## Memory -/

/-- `page_directory.entries[i]`. -/
def State.read (st : State) (dir i : ℕ) : Except Fault ℕ :=
  match st.mem dir with
  | some t => .ok (t i)
  | none => .error .notTable

/-- `page_directory.entries[i] = e`. -/
def State.write (st : State) (dir i e : ℕ) : Except Fault State :=
  match st.mem dir with
  | some t => .ok { st with mem := Function.update st.mem dir (some (Function.update t i e)) }
  | none => .error .notTable

/-- `pmm_alloc(1)` hands out the frame `g`, zeroed. -/
def pmmAlloc (st : State) (g : ℕ) : State :=
  ⟨Function.update st.mem g (some fun _ => 0), st.next + 1⟩

/-! ## `get_next_level` and `vmm_map` -/

/-- The arguments of `vmm_map` behind the memory: directory, virtual and physical address, flags
and page size. -/
abbrev MapFn := State → ℕ → ℕ → ℕ → ℕ → PageSize → Except Fault State

/-- The loops that map consecutive pages: `turns` calls, the offset growing by `step`. -/
def mapLoop (recur : MapFn) (dir virt phys flags : ℕ) (size : PageSize) (step : ℕ) :
    ℕ → ℕ → State → Except Fault State
  | 0, _, st => .ok st
  | turns + 1, i, st => do
    let st ← recur st dir (virt + i) (phys + i) flags size
    mapLoop recur dir virt phys flags size step turns (i + step) st

/-- An assertion. -/
def require (c : Prop) [Decidable c] : Except Fault Unit :=
  if c then .ok () else .error (.panic .assertion)

/-- A new table, entered into the directory. -/
def linkTable (M : Machine) (st : State) (dir entry : ℕ) : Except Fault (ℕ × State) :=
  match M.frames st.next with
  | none => .error .outOfMemory
  | some ret => do
    let st ← (pmmAlloc st ret).write dir entry (newEntry ret ptTableFlags)
    pure (ret, st)

/-- The branch of `get_next_level` that replaces a large page. The recursive calls are given the
directory at hand. -/
def splitLarge (M : Machine) (recur : MapFn) (st : State) (dir virt : ℕ) (desired : PageSize)
    (level entry old : ℕ) : Except Fault (ℕ × State) := do
  require (level ≤ 3 ∧ level ≠ 0)
  let oldPageSize := pageSizes level
  let newPageSize := pageSizes desired.toNat
  let oldVirt := virt &&& wordNot (oldPageSize - 1)
  require (addr old &&& (oldPageSize - 1) = 0)
  let (ret, st) ← linkTable M st dir entry
  let st ← mapLoop recur dir oldVirt (addr old) (vmmFlags old) desired newPageSize
    ((oldPageSize + newPageSize - 1) / newPageSize) 0 st
  pure (ret, st)

def getNextLevel (M : Machine) (recur : MapFn) (st : State) (dir virt : ℕ) (desired : PageSize)
    (level entry : ℕ) : Except Fault (ℕ × State) := do
  let e ← st.read dir entry
  if isTable e then pure (addr e, st)
  else if isLarge e then splitLarge M recur st dir virt desired level entry e
  else linkTable M st dir entry

/-- The 4 KiB leaf: bit 12 of the flags asks for the page attribute bit, which is bit 7 here. -/
def leafFlags (flags : ℕ) : ℕ :=
  if flags &&& 1 <<< 12 ≠ 0 then flags &&& wordNot (1 <<< 12) ||| 1 <<< 7 else flags

/-- The body of `vmm_map`, given the function for the recursive calls. -/
def vmmMapBody (M : Machine) (recur : MapFn) : MapFn := fun st dir virt phys flags size => do
  let flags := flags ||| ptFlagValid
  let (pml4, st) ← (match M.mode with
    | .fiveLevel => getNextLevel M recur st dir virt size 4 (tableIndex virt 48)
    | .fourLevel => pure (dir, st))
  let (pml3, st) ← getNextLevel M recur st pml4 virt size 3 (tableIndex virt 39)
  if size = .size1GiB then
    if M.is1GibPageSupported then
      st.write pml3 (tableIndex virt 30) (phys ||| flags ||| ptFlagLarge)
    else
      mapLoop recur dir virt phys flags .size2MiB 0x200000 (0x40000000 / 0x200000) 0 st
  else do
    let (pml2, st) ← getNextLevel M recur st pml3 virt size 2 (tableIndex virt 30)
    if size = .size2MiB then
      st.write pml2 (tableIndex virt 21) (phys ||| flags ||| ptFlagLarge)
    else do
      let (pml1, st) ← getNextLevel M recur st pml2 virt size 1 (tableIndex virt 21)
      st.write pml1 (tableIndex virt 12) (phys ||| leafFlags flags)

/-- `vmm_map`, with calls nested at most `fuel` deep. -/
def vmmMap (M : Machine) : ℕ → MapFn
  | 0 => fun _ _ _ _ _ _ => .error .fuel
  | fuel + 1 => vmmMapBody M (vmmMap M fuel)

end CappuccinOS.Paging
