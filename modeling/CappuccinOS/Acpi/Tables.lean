import CappuccinOS.Lib.Bytes

/-!
# ACPI tables (`drivers/acpi.rs`)

The firmware lists its tables in a root table: an RSDT with pointers of four bytes or an XSDT with
pointers of eight. `RootSDT::get` takes the first pointer of the list and walks from there by the
lengths of the tables, so that it finds the table behind the one before and not the one that is
listed.

1. `SDT`, `RootSDT`, `resolveAcpi` and `findTable`, over a memory that is read through the direct
   map at `hhdm`;
2. `Listing`: a root table in memory, and the tables it lists, wherever they are;
3. `Found` is what the module is for, and `found_iff` says when it is achieved: when each table lies
   right behind the one listed before it.
-/

namespace CappuccinOS.Acpi

/-- `size_of::<SDTHeader>()`. -/
abbrev sdtHeaderSize : ℕ := 36

/-- `SDT`: the addresses of its header and of what follows, and the rest behind a `T`. -/
structure SDT where
  header : ℕ
  inner : ℕ
  extra : Option (ℕ × ℕ)
  deriving DecidableEq

inductive RootSDT
  | rsdt (sdt : SDT)
  | xsdt (sdt : SDT)
  deriving DecidableEq

/-- `RSDP`, and the field that an `XSDP` adds to it. -/
structure RSDP where
  revision : Byte
  rsdtAddr : ℕ
  xsdtAddr : ℕ

structure ACPI where
  rootSdt : RootSDT
  tables : List (List Byte)

section Source

variable (p : Profile) (mem : ℕ → Byte) (hhdm : ℕ)

/-- The field `length` of a header. -/
def tableLength (header : ℕ) : ℕ := leNat (window mem (header + 4) 4)

/-- The field `signature`. -/
def signature (header : ℕ) : List Byte := window mem header 4

/-- `SDT::new`, for a `T` of `size` bytes. -/
def SDT.new (size ptr : ℕ) : Except Fault SDT :=
  let ptr := (ptr + hhdm) % wordSize
  let length := tableLength mem ptr
  if sdtHeaderSize ≤ length then
    .ok {
      header := ptr
      inner := ptr + sdtHeaderSize
      extra :=
        if length > sdtHeaderSize + size then
          some (ptr + (sdtHeaderSize + size), length - (sdtHeaderSize + size))
        else none }
  else .error (.panic .bounds)

namespace RootSDT

/-- The variant's payload. -/
def sdt : RootSDT → SDT
  | .rsdt sdt => sdt
  | .xsdt sdt => sdt

def ptrSize : RootSDT → ℕ
  | .rsdt _ => 4
  | .xsdt _ => 8

def len (root : RootSDT) : Except Fault ℕ := do
  let bytes ← arith (p.sub (tableLength mem root.sdt.header) sdtHeaderSize)
  .ok (bytes / root.ptrSize)

/-- The loop of `RootSDT::get`: past `idx` tables. -/
def getFrom (rootPtr : ℕ) : ℕ → ℕ → Except Fault ℕ
  | 0, offset => .ok ((rootPtr + offset) % wordSize)
  | idx + 1, offset =>
    let header := (rootPtr + offset) % wordSize
    if header = 0 then .error (.panic .unwrap)
    else do
      let offset ← arith (p.add offset (tableLength mem header))
      getFrom rootPtr idx offset

def get (root : RootSDT) (idx : ℕ) : Except Fault ℕ := do
  let pointers := leNat (window mem root.sdt.inner root.ptrSize)
  let ptrs ← arith (p.add pointers hhdm)
  if ptrs = 0 then .error (.panic .assertion) else getFrom p mem ptrs idx 0

end RootSDT

/-- `root_sdt` of `resolve_acpi`: revision 0 has an RSDT only. -/
def RSDP.rootSDT (rsdp : RSDP) : Except Fault RootSDT :=
  if rsdp.revision = 0#8 then (SDT.new mem hhdm 4 rsdp.rsdtAddr).map .rsdt
  else (SDT.new mem hhdm 8 rsdp.xsdtAddr).map .xsdt

/-- `resolve_acpi`, with the pointer that the boot loader hands over. -/
def resolveAcpi (rsdpPtr : Option RSDP) : Except Fault ACPI :=
  match rsdpPtr with
  | none => .error (.panic .assertion)
  | some rsdp => do
    let rootSdt ← rsdp.rootSDT mem hhdm
    let len ← rootSdt.len p mem
    let tables ← (List.range len).mapM fun i => do
      let sdtPtr ← rootSdt.get p mem hhdm i
      .ok (signature mem sdtPtr)
    .ok ⟨rootSdt, tables⟩

/-- The loop of `find_table`, from table `i` on. -/
def findFrom (rootSdt : RootSDT) (size : ℕ) (tableName : List Byte) :
    ℕ → List (List Byte) → Except Fault (Option SDT)
  | _, [] => .ok none
  | i, table :: rest =>
    if table = tableName then do
      let ptr ← rootSdt.get p mem hhdm i
      let table ← SDT.new mem hhdm size ((ptr + wordSize - hhdm) % wordSize)
      .ok (some table)
    else findFrom rootSdt size tableName (i + 1) rest

/-- `find_table`, for a `T` of `size` bytes. -/
def findTable (acpi : ACPI) (size : ℕ) (tableName : List Byte) : Except Fault (Option SDT) :=
  if tableName.length = 4 then findFrom p mem hhdm acpi.rootSdt size tableName 0 acpi.tables
  else .error (.panic .assertion)

end Source

/-! ## Listings -/

/-- A table in memory, by its physical address. -/
structure Table where
  address : ℕ
  length : ℕ
  signature : List Byte
  deriving DecidableEq

/-- The address of the root table, and the size of its pointers. -/
def RSDP.root (rsdp : RSDP) : ℕ := if rsdp.revision = 0#8 then rsdp.rsdtAddr else rsdp.xsdtAddr

def RSDP.ptrSize (rsdp : RSDP) : ℕ := if rsdp.revision = 0#8 then 4 else 8

/-- The memory holds a root table with a pointer for each of `listed`, in this order, and the
headers of these tables. All of them lie in the direct map, which does not start at zero. -/
structure Listing (mem : ℕ → Byte) (hhdm : ℕ) (rsdp : RSDP) (listed : List Table) : Prop where
  hhdm_pos : 0 < hhdm
  root_length : tableLength mem (rsdp.root + hhdm) = sdtHeaderSize + rsdp.ptrSize * listed.length
  root_mapped :
    rsdp.root + hhdm + (sdtHeaderSize + rsdp.ptrSize * listed.length) ≤ wordSize
  pointer : ∀ i t, listed[i]? = some t →
    leNat (window mem (rsdp.root + hhdm + sdtHeaderSize + rsdp.ptrSize * i) rsdp.ptrSize) =
      t.address
  header : ∀ t ∈ listed, tableLength mem (t.address + hhdm) = t.length ∧
    signature mem (t.address + hhdm) = t.signature
  table_length : ∀ t ∈ listed, sdtHeaderSize ≤ t.length
  table_mapped : ∀ t ∈ listed, t.address + hhdm + t.length ≤ wordSize

/-- Every table is found where the list says it is: by its place in the list, and by its signature,
of which the first one counts. -/
def Found (p : Profile) (mem : ℕ → Byte) (hhdm : ℕ) (rsdp : RSDP) (listed : List Table) : Prop :=
  ∃ acpi, resolveAcpi p mem hhdm (some rsdp) = .ok acpi ∧
    acpi.rootSdt.len p mem = .ok listed.length ∧
    (∀ i t, listed[i]? = some t → acpi.rootSdt.get p mem hhdm i = .ok (t.address + hhdm)) ∧
    ∀ size sig, sig.length = 4 → ∃ r, findTable p mem hhdm acpi size sig = .ok r ∧
      r.map SDT.header =
        (listed.find? fun t => t.signature = sig).map fun t => t.address + hhdm

/-- Each table starts where the one listed before it ends. -/
def BackToBack (listed : List Table) : Prop :=
  ∀ i t u, listed[i]? = some t → listed[i + 1]? = some u → u.address = t.address + t.length

section Walk

variable {p : Profile} {mem : ℕ → Byte} {hhdm : ℕ} {rsdp : RSDP} {listed : List Table}

/-! ## The root table -/

/-- The root table as `resolve_acpi` has it. -/
def RSDP.listedRoot (rsdp : RSDP) (hhdm len : ℕ) : RootSDT :=
  let sdt : SDT := {
    header := rsdp.root + hhdm
    inner := rsdp.root + hhdm + sdtHeaderSize
    extra :=
      if sdtHeaderSize + rsdp.ptrSize * len > sdtHeaderSize + rsdp.ptrSize then
        some (rsdp.root + hhdm + (sdtHeaderSize + rsdp.ptrSize),
          sdtHeaderSize + rsdp.ptrSize * len - (sdtHeaderSize + rsdp.ptrSize))
      else none }
  if rsdp.revision = 0#8 then .rsdt sdt else .xsdt sdt

theorem RSDP.ptrSize_listedRoot (rsdp : RSDP) (hhdm len : ℕ) :
    (rsdp.listedRoot hhdm len).ptrSize = rsdp.ptrSize := by
  unfold RSDP.listedRoot RSDP.ptrSize
  split_ifs <;> rfl

theorem RSDP.header_listedRoot (rsdp : RSDP) (hhdm len : ℕ) :
    (rsdp.listedRoot hhdm len).sdt.header = rsdp.root + hhdm := by
  unfold RSDP.listedRoot
  split_ifs <;> rfl

theorem RSDP.inner_listedRoot (rsdp : RSDP) (hhdm len : ℕ) :
    (rsdp.listedRoot hhdm len).sdt.inner = rsdp.root + hhdm + sdtHeaderSize := by
  unfold RSDP.listedRoot
  split_ifs <;> rfl

theorem RSDP.ptrSize_pos (rsdp : RSDP) : 0 < rsdp.ptrSize := by
  unfold RSDP.ptrSize
  split_ifs <;> norm_num

theorem Listing.root_eq (h : Listing mem hhdm rsdp listed) :
    rsdp.rootSDT mem hhdm = .ok (rsdp.listedRoot hhdm listed.length) := by
  have hroot : (rsdp.root + hhdm) % wordSize = rsdp.root + hhdm :=
    Nat.mod_eq_of_lt (by have := h.root_mapped; unfold sdtHeaderSize at this; omega)
  have hnew : ∀ size, SDT.new mem hhdm size rsdp.root = .ok {
      header := rsdp.root + hhdm
      inner := rsdp.root + hhdm + sdtHeaderSize
      extra :=
        if sdtHeaderSize + rsdp.ptrSize * listed.length > sdtHeaderSize + size then
          some (rsdp.root + hhdm + (sdtHeaderSize + size),
            sdtHeaderSize + rsdp.ptrSize * listed.length - (sdtHeaderSize + size))
        else none } := by
    intro size
    unfold SDT.new
    simp only [hroot, h.root_length]
    rw [if_pos (Nat.le_add_right _ _)]
  unfold RSDP.listedRoot RSDP.rootSDT
  by_cases hrev : rsdp.revision = 0#8
  · have h4 := hnew 4
    simp only [RSDP.root, RSDP.ptrSize, hrev, if_true] at h4 ⊢
    rw [h4]
    rfl
  · have h8 := hnew 8
    simp only [RSDP.root, RSDP.ptrSize, hrev, if_false] at h8 ⊢
    rw [h8]
    rfl

theorem Listing.len_eq (h : Listing mem hhdm rsdp listed) :
    (rsdp.listedRoot hhdm listed.length).len p mem = .ok listed.length := by
  have hpos := rsdp.ptrSize_pos
  unfold RootSDT.len
  rw [rsdp.header_listedRoot, rsdp.ptrSize_listedRoot, h.root_length,
    p.sub_of_le (Nat.le_add_right _ _),
    Nat.add_sub_cancel_left]
  show Except.ok (rsdp.ptrSize * listed.length / rsdp.ptrSize) = _
  rw [Nat.mul_div_cancel_left _ hpos]

/-! ## The walk -/

theorem Listing.get_eq (h : Listing mem hhdm rsdp listed) {first : Table}
    (hfirst : listed[0]? = some first) (idx : ℕ) :
    (rsdp.listedRoot hhdm listed.length).get p mem hhdm idx =
      RootSDT.getFrom p mem (first.address + hhdm) idx 0 := by
  have hpos := h.hhdm_pos
  have hpointer := h.pointer 0 first hfirst
  have hmem : first ∈ listed := List.mem_of_getElem? hfirst
  have hmapped := h.table_mapped first hmem
  have hlength : 36 ≤ first.length := h.table_length first hmem
  rw [Nat.mul_zero, Nat.add_zero] at hpointer
  unfold RootSDT.get
  rw [rsdp.inner_listedRoot, rsdp.ptrSize_listedRoot, hpointer]
  dsimp only
  rw [p.add_of_lt (by omega)]
  exact if_neg (by omega)

/-- One table more is one step more, from where the table before is. -/
theorem getFrom_succ {rootPtr idx offset b : ℕ}
    (h : RootSDT.getFrom p mem rootPtr (idx + 1) offset = .ok b) :
    ∃ a, RootSDT.getFrom p mem rootPtr idx offset = .ok a ∧
      b = (a + tableLength mem a) % wordSize := by
  induction idx generalizing offset with
  | zero =>
    refine ⟨(rootPtr + offset) % wordSize, rfl, ?_⟩
    rw [RootSDT.getFrom] at h
    split_ifs at h with h0
    obtain ⟨offset', hadd, h⟩ := bind_eq_ok.mp h
    have hoffset := Profile.eq_mod_of_add (arith_eq_ok.mp hadd)
    have hb : (rootPtr + offset') % wordSize = b := Except.ok.inj h
    rw [← hb, hoffset, Nat.add_mod_mod, ← Nat.add_assoc, Nat.mod_add_mod]
  | succ idx ih =>
    rw [RootSDT.getFrom] at h
    split_ifs at h with h0
    obtain ⟨offset', hadd, h⟩ := bind_eq_ok.mp h
    obtain ⟨a, ha, hb⟩ := ih h
    refine ⟨a, ?_, hb⟩
    rw [RootSDT.getFrom, if_neg h0]
    exact bind_eq_ok.mpr ⟨offset', hadd, ha⟩

/-- Over tables that lie back to back the walk meets each of them. -/
theorem Listing.getFrom_eq (h : Listing mem hhdm rsdp listed) (hback : BackToBack listed)
    {rootPtr offset i n : ℕ} {t u : Table} (hroot : 0 < rootPtr) (ht : listed[i]? = some t)
    (hoffset : rootPtr + offset = t.address + hhdm) (hu : listed[i + n]? = some u) :
    RootSDT.getFrom p mem rootPtr n offset = .ok (u.address + hhdm) := by
  induction n generalizing i offset t with
  | zero =>
    obtain rfl : t = u := Option.some.inj (ht.symm.trans hu)
    have hmem : t ∈ listed := List.mem_of_getElem? ht
    have hmapped := h.table_mapped t hmem
    have hlength : 36 ≤ t.length := h.table_length t hmem
    rw [RootSDT.getFrom, hoffset, Nat.mod_eq_of_lt (by omega)]
  | succ n ih =>
    have hmem : t ∈ listed := List.mem_of_getElem? ht
    have hmapped := h.table_mapped t hmem
    have hlength : 36 ≤ t.length := h.table_length t hmem
    have hpos := h.hhdm_pos
    have hlt := (List.getElem?_eq_some_iff.mp hu).1
    have hnext : listed[i + 1]? = some listed[i + 1] := List.getElem?_eq_getElem (by omega)
    have haddress := hback i t _ ht hnext
    rw [RootSDT.getFrom, hoffset, Nat.mod_eq_of_lt (by omega), if_neg (by omega),
      (h.header t hmem).1]
    refine bind_eq_ok.mpr ⟨offset + t.length, ?_, ?_⟩
    · rw [p.add_of_lt (by omega), arith_ok]
    · exact ih hnext (by omega) (by rwa [Nat.add_assoc, Nat.add_comm 1 n])

/-! ## Tables that are found -/

theorem Listing.get_of_backToBack (h : Listing mem hhdm rsdp listed) (hback : BackToBack listed)
    {i : ℕ} {t : Table} (ht : listed[i]? = some t) :
    (rsdp.listedRoot hhdm listed.length).get p mem hhdm i = .ok (t.address + hhdm) := by
  have hlt := (List.getElem?_eq_some_iff.mp ht).1
  have hpos := h.hhdm_pos
  have hfirst : listed[0]? = some listed[0] := List.getElem?_eq_getElem (by omega)
  rw [h.get_eq hfirst]
  exact h.getFrom_eq hback (by omega) hfirst (Nat.add_zero _) (by rwa [Nat.zero_add])

theorem Listing.resolveAcpi_eq (h : Listing mem hhdm rsdp listed) (hback : BackToBack listed) :
    resolveAcpi p mem hhdm (some rsdp) =
      .ok ⟨rsdp.listedRoot hhdm listed.length, listed.map Table.signature⟩ := by
  have htables : (List.range listed.length).mapM (fun i => do
      let sdtPtr ← (rsdp.listedRoot hhdm listed.length).get p mem hhdm i
      .ok (signature mem sdtPtr) : ℕ → Except Fault (List Byte)) =
      .ok (listed.map Table.signature) := by
    rw [mapM_eq_ok, List.forall₂_iff_get]
    refine ⟨by rw [List.length_range, List.length_map], fun i hi hi' => ?_⟩
    rw [List.length_map] at hi'
    have ht : listed[i]? = some listed[i] := List.getElem?_eq_getElem hi'
    refine bind_eq_ok.mpr ⟨listed[i].address + hhdm, ?_, ?_⟩
    · rw [List.get_eq_getElem, List.getElem_range]
      exact h.get_of_backToBack hback ht
    · rw [(h.header _ (List.getElem_mem hi')).2, List.get_eq_getElem, List.getElem_map]
  exact bind_eq_ok.mpr ⟨_, h.root_eq, bind_eq_ok.mpr ⟨_, h.len_eq, bind_eq_ok.mpr
    ⟨_, htables, rfl⟩⟩⟩

theorem Listing.new_eq (h : Listing mem hhdm rsdp listed) {t : Table} (ht : t ∈ listed) (size : ℕ) :
    ∃ sdt, SDT.new mem hhdm size ((t.address + hhdm + wordSize - hhdm) % wordSize) = .ok sdt ∧
      sdt.header = t.address + hhdm := by
  have hmapped := h.table_mapped t ht
  have hlength : 36 ≤ t.length := h.table_length t ht
  have hlower : (t.address + hhdm + wordSize - hhdm) % wordSize = t.address := by
    unfold wordSize at hmapped ⊢
    omega
  have hhigher : (t.address + hhdm) % wordSize = t.address + hhdm := Nat.mod_eq_of_lt (by omega)
  unfold SDT.new
  simp only [hlower, hhigher, (h.header t ht).1]
  rw [if_pos hlength]
  exact ⟨_, rfl, rfl⟩

theorem Listing.findFrom_eq (h : Listing mem hhdm rsdp listed) (hback : BackToBack listed)
    (size : ℕ) (sig : List Byte) {i : ℕ} {rest : List Table} (hrest : listed.drop i = rest) :
    ∃ r, findFrom p mem hhdm (rsdp.listedRoot hhdm listed.length) size sig i
        (rest.map Table.signature) = .ok r ∧
      r.map SDT.header = (rest.find? fun t => t.signature = sig).map fun t => t.address + hhdm := by
  induction rest generalizing i with
  | nil => exact ⟨none, rfl, rfl⟩
  | cons t rest ih =>
    have ht : listed[i]? = some t := by
      rw [← List.head?_drop, hrest, List.head?_cons]
    have hnext : listed.drop (i + 1) = rest := by
      rw [← List.tail_drop, hrest, List.tail_cons]
    rw [List.map_cons, findFrom, List.find?_cons]
    by_cases hsig : t.signature = sig
    · obtain ⟨sdt, hnew, hheader⟩ := h.new_eq (List.mem_of_getElem? ht) size
      rw [if_pos hsig, decide_eq_true hsig]
      refine ⟨some sdt, ?_, congrArg some hheader⟩
      exact bind_eq_ok.mpr ⟨_, h.get_of_backToBack hback ht, bind_eq_ok.mpr ⟨sdt, hnew, rfl⟩⟩
    · rw [if_neg hsig, decide_eq_false hsig]
      exact ih hnext

theorem Listing.found (h : Listing mem hhdm rsdp listed) (hback : BackToBack listed) :
    Found p mem hhdm rsdp listed := by
  refine ⟨_, h.resolveAcpi_eq hback, h.len_eq, fun i t ht => h.get_of_backToBack hback ht, ?_⟩
  intro size sig hsig
  unfold findTable
  rw [if_pos hsig]
  exact h.findFrom_eq hback size sig List.drop_zero

/-! ## Tables that are not -/

/-- From the place of one table to that of the next the walk goes by the length of the first. -/
theorem Listing.backToBack (h : Listing mem hhdm rsdp listed)
    (hfound : Found p mem hhdm rsdp listed) :
    BackToBack listed := by
  obtain ⟨acpi, hresolve, -, hget, -⟩ := hfound
  have hroot : acpi.rootSdt = rsdp.listedRoot hhdm listed.length := by
    obtain ⟨rootSdt, hnew, hresolve⟩ := bind_eq_ok.mp hresolve
    obtain ⟨len, -, hresolve⟩ := bind_eq_ok.mp hresolve
    obtain ⟨tables, -, hresolve⟩ := bind_eq_ok.mp hresolve
    rw [← Except.ok.inj hresolve]
    exact Except.ok.inj (hnew.symm.trans h.root_eq)
  rw [hroot] at hget
  intro i t u ht hu
  have hlt := (List.getElem?_eq_some_iff.mp ht).1
  have hfirst : listed[0]? = some listed[0] := List.getElem?_eq_getElem (by omega)
  have hmem : t ∈ listed := List.mem_of_getElem? ht
  have hpos := h.hhdm_pos
  have hmapped := h.table_mapped t hmem
  have hthis := hget i t ht
  have hnext := hget (i + 1) u hu
  rw [h.get_eq hfirst] at hthis hnext
  obtain ⟨a, ha, hstep⟩ := getFrom_succ hnext
  obtain rfl := Except.ok.inj (hthis.symm.trans ha)
  rw [(h.header t hmem).1] at hstep
  rcases Nat.lt_or_eq_of_le hmapped with hlt | heq
  · rw [Nat.mod_eq_of_lt hlt] at hstep
    omega
  · rw [heq, Nat.mod_self] at hstep
    omega

end Walk

/-- **Tables are found wherever they are** exactly when they lie back to back, in the order in which
they are listed. -/
theorem found_iff (p : Profile) {mem : ℕ → Byte} {hhdm : ℕ} {rsdp : RSDP} {listed : List Table}
    (h : Listing mem hhdm rsdp listed) : Found p mem hhdm rsdp listed ↔ BackToBack listed :=
  ⟨h.backToBack, h.found⟩

/-! Two tables of a header each, listed by an RSDT. -/

def sampleTable (address : ℕ) (sig : List Byte) : Table := ⟨address, 36, sig⟩

def sampleTables (second : ℕ) : List Table :=
  [sampleTable 0x2000 [0x46#8, 0x41#8, 0x43#8, 0x50#8],
    sampleTable second [0x41#8, 0x50#8, 0x49#8, 0x43#8]]

def sampleRSDP : RSDP := ⟨0#8, 0x1000, 0⟩

abbrev sampleHhdm : ℕ := 0xFFFF800000000000

/-- A header: the signature, the length, and what the tables have no use for. -/
def headerBytes (sig : List Byte) (length : ℕ) : List Byte :=
  sig ++ leBytes 4 length ++ List.replicate 28 0#8

/-- A memory that holds these bytes at these addresses, and zeros. -/
def memoryOf : List (ℕ × List Byte) → ℕ → Byte
  | [], _ => 0#8
  | (base, bytes) :: rest, a =>
    if base ≤ a ∧ a < base + bytes.length then bytes.getD (a - base) 0#8 else memoryOf rest a

def sampleMemory (second : ℕ) : ℕ → Byte :=
  memoryOf ((0x1000 + sampleHhdm, headerBytes [0x52#8, 0x53#8, 0x44#8, 0x54#8] 44 ++
      leBytes 4 0x2000 ++ leBytes 4 second) ::
    (sampleTables second).map fun t => (t.address + sampleHhdm, headerBytes t.signature t.length))

theorem sampleListing {second : ℕ} (h : second = 0x2024 ∨ second = 0x3000) :
    Listing (sampleMemory second) sampleHhdm sampleRSDP (sampleTables second) := by
  refine ⟨by norm_num, ?_, ?_, ?_, ?_, ?_, ?_⟩
  · obtain rfl | rfl := h <;> decide +kernel
  · obtain rfl | rfl := h <;> decide +kernel
  · rintro (_ | _ | i) t ht
    · cases ht
      obtain rfl | rfl := h <;> decide +kernel
    · cases ht
      obtain rfl | rfl := h <;> decide +kernel
    · cases ht
  · obtain rfl | rfl := h <;> decide +kernel
  · obtain rfl | rfl := h <;> decide +kernel
  · obtain rfl | rfl := h <;> decide +kernel

/-- The second table right behind the first. -/
theorem found_iff_sample :
    Listing (sampleMemory 0x2024) sampleHhdm sampleRSDP (sampleTables 0x2024) ∧
      Found .dev (sampleMemory 0x2024) sampleHhdm sampleRSDP (sampleTables 0x2024) := by
  refine ⟨sampleListing (.inl rfl), (found_iff .dev (sampleListing (.inl rfl))).mpr ?_⟩
  rintro (_ | _ | i) t u ht hu
  · cases ht
    cases hu
    rfl
  · cases hu
  · cases hu

/-- The second table in a page of its own. -/
theorem not_found_apart :
    Listing (sampleMemory 0x3000) sampleHhdm sampleRSDP (sampleTables 0x3000) ∧
      ((sampleTables 0x3000).Pairwise fun t u => t.address + t.length ≤ u.address) ∧
      ¬ Found .dev (sampleMemory 0x3000) sampleHhdm sampleRSDP (sampleTables 0x3000) := by
  refine ⟨sampleListing (.inr rfl), by decide, fun hfound => ?_⟩
  have hnext := (sampleListing (.inr rfl)).backToBack hfound 0 _ _ rfl rfl
  exact absurd hnext (by decide)

end CappuccinOS.Acpi
