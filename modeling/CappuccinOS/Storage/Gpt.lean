import CappuccinOS.Storage.Partition
import CappuccinOS.Storage.Uuid

/-!
# The partition table of a disk (`GPTHeader::new` and the partition loop of `ide_initialize`)

`ide_initialize` reads the table behind the GPT header, as many whole sectors as the entries fill,
and goes through the entries by their number. An entry in a sector that the entries fill only in
part is not read with the others, and the loop then slices behind the end.

1. `GPTHeader.new` and `gptPartitions`, the header and the loop.
2. `scanEntry_window`: what the loop takes from an entry inside the table; `scanLoop_window`: what
   the whole loop gives.
3. `gptPartitions_iff`: the list is the entries of the table in use exactly if the sector at which
   the entries end is full, or the last entry starts in front of it.
-/

namespace CappuccinOS.Storage

/-- `<[u8; n]>::try_from(&data[i..i + n]).unwrap()`. -/
def arrayAt (n : ℕ) (data : List Byte) (i : ℕ) : Except Fault (List.Vector Byte n) := do
  let bytes ← slice data i (i + n)
  match Uuid.tryInto n bytes with
  | some array => .ok array
  | none => .error (.panic .unwrap)

def u32OfLeBytes (bytes : List.Vector Byte 4) : UInt32 := .ofNat (leNat bytes.toList)

def u64OfLeBytes (bytes : List.Vector Byte 8) : UInt64 := .ofNat (leNat bytes.toList)

structure GPTHeader where
  header : List.Vector Byte 8
  revision : UInt32
  headerSize : UInt32
  headerChecksum : UInt32
  reserved : List.Vector Byte 4
  headerLba : UInt64
  headerLbaAlt : UInt64
  firstUsableBlock : UInt64
  lastUsableBlock : UInt64
  guid : Uuid
  guidLba : UInt64
  partitionEntryCount : UInt32
  partitionEntrySize : UInt32
  partitionTableCrc : UInt32

def GPTHeader.new (data : List Byte) : Except Fault GPTHeader := do
  arith (check (data.length ≥ 0x5C))
  let header ← arrayAt 8 data 0x00
  let revision ← arrayAt 4 data 0x08
  let headerSize ← arrayAt 4 data 0x0C
  let headerChecksum ← arrayAt 4 data 0x10
  let reserved ← arrayAt 4 data 0x14
  let headerLba ← arrayAt 8 data 0x18
  let headerLbaAlt ← arrayAt 8 data 0x20
  let firstUsableBlock ← arrayAt 8 data 0x28
  let lastUsableBlock ← arrayAt 8 data 0x30
  let guidBytes ← arrayAt 16 data 0x38
  let guidLba ← arrayAt 8 data 0x48
  let partitionEntryCount ← arrayAt 4 data 0x50
  let partitionEntrySize ← arrayAt 4 data 0x54
  let partitionTableCrc ← arrayAt 4 data 0x58
  return {
    header := header
    revision := u32OfLeBytes revision
    headerSize := u32OfLeBytes headerSize
    headerChecksum := u32OfLeBytes headerChecksum
    reserved := reserved
    headerLba := u64OfLeBytes headerLba
    headerLbaAlt := u64OfLeBytes headerLbaAlt
    firstUsableBlock := u64OfLeBytes firstUsableBlock
    lastUsableBlock := u64OfLeBytes lastUsableBlock
    guid := Uuid.fromBytes guidBytes
    guidLba := u64OfLeBytes guidLba
    partitionEntryCount := u32OfLeBytes partitionEntryCount
    partitionEntrySize := u32OfLeBytes partitionEntrySize
    partitionTableCrc := u32OfLeBytes partitionTableCrc }

/-- `GPTPartitionEntry` with all its fields. -/
structure GPTEntry extends GPTPartitionEntry where
  partitionTypeGuid : Uuid
  uniquePartitionGuid : Uuid
  attributes : UInt64
  partitionName : List.Vector Byte 72

/-- The text that marks an entry as unused. -/
def unusedText : List Char := "00000000-0000-0000-0000-000000000000 ".toList

/-- A turn of the partition loop: `none` for an entry that it skips. -/
def scanEntry (table : List Byte) (entryOffset : ℕ) : Except Fault (Option GPTEntry) := do
  let partitionTypeGuid := Uuid.fromBytes (← arrayAt 16 table entryOffset)
  if partitionTypeGuid.eqStr unusedText then
    return none
  let uniquePartitionGuid := Uuid.fromBytes (← arrayAt 16 table (entryOffset + 16))
  let startSector := u64OfLeBytes (← arrayAt 8 table (entryOffset + 32))
  let endSector := u64OfLeBytes (← arrayAt 8 table (entryOffset + 40))
  let attributes := u64OfLeBytes (← arrayAt 8 table (entryOffset + 48))
  let partitionName ← arrayAt 72 table (entryOffset + 56)
  return some {
    startSector := startSector
    endSector := endSector
    partitionTypeGuid := partitionTypeGuid
    uniquePartitionGuid := uniquePartitionGuid
    attributes := attributes
    partitionName := partitionName }

/-- The partition loop of `ide_initialize`, from entry `i` on with `left` entries to go. -/
def scanLoop (p : Profile) (size : ℕ) (table : List Byte) :
    ℕ → ℕ → List GPTEntry → Except Fault (List GPTEntry)
  | _, 0, partitions => .ok partitions
  | i, left + 1, partitions => do
    let entryOffset ← arith (p.fit 32 (i * size))
    match ← scanEntry table entryOffset with
    | none => scanLoop p size table (i + 1) left partitions
    | some entry => scanLoop p size table (i + 1) left (partitions ++ [entry])

/-- `ide_initialize` on a drive, from its GPT header to the list of its partitions. -/
def gptPartitions (p : Profile) (d : BlockDevice) (gpt : GPTHeader) :
    Except Fault (List GPTEntry) := do
  let bytes ← arith
    (p.fit 32 (gpt.partitionEntryCount.toNat * gpt.partitionEntrySize.toNat))
  let partitionSector ← expect (d.read 2 (bytes / sectorSize))
  scanLoop p gpt.partitionEntrySize.toNat partitionSector 0 gpt.partitionEntryCount.toNat []

/-- `ide_initialize` on a drive behind the check of its MBR. -/
def scanDrive (p : Profile) (d : BlockDevice) : Except Fault (List GPTEntry) := do
  let gptSector ← expect (d.read 1 1)
  let array ← slice gptSector 0 512
  let gpt ← GPTHeader.new array
  gptPartitions p d gpt

/-! ## Entries on the disk -/

/-- The bytes of a disk from a position on, as an array. -/
def diskBytes (data : ℕ → Byte) (pos n : ℕ) : List.Vector Byte n :=
  ⟨window data pos n, length_window data pos n⟩

/-- The entry at a position of the disk. -/
def entryAt (data : ℕ → Byte) (pos : ℕ) : GPTEntry where
  partitionTypeGuid := Uuid.fromBytes (diskBytes data pos 16)
  uniquePartitionGuid := Uuid.fromBytes (diskBytes data (pos + 16) 16)
  startSector := u64OfLeBytes (diskBytes data (pos + 32) 8)
  endSector := u64OfLeBytes (diskBytes data (pos + 40) 8)
  attributes := u64OfLeBytes (diskBytes data (pos + 48) 8)
  partitionName := diskBytes data (pos + 56) 72

/-- The type GUID of an entry in use is not zero. -/
def inUse (data : ℕ → Byte) (pos : ℕ) : Bool :=
  diskBytes data pos 16 ≠ List.Vector.replicate 16 0

/-- The header at a position of the disk. -/
def headerAt (data : ℕ → Byte) (pos : ℕ) : GPTHeader where
  header := diskBytes data pos 8
  revision := u32OfLeBytes (diskBytes data (pos + 0x08) 4)
  headerSize := u32OfLeBytes (diskBytes data (pos + 0x0C) 4)
  headerChecksum := u32OfLeBytes (diskBytes data (pos + 0x10) 4)
  reserved := diskBytes data (pos + 0x14) 4
  headerLba := u64OfLeBytes (diskBytes data (pos + 0x18) 8)
  headerLbaAlt := u64OfLeBytes (diskBytes data (pos + 0x20) 8)
  firstUsableBlock := u64OfLeBytes (diskBytes data (pos + 0x28) 8)
  lastUsableBlock := u64OfLeBytes (diskBytes data (pos + 0x30) 8)
  guid := Uuid.fromBytes (diskBytes data (pos + 0x38) 16)
  guidLba := u64OfLeBytes (diskBytes data (pos + 0x48) 8)
  partitionEntryCount := u32OfLeBytes (diskBytes data (pos + 0x50) 4)
  partitionEntrySize := u32OfLeBytes (diskBytes data (pos + 0x54) 4)
  partitionTableCrc := u32OfLeBytes (diskBytes data (pos + 0x58) 4)

section Scan

variable {data : ℕ → Byte} {a n i m : ℕ}

theorem arrayAt_window (h : i + m ≤ n) :
    arrayAt m (window data a n) i = .ok (diskBytes data (a + i) m) := by
  rw [arrayAt, slice_window data h]
  have harray : Uuid.tryInto m (window data (a + i) m) = some (diskBytes data (a + i) m) :=
    dif_pos (length_window data (a + i) m)
  simp only [bind, Except.bind, harray]

theorem arrayAt_behind (h : n < i + m) :
    arrayAt m (window data a n) i = .error (.panic .bounds) := by
  rw [arrayAt, slice_of_not (by rw [length_window]; omega)]
  rfl

theorem new_window (h : 0x5C ≤ n) : GPTHeader.new (window data a n) = .ok (headerAt data a) := by
  have hcheck : check ((window data a n).length ≥ 0x5C) = .ok () :=
    if_pos (by rwa [length_window])
  have harray : ∀ {i m : ℕ}, i + m ≤ 0x5C →
      arrayAt m (window data a n) i = .ok (diskBytes data (a + i) m) :=
    fun h' => arrayAt_window (by omega)
  rw [GPTHeader.new, hcheck, arith_ok]
  simp only [bind, Except.bind]
  rw [harray (by decide), harray (by decide), harray (by decide), harray (by decide),
    harray (by decide), harray (by decide), harray (by decide), harray (by decide),
    harray (by decide), harray (by decide), harray (by decide), harray (by decide),
    harray (by decide), harray (by decide)]
  rfl

/-- The comparison with the text of the zero GUID tells the entries in use. -/
theorem eqStr_unusedText (pos : ℕ) :
    (Uuid.fromBytes (diskBytes data pos 16)).eqStr unusedText = !inUse data pos := by
  have htext : unusedText = guidText (fun _ _ => false) (List.Vector.replicate 16 0) ++
      List.replicate 1 ' ' := rfl
  rw [htext, Uuid.eqStr, Uuid.ofStr_guidText, inUse]
  simp only [Option.some.injEq, Uuid.fromBytes_injective.eq_iff, ne_eq, decide_not, Bool.not_not]
  exact decide_eq_decide.mpr eq_comm

theorem scanEntry_window (h : i + 128 ≤ n) : scanEntry (window data a n) i =
    .ok (if inUse data (a + i) then some (entryAt data (a + i)) else none) := by
  rw [scanEntry, arrayAt_window (by omega)]
  simp only [bind, Except.bind]
  rw [eqStr_unusedText]
  cases inUse data (a + i) with
  | false => rfl
  | true =>
    rw [arrayAt_window (by omega), arrayAt_window (by omega), arrayAt_window (by omega),
      arrayAt_window (by omega), arrayAt_window (by omega)]
    rfl

theorem scanEntry_behind (h : n < i + 16) :
    scanEntry (window data a n) i = .error (.panic .bounds) := by
  rw [scanEntry, arrayAt_behind h]
  rfl

variable {p : Profile} {size left : ℕ} {partitions : List GPTEntry}

theorem scanLoop_window (hfit : (i + left) * size < 2 ^ 32)
    (hin : ∀ k < i + left, k * size + 128 ≤ n) :
    scanLoop p size (window data a n) i left partitions = .ok (partitions ++
      ((List.range' i left).filter fun k => inUse data (a + k * size)).map
        fun k => entryAt data (a + k * size)) := by
  induction left generalizing i partitions with
  | zero => rw [scanLoop, List.range'_zero, List.filter_nil, List.map_nil, List.append_nil]
  | succ left ih =>
    have hstop : i + 1 + left = i + (left + 1) := by omega
    have hlt : i * size < 2 ^ 32 :=
      lt_of_le_of_lt (Nat.mul_le_mul_right size (Nat.le_add_right i (left + 1))) hfit
    rw [← hstop] at hfit hin
    rw [scanLoop, p.fit_of_lt hlt, arith_ok]
    simp only [bind, Except.bind]
    rw [scanEntry_window (hin i (by omega)), List.range'_succ, List.filter_cons]
    cases inUse data (a + i * size) with
    | false => exact ih hfit hin
    | true => exact (ih hfit hin).trans (congrArg Except.ok (List.append_assoc ..))

/-- An entry behind the table stops the loop, wherever it is. -/
theorem scanLoop_behind {k : ℕ} (hfit : (i + left) * size < 2 ^ 32) (hle : i ≤ k)
    (hlt : k < i + left) (hout : n < k * size + 16) (r : List GPTEntry) :
    scanLoop p size (window data a n) i left partitions ≠ .ok r := by
  induction left generalizing i partitions with
  | zero => omega
  | succ left ih =>
    have hstop : i + 1 + left = i + (left + 1) := by omega
    have hoffset : i * size < 2 ^ 32 :=
      lt_of_le_of_lt (Nat.mul_le_mul_right size (Nat.le_add_right i (left + 1))) hfit
    rw [← hstop] at hfit hlt
    intro hloop
    rw [scanLoop, p.fit_of_lt hoffset] at hloop
    obtain ⟨offset, hfit', hloop⟩ := bind_eq_ok.mp hloop
    obtain rfl := Except.ok.inj (arith_eq_ok.mp hfit')
    obtain ⟨entry, hentry, hloop⟩ := bind_eq_ok.mp hloop
    rcases Nat.eq_or_lt_of_le hle with rfl | hlt'
    · rw [scanEntry_behind hout] at hentry
      cases hentry
    · cases entry with
      | none => exact ih hfit hlt' hlt hloop
      | some entry => exact ih hfit hlt' hlt hloop

end Scan

/-! ## The whole table -/

/-- The headers that the loop is for: entries of a multiple of 128 bytes, at least one of them, and
no more than 32 bits can count. -/
structure GPTHeader.Sound (gpt : GPTHeader) : Prop where
  size_dvd : 128 ∣ gpt.partitionEntrySize.toNat
  size_pos : 128 ≤ gpt.partitionEntrySize.toNat
  count_pos : 1 ≤ gpt.partitionEntryCount.toNat
  fits : gpt.partitionEntryCount.toNat * gpt.partitionEntrySize.toNat < 2 ^ 32

/-- The sectors that `ide_initialize` reads for the table. -/
def GPTHeader.tableSectors (gpt : GPTHeader) : ℕ :=
  gpt.partitionEntryCount.toNat * gpt.partitionEntrySize.toNat / sectorSize

/-- The entries in use of the table in sector 2 and on, in order. -/
def GPTHeader.entries (gpt : GPTHeader) (data : ℕ → Byte) : List GPTEntry :=
  ((List.range gpt.partitionEntryCount.toNat).filter fun k =>
      inUse data (2 * sectorSize + k * gpt.partitionEntrySize.toNat)).map
    fun k => entryAt data (2 * sectorSize + k * gpt.partitionEntrySize.toNat)

/-- A drive is scanned by the header in its second sector. -/
theorem scanDrive_eq {p : Profile} {d : BlockDevice} (hread : d.answers 1 1 = true) :
    scanDrive p d = gptPartitions p d (headerAt d.data sectorSize) := by
  have hsector : d.read 1 1 = .ok (window d.data sectorSize sectorSize) := if_pos hread
  rw [scanDrive, hsector]
  simp only [bind, Except.bind, expect]
  rw [slice_window d.data (show 0 + 512 ≤ sectorSize from le_rfl)]
  dsimp only
  rw [new_window (by decide)]

/-- The last entry is inside the sectors read if it starts inside. -/
theorem last_entry_iff {count size : ℕ} (hdvd : 128 ∣ size) (hsize : 128 ≤ size)
    (hcount : 1 ≤ count) :
    (count - 1) * size + 128 ≤ sectorSize * (count * size / sectorSize) ↔
      count * size % sectorSize < size := by
  obtain ⟨q, rfl⟩ := hdvd
  have htotal : count * (128 * q) = 128 * (count * q) := by ring
  have hlast : (count - 1) * (128 * q) = 128 * (count * q) - 128 * q := by
    rw [Nat.sub_mul, htotal, Nat.one_mul]
  have hle : q ≤ count * q := Nat.le_mul_of_pos_left q (by omega)
  rw [hlast, htotal]
  unfold sectorSize
  omega

theorem gptPartitions_eq {p : Profile} {d : BlockDevice} {gpt : GPTHeader} (h : gpt.Sound)
    (hread : d.answers 2 gpt.tableSectors = true) :
    gptPartitions p d gpt = scanLoop p gpt.partitionEntrySize.toNat
      (window d.data (sectorSize * 2) (sectorSize * gpt.tableSectors)) 0
        gpt.partitionEntryCount.toNat [] := by
  have htable : d.read 2 gpt.tableSectors =
      .ok (window d.data (sectorSize * 2) (sectorSize * gpt.tableSectors)) := if_pos hread
  unfold GPTHeader.tableSectors at htable ⊢
  rw [gptPartitions, p.fit_of_lt h.fits, arith_ok]
  simp only [bind, Except.bind, htable]
  rfl

/-- With the last entry inside the sectors read, all entries in use are found. -/
theorem gptPartitions_entries {p : Profile} {d : BlockDevice} {gpt : GPTHeader} (h : gpt.Sound)
    (hread : d.answers 2 gpt.tableSectors = true)
    (hin : (gpt.partitionEntryCount.toNat - 1) * gpt.partitionEntrySize.toNat + 128 ≤
      sectorSize * gpt.tableSectors) : gptPartitions p d gpt = .ok (gpt.entries d.data) := by
  have hfit : (0 + gpt.partitionEntryCount.toNat) * gpt.partitionEntrySize.toNat < 2 ^ 32 := by
    rw [Nat.zero_add]
    exact h.fits
  have hall : ∀ k < 0 + gpt.partitionEntryCount.toNat,
      k * gpt.partitionEntrySize.toNat + 128 ≤ sectorSize * gpt.tableSectors := by
    intro k hk
    have hle := Nat.mul_le_mul_right gpt.partitionEntrySize.toNat
      (show k ≤ gpt.partitionEntryCount.toNat - 1 by omega)
    exact le_trans (by omega) hin
  rw [gptPartitions_eq h hread, scanLoop_window hfit hall, List.nil_append, ← List.range_eq_range']
  rfl

/-- **Scanning the partition table** gives its entries in use, with every slice inside the sectors
read, exactly when the part of a sector behind the last full one is smaller than an entry. -/
theorem gptPartitions_iff (p : Profile) (d : BlockDevice) (gpt : GPTHeader) (h : gpt.Sound)
    (hread : d.answers 2 gpt.tableSectors = true) :
    gptPartitions p d gpt = .ok (gpt.entries d.data) ↔
      gpt.partitionEntryCount.toNat * gpt.partitionEntrySize.toNat % sectorSize <
        gpt.partitionEntrySize.toNat := by
  have hfit : (0 + gpt.partitionEntryCount.toNat) * gpt.partitionEntrySize.toNat < 2 ^ 32 := by
    rw [Nat.zero_add]
    exact h.fits
  rw [← last_entry_iff h.size_dvd h.size_pos h.count_pos]
  constructor
  · intro hok
    rw [gptPartitions_eq h hread] at hok
    by_contra hout
    have hpos := h.count_pos
    -- the last entry is the one to go behind the end
    refine scanLoop_behind hfit (Nat.zero_le (gpt.partitionEntryCount.toNat - 1))
      (by omega) ?_ _ hok
    have hdvd : 128 ∣ (gpt.partitionEntryCount.toNat - 1) * gpt.partitionEntrySize.toNat :=
      h.size_dvd.mul_left _
    have htable : gpt.tableSectors =
      gpt.partitionEntryCount.toNat * gpt.partitionEntrySize.toNat / sectorSize := rfl
    rw [← htable] at hout
    unfold sectorSize at hout ⊢
    omega
  · exact gptPartitions_entries h hread

/-- A drive is scanned from its second sector on: by the header there, to the entries in use. -/
theorem scanDrive_entries {p : Profile} {d : BlockDevice} {gpt : GPTHeader}
    (hgpt : headerAt d.data sectorSize = gpt) (h : gpt.Sound) (hread : d.answers 1 1 = true)
    (htable : d.answers 2 gpt.tableSectors = true)
    (hlast : gpt.partitionEntryCount.toNat * gpt.partitionEntrySize.toNat % sectorSize <
      gpt.partitionEntrySize.toNat) : scanDrive p d = .ok (gpt.entries d.data) := by
  rw [scanDrive_eq hread, hgpt]
  exact gptPartitions_entries h htable
    ((last_entry_iff h.size_dvd h.size_pos h.count_pos).mpr hlast)

/-- A header for `count` entries of 128 bytes. -/
def tableHeader (count : UInt32) : GPTHeader where
  header := .replicate 8 0
  revision := 0x00010000
  headerSize := 92
  headerChecksum := 0
  reserved := .replicate 4 0
  headerLba := 1
  headerLbaAlt := 4095
  firstUsableBlock := 34
  lastUsableBlock := 4062
  guid := Uuid.fromBytes (.replicate 16 0)
  guidLba := 2
  partitionEntryCount := count
  partitionEntrySize := 128
  partitionTableCrc := 0

/-- A disk of zeros. -/
def emptyDisk : BlockDevice := ⟨fun _ => 0, fun _ _ => true⟩

theorem tableHeader_sound {count : UInt32} (hpos : 1 ≤ count.toNat) (hle : count.toNat ≤ 128) :
    (tableHeader count).Sound where
  size_dvd := ⟨1, rfl⟩
  size_pos := le_rfl
  count_pos := hpos
  fits := by
    show count.toNat * 128 < 2 ^ 32
    omega

theorem scan_full_table : (tableHeader 128).Sound ∧
    gptPartitions .dev emptyDisk (tableHeader 128) = .ok ((tableHeader 128).entries fun _ => 0) :=
  ⟨tableHeader_sound (by decide) (by decide),
    (gptPartitions_iff .dev emptyDisk (tableHeader 128) (tableHeader_sound (by decide) (by decide))
      rfl).mpr (by decide)⟩

/-- Of five entries the last one is not read. -/
theorem scan_five_entries : (tableHeader 5).Sound ∧
    emptyDisk.answers 2 (tableHeader 5).tableSectors = true ∧
      gptPartitions .dev emptyDisk (tableHeader 5) ≠ .ok ((tableHeader 5).entries fun _ => 0) := by
  have hsound : (tableHeader 5).Sound := tableHeader_sound (by decide) (by decide)
  refine ⟨hsound, rfl, ?_⟩
  rw [gptPartitions_eq hsound rfl]
  exact scanLoop_behind (by decide) (Nat.zero_le 4) (by decide) (by decide) _

end CappuccinOS.Storage
