import CappuccinOS.Fat.Volume

/-!
# The file allocation table

`fatByte` is the table as the partition shows it, byte after byte. Both modes of `get_next_cluster`
read the entry of cluster `n` from byte `n * entrySize` on, so they agree (`modes_agree`); an entry
never straddles two sectors.

A FAT12 table has its entries packed two to three bytes, so entry `n` starts at bit `12 n`, but
`get_next_cluster` takes it from bit `16 n`; what follows is in `Fat/Layout`.
-/

namespace CappuccinOS.Fat

open Storage

namespace FatFs

variable {p : Profile} {fs fs' : FatFs} {n : ℕ}

/-- The device sector of sector `i` of the table. -/
def fatSector (fs : FatFs) (i : ℕ) : ℕ := (fs.partition.start + (fs.fatStart + i)) % wordSize

/-- Byte `i` of the table. -/
def fatByte (fs : FatFs) (i : ℕ) : Byte :=
  fs.partition.device.data (512 * fs.fatSector (i / 512) + i % 512)

/-- The entry of cluster `n`, as both modes read it. -/
def rawEntry (fs : FatFs) (n : ℕ) : ℕ :=
  leNat (window fs.fatByte (n * fs.fatType.entrySize) fs.fatType.entrySize)

/-- The entry of cluster `n` lies in the sectors of the table. -/
def InTable (fs : FatFs) (n : ℕ) : Prop :=
  n * fs.fatType.entrySize + fs.fatType.entrySize ≤ 512 * fs.sectorsPerFat

instance (fs : FatFs) (n : ℕ) : Decidable (fs.InTable n) := inferInstanceAs (Decidable (_ ≤ _))

theorem fatStart_lt (fs : FatFs) : fs.fatStart < 2 ^ 16 := fs.bpb.reservedSectors.toNat_lt

theorem entrySize_cases (t : FatType) : t.entrySize = 2 ∨ t.entrySize = 4 := by
  cases t <;> simp [FatType.entrySize]

/-- Bytes of one sector of the table, read from the device. -/
theorem window_fatByte (fs : FatFs) {i j m : ℕ} (h : j + m ≤ 512) :
    window fs.partition.device.data (512 * fs.fatSector i + j) m =
      window fs.fatByte (512 * i + j) m := by
  apply List.ext_getElem
  · simp
  · intro k hk _
    rw [length_window] at hk
    simp only [window, List.getElem_map, List.getElem_range', one_mul]
    rw [fatByte, show (512 * i + j + k) / 512 = i by omega,
      show (512 * i + j + k) % 512 = j + k by omega, Nat.add_assoc]

theorem slice_entry {size off : ℕ} {bytes : List Byte} (hsize : size = 2 ∨ size = 4)
    (hoff : off % size = 0)
    (hread : fs.partition.read p (fs.fatStart + off / 512) 2 = .ok bytes) :
    slice bytes (off % 512) (off % 512 + size) = .ok (window fs.fatByte off size) := by
  have hin : off % 512 + size ≤ 512 := by
    rcases hsize with rfl | rfl <;> omega
  rw [Partition.read_eq_ok hread, slice_window _ (by unfold sectorSize; omega)]
  have hwin := window_fatByte fs (i := off / 512) hin
  rw [Nat.div_add_mod] at hwin
  rw [← hwin]
  rfl

theorem nextOnDisk_eq {bytes : List Byte} (hn : n * fs.fatType.entrySize < 2 ^ 63)
    (hread : fs.partition.read p (fs.fatStart + n * fs.fatType.entrySize / 512) 2 = .ok bytes) :
    fs.nextOnDisk p n = .ok (fs.rawEntry n &&& fs.fatType.mask) := by
  have hstart := fs.fatStart_lt
  have hslice := slice_entry (entrySize_cases fs.fatType) (Nat.mul_mod_left _ _) hread
  unfold nextOnDisk
  rw [Profile.fit_of_lt p (by omega), arith_ok]
  simp only [bind, Except.bind]
  rw [Profile.add_of_lt p (by unfold wordSize; omega), arith_ok]
  simp only [hread, expect]
  unfold rawEntry
  cases hT : fs.fatType with
  | fat12 =>
    rw [hT] at hslice
    simp only [FatType.entrySize] at hslice ⊢
    rw [hslice]
    rfl
  | fat16 =>
    rw [hT] at hslice
    simp only [FatType.entrySize] at hslice ⊢
    rw [hslice]
    have hlt : leNat (window fs.fatByte (n * 2) 2) < 2 ^ 16 := leNat_window_lt _ _ _
    simp only [FatType.mask]
    rw [show 0xFFFF = 2 ^ 16 - 1 from rfl, Nat.and_two_pow_sub_one_eq_mod, Nat.mod_eq_of_lt hlt]
  | fat32 ebpb =>
    rw [hT] at hslice
    simp only [FatType.entrySize] at hslice ⊢
    rw [hslice]
    rfl

/-! ## The table in memory -/

/-- The entries in sector `i` of the table. -/
def sectorTable (fs : FatFs) (i : ℕ) : List ℕ :=
  (List.range (512 / fs.fatType.entrySize)).map fun j =>
    leNat (window fs.fatByte (512 * i + j * fs.fatType.entrySize) fs.fatType.entrySize)

theorem sectorEntries_eq {i : ℕ} {bytes : List Byte}
    (hread : fs.partition.read p (fs.fatStart + i) 1 = .ok bytes) :
    sectorEntries fs.fatType.entrySize bytes = .ok (fs.sectorTable i) := by
  refine mapM_eq_ok.mpr ?_
  unfold sectorTable
  rw [List.forall₂_map_right_iff, List.forall₂_same]
  intro j hj
  have hin : j * fs.fatType.entrySize + fs.fatType.entrySize ≤ 512 := by
    rw [List.mem_range] at hj
    rcases entrySize_cases fs.fatType with h | h <;> rw [h] at hj ⊢ <;> omega
  rw [Partition.read_eq_ok hread, slice_window _ (by unfold sectorSize; omega)]
  have hwin := window_fatByte fs (i := i) hin
  rw [← hwin]
  rfl

/-- The load loop returns when it can read every sector, and then with their entries. -/
theorem loadFat_of_reads
    (hread : ∀ i < fs.sectorsPerFat, ∃ bytes, fs.partition.read p (fs.fatStart + i) 1 = .ok bytes) :
    fs.loadFat p = .ok ((List.range fs.sectorsPerFat).map fs.sectorTable).flatten := by
  have hstart := fs.fatStart_lt
  have hspf := fs.sectorsPerFat_lt
  unfold loadFat
  refine bind_eq_ok.mpr ⟨(List.range fs.sectorsPerFat).map fs.sectorTable, mapM_eq_ok.mpr ?_, rfl⟩
  rw [List.forall₂_map_right_iff, List.forall₂_same]
  intro i hi
  rw [List.mem_range] at hi
  obtain ⟨bytes, hbytes⟩ := hread i hi
  rw [Profile.add_of_lt p (by unfold wordSize; omega), arith_ok]
  simp only [bind, Except.bind, hbytes, expect, sectorEntries_eq hbytes]

theorem reads_of_loadFat {table : List ℕ} (h : fs.loadFat p = .ok table) :
    ∀ i < fs.sectorsPerFat, ∃ bytes, fs.partition.read p (fs.fatStart + i) 1 = .ok bytes := by
  intro i hi
  obtain ⟨sectors, hsectors, -⟩ := bind_eq_ok.mp h
  obtain ⟨entries, hentries⟩ := exists_of_mapM hsectors (List.mem_range.mpr hi)
  have hstart := fs.fatStart_lt
  have hspf := fs.sectorsPerFat_lt
  rw [Profile.add_of_lt p (by unfold wordSize; omega), arith_ok] at hentries
  obtain ⟨_, ⟨⟩, hentries⟩ := bind_eq_ok.mp hentries
  obtain ⟨bytes, hbytes, -⟩ := bind_eq_ok.mp hentries
  exact ⟨bytes, expect_eq_ok.mp hbytes⟩

theorem length_sectorTable (fs : FatFs) (i : ℕ) :
    (fs.sectorTable i).length = 512 / fs.fatType.entrySize := by
  simp [sectorTable]

theorem getElem?_table (fs : FatFs) (n : ℕ) :
    ((List.range fs.sectorsPerFat).map fs.sectorTable).flatten[n]? =
      if n < fs.sectorsPerFat * (512 / fs.fatType.entrySize) then some (fs.rawEntry n)
      else none := by
  have huniform : ∀ b ∈ (List.range fs.sectorsPerFat).map fs.sectorTable,
      b.length = 512 / fs.fatType.entrySize := by
    intro b hb
    obtain ⟨i, -, rfl⟩ := List.mem_map.mp hb
    exact fs.length_sectorTable i
  have hk : 0 < 512 / fs.fatType.entrySize ∧
      512 / fs.fatType.entrySize * fs.fatType.entrySize = 512 := by
    rcases entrySize_cases fs.fatType with h | h <;> rw [h] <;> omega
  generalize hkdef : 512 / fs.fatType.entrySize = k at huniform hk ⊢
  split_ifs with hn
  · have hi : n / k < fs.sectorsPerFat := Nat.div_lt_of_lt_mul (by rwa [mul_comm])
    have hblock : ((List.range fs.sectorsPerFat).map fs.sectorTable)[n / k]? =
        some (fs.sectorTable (n / k)) := by
      simp [List.getElem?_range hi]
    have hj : n % k < k := Nat.mod_lt n hk.1
    have hflat := getElem?_flatten huniform hblock hj
    rw [mul_comm, Nat.div_add_mod] at hflat
    have hoff : 512 * (n / k) + n % k * fs.fatType.entrySize = n * fs.fatType.entrySize := by
      nth_rewrite 3 [← Nat.div_add_mod n k]
      rw [Nat.add_mul, mul_right_comm, hk.2]
    rw [hflat, sectorTable, List.getElem?_map, hkdef, List.getElem?_range hj, Option.map_some,
      hoff, rawEntry]
  · refine List.getElem?_eq_none ?_
    rw [length_flatten_blocks huniform]
    simpa using hn

theorem nextInMem_eq (h : fs.mount p ⟨true⟩ = .ok fs') :
    fs'.nextInMem n = if fs.InTable n then .ok (fs.rawEntry n &&& fs.fatType.mask)
      else .error (.panic .bounds) := by
  obtain ⟨table, htable, hmount⟩ := bind_eq_ok.mp h
  have hload := loadFat_of_reads (reads_of_loadFat htable)
  obtain rfl := Except.ok.inj (htable.symm.trans hload)
  obtain rfl := Except.ok.inj hmount
  have hin : fs.InTable n ↔ n < fs.sectorsPerFat * (512 / fs.fatType.entrySize) := by
    unfold InTable
    rcases entrySize_cases fs.fatType with h | h <;> rw [h] <;> omega
  simp only [nextInMem, getElem?_table, hin]
  split_ifs <;> rfl

/-- With the table loaded and without, the same entry is found. -/
theorem modes_agree {fs₁ fs₂ : FatFs} {bytes : List Byte} (h₁ : fs.mount p ⟨true⟩ = .ok fs₁)
    (h₂ : fs.mount p ⟨false⟩ = .ok fs₂) (hin : fs.InTable n)
    (hread : fs.partition.read p (fs.fatStart + n * fs.fatType.entrySize / 512) 2 = .ok bytes) :
    ∃ next, fs₁.getNextCluster p ⟨true⟩ n = .ok next ∧
      fs₂.getNextCluster p ⟨false⟩ n = .ok next := by
  obtain rfl := Except.ok.inj h₂
  refine ⟨fs.rawEntry n &&& fs.fatType.mask, ?_, ?_⟩
  · exact (nextInMem_eq h₁).trans (if_pos hin)
  · have hspf := fs.sectorsPerFat_lt
    have hn : n * fs.fatType.entrySize < 2 ^ 63 := by
      unfold InTable at hin
      omega
    exact nextOnDisk_eq hn hread

end FatFs

/-- A disk with the table in sector 1, and zeros around it. -/
def tableDevice (table : List Byte) : BlockDevice :=
  ⟨fun i => table.getD (i - 512) 0#8, fun _ _ => true⟩

/-- A FAT12 or FAT16 volume with a table of one sector. -/
def tableVolume (fatType : FatType) (table : List Byte) : FatFs :=
  ⟨.gptPartition ⟨0, 64⟩ (tableDevice table), none, ⟨512, 1, 1, 1, 0, 1⟩, fatType⟩

theorem tableVolume_read (fatType : FatType) (table : List Byte) {sector n : ℕ}
    (h : sector + n ≤ 64) :
    (tableVolume fatType table).partition.read .dev sector n =
      .ok (window (tableDevice table).data (512 * sector) (512 * n)) := by
  have h0 : (0 : UInt64).toNat = 0 := rfl
  have h64 : (64 : UInt64).toNat = 64 := rfl
  unfold Partition.read tableVolume
  simp only [h0, h64]
  rw [Profile.add_of_lt _ (by unfold wordSize; omega), arith_ok, Nat.zero_add]
  simp only [bind, Except.bind]
  rw [Profile.add_of_lt _ (by unfold wordSize; omega), arith_ok]
  simp only []
  rw [if_neg (by omega)]
  rfl

theorem exists_mount_tableVolume {fatType : FatType} (table : List Byte)
    (h : (tableVolume fatType table).sectorsPerFat = 1) :
    ∃ fs₁, (tableVolume fatType table).mount .dev ⟨true⟩ = .ok fs₁ := by
  have hload := @FatFs.loadFat_of_reads .dev (tableVolume fatType table) fun i hi =>
    ⟨_, tableVolume_read fatType table (show 1 + i + 1 ≤ 64 by omega)⟩
  exact ⟨_, bind_eq_ok.mpr ⟨_, hload, rfl⟩⟩

/-- The two modes on a FAT16 table with the chain of clusters 2 and 3. -/
theorem modes_agree_fat16 :
    ∃ fs₁ next, (tableVolume .fat16 [0xF0, 0xFF, 0xFF, 0xFF, 3, 0, 0xFF, 0xFF]).mount .dev ⟨true⟩ =
        .ok fs₁ ∧
      fs₁.getNextCluster .dev ⟨true⟩ 2 = .ok next ∧
      (tableVolume .fat16 [0xF0, 0xFF, 0xFF, 0xFF, 3, 0, 0xFF, 0xFF]).getNextCluster .dev
        ⟨false⟩ 2 = .ok next := by
  obtain ⟨fs₁, hmount⟩ :=
    @exists_mount_tableVolume .fat16 [0xF0, 0xFF, 0xFF, 0xFF, 3, 0, 0xFF, 0xFF] rfl
  obtain ⟨next, h₁, h₂⟩ := FatFs.modes_agree hmount rfl (n := 2) (by decide)
    (tableVolume_read _ _ (by decide))
  exact ⟨fs₁, next, hmount, h₁, h₂⟩

end CappuccinOS.Fat
