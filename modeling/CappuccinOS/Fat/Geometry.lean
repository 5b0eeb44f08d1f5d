import CappuccinOS.Fat.Root

/-!
# The geometry of a volume (`FatFs::new` and `cluster_to_sector`)

`FatFs::new` counts the clusters of a volume to find its type. The number of sectors and the size of
a table each have two fields in the boot sector, and which of them holds a value is decided by the
number of sectors alone; `cluster_to_sector` goes by the type that was found.

1. `overhead` is the first data sector as `FatFs::new` has it for the count.
2. `fatType` is the type by the rule of the standard, where each number is taken from the field that
   holds it.
3. `geometry_iff`: `FatFs::new` finds this type and counts from the first data sector that
   `cluster_to_sector` uses exactly when the table size it took is the one of the type, the 16-bit
   number of root directory sectors can be computed, and with it the type is the same.
-/

namespace CappuccinOS.Fat

open Storage

/-! ## Counting clusters -/

/-- The sectors before the first cluster, as `FatFs::new` counts them. -/
def overhead (p : Profile) (bytes : List Byte) : Except Fault ℕ := do
  let rootDirSectors ← (BIOSParameterBlock.cast bytes).rootDirSectors p
  let fats ← arith (p.fit 32 ((BIOSParameterBlock.cast bytes).fatCount.toNat * (sizes bytes).2))
  let sum ← arith (p.fit 32 ((BIOSParameterBlock.cast bytes).reservedSectors.toNat + fats))
  arith (p.fit 32 (sum + rootDirSectors))

namespace Standard

/-- The number of sectors: in `total_sectors`, or else in `large_sector_count`. -/
def sectors (bytes : List Byte) : ℕ :=
  if totalSectors bytes ≠ 0 then totalSectors bytes else largeSectorCount bytes

/-- The sectors of a table: in `sectors_per_fat`, or else in the field of FAT32. -/
def fatSize (bytes : List Byte) : ℕ :=
  if (BIOSParameterBlock.cast bytes).sectorsPerFat.toNat ≠ 0 then
    (BIOSParameterBlock.cast bytes).sectorsPerFat.toNat
  else
    (Fat32EBPB.cast bytes).sectorsPerFatExt.toNat

/-- The first data sector. -/
def firstDataSector (bytes : List Byte) : ℕ :=
  (BIOSParameterBlock.cast bytes).reservedSectors.toNat +
    (BIOSParameterBlock.cast bytes).fatCount.toNat * fatSize bytes +
      ((BIOSParameterBlock.cast bytes).rootDirectoryCount.toNat * 32 + 511) / 512

/-- The type by the number of clusters. -/
def fatType (bytes : List Byte) : FatType :=
  FatType.ofClusters bytes ((sectors bytes - firstDataSector bytes) /
    (BIOSParameterBlock.cast bytes).sectorsPerCluster.toNat)

end Standard

/-- A FAT volume: sectors of 512 bytes, clusters of a power of two sectors, room for what lies
before the first cluster, a system identifier that names the type, and the sectors to read are
readable. -/
structure Volume (p : Profile) (partition : Partition) (bytes : List Byte) : Prop where
  read : partition.read p 0 1 = .ok bytes
  bytesPerSector : (BIOSParameterBlock.cast bytes).bytesPerSector.toNat = 512
  sectorsPerCluster : ∃ k ≤ 7, (BIOSParameterBlock.cast bytes).sectorsPerCluster.toNat = 2 ^ k
  fits : Standard.firstDataSector bytes ≤ Standard.sectors bytes
  named : (Standard.fatType bytes).named bytes = true
  fsInfo : readFsInfo p partition bytes (Standard.fatType bytes) = .ok ()

/-- `FatFs::new` accepts the volume with its type, and counts its clusters, without going below
zero, from the first data sector that `cluster_to_sector` uses. -/
def Consistent (p : Profile) (partition : Partition) (bytes : List Byte) : Prop :=
  ∃ fs o, FatFs.new p partition = .ok fs ∧ fs.fatType = Standard.fatType bytes ∧
    overhead p bytes = .ok o ∧ o ≤ (sizes bytes).1 ∧ fs.firstDataSector p = .ok o

/-- The sectors of a table in the field that goes with a type. -/
def FatType.tableSize (bytes : List Byte) : FatType → ℕ
  | fat32 _ => (Fat32EBPB.cast bytes).sectorsPerFatExt.toNat
  | _ => (BIOSParameterBlock.cast bytes).sectorsPerFat.toNat

/-- The first data sector by the table size of the type and the 16-bit root directory. -/
def dataSector (bytes : List Byte) : ℕ :=
  (BIOSParameterBlock.cast bytes).reservedSectors.toNat +
    (BIOSParameterBlock.cast bytes).fatCount.toNat * (Standard.fatType bytes).tableSize bytes +
      (BIOSParameterBlock.cast bytes).wrappedRootSectors

/-- What the fields of the boot sector have to be like: the root directory can be counted in 16
bits, the table size taken by the number of sectors is that of the type, and the 16-bit count leaves
the type as it is. -/
structure Countable (p : Profile) (bytes : List Byte) : Prop where
  root : p = .dev → (BIOSParameterBlock.cast bytes).rootDirectoryCount.toNat ≤ 2032
  tables : p.fit 32 ((BIOSParameterBlock.cast bytes).fatCount.toNat * (sizes bytes).2) =
    .ok ((BIOSParameterBlock.cast bytes).fatCount.toNat *
      (Standard.fatType bytes).tableSize bytes)
  fits : dataSector bytes ≤ Standard.sectors bytes
  type : FatType.ofClusters bytes ((Standard.sectors bytes - dataSector bytes) /
    (BIOSParameterBlock.cast bytes).sectorsPerCluster.toNat) = Standard.fatType bytes

section Geometry

variable {p : Profile} {partition : Partition} {bytes : List Byte}

theorem sizes_fst : (sizes bytes).1 = Standard.sectors bytes := by
  unfold sizes Standard.sectors
  by_cases h : totalSectors bytes = 0
  · rw [if_pos h, if_neg (not_not_intro h)]
  · rw [if_neg h, if_pos h]

theorem sectors_lt (bytes : List Byte) : Standard.sectors bytes < 2 ^ 32 := by
  have htotal : field bytes 19 2 < 2 ^ 16 := leNat_take_lt _ 2
  have hlarge : field bytes 32 4 < 2 ^ 32 := leNat_take_lt _ 4
  unfold Standard.sectors totalSectors largeSectorCount
  split_ifs <;> omega

/-- The count is what is left behind the first data sector. -/
theorem totalClusters_eq_ok {n : ℕ} : totalClusters p bytes = .ok n ↔
    ∃ o, overhead p bytes = .ok o ∧ ∃ rest, p.subFit 32 (sizes bytes).1 o = .ok rest ∧
      (BIOSParameterBlock.cast bytes).sectorsPerCluster.toNat ≠ 0 ∧
        n = rest / (BIOSParameterBlock.cast bytes).sectorsPerCluster.toNat := by
  unfold totalClusters overhead
  simp only [bind_eq_ok, arith_eq_ok]
  constructor
  · rintro ⟨root, hroot, fats, hfats, sum, hsum, o, ho, rest, hrest, h⟩
    split_ifs at h with hzero
    exact ⟨o, ⟨root, hroot, fats, hfats, sum, hsum, ho⟩, rest, hrest, hzero, (Except.ok.inj h).symm⟩
  · rintro ⟨o, ⟨root, hroot, fats, hfats, sum, hsum, ho⟩, rest, hrest, hzero, rfl⟩
    exact ⟨root, hroot, fats, hfats, sum, hsum, o, ho, rest, hrest, if_neg hzero⟩

/-- What `FatFs::new` counts from: the sum in 32 bits, over the 16-bit root directory. -/
theorem overhead_eq_ok {o : ℕ}
    (hbytes : (BIOSParameterBlock.cast bytes).bytesPerSector.toNat = 512) :
    overhead p bytes = .ok o ↔
      (p = .dev → (BIOSParameterBlock.cast bytes).rootDirectoryCount.toNat ≤ 2032) ∧
        ∃ fats, p.fit 32 ((BIOSParameterBlock.cast bytes).fatCount.toNat * (sizes bytes).2) =
            .ok fats ∧
          p.fit 32 ((BIOSParameterBlock.cast bytes).reservedSectors.toNat + fats +
            (BIOSParameterBlock.cast bytes).wrappedRootSectors) = .ok o := by
  unfold overhead
  simp only [bind_eq_ok, arith_eq_ok, BIOSParameterBlock.rootDirSectors_eq_ok hbytes]
  constructor
  · rintro ⟨root, ⟨hroot, rfl⟩, fats, hfats, sum, hsum, ho⟩
    refine ⟨hroot, fats, hfats, ?_⟩
    obtain ⟨hdev, rfl⟩ := Profile.fit_eq_ok.mp hsum
    obtain ⟨hdev', rfl⟩ := Profile.fit_eq_ok.mp ho
    refine Profile.fit_eq_ok.mpr ⟨fun h => ?_, Nat.mod_add_mod ..⟩
    have hlt := hdev' h
    rwa [Nat.mod_eq_of_lt (hdev h)] at hlt
  · rintro ⟨hroot, fats, hfats, ho⟩
    obtain ⟨hdev, rfl⟩ := Profile.fit_eq_ok.mp ho
    refine ⟨_, ⟨hroot, rfl⟩, fats, hfats, _, Profile.fit_eq_ok.mpr ⟨fun h => ?_, rfl⟩,
      Profile.fit_eq_ok.mpr ⟨fun h => ?_, (Nat.mod_add_mod ..).symm⟩⟩
    · have := hdev h
      omega
    · rw [Nat.mod_eq_of_lt (by have := hdev h; omega)]
      exact hdev h

/-- The first data sector that `cluster_to_sector` uses, in a volume found to be of its type. -/
theorem firstDataSector_eq_ok {fs : FatFs} {o : ℕ}
    (hbytes : (BIOSParameterBlock.cast bytes).bytesPerSector.toNat = 512)
    (hbpb : fs.bpb = BIOSParameterBlock.cast bytes) (htype : fs.fatType = Standard.fatType bytes) :
    fs.firstDataSector p = .ok o ↔
      (p = .dev → (BIOSParameterBlock.cast bytes).rootDirectoryCount.toNat ≤ 2032) ∧
        o = dataSector bytes := by
  have hsize : fs.sectorsPerFat = (Standard.fatType bytes).tableSize bytes := by
    unfold FatFs.sectorsPerFat FatType.tableSize
    rw [htype, hbpb]
    unfold Standard.fatType FatType.ofClusters
    split_ifs <;> rfl
  have hsector : fs.rootSector + fs.bpb.wrappedRootSectors = dataSector bytes := by
    rw [FatFs.rootSector, hsize, hbpb]
    rfl
  rw [FatFs.firstDataSector_eq_ok (by rwa [hbpb]), hsector, hbpb]

theorem new_eq_ok_iff (hread : partition.read p 0 1 = .ok bytes) {fs : FatFs} :
    FatFs.new p partition = .ok fs ↔ ∃ n, totalClusters p bytes = .ok n ∧
      (FatType.ofClusters bytes n).named bytes = true ∧
        readFsInfo p partition bytes (FatType.ofClusters bytes n) = .ok () ∧
          fs = ⟨partition, none, BIOSParameterBlock.cast bytes, FatType.ofClusters bytes n⟩ := by
  unfold FatFs.new
  rw [hread]
  simp only [bind_eq_ok, expect_eq_ok, Except.ok.injEq, exists_eq_left']
  constructor
  · rintro ⟨n, hn, h⟩
    split_ifs at h with hnamed
    obtain ⟨u, hinfo, h⟩ := bind_eq_ok.mp h
    exact ⟨n, hn, by simpa using hnamed, hinfo, (Except.ok.inj h).symm⟩
  · rintro ⟨n, hn, hnamed, hinfo, rfl⟩
    refine ⟨n, hn, ?_⟩
    rw [if_neg (by simpa using hnamed)]
    exact bind_eq_ok.mpr ⟨(), hinfo, rfl⟩

/-- It is enough that the table size that goes with the type and the one that goes with the number
of sectors are both the standard's, and that the root directory has at most 2032 entries. -/
theorem Countable.of_fields (h : Volume p partition bytes)
    (hroot : (BIOSParameterBlock.cast bytes).rootDirectoryCount.toNat ≤ 2032)
    (hsize : (Standard.fatType bytes).tableSize bytes = Standard.fatSize bytes)
    (hlarge : (sizes bytes).2 = Standard.fatSize bytes) : Countable p bytes := by
  have hwrapped : (BIOSParameterBlock.cast bytes).wrappedRootSectors =
      ((BIOSParameterBlock.cast bytes).rootDirectoryCount.toNat * 32 + 511) / 512 := by
    unfold BIOSParameterBlock.wrappedRootSectors
    omega
  have hsector : dataSector bytes = Standard.firstDataSector bytes := by
    rw [dataSector, hsize, hwrapped]
    rfl
  have hlt := lt_of_le_of_lt h.fits (sectors_lt bytes)
  refine ⟨fun _ => hroot, ?_, by rw [hsector]; exact h.fits, by rw [hsector]; rfl⟩
  rw [hlarge, hsize]
  apply p.fit_of_lt
  unfold Standard.firstDataSector at hlt
  omega

end Geometry

/-- **The geometry of a volume is consistent** exactly when the table size that `FatFs::new` takes
by the number of sectors is the one that goes with the type, and the root directory can be counted
in 16 bits without a change of the type. -/
theorem geometry_iff (p : Profile) (partition : Partition) (bytes : List Byte)
    (h : Volume p partition bytes) : Consistent p partition bytes ↔ Countable p bytes := by
  have hbytes := h.bytesPerSector
  obtain ⟨k, -, hspc⟩ := h.sectorsPerCluster
  have hpos : (BIOSParameterBlock.cast bytes).sectorsPerCluster.toNat ≠ 0 := by
    rw [hspc]
    positivity
  constructor
  · rintro ⟨fs, o, hnew, htype, ho, hle, hfirst⟩
    obtain ⟨n, hn, -, -, rfl⟩ := (new_eq_ok_iff h.read).mp hnew
    obtain ⟨o', ho', rest, hrest, -, rfl⟩ := totalClusters_eq_ok.mp hn
    obtain rfl : o' = o := Except.ok.inj (ho'.symm.trans ho)
    obtain ⟨hroot, rfl⟩ := (firstDataSector_eq_ok hbytes rfl htype).mp hfirst
    obtain ⟨-, fats, hfats, hsum⟩ := (overhead_eq_ok hbytes).mp ho
    rw [sizes_fst] at hle hrest
    obtain rfl : Standard.sectors bytes - dataSector bytes = rest :=
      Except.ok.inj ((if_pos hle).symm.trans hrest)
    refine ⟨hroot, ?_, hle, htype⟩
    -- both products are below the width, so they agree as the sums do
    have hlt := sectors_lt bytes
    have hfats' := (Profile.fit_eq_ok.mp hfats).2
    have hsum' := (Profile.fit_eq_ok.mp hsum).2
    rw [hfats]
    congr 1
    unfold dataSector at hle hsum'
    omega
  · rintro ⟨hroot, htables, hle, htype⟩
    have hlt := sectors_lt bytes
    have ho : overhead p bytes = .ok (dataSector bytes) :=
      (overhead_eq_ok hbytes).mpr ⟨hroot, _, htables, p.fit_of_lt (lt_of_le_of_lt hle hlt)⟩
    have hrest : p.subFit 32 (sizes bytes).1 (dataSector bytes) =
        .ok (Standard.sectors bytes - dataSector bytes) := by
      rw [sizes_fst]
      exact if_pos hle
    have hn := totalClusters_eq_ok.mpr ⟨_, ho, _, hrest, hpos, rfl⟩
    refine ⟨_, _, (new_eq_ok_iff h.read).mpr ⟨_, hn, ?_, ?_, rfl⟩, htype, ho, ?_, ?_⟩
    · rw [htype]
      exact h.named
    · rw [htype]
      exact h.fsInfo
    · rw [sizes_fst]
      exact hle
    · exact (firstDataSector_eq_ok hbytes rfl htype).mpr ⟨hroot, rfl⟩

/-! ## FAT16 on either side of 32 MiB -/

/-- The boot sector of a FAT16 volume with four sectors to a cluster, 512 entries in its root
directory and the given numbers of sectors in all and in a table. -/
def fat16Sector (total large fatSize : ℕ) : List Byte :=
  [0xEB, 0x3C, 0x90, 0x6D, 0x6B, 0x66, 0x73, 0x2E, 0x66, 0x61, 0x74] ++ leBytes 2 512 ++
    [0x04, 0x01, 0x00, 0x02, 0x00, 0x02] ++ leBytes 2 total ++ [0xF8] ++ leBytes 2 fatSize ++
      [0x3F, 0x00, 0xFF, 0x00, 0x00, 0x00, 0x00, 0x00] ++ leBytes 4 large ++
        [0x80, 0x00, 0x29, 0x01, 0x02, 0x03, 0x04, 0x4E, 0x4F, 0x20, 0x4E, 0x41, 0x4D, 0x45, 0x20,
          0x20, 0x20, 0x20, 0x46, 0x41, 0x54, 0x31, 0x36, 0x20, 0x20, 0x20]

/-- A disk with the volume from its first sector on. -/
def fat16Partition (total large fatSize : ℕ) : Partition :=
  .mbrPartition ⟨0, 1048576⟩
    ⟨fun i => (fat16Sector total large fatSize).getD i 0, fun _ _ => true⟩

/-- The first sector of the disk. -/
def fat16Bytes (total large fatSize : ℕ) : List Byte :=
  window (fun i => (fat16Sector total large fatSize).getD i 0) 0 512

theorem fatType_small : Standard.fatType (fat16Bytes 40000 0 40) = .fat16 := by
  have hclusters : (Standard.sectors (fat16Bytes 40000 0 40) -
      Standard.firstDataSector (fat16Bytes 40000 0 40)) /
        (BIOSParameterBlock.cast (fat16Bytes 40000 0 40)).sectorsPerCluster.toNat = 9971 := by
    decide
  rw [Standard.fatType, hclusters]
  rfl

/-- 40000 sectors, which 16 bits can count. -/
theorem volume_small : Volume .dev (fat16Partition 40000 0 40) (fat16Bytes 40000 0 40) where
  read := rfl
  bytesPerSector := rfl
  sectorsPerCluster := ⟨2, by decide, rfl⟩
  fits := by decide
  named := by
    rw [fatType_small]
    rfl
  fsInfo := by
    rw [fatType_small]
    rfl

theorem geometry_small : Volume .dev (fat16Partition 40000 0 40) (fat16Bytes 40000 0 40) ∧
    Consistent .dev (fat16Partition 40000 0 40) (fat16Bytes 40000 0 40) := by
  refine ⟨volume_small, (geometry_iff .dev _ _ volume_small).mpr
    (.of_fields volume_small (by decide) ?_ rfl)⟩
  rw [fatType_small]
  rfl

theorem fatType_large : Standard.fatType (fat16Bytes 0 131072 128) = .fat16 := by
  have hclusters : (Standard.sectors (fat16Bytes 0 131072 128) -
      Standard.firstDataSector (fat16Bytes 0 131072 128)) /
        (BIOSParameterBlock.cast (fat16Bytes 0 131072 128)).sectorsPerCluster.toNat = 32695 := by
    decide
  rw [Standard.fatType, hclusters]
  rfl

/-- 131072 sectors, 64 MiB. -/
theorem volume_large : Volume .dev (fat16Partition 0 131072 128) (fat16Bytes 0 131072 128) where
  read := rfl
  bytesPerSector := rfl
  sectorsPerCluster := ⟨2, by decide, rfl⟩
  fits := by decide
  named := by
    rw [fatType_large]
    rfl
  fsInfo := by
    rw [fatType_large]
    rfl

/-- Above 32 MiB the drive number and what follows it are taken for the size of a table. -/
theorem geometry_large : Volume .dev (fat16Partition 0 131072 128) (fat16Bytes 0 131072 128) ∧
    ¬ Consistent .dev (fat16Partition 0 131072 128) (fat16Bytes 0 131072 128) := by
  refine ⟨volume_large, ?_⟩
  rintro ⟨fs, o, hnew, -⟩
  have hpanic : FatFs.new .dev (fat16Partition 0 131072 128) = .error (.panic .overflow) := rfl
  rw [hpanic] at hnew
  cases hnew

end CappuccinOS.Fat
