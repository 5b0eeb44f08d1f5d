import CappuccinOS.Fat.Volume

/-!
# Recognising a volume (`FatFs::new`)

`FatFs::new` casts the first sector of a partition to a `BIOSParameterBlock`, derives the type of
the volume from its number of clusters and asks that the system identifier name that type. What a
caller may rely on afterwards is little: the two sizes that it divides by are not zero
(`new_eq_ok`).
-/

namespace CappuccinOS.Fat

open Storage

/-- A little-endian field of a cast structure. -/
def field (bytes : List Byte) (offset size : ℕ) : ℕ := leNat ((bytes.drop offset).take size)

/-- `cast::<BIOSParameterBlock>`. -/
def BIOSParameterBlock.cast (bytes : List Byte) : BIOSParameterBlock where
  bytesPerSector := UInt16.ofNat (field bytes 11 2)
  sectorsPerCluster := UInt8.ofNat (field bytes 13 1)
  reservedSectors := UInt16.ofNat (field bytes 14 2)
  fatCount := UInt8.ofNat (field bytes 16 1)
  rootDirectoryCount := UInt16.ofNat (field bytes 17 2)
  sectorsPerFat := UInt16.ofNat (field bytes 22 2)

/-- The field `total_sectors`. -/
def totalSectors (bytes : List Byte) : ℕ := field bytes 19 2

/-- The field `large_sector_count`. -/
def largeSectorCount (bytes : List Byte) : ℕ := field bytes 32 4

/-- `ebpb_bytes`, cast to a `Fat32EBPB`. -/
def Fat32EBPB.cast (bytes : List Byte) : Fat32EBPB where
  sectorsPerFatExt := UInt32.ofNat (field bytes 36 4)
  rootDirCluster := UInt32.ofNat (field bytes 44 4)

/-- The field `fsinfo_sector` of the `Fat32EBPB`. -/
def fsinfoSector (bytes : List Byte) : ℕ := field bytes 48 2

/-- `system_identifier_string` of the `Fat16EBPB` or the `Fat32EBPB`. -/
def FatType.systemIdent (bytes : List Byte) : FatType → List Byte
  | fat12 => (bytes.drop 54).take 8
  | fat16 => (bytes.drop 54).take 8
  | fat32 _ => (bytes.drop 82).take 8

/-- What the system identifier has to contain. -/
def FatType.name : FatType → List Byte
  | fat12 => [0x46, 0x41, 0x54, 0x31, 0x32]
  | fat16 => [0x46, 0x41, 0x54, 0x31, 0x36]
  | fat32 _ => [0x46, 0x41, 0x54, 0x33, 0x32]

/-- `(total_sectors, fat_size)`. -/
def sizes (bytes : List Byte) : ℕ × ℕ :=
  if totalSectors bytes = 0 then
    (largeSectorCount bytes, (Fat32EBPB.cast bytes).sectorsPerFatExt.toNat)
  else
    (totalSectors bytes, (BIOSParameterBlock.cast bytes).sectorsPerFat.toNat)

/-- `total_clusters`, in 32-bit arithmetic. -/
def totalClusters (p : Profile) (bytes : List Byte) : Except Fault ℕ := do
  let rootDirSectors ← (BIOSParameterBlock.cast bytes).rootDirSectors p
  let fats ← arith (p.fit 32 ((BIOSParameterBlock.cast bytes).fatCount.toNat * (sizes bytes).2))
  let sum ← arith (p.fit 32 ((BIOSParameterBlock.cast bytes).reservedSectors.toNat + fats))
  let overhead ← arith (p.fit 32 (sum + rootDirSectors))
  let totalDataSectors ← arith (p.subFit 32 (sizes bytes).1 overhead)
  if (BIOSParameterBlock.cast bytes).sectorsPerCluster.toNat = 0 then .error .divideByZero
  else .ok (totalDataSectors / (BIOSParameterBlock.cast bytes).sectorsPerCluster.toNat)

/-- The type of a volume, by its number of clusters. -/
def FatType.ofClusters (bytes : List Byte) (totalClusters : ℕ) : FatType :=
  if totalClusters < 4085 then .fat12
  else if totalClusters < 65525 then .fat16
  else .fat32 (Fat32EBPB.cast bytes)

/-- The system identifier is a string and names the type. -/
def FatType.named (bytes : List Byte) (fatType : FatType) : Bool :=
  isUtf8 (fatType.systemIdent bytes) && decide (fatType.name <:+: fatType.systemIdent bytes)

/-- The read of `fs_info`, which only a FAT32 volume has. -/
def readFsInfo (p : Profile) (partition : Partition) (bytes : List Byte) :
    FatType → Except Fault Unit
  | .fat32 _ => do
    let _ ← expect (partition.read p (fsinfoSector bytes) 1)
    .ok ()
  | _ => .ok ()

def FatFs.new (p : Profile) (partition : Partition) : Except Fault FatFs := do
  let bytes ← expect (partition.read p 0 1)
  let clusters ← totalClusters p bytes
  if ¬ (FatType.ofClusters bytes clusters).named bytes then .error .err
  else do
    readFsInfo p partition bytes (FatType.ofClusters bytes clusters)
    .ok { partition
          fat := none
          bpb := BIOSParameterBlock.cast bytes
          fatType := FatType.ofClusters bytes clusters }

section Accepted

variable {p : Profile} {bpb : BIOSParameterBlock} {partition : Partition} {fs : FatFs}

theorem BIOSParameterBlock.bytesPerSector_ne_zero {n : ℕ} (h : bpb.rootDirSectors p = .ok n) :
    bpb.bytesPerSector.toNat ≠ 0 := by
  obtain ⟨bytes, -, h⟩ := bind_eq_ok.mp h
  obtain ⟨last, -, h⟩ := bind_eq_ok.mp h
  obtain ⟨sum, -, h⟩ := bind_eq_ok.mp h
  split_ifs at h with hzero
  exact hzero

theorem ne_zero_of_totalClusters {bytes : List Byte} {n : ℕ} (h : totalClusters p bytes = .ok n) :
    (BIOSParameterBlock.cast bytes).bytesPerSector.toNat ≠ 0 ∧
      (BIOSParameterBlock.cast bytes).sectorsPerCluster.toNat ≠ 0 := by
  obtain ⟨root, hroot, h⟩ := bind_eq_ok.mp h
  obtain ⟨fats, -, h⟩ := bind_eq_ok.mp h
  obtain ⟨sum, -, h⟩ := bind_eq_ok.mp h
  obtain ⟨overhead, -, h⟩ := bind_eq_ok.mp h
  obtain ⟨data, -, h⟩ := bind_eq_ok.mp h
  split_ifs at h with hzero
  exact ⟨BIOSParameterBlock.bytesPerSector_ne_zero hroot, hzero⟩

/-- An accepted volume keeps its partition, and neither of its divisors is zero. -/
theorem FatFs.new_eq_ok (h : FatFs.new p partition = .ok fs) :
    fs.partition = partition ∧ fs.bpb.bytesPerSector.toNat ≠ 0 ∧
      fs.bpb.sectorsPerCluster.toNat ≠ 0 := by
  obtain ⟨bytes, -, h⟩ := bind_eq_ok.mp h
  obtain ⟨clusters, hclusters, h⟩ := bind_eq_ok.mp h
  split_ifs at h
  obtain ⟨-, -, h⟩ := bind_eq_ok.mp h
  obtain rfl := Except.ok.inj h
  exact ⟨rfl, ne_zero_of_totalClusters hclusters⟩

end Accepted

end CappuccinOS.Fat
