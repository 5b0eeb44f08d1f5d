import CappuccinOS.Storage.Partition

/-!
# FAT volumes (`drivers/fs/fat.rs`)

The file allocation table, its two modes and the clusters it links:

1. `FatFs`, with what `FatFs::new` stores in it;
2. `cluster_to_sector` and `read_cluster`;
3. `get_next_cluster`, with the table in memory or read two sectors at a time;
4. `mount`, which loads the table.
-/

namespace CappuccinOS.Fat

open Storage

/-! ## The volume -/

structure BIOSParameterBlock where
  bytesPerSector : UInt16
  sectorsPerCluster : UInt8
  reservedSectors : UInt16
  fatCount : UInt8
  rootDirectoryCount : UInt16
  sectorsPerFat : UInt16

/-- `root_dir_sectors`: the 16-bit arithmetic of `FatFs::new` and of `cluster_to_sector`. -/
def BIOSParameterBlock.rootDirSectors (p : Profile) (bpb : BIOSParameterBlock) :
    Except Fault ℕ := do
  let bytes ← arith (p.fit 16 (bpb.rootDirectoryCount.toNat * 32))
  let last ← arith (p.subFit 16 bpb.bytesPerSector.toNat 1)
  let sum ← arith (p.fit 16 (bytes + last))
  if bpb.bytesPerSector.toNat = 0 then .error .divideByZero
  else .ok (sum / bpb.bytesPerSector.toNat)

structure Fat32EBPB where
  sectorsPerFatExt : UInt32
  rootDirCluster : UInt32

inductive FatType
  | fat12
  | fat16
  | fat32 (ebpb : Fat32EBPB)

/-- `EOC_12`, `EOC_16` and `EOC_32`: the values from here on end a chain. -/
def FatType.eoc : FatType → ℕ
  | fat12 => 0x0FF8
  | fat16 => 0xFFF8
  | fat32 _ => 0x0FFFFFF8

/-- The bytes of an entry, as `get_next_cluster` and `mount` have them. -/
def FatType.entrySize : FatType → ℕ
  | fat12 => 2
  | fat16 => 2
  | fat32 _ => 4

/-- The bits of an entry that a lookup in the table in memory keeps. -/
def FatType.mask : FatType → ℕ
  | fat12 => 0x0FFF
  | fat16 => 0xFFFF
  | fat32 _ => 0x0FFFFFFF

structure KernelFeatures where
  fatInMem : Bool

structure FatFs where
  partition : Partition
  fat : Option (List ℕ)
  bpb : BIOSParameterBlock
  fatType : FatType

namespace FatFs

/-- The field `fat_start`, as `FatFs::new` sets it. -/
def fatStart (fs : FatFs) : ℕ := fs.bpb.reservedSectors.toNat

/-- The field `cluster_size`. -/
def clusterSize (fs : FatFs) : ℕ := fs.bpb.sectorsPerCluster.toNat * 512

theorem clusterSize_lt (fs : FatFs) : fs.clusterSize < wordSize := by
  have := fs.bpb.sectorsPerCluster.toNat_lt
  unfold clusterSize wordSize
  omega

/-- The field `sectors_per_fat`. -/
def sectorsPerFat (fs : FatFs) : ℕ :=
  match fs.fatType with
  | .fat32 ebpb => ebpb.sectorsPerFatExt.toNat
  | _ => fs.bpb.sectorsPerFat.toNat

/-! ## Clusters -/

theorem sectorsPerFat_lt (fs : FatFs) : fs.sectorsPerFat < 2 ^ 32 := by
  unfold sectorsPerFat
  split
  · rename_i ebpb _
    exact ebpb.sectorsPerFatExt.toNat_lt
  · have := fs.bpb.sectorsPerFat.toNat_lt
    omega

/-- The first sector behind the tables. -/
def rootSector (fs : FatFs) : ℕ :=
  fs.bpb.reservedSectors.toNat + fs.bpb.fatCount.toNat * fs.sectorsPerFat

theorem rootSector_lt (fs : FatFs) : fs.rootSector < 2 ^ 41 := by
  have hreserved := fs.bpb.reservedSectors.toNat_lt
  have hfats : fs.bpb.fatCount.toNat * fs.sectorsPerFat ≤ 2 ^ 8 * 2 ^ 32 :=
    Nat.mul_le_mul fs.bpb.fatCount.toNat_lt.le fs.sectorsPerFat_lt.le
  unfold rootSector
  omega

def firstDataSector (p : Profile) (fs : FatFs) : Except Fault ℕ := do
  let rootDirSectors ← fs.bpb.rootDirSectors p
  .ok (fs.bpb.reservedSectors.toNat + fs.bpb.fatCount.toNat * fs.sectorsPerFat + rootDirSectors)

/-- `cluster_to_sector`. The product is taken on `isize`, which has the same low bits. -/
def clusterToSector (p : Profile) (fs : FatFs) (cluster : ℕ) : Except Fault ℕ := do
  let firstDataSector ← fs.firstDataSector p
  let index := (cluster + wordSize - 2) % wordSize
  .ok ((index * fs.bpb.sectorsPerCluster.toNat % wordSize + firstDataSector) % wordSize)

def readCluster (p : Profile) (fs : FatFs) (cluster : ℕ) : Except Fault (List Byte) := do
  let sector ← fs.clusterToSector p cluster
  fs.partition.read p sector fs.bpb.sectorsPerCluster.toNat

theorem length_readCluster {p : Profile} {fs : FatFs} {cluster : ℕ} {bytes : List Byte}
    (h : fs.readCluster p cluster = .ok bytes) : bytes.length = fs.clusterSize := by
  obtain ⟨sector, -, h⟩ := bind_eq_ok.mp h
  rw [Partition.read_eq_ok h, length_window, clusterSize, mul_comm]

/-! ## The table -/

/-- `get_next_cluster` with the table in memory. -/
def nextInMem (fs : FatFs) (cluster : ℕ) : Except Fault ℕ :=
  match fs.fat with
  | none => .error (.panic .unwrap)
  | some fat =>
    match fat[cluster]? with
    | none => .error (.panic .bounds)
    | some entry => .ok (entry &&& fs.fatType.mask)

/-- `get_next_cluster` without: it reads the sector of the entry and the one after it. -/
def nextOnDisk (p : Profile) (fs : FatFs) (cluster : ℕ) : Except Fault ℕ := do
  let entryOffset ← arith (p.fit 64 (cluster * fs.fatType.entrySize))
  let entryOffsetInSector := entryOffset % 512
  let first ← arith (p.add fs.fatStart (entryOffset / 512))
  let sectorData ← expect (fs.partition.read p first 2)
  match fs.fatType with
  | .fat12 => do
    let clusterEntryBytes ← slice sectorData entryOffsetInSector (entryOffsetInSector + 2)
    .ok (leNat clusterEntryBytes &&& 0x0FFF)
  | .fat16 => do
    let clusterEntryBytes ← slice sectorData entryOffsetInSector (entryOffsetInSector + 2)
    .ok (leNat clusterEntryBytes)
  | .fat32 _ => do
    let clusterEntryBytes ← slice sectorData entryOffsetInSector (entryOffsetInSector + 4)
    .ok (leNat clusterEntryBytes &&& 0x0FFFFFFF)

def getNextCluster (p : Profile) (features : KernelFeatures) (fs : FatFs) (cluster : ℕ) :
    Except Fault ℕ :=
  if features.fatInMem then fs.nextInMem cluster else fs.nextOnDisk p cluster

/-- The entries of one sector of the table. -/
def sectorEntries (clusterBytes : ℕ) (sector : List Byte) : Except Fault (List ℕ) :=
  (List.range (512 / clusterBytes)).mapM fun j => do
    let bytes ← slice sector (j * clusterBytes) (j * clusterBytes + clusterBytes)
    .ok (leNat bytes)

/-- The load loop of `mount`: the entries of all sectors, in order. -/
def loadFat (p : Profile) (fs : FatFs) : Except Fault (List ℕ) := do
  let sectors ← (List.range fs.sectorsPerFat).mapM fun i => do
    let first ← arith (p.add fs.fatStart i)
    let sector ← expect (fs.partition.read p first 1)
    sectorEntries fs.fatType.entrySize sector
  .ok sectors.flatten

def mount (p : Profile) (features : KernelFeatures) (fs : FatFs) : Except Fault FatFs :=
  if features.fatInMem then do
    let fatVec ← fs.loadFat p
    .ok { fs with fat := some fatVec }
  else
    .ok { fs with fat := none }

end FatFs

end CappuccinOS.Fat
