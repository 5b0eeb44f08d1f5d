import CappuccinOS.Lib.Bytes

/-!
# Partitions of a block device (`drivers/storage/mod.rs`)

A block device is a trait object: here the bytes it holds and which requests it answers. A request
it answers gives the sectors asked for. `Partition::read` checks a request against the extent of
the partition and passes it on, moved by the partition's first sector; the 64-bit sum wraps in the
`release` profile, and `read_eq_ok` says where the bytes then come from.
-/

namespace CappuccinOS.Storage

/-- The bytes of a sector. -/
abbrev sectorSize : ℕ := 512

structure BlockDevice where
  data : ℕ → Byte
  answers : ℕ → ℕ → Bool

def BlockDevice.read (d : BlockDevice) (sector sectorCount : ℕ) : Except Fault (List Byte) :=
  if d.answers sector sectorCount then
    .ok (window d.data (sectorSize * sector) (sectorSize * sectorCount))
  else
    .error .err

structure MBRPartition where
  partitionStartLba : UInt32
  partitionSectors : UInt32

structure GPTPartitionEntry where
  startSector : UInt64
  endSector : UInt64

inductive Partition
  | mbrPartition (partition : MBRPartition) (blockDevice : BlockDevice)
  | gptPartition (partition : GPTPartitionEntry) (blockDevice : BlockDevice)

namespace Partition

/-- The sector of the device at which a partition starts. -/
def start : Partition → ℕ
  | mbrPartition e _ => e.partitionStartLba.toNat
  | gptPartition e _ => e.startSector.toNat

def device : Partition → BlockDevice
  | mbrPartition _ d => d
  | gptPartition _ d => d

def read (p : Profile) (partition : Partition) (sector sectorCount : ℕ) :
    Except Fault (List Byte) :=
  match partition with
  | gptPartition e d => do
    let first ← arith (p.add e.startSector.toNat sector)
    let stop ← arith (p.add first sectorCount)
    if stop > e.endSector.toNat then .error .err
    else d.read first sectorCount
  | mbrPartition e d => do
    let first ← arith (p.add e.partitionStartLba.toNat sector)
    let stop ← arith (p.add first sectorCount)
    if stop > e.partitionStartLba.toNat + e.partitionSectors.toNat then .error .err
    else d.read first sectorCount

end Partition

theorem BlockDevice.read_eq_ok {d : BlockDevice} {sector n : ℕ} {bytes : List Byte}
    (h : d.read sector n = .ok bytes) :
    bytes = window d.data (sectorSize * sector) (sectorSize * n) := by
  unfold BlockDevice.read at h
  split_ifs at h
  exact (Except.ok.inj h).symm

/-- What both kinds of partition do: the sums, the bound, the device. -/
theorem BlockDevice.bounded_read_eq_ok {p : Profile} {d : BlockDevice} {start sector n last : ℕ}
    {bytes : List Byte}
    (h : (do
      let first ← arith (p.add start sector)
      let stop ← arith (p.add first n)
      if stop > last then .error .err else d.read first n) = Except.ok bytes) :
    bytes = window d.data (sectorSize * ((start + sector) % wordSize)) (sectorSize * n) := by
  obtain ⟨first, hfirst, h⟩ := bind_eq_ok.mp h
  obtain ⟨stop, -, h⟩ := bind_eq_ok.mp h
  split_ifs at h
  rw [BlockDevice.read_eq_ok h, Profile.eq_mod_of_add (arith_eq_ok.mp hfirst)]

/-- A read that returns gives the sectors from the wrapped sum on. -/
theorem Partition.read_eq_ok {p : Profile} {partition : Partition} {sector n : ℕ}
    {bytes : List Byte} (h : partition.read p sector n = .ok bytes) :
    bytes = window partition.device.data
      (sectorSize * ((partition.start + sector) % wordSize)) (sectorSize * n) := by
  cases partition with
  | mbrPartition e d => exact BlockDevice.bounded_read_eq_ok h
  | gptPartition e d => exact BlockDevice.bounded_read_eq_ok h

end CappuccinOS.Storage
