import CappuccinOS.Fat.Boot
import CappuccinOS.Storage.Ata

/-!
# Which sectors a volume reads

A volume on a GPT partition of an ATA drive, in the `release` profile. Three sums wrap on the way
from a cluster number to the drive: `cluster_to_sector` takes 2 from the number, `Partition::read`
adds the start of the partition and then the length of the request.

1. `clusterSectors` is `read_cluster` with the sectors it reads in place of their bytes
   (`readCluster_eq`).
2. A number from 2 on wraps nowhere: what passes the check of the partition lies in it.
3. The clusters 0 and 1 lie one or two clusters before the first data sector. Where that is before
   the start of the partition the first sum comes back below the start, and the check, which looks
   at the end of the request only, lets it through (`contained_iff`).
-/

namespace CappuccinOS.Fat

open Storage

namespace FatFs

/-- The first data sector, with the 16-bit sums of `root_dir_sectors` wrapped. -/
def dataStart (fs : FatFs) : ℕ :=
  fs.bpb.reservedSectors.toNat + fs.bpb.fatCount.toNat * fs.sectorsPerFat +
    (fs.bpb.rootDirectoryCount.toNat * 32 % 2 ^ 16 + (fs.bpb.bytesPerSector.toNat - 1)) % 2 ^ 16 /
      fs.bpb.bytesPerSector.toNat

/-- The sector that `Partition::read` asks the device for. -/
def gptFirst (p : Profile) (e : GPTPartitionEntry) (sector sectorCount : ℕ) : Except Fault ℕ := do
  let first ← arith (p.add e.startSector.toNat sector)
  let stop ← arith (p.add first sectorCount)
  if stop > e.endSector.toNat then .error .err else .ok first

/-- `read_cluster`, with the sectors that the drive reads in place of their bytes. -/
def clusterSectors (fs : FatFs) (e : GPTPartitionEntry) (d : ATADrive) (cluster : ℕ) :
    Except Fault (List ℕ) := do
  let sector ← fs.clusterToSector .release cluster
  let first ← gptFirst .release e sector fs.bpb.sectorsPerCluster.toNat
  d.read .release first fs.bpb.sectorsPerCluster.toNat

/-- `read_cluster` returns `Err`, or reads inside the partition only. -/
def Contained (fs : FatFs) (e : GPTPartitionEntry) (d : ATADrive) (cluster : ℕ) : Prop :=
  fs.readCluster .release cluster = .error .err ∨
    ∃ sectors, fs.clusterSectors e d cluster = .ok sectors ∧
      ∀ s ∈ sectors, e.startSector.toNat ≤ s ∧ s ≤ e.endSector.toNat

/-- How many sectors a reserved cluster number lies before the start of the volume. -/
def before (fs : FatFs) (cluster : ℕ) : ℕ :=
  (2 - cluster) * fs.bpb.sectorsPerCluster.toNat - fs.dataStart

/-- Cluster 0 or 1 starts before the partition, on the drive, and ends before the partition does;
the drive reads its sectors without an error. -/
structure Escapes (fs : FatFs) (e : GPTPartitionEntry) (d : ATADrive) (cluster : ℕ) : Prop where
  before : 0 < fs.before cluster
  start : fs.before cluster ≤ e.startSector.toNat
  stop : e.startSector.toNat + fs.bpb.sectorsPerCluster.toNat ≤
    e.endSector.toNat + fs.before cluster
  reads : ∀ i < fs.bpb.sectorsPerCluster.toNat,
    d.reads (e.startSector.toNat - fs.before cluster + i) = true

/-! ## The sectors of a cluster -/

section Bounds

variable {fs : FatFs} {e : GPTPartitionEntry} {d : ATADrive} {cluster : ℕ}

theorem firstDataSector_release (h : fs.bpb.bytesPerSector.toNat ≠ 0) :
    fs.firstDataSector .release = .ok fs.dataStart := by
  have hlast : Profile.release.subFit 16 fs.bpb.bytesPerSector.toNat 1 =
      .ok (fs.bpb.bytesPerSector.toNat - 1) := if_pos (by omega)
  unfold firstDataSector BIOSParameterBlock.rootDirSectors
  rw [Profile.fit_release, hlast]
  simp only [arith_ok, bind, Except.bind, Profile.fit_release, if_neg h]
  rfl

theorem dataStart_lt : fs.dataStart < 2 ^ 42 := by
  have hsector := fs.rootSector_lt
  have hroot : ∀ a b : ℕ, a % 2 ^ 16 / b < 2 ^ 16 := fun a b =>
    lt_of_le_of_lt (Nat.div_le_self _ _) (Nat.mod_lt _ (by norm_num))
  have := hroot (fs.bpb.rootDirectoryCount.toNat * 32 % 2 ^ 16 + (fs.bpb.bytesPerSector.toNat - 1))
    fs.bpb.bytesPerSector.toNat
  unfold rootSector at hsector
  unfold dataStart
  omega

theorem clusterToSector_of_le (hbytes : fs.bpb.bytesPerSector.toNat ≠ 0)
    (hcluster : cluster < 2 ^ 32) (h : 2 ≤ cluster) : fs.clusterToSector .release cluster =
      .ok ((cluster - 2) * fs.bpb.sectorsPerCluster.toNat + fs.dataStart) := by
  have hstart := fs.dataStart_lt
  have hprod : (cluster - 2) * fs.bpb.sectorsPerCluster.toNat ≤ 2 ^ 32 * 2 ^ 8 :=
    Nat.mul_le_mul (by omega) fs.bpb.sectorsPerCluster.toNat_lt.le
  have hindex : (cluster + wordSize - 2) % wordSize = cluster - 2 := by
    unfold wordSize
    omega
  unfold clusterToSector
  rw [firstDataSector_release hbytes]
  simp only [bind, Except.bind, hindex]
  rw [Nat.mod_eq_of_lt (by unfold wordSize; omega), Nat.mod_eq_of_lt (by unfold wordSize; omega)]

/-- Below 2 the sector lies before the first data sector, and wraps when it lies before the
volume. -/
theorem clusterToSector_of_lt (hbytes : fs.bpb.bytesPerSector.toNat ≠ 0) (h : cluster < 2) :
    fs.clusterToSector .release cluster =
      .ok ((wordSize + fs.dataStart - (2 - cluster) * fs.bpb.sectorsPerCluster.toNat) %
        wordSize) := by
  have hspc := fs.bpb.sectorsPerCluster.toNat_lt
  have hprod : (2 - cluster) * fs.bpb.sectorsPerCluster.toNat ≤ 2 * 2 ^ 8 :=
    Nat.mul_le_mul (by omega) hspc.le
  have hindex : (cluster + wordSize - 2) % wordSize = wordSize - (2 - cluster) := by
    unfold wordSize
    omega
  have hmul : (wordSize - (2 - cluster)) * fs.bpb.sectorsPerCluster.toNat % wordSize =
      (wordSize - (2 - cluster) * fs.bpb.sectorsPerCluster.toNat) % wordSize := by
    apply Nat.ModEq.add_right_cancel' ((2 - cluster) * fs.bpb.sectorsPerCluster.toNat)
    rw [← Nat.add_mul, Nat.sub_add_cancel (by unfold wordSize; omega),
      Nat.sub_add_cancel (by unfold wordSize; omega)]
    simp [Nat.ModEq]
  unfold clusterToSector
  rw [firstDataSector_release hbytes]
  simp only [bind, Except.bind, hindex, hmul, Nat.mod_add_mod]
  rw [Nat.sub_add_comm (by unfold wordSize; omega)]

/-- The first sector of the drive that the cluster at `sector` is asked for at. -/
def firstOf (e : GPTPartitionEntry) (sector : ℕ) : ℕ := (e.startSector.toNat + sector) % wordSize

theorem gptFirst_release (sector n : ℕ) : gptFirst .release e sector n =
    if (firstOf e sector + n) % wordSize > e.endSector.toNat then .error .err
    else .ok (firstOf e sector) := by
  unfold gptFirst
  simp only [bind, Except.bind, Profile.add_release, arith_ok]
  rfl

/-- A cluster is read when its end passes the check of the partition and the drive has it. -/
theorem clusterSectors_eq_ok {sector : ℕ} {sectors : List ℕ}
    (hsector : fs.clusterToSector .release cluster = .ok sector)
    (hspc : fs.bpb.sectorsPerCluster.toNat ≠ 0)
    (hdisk : e.endSector.toNat < d.sectorCount.toNat) :
    fs.clusterSectors e d cluster = .ok sectors ↔
      firstOf e sector + fs.bpb.sectorsPerCluster.toNat ≤ e.endSector.toNat ∧
      (∀ i < fs.bpb.sectorsPerCluster.toNat, d.reads (firstOf e sector + i) = true) ∧
      sectors = List.range' (firstOf e sector) fs.bpb.sectorsPerCluster.toNat := by
  have hfirst : firstOf e sector < wordSize := Nat.mod_lt _ (by norm_num)
  have hcount := d.sectorCount.toNat_lt
  have hread := @ATADrive.read_eq_ok d _ _ sectors hfirst (Nat.pos_of_ne_zero hspc)
  unfold clusterSectors
  rw [hsector, bind_eq_ok]
  simp only [bind_eq_ok, gptFirst_release]
  constructor
  · rintro ⟨a, ha, first, h, hok⟩
    obtain rfl := Except.ok.inj ha
    split_ifs at h with hstop
    obtain rfl := Except.ok.inj h
    obtain ⟨hle, hreads, rfl⟩ := hread.mp hok
    rw [Nat.mod_eq_of_lt (by unfold wordSize; omega)] at hstop
    exact ⟨by omega, hreads, rfl⟩
  · rintro ⟨hle, hreads, rfl⟩
    refine ⟨sector, rfl, firstOf e sector, ?_, hread.mpr ⟨by omega, hreads, rfl⟩⟩
    rw [if_neg (by rw [Nat.mod_eq_of_lt (by unfold wordSize; omega)]; omega)]

theorem clusterSectors_eq_err {sector : ℕ}
    (hsector : fs.clusterToSector .release cluster = .ok sector)
    (h : ∀ sectors, fs.clusterSectors e d cluster ≠ .ok sectors) :
    fs.clusterSectors e d cluster = .error .err := by
  unfold clusterSectors at h ⊢
  rw [hsector] at h ⊢
  simp only [bind, Except.bind, gptFirst_release] at h ⊢
  split_ifs with hstop
  · rfl
  · rw [if_neg hstop] at h
    exact ATADrive.read_eq_err h

/-- `read_cluster` returns the bytes of the sectors that are read. -/
theorem readCluster_eq (hpartition : fs.partition = .gptPartition e d.blockDevice)
    (hspc : fs.bpb.sectorsPerCluster.toNat ≠ 0) :
    fs.readCluster .release cluster = (fs.clusterSectors e d cluster).map fun sectors =>
      sectors.flatMap fun s => window d.medium (sectorSize * s) sectorSize := by
  unfold readCluster clusterSectors
  cases fs.clusterToSector .release cluster with
  | error f => rfl
  | ok sector =>
    have hfirst : firstOf e sector < wordSize := Nat.mod_lt _ (by norm_num)
    have hread := d.blockDevice_read hfirst (Nat.pos_of_ne_zero hspc)
    rw [hpartition]
    unfold Partition.read
    simp only [bind, Except.bind, Profile.add_release, arith_ok, gptFirst_release]
    unfold firstOf at hread ⊢
    split_ifs with hstop
    · rfl
    · exact hread

theorem contained_iff_firstOf {sector : ℕ}
    (hsector : fs.clusterToSector .release cluster = .ok sector)
    (hpartition : fs.partition = .gptPartition e d.blockDevice)
    (hspc : fs.bpb.sectorsPerCluster.toNat ≠ 0)
    (hdisk : e.endSector.toNat < d.sectorCount.toNat) :
    fs.Contained e d cluster ↔
      ¬ (firstOf e sector < e.startSector.toNat ∧
        firstOf e sector + fs.bpb.sectorsPerCluster.toNat ≤ e.endSector.toNat ∧
        ∀ i < fs.bpb.sectorsPerCluster.toNat, d.reads (firstOf e sector + i) = true) := by
  have hok (sectors : List ℕ) := @clusterSectors_eq_ok fs e d cluster sector sectors hsector hspc
    hdisk
  unfold Contained
  rw [readCluster_eq hpartition hspc]
  constructor
  · rintro (herr | ⟨sectors, h, hin⟩) ⟨hlow, hle, hreads⟩
    · rw [(hok _).mpr ⟨hle, hreads, rfl⟩] at herr
      cases herr
    · obtain ⟨-, -, rfl⟩ := (hok _).mp h
      have := hin (firstOf e sector) (List.mem_range'_1.mpr (by omega))
      omega
  · intro hsafe
    by_cases h : ∃ sectors, fs.clusterSectors e d cluster = .ok sectors
    · obtain ⟨sectors, h⟩ := h
      obtain ⟨hle, hreads, rfl⟩ := (hok _).mp h
      have hlow : e.startSector.toNat ≤ firstOf e sector := by
        by_contra hlow
        exact hsafe ⟨by omega, hle, hreads⟩
      refine Or.inr ⟨_, h, fun s hs => ?_⟩
      have := List.mem_range'_1.mp hs
      omega
    · refine Or.inl ?_
      rw [clusterSectors_eq_err hsector (not_exists.mp h)]
      rfl

theorem exists_firstOf (hbytes : fs.bpb.bytesPerSector.toNat ≠ 0)
    (hstart : e.startSector.toNat < 2 ^ 32) (hcluster : cluster < 2 ^ 32) :
    ∃ sector, fs.clusterToSector .release cluster = .ok sector ∧
      (0 < fs.before cluster → fs.before cluster ≤ e.startSector.toNat →
        firstOf e sector = e.startSector.toNat - fs.before cluster) ∧
      (fs.before cluster = 0 ∨ e.startSector.toNat < fs.before cluster →
        e.startSector.toNat ≤ firstOf e sector) := by
  have hdata := fs.dataStart_lt
  have hspc := fs.bpb.sectorsPerCluster.toNat_lt
  rcases Nat.lt_or_ge cluster 2 with h | h
  · refine ⟨_, clusterToSector_of_lt hbytes h, ?_⟩
    have hprod : (2 - cluster) * fs.bpb.sectorsPerCluster.toNat ≤ 2 * 2 ^ 8 :=
      Nat.mul_le_mul (by omega) hspc.le
    unfold before firstOf
    rw [Nat.add_mod_mod]
    generalize (2 - cluster) * fs.bpb.sectorsPerCluster.toNat = back at hprod ⊢
    unfold wordSize
    constructor
    · intro hpos hle
      omega
    · intro hor
      omega
  · refine ⟨_, clusterToSector_of_le hbytes hcluster h, ?_⟩
    have hprod : (cluster - 2) * fs.bpb.sectorsPerCluster.toNat ≤ 2 ^ 32 * 2 ^ 8 :=
      Nat.mul_le_mul (by omega) hspc.le
    have hbefore : fs.before cluster = 0 := by
      unfold before
      rw [Nat.sub_eq_zero_of_le h, Nat.zero_mul, Nat.zero_sub]
    refine ⟨by omega, fun _ => ?_⟩
    unfold firstOf
    rw [Nat.mod_eq_of_lt (by unfold wordSize; omega)]
    omega

/-- An accepted volume reads outside its partition exactly when a reserved cluster starts before
the partition, on the drive, and ends before the partition does. -/
theorem contained_iff (hnew : FatFs.new .release (.gptPartition e d.blockDevice) = .ok fs)
    (hle : e.startSector.toNat ≤ e.endSector.toNat)
    (hdisk : e.endSector.toNat < d.sectorCount.toNat) (hcluster : cluster < 2 ^ 32) :
    fs.Contained e d cluster ↔ ¬ fs.Escapes e d cluster := by
  have hcount := d.sectorCount.toNat_lt
  have hstart : e.startSector.toNat < 2 ^ 32 := by omega
  obtain ⟨hpartition, hbytes, hspc⟩ := FatFs.new_eq_ok hnew
  obtain ⟨sector, hsector, hout, hin⟩ := exists_firstOf hbytes hstart hcluster
  rw [contained_iff_firstOf hsector hpartition hspc hdisk, not_iff_not]
  constructor
  · rintro ⟨hlow, hstop, hreads⟩
    have hpos : 0 < fs.before cluster := by
      by_contra hzero
      have := hin (Or.inl (by omega))
      omega
    have hbefore : fs.before cluster ≤ e.startSector.toNat := by
      by_contra hgt
      have := hin (Or.inr (by omega))
      omega
    rw [hout hpos hbefore] at hstop hreads
    exact ⟨hpos, hbefore, by omega, hreads⟩
  · rintro ⟨hpos, hbefore, hstop, hreads⟩
    rw [hout hpos hbefore]
    exact ⟨by omega, by omega, hreads⟩

end Bounds

/-! ## A volume with large clusters -/

/-- The boot sector of a FAT12 volume of 65535 sectors, 64 to a cluster. -/
def bootSector : List Byte :=
  [0xEB, 0x3C, 0x90, 0x6D, 0x6B, 0x66, 0x73, 0x2E, 0x66, 0x61, 0x74, 0x00, 0x02, 0x40, 0x01, 0x00,
   0x02, 0x00, 0x02, 0xFF, 0xFF, 0xF8, 0x03, 0x00, 0x3F, 0x00, 0xFF, 0x00, 0x00, 0x08, 0x00, 0x00,
   0x00, 0x00, 0x00, 0x00, 0x80, 0x00, 0x29, 0x01, 0x02, 0x03, 0x04, 0x4E, 0x4F, 0x20, 0x4E, 0x41,
   0x4D, 0x45, 0x20, 0x20, 0x20, 0x20, 0x46, 0x41, 0x54, 0x31, 0x32, 0x20, 0x20, 0x20]

/-- A drive of 131072 sectors that has the volume from sector 2048 on. -/
def bootDrive : ATADrive where
  sectorCount := 131072
  medium i := if i < 512 * 2048 then 0 else bootSector.getD (i - 512 * 2048) 0
  reads lba := decide (lba < 131072)
  addressable lba h := by
    have := of_decide_eq_true h
    omega

def bootEntry : GPTPartitionEntry := ⟨2048, 67582⟩

def bootVolume : FatFs where
  partition := .gptPartition bootEntry bootDrive.blockDevice
  fat := none
  bpb := ⟨512, 64, 1, 2, 512, 3⟩
  fatType := .fat12

theorem new_bootVolume :
    FatFs.new .release (.gptPartition bootEntry bootDrive.blockDevice) = .ok bootVolume := rfl

/-- Cluster 2 is in the partition. -/
theorem contained_bootVolume : bootVolume.Contained bootEntry bootDrive 2 :=
  (contained_iff new_bootVolume (by decide) (by decide) (by decide)).mpr fun h =>
    absurd h.before (by decide)

/-- Cluster 0, which the entry `..` of a directory below the root has, is read from sector 1959 on;
the partition starts at 2048. -/
theorem not_contained_bootVolume : ∃ fs,
    FatFs.new .release (.gptPartition bootEntry bootDrive.blockDevice) = .ok fs ∧
      bootEntry.startSector.toNat ≤ bootEntry.endSector.toNat ∧
      bootEntry.endSector.toNat < bootDrive.sectorCount.toNat ∧
      ¬ fs.Contained bootEntry bootDrive 0 := by
  have hsector : bootVolume.clusterToSector .release 0 = .ok (wordSize - 89) := rfl
  have hfirst : firstOf bootEntry (wordSize - 89) = 1959 := by decide
  have hspc : bootVolume.bpb.sectorsPerCluster.toNat = 64 := rfl
  refine ⟨bootVolume, new_bootVolume, by decide, by decide, ?_⟩
  rw [contained_iff_firstOf hsector rfl (by decide) (by decide), not_not, hfirst, hspc]
  refine ⟨by decide, by decide, fun i hi => ?_⟩
  exact decide_eq_true (by omega)

end FatFs

end CappuccinOS.Fat
