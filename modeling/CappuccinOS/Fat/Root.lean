import CappuccinOS.Fat.Boot

/-!
# The root directory of a FAT12 or FAT16 volume (`sector_to_cluster`, `root`)

The root directory lies between the tables and the first data sector. `root` names it by a cluster
number: the distance from the first data sector back to it, divided by the sectors of a cluster, as
a wrapped number. `cluster_to_sector` undoes this only when nothing is lost in the division
(`rootCluster_iff`).
-/

namespace CappuccinOS.Fat

open Storage

namespace BIOSParameterBlock

/-- The sectors of the root directory, in the 16 bits that the code has for them. -/
def wrappedRootSectors (bpb : BIOSParameterBlock) : ℕ :=
  (bpb.rootDirectoryCount.toNat * 32 % 2 ^ 16 + 511) % 2 ^ 16 / 512

/-- `root_dir_sectors` with sectors of 512 bytes: the 16 bits overflow from 2033 entries on. -/
theorem rootDirSectors_eq_ok {p : Profile} {bpb : BIOSParameterBlock} {r : ℕ}
    (hbytes : bpb.bytesPerSector.toNat = 512) : bpb.rootDirSectors p = .ok r ↔
      (p = .dev → bpb.rootDirectoryCount.toNat ≤ 2032) ∧ r = bpb.wrappedRootSectors := by
  have hlast : p.subFit 16 512 1 = .ok 511 := if_pos (by decide)
  unfold rootDirSectors wrappedRootSectors
  rw [hbytes, hlast, arith_ok]
  simp only [bind_eq_ok, arith_eq_ok, Profile.fit_eq_ok]
  constructor
  · rintro ⟨bytes, ⟨hbytes, rfl⟩, last, hok, sum, ⟨hsum, rfl⟩, hdiv⟩
    obtain rfl := Except.ok.inj hok
    rw [if_neg (by decide)] at hdiv
    refine ⟨fun hdev => ?_, (Except.ok.inj hdiv).symm⟩
    have hbytes := hbytes hdev
    have hsum := hsum hdev
    rw [Nat.mod_eq_of_lt hbytes] at hsum
    omega
  · rintro ⟨hdev, rfl⟩
    refine ⟨_, ⟨fun h => by have := hdev h; omega, rfl⟩, 511, rfl, _, ⟨fun h => ?_, rfl⟩, ?_⟩
    · have := hdev h
      rw [Nat.mod_eq_of_lt (by omega)]
      omega
    · rw [if_neg (by decide)]

end BIOSParameterBlock

namespace FatFs

def sectorToCluster (p : Profile) (fs : FatFs) (sector : ℕ) : Except Fault ℕ := do
  let firstDataSector ← fs.firstDataSector p
  if fs.bpb.sectorsPerCluster.toNat = 0 then .error .divideByZero
  else
    .ok (((sector + wordSize - firstDataSector) % wordSize / fs.bpb.sectorsPerCluster.toNat + 2) %
      wordSize)

/-- `root_cluster` of `root`. -/
def rootCluster (p : Profile) (fs : FatFs) : Except Fault ℕ :=
  match fs.fatType with
  | .fat32 ebpb => .ok ebpb.rootDirCluster.toNat
  | _ => fs.sectorToCluster p fs.rootSector

/-- The volumes whose root directory has a place of its own: FAT12 and FAT16, with sectors of 512
bytes and clusters of a power of two sectors. -/
structure FixedRoot (fs : FatFs) : Prop where
  fatType : ∀ ebpb, fs.fatType ≠ .fat32 ebpb
  bytesPerSector : fs.bpb.bytesPerSector.toNat = 512
  sectorsPerCluster : ∃ k ≤ 7, fs.bpb.sectorsPerCluster.toNat = 2 ^ k

section Root

variable {p : Profile} {fs : FatFs}

theorem firstDataSector_eq_ok (hbytes : fs.bpb.bytesPerSector.toNat = 512) {n : ℕ} :
    fs.firstDataSector p = .ok n ↔ (p = .dev → fs.bpb.rootDirectoryCount.toNat ≤ 2032) ∧
      n = fs.rootSector + fs.bpb.wrappedRootSectors := by
  unfold firstDataSector
  simp only [bind_eq_ok, BIOSParameterBlock.rootDirSectors_eq_ok hbytes]
  constructor
  · rintro ⟨r, ⟨hdev, rfl⟩, hn⟩
    exact ⟨hdev, (Except.ok.inj hn).symm⟩
  · rintro ⟨hdev, rfl⟩
    exact ⟨_, ⟨hdev, rfl⟩, rfl⟩

theorem wrappedRootSectors_lt (bpb : BIOSParameterBlock) : bpb.wrappedRootSectors < 128 := by
  unfold BIOSParameterBlock.wrappedRootSectors
  omega

/-- Back `r` sectors to a cluster and forth again: what the division loses is missing. -/
theorem roundTrip_iff {s r k : ℕ} (hs : s < 2 ^ 41) (hr : r < 128) (hk : k ≤ 7) :
    ((((s + wordSize - (s + r)) % wordSize / 2 ^ k + 2) % wordSize + wordSize - 2) % wordSize *
      2 ^ k % wordSize + (s + r)) % wordSize = s ↔ r % 2 ^ k = 0 := by
  unfold wordSize
  interval_cases k <;> omega

theorem FixedRoot.rootCluster_eq (h : fs.FixedRoot) :
    fs.rootCluster p = fs.sectorToCluster p fs.rootSector := by
  unfold rootCluster
  split
  · exact absurd ‹_› (h.fatType _)
  · rfl

/-- A root cluster that leads to the root directory has lost nothing. -/
theorem FixedRoot.of_rootCluster (h : fs.FixedRoot) {c : ℕ} (hc : fs.rootCluster p = .ok c)
    (hsector : fs.clusterToSector p c = .ok fs.rootSector) :
    (p = .dev → fs.bpb.rootDirectoryCount.toNat ≤ 2032) ∧
      fs.bpb.wrappedRootSectors % fs.bpb.sectorsPerCluster.toNat = 0 := by
  obtain ⟨k, hk, hspc⟩ := h.sectorsPerCluster
  rw [h.rootCluster_eq] at hc
  obtain ⟨first, hfirst, hc⟩ := bind_eq_ok.mp hc
  obtain ⟨first', hfirst', hsector⟩ := bind_eq_ok.mp hsector
  obtain ⟨hdev, rfl⟩ := (firstDataSector_eq_ok h.bytesPerSector).mp hfirst
  obtain ⟨-, rfl⟩ := (firstDataSector_eq_ok h.bytesPerSector).mp hfirst'
  rw [hspc, if_neg (by positivity)] at hc
  rw [hspc, ← Except.ok.inj hc] at hsector
  refine ⟨hdev, ?_⟩
  rw [hspc, ← roundTrip_iff fs.rootSector_lt (wrappedRootSectors_lt fs.bpb) hk]
  exact Except.ok.inj hsector

/-- Where the division loses nothing, the root cluster leads to the root directory. -/
theorem FixedRoot.rootCluster_ok (h : fs.FixedRoot)
    (hdev : p = .dev → fs.bpb.rootDirectoryCount.toNat ≤ 2032)
    (hmod : fs.bpb.wrappedRootSectors % fs.bpb.sectorsPerCluster.toNat = 0) :
    ∃ c, fs.rootCluster p = .ok c ∧ fs.clusterToSector p c = .ok fs.rootSector := by
  obtain ⟨k, hk, hspc⟩ := h.sectorsPerCluster
  have hfirst : fs.firstDataSector p = _ :=
    (firstDataSector_eq_ok h.bytesPerSector).mpr ⟨hdev, rfl⟩
  rw [hspc, ← roundTrip_iff fs.rootSector_lt (wrappedRootSectors_lt fs.bpb) hk] at hmod
  have hcluster : fs.sectorToCluster p fs.rootSector = _ :=
    bind_eq_ok.mpr ⟨_, hfirst, by rw [hspc, if_neg (by positivity)]⟩
  refine ⟨_, h.rootCluster_eq.trans hcluster, bind_eq_ok.mpr ⟨_, hfirst, ?_⟩⟩
  dsimp only
  rw [hspc, hmod]

/-- The sectors of the root directory. -/
def rootSectors (fs : FatFs) : ℕ := (fs.bpb.rootDirectoryCount.toNat * 32 + 511) / 512

/-- A root directory of whole clusters that is not empty has a first cluster. -/
theorem FixedRoot.sectorsPerCluster_le (h : fs.FixedRoot)
    (hmod : fs.bpb.wrappedRootSectors % fs.bpb.sectorsPerCluster.toNat = 0)
    (hpos : 0 < fs.rootSectors) : fs.bpb.sectorsPerCluster.toNat ≤ fs.rootSectors := by
  obtain ⟨k, hk, hspc⟩ := h.sectorsPerCluster
  have hcluster : 2 ^ k ≤ 2 ^ 7 := Nat.pow_le_pow_right (by decide) hk
  rw [hspc] at hmod ⊢
  unfold rootSectors at hpos ⊢
  rcases Nat.eq_zero_or_pos fs.bpb.wrappedRootSectors with hzero | hwrapped
  · -- the 16 bits have overflowed, so that there are 128 sectors or more
    unfold BIOSParameterBlock.wrappedRootSectors at hzero
    omega
  · have hle := Nat.le_of_dvd hwrapped (Nat.dvd_of_mod_eq_zero hmod)
    unfold BIOSParameterBlock.wrappedRootSectors at hle
    omega

end Root

/-- **The root directory is read from where it is** exactly when its sectors, counted in 16 bits,
are whole clusters, and the `dev` profile can count them. -/
theorem rootCluster_iff (p : Profile) (fs : FatFs) (h : fs.FixedRoot) :
    (∃ c, fs.rootCluster p = .ok c ∧ fs.clusterToSector p c = .ok fs.rootSector) ↔
      (p = .dev → fs.bpb.rootDirectoryCount.toNat ≤ 2032) ∧
        fs.bpb.wrappedRootSectors % fs.bpb.sectorsPerCluster.toNat = 0 := by
  constructor
  · rintro ⟨c, hc, hsector⟩
    exact h.of_rootCluster hc hsector
  · rintro ⟨hdev, hmod⟩
    exact h.rootCluster_ok hdev hmod

/-- A FAT16 volume with 512 entries in its root directory. -/
def fixedRootVolume (sectorsPerCluster : UInt8) : FatFs where
  partition := .mbrPartition ⟨0, 65536⟩ ⟨fun _ => 0, fun _ _ => true⟩
  fat := none
  bpb := ⟨512, sectorsPerCluster, 1, 2, 512, 64⟩
  fatType := .fat16

theorem fixedRoot_demo {n : UInt8} {k : ℕ} (hk : k ≤ 7) (h : n.toNat = 2 ^ k) :
    (fixedRootVolume n).FixedRoot := ⟨nofun, rfl, k, hk, h⟩

/-- Clusters of 32 sectors, as many as the root directory has. -/
theorem rootCluster_whole : (fixedRootVolume 32).FixedRoot ∧
    ∃ c, (fixedRootVolume 32).rootCluster .dev = .ok c ∧
      (fixedRootVolume 32).clusterToSector .dev c = .ok 129 :=
  ⟨fixedRoot_demo (by decide) (show (32 : UInt8).toNat = 2 ^ 5 from rfl),
    (rootCluster_iff .dev (fixedRootVolume 32) (fixedRoot_demo (by decide)
      (show (32 : UInt8).toNat = 2 ^ 5 from rfl))).mpr ⟨fun _ => by decide, by decide⟩⟩

/-- Clusters of 64 sectors: the root directory is read from 32 sectors before it. -/
theorem rootCluster_half : (fixedRootVolume 64).FixedRoot ∧
    ¬ ∃ c, (fixedRootVolume 64).rootCluster .dev = .ok c ∧
      (fixedRootVolume 64).clusterToSector .dev c = .ok (fixedRootVolume 64).rootSector := by
  refine ⟨fixedRoot_demo (by decide) (show (64 : UInt8).toNat = 2 ^ 6 from rfl), ?_⟩
  rintro ⟨c, hc, hsector⟩
  have hmod := ((fixedRoot_demo (by decide)
    (show (64 : UInt8).toNat = 2 ^ 6 from rfl)).of_rootCluster hc hsector).2
  revert hmod
  decide

end FatFs

end CappuccinOS.Fat
