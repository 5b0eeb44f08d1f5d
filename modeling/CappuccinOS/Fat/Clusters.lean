import CappuccinOS.Fat.Table
import CappuccinOS.Fat.Root

/-!
# Clusters and sectors correspond one to one

`cluster_to_sector` multiplies on `isize` and adds with wrapping, `sector_to_cluster` subtracts with
wrapping and divides. From cluster 2 on, and for any number of sectors in a cluster, none of this
wraps: the data area is cut into equal pieces, one for each cluster, from the first data sector on.

1. `SmallSectors` are the volumes whose 16-bit terms do not overflow.
2. `clusterToSector_eq` and `sectorToCluster_eq` are the two functions without their wrapping.
3. `clusters_one_to_one` puts them together.
-/

namespace CappuccinOS.Fat

open Storage

namespace FatFs

/-- The volumes with sectors of 512 bytes, a cluster that is not empty, and a root directory whose
bytes, rounded up to a sector, are a 16-bit number. -/
structure SmallSectors (fs : FatFs) : Prop where
  bytesPerSector : fs.bpb.bytesPerSector.toNat = 512
  sectorsPerCluster : 1 ≤ fs.bpb.sectorsPerCluster.toNat
  rootDirectoryCount : fs.bpb.rootDirectoryCount.toNat ≤ 2032

/-- The first sector behind the root directory. -/
def dataSector (fs : FatFs) : ℕ := fs.rootSector + fs.bpb.wrappedRootSectors

/-- The first sector of a cluster. -/
def clusterStart (fs : FatFs) (cluster : ℕ) : ℕ :=
  fs.dataSector + (cluster - 2) * fs.bpb.sectorsPerCluster.toNat

section Clusters

variable {p : Profile} {fs : FatFs} {c c' k : ℕ}

theorem dataSector_lt (fs : FatFs) : fs.dataSector < 2 ^ 42 := by
  have hsector := fs.rootSector_lt
  have hroot := wrappedRootSectors_lt fs.bpb
  unfold dataSector
  omega

theorem SmallSectors.firstDataSector (h : fs.SmallSectors) :
    fs.firstDataSector p = .ok fs.dataSector :=
  (firstDataSector_eq_ok h.bytesPerSector).mpr ⟨fun _ => h.rootDirectoryCount, rfl⟩

/-- The last sector of the last cluster is far below the word size. -/
theorem clusterStart_lt (fs : FatFs) (hc : c < 2 ^ 28) :
    fs.clusterStart c + fs.bpb.sectorsPerCluster.toNat < 2 ^ 43 := by
  have hspc := fs.bpb.sectorsPerCluster.toNat_lt
  have hdata := fs.dataSector_lt
  have hprod : (c - 2) * fs.bpb.sectorsPerCluster.toNat ≤ 2 ^ 28 * 2 ^ 8 :=
    Nat.mul_le_mul (by omega) hspc.le
  unfold clusterStart
  omega

/-! ## Without wrapping -/

theorem SmallSectors.clusterToSector_eq (h : fs.SmallSectors) (h2 : 2 ≤ c) (hc : c < 2 ^ 28) :
    fs.clusterToSector p c = .ok (fs.clusterStart c) := by
  have hlt := fs.clusterStart_lt hc
  unfold clusterStart at hlt
  have hindex : (c + wordSize - 2) % wordSize = c - 2 := by
    unfold wordSize
    omega
  have hprod : (c - 2) * fs.bpb.sectorsPerCluster.toNat % wordSize =
      (c - 2) * fs.bpb.sectorsPerCluster.toNat :=
    Nat.mod_eq_of_lt (by unfold wordSize; omega)
  have hsum : ((c - 2) * fs.bpb.sectorsPerCluster.toNat + fs.dataSector) % wordSize =
      fs.clusterStart c := by
    rw [Nat.mod_eq_of_lt (by unfold wordSize; omega), Nat.add_comm]
    rfl
  refine bind_eq_ok.mpr ⟨fs.dataSector, h.firstDataSector, ?_⟩
  dsimp only
  rw [hindex, hprod, hsum]

theorem SmallSectors.sectorToCluster_eq (h : fs.SmallSectors) (h2 : 2 ≤ c) (hc : c < 2 ^ 28)
    (hk : k < fs.bpb.sectorsPerCluster.toNat) :
    fs.sectorToCluster p (fs.clusterStart c + k) = .ok c := by
  have hpos := h.sectorsPerCluster
  have hlt := fs.clusterStart_lt hc
  have hsub : (fs.clusterStart c + k + wordSize - fs.dataSector) % wordSize =
      k + (c - 2) * fs.bpb.sectorsPerCluster.toNat := by
    unfold clusterStart at hlt ⊢
    have hdist : fs.dataSector + (c - 2) * fs.bpb.sectorsPerCluster.toNat + k + wordSize -
        fs.dataSector = k + (c - 2) * fs.bpb.sectorsPerCluster.toNat + wordSize := by
      omega
    rw [hdist, Nat.add_mod_right, Nat.mod_eq_of_lt (by unfold wordSize; omega)]
  have hdiv : (k + (c - 2) * fs.bpb.sectorsPerCluster.toNat) / fs.bpb.sectorsPerCluster.toNat =
      c - 2 := by
    rw [Nat.add_mul_div_right _ _ hpos, Nat.div_eq_of_lt hk, Nat.zero_add]
  refine bind_eq_ok.mpr ⟨fs.dataSector, h.firstDataSector, ?_⟩
  rw [if_neg (by omega), hsub, hdiv, Nat.sub_add_cancel h2,
    Nat.mod_eq_of_lt (by unfold wordSize; omega)]

/-- A sector lies in one cluster only, since it leads back to each it lies in. -/
theorem SmallSectors.disjoint (h : fs.SmallSectors) (h2 : 2 ≤ c) (hc : c < 2 ^ 28)
    (h2' : 2 ≤ c') (hc' : c' < 2 ^ 28) (hne : c ≠ c') :
    Disjoint (Set.Ico (fs.clusterStart c) (fs.clusterStart c + fs.bpb.sectorsPerCluster.toNat))
      (Set.Ico (fs.clusterStart c') (fs.clusterStart c' + fs.bpb.sectorsPerCluster.toNat)) := by
  rw [Set.disjoint_left]
  rintro s ⟨hle, hlt⟩ ⟨hle', hlt'⟩
  apply hne
  have hback := h.sectorToCluster_eq (p := .dev) h2 hc (k := s - fs.clusterStart c) (by omega)
  have hback' := h.sectorToCluster_eq (p := .dev) h2' hc' (k := s - fs.clusterStart c') (by omega)
  rw [Nat.add_sub_cancel' hle] at hback
  rw [Nat.add_sub_cancel' hle'] at hback'
  exact Except.ok.inj (hback.symm.trans hback')

end Clusters

/-- **Clusters and sectors correspond one to one**: every cluster has a range of sectors behind the
start of the data area, without a wrap; each of them leads back to the cluster, and the ranges of
two clusters are disjoint. -/
theorem clusters_one_to_one (p : Profile) (fs : FatFs) (h : fs.SmallSectors) :
    ∃ first, fs.firstDataSector p = .ok first ∧
      ∀ c, 2 ≤ c → c < 2 ^ 28 → ∃ s, fs.clusterToSector p c = .ok s ∧
        first ≤ s ∧ s + fs.bpb.sectorsPerCluster.toNat < wordSize ∧
        (∀ k < fs.bpb.sectorsPerCluster.toNat, fs.sectorToCluster p (s + k) = .ok c) ∧
        ∀ c' s', 2 ≤ c' → c' < 2 ^ 28 → c ≠ c' → fs.clusterToSector p c' = .ok s' →
          Disjoint (Set.Ico s (s + fs.bpb.sectorsPerCluster.toNat))
            (Set.Ico s' (s' + fs.bpb.sectorsPerCluster.toNat)) := by
  refine ⟨fs.dataSector, h.firstDataSector, fun c h2 hc => ?_⟩
  have hlt := fs.clusterStart_lt hc
  refine ⟨fs.clusterStart c, h.clusterToSector_eq h2 hc, Nat.le_add_right _ _, ?_, ?_, ?_⟩
  · unfold wordSize
    omega
  · intro k hk
    exact h.sectorToCluster_eq h2 hc hk
  · intro c' s' h2' hc' hne hs'
    obtain rfl := Except.ok.inj ((h.clusterToSector_eq h2' hc').symm.trans hs')
    exact h.disjoint h2 hc h2' hc' hne

/-- Three sectors in a cluster: the fifth sector behind the first data sector is in cluster 3. -/
theorem clusters_one_to_one_three : (fixedRootVolume 3).SmallSectors ∧
    ∃ s, (fixedRootVolume 3).clusterToSector .dev 3 = .ok s ∧
      (fixedRootVolume 3).sectorToCluster .dev (s + 1) = .ok 3 := by
  have hsmall : (fixedRootVolume 3).SmallSectors := ⟨rfl, by decide, by decide⟩
  obtain ⟨first, -, hall⟩ := clusters_one_to_one .dev (fixedRootVolume 3) hsmall
  obtain ⟨s, hs, -, -, hback, -⟩ := hall 3 (by norm_num) (by norm_num)
  exact ⟨hsmall, s, hs, hback 1 (by decide)⟩

end FatFs

end CappuccinOS.Fat
