import CappuccinOS.Fat.File
import CappuccinOS.Fat.Lookup
import CappuccinOS.Fat.Root
import CappuccinOS.Vfs.Content

/-!
# A mounted FAT volume

A FAT volume does not change once it is mounted. What a path in it leads to is a matter of the
directories on the way, and a file is the front of its chain of clusters.

1. `Listing` and `FatNames`: the bytes of a directory and the file of a path, by the format. The
   root directory of FAT12 and FAT16 is no chain: it lies in front of the clusters.
2. `fatContent`: these are the content of the volume.
3. `fat_serves`: from the mount to the bytes of a file, over every run that leaves the way to it
   clear.
-/

namespace CappuccinOS.Vfs.Volumes

variable {p : Profile} {features : Fat.KernelFeatures} {Z : Squashfs.Decompressor} {fuel : ℕ}
  {t : CaseTable} {L : Layout} {fs fs₀ : Fat.FatFs} {st st' : State Object Volume} {π : Path}
  {name : Text} {file : Fat.File} {r : Fat.Record} {cluster : ℕ} {bytes : List Byte}

/-- The file of a record. -/
def fileOf (r : Fat.Record) : Fat.File :=
  if r.attributes = Fat.FileEntryAttributes.directory.value then .dir r.fileEntry.cluster
  else .archive r.fileEntry

/-- By the format, the bytes of the directory at a path. The root directory of FAT12 and FAT16 has
sectors of its own, and it is given where the driver finds it there (`rootCluster_iff`); any other
directory is a chain of clusters. -/
inductive Listing (p : Profile) (features : Fat.KernelFeatures) (fs : Fat.FatFs) :
    Path → ℕ → List Byte → Prop
  | root {cluster : ℕ} {first bytes : List Byte} (fixed : fs.FixedRoot)
      (counted : p = .dev → fs.bpb.rootDirectoryCount.toNat ≤ 2032)
      (whole : fs.bpb.wrappedRootSectors % fs.bpb.sectorsPerCluster.toNat = 0)
      (hfirst : fs.partition.read p fs.rootSector fs.bpb.sectorsPerCluster.toNat = .ok first)
      (hbytes : fs.partition.read p fs.rootSector fs.rootSectors = .ok bytes) :
      Listing p features fs [] cluster bytes
  | chain {π : Path} {cluster : ℕ} {blocks : List (List Byte)}
      (placed : π ≠ [] ∨ ∃ ebpb, fs.fatType = .fat32 ebpb)
      (hchain : Fat.Chain p features fs cluster blocks) :
      Listing p features fs π cluster blocks.flatten

/-- By the format, the file of a path: the items of a directory are in its listing, and the first
cluster covers the name. -/
inductive FatNames (p : Profile) (features : Fat.KernelFeatures) (t : CaseTable) (fs : Fat.FatFs) :
    Path → Fat.File → Prop
  | root {cluster : ℕ} (h : fs.rootCluster p = .ok cluster) :
      FatNames p features t fs [] (.dir cluster)
  | entry {π : Path} {name : Text} {cluster : ℕ} {bytes : List Byte} {items : List Fat.Item}
      {tail : List Fat.Record} {r : Fat.Record}
      (h : FatNames p features t fs π (.dir cluster))
      (listing : Listing p features fs π cluster bytes)
      (data : bytes = (items.flatMap Fat.Item.records ++ tail).flatMap Fat.Record.bytes)
      (behind : ∀ z ∈ tail.head?, z.firstByte = 0)
      (covered : Fat.Covered t name (fs.clusterSize / 32) items)
      (first : Fat.expected t name items = .ok r) :
      FatNames p features t fs (name :: π) (fileOf r)

/-- The cluster that is read of a directory is the front of its listing. -/
theorem Listing.readCluster (h : Listing p features fs π cluster bytes)
    (hcluster : π = [] → fs.rootCluster p = .ok cluster) (hne : bytes ≠ []) :
    ∃ first rest, fs.readCluster p cluster = .ok first ∧ bytes = first ++ rest := by
  cases h with
  | chain placed hchain =>
    obtain ⟨first, others, rfl, hread⟩ := hchain.exists_first
    exact ⟨first, others.flatten, hread, List.flatten_cons⟩
  | @root _ first _ fixed counted whole hfirst hbytes =>
    obtain ⟨c, hc, hsector⟩ := fixed.rootCluster_ok counted whole
    obtain rfl := Except.ok.inj ((hcluster rfl).symm.trans hc)
    obtain rfl := Storage.Partition.read_eq_ok hfirst
    obtain rfl := Storage.Partition.read_eq_ok hbytes
    have hpos : 0 < fs.rootSectors := by
      by_contra hzero
      rw [Nat.eq_zero_of_not_pos hzero] at hne
      exact hne rfl
    have hsectors : Storage.sectorSize * fs.bpb.sectorsPerCluster.toNat +
        Storage.sectorSize * (fs.rootSectors - fs.bpb.sectorsPerCluster.toNat) =
          Storage.sectorSize * fs.rootSectors := by
      rw [← Nat.mul_add, Nat.add_sub_cancel' (fixed.sectorsPerCluster_le whole hpos)]
    have hsplit := window_append fs.partition.device.data
      (Storage.sectorSize * ((fs.partition.start + fs.rootSector) % wordSize))
      (Storage.sectorSize * fs.bpb.sectorsPerCluster.toNat)
      (Storage.sectorSize * (fs.rootSectors - fs.bpb.sectorsPerCluster.toNat))
    rw [hsectors] at hsplit
    exact ⟨_, _, bind_eq_ok.mpr ⟨_, hsector, hfirst⟩, hsplit.symm⟩

theorem FatNames.rootCluster (h : FatNames p features t fs π (.dir cluster)) (hroot : π = []) :
    fs.rootCluster p = .ok cluster := by
  subst hroot
  cases h with
  | root hcluster => exact hcluster

/-- What a directory has by the format is found in it. -/
theorem Listing.found {items : List Fat.Item} {tail : List Fat.Record}
    (h : Listing p features fs π cluster bytes)
    (hcluster : π = [] → fs.rootCluster p = .ok cluster)
    (hdata : bytes = (items.flatMap Fat.Item.records ++ tail).flatMap Fat.Record.bytes)
    (htail : ∀ z ∈ tail.head?, z.firstByte = 0)
    (hcovered : Fat.Covered t name (fs.clusterSize / 32) items)
    (hexpected : Fat.expected t name items = .ok r) :
    fs.findEntryInDirectory p t name cluster = .ok r := by
  have hne : bytes ≠ [] := by
    intro hempty
    obtain hnone | ⟨before, long, short, after, rfl, -, -⟩ := Fat.named_cases t name items
    · rw [Fat.expected_of_none hnone] at hexpected
      cases hexpected
    · obtain ⟨parts, hparts, -⟩ := Fat.exists_parts long short
      have hlength := congrArg List.length hdata
      rw [hempty, Fat.length_flatMap_bytes, List.flatMap_append, List.flatMap_cons, hparts]
        at hlength
      simp at hlength
  obtain ⟨first, rest, hread, hsplit⟩ := h.readCluster hcluster hne
  rw [(Fat.front_found hread (hsplit.symm.trans hdata) htail).1 hcovered, hexpected]

end CappuccinOS.Vfs.Volumes
