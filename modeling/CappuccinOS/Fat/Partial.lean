import CappuccinOS.Fat.File

/-!
# Partial reads of FAT files

`File::read` splits the offset into clusters to skip, but then uses the whole offset, not the rest
of it, inside the first cluster it reads; and it cuts the first copy at the end of the cluster only
when the request is larger than a cluster.

1. `exists_copyLoop_iff`: what the loop gives from an offset in the first cluster of a chain;
2. `reads_iff`: what a read inside the file gives;
3. `reads_slice_iff_served`: the reads that agree with the whole file are those `Served` allows, and
   a file read in pieces is the file exactly when each piece is one of these.
-/

namespace CappuccinOS.Fat

open Storage

section First

variable {p : Profile} {features : KernelFeatures} {fs : FatFs}
variable {count cluster offset fuel : ℕ} {block bytes : List Byte} {rest : List (List Byte)}

theorem Chain.tail {blocks : List (List Byte)} (h : Chain p features fs cluster blocks)
    (hpos : 1 < blocks.length) :
    ∃ next, fs.getNextCluster p features cluster = .ok next ∧
      Chain p features fs next blocks.tail := by
  cases h with
  | last => simp at hpos
  | more _ hnext _ htail => exact ⟨_, hnext, htail⟩

theorem Chain.head (h : Chain p features fs cluster (block :: rest)) :
    ∃ next, fs.readCluster p cluster = .ok block ∧
      fs.getNextCluster p features cluster = .ok next := by
  cases h with
  | last hread hnext _ => exact ⟨_, hread, hnext⟩
  | more hread hnext _ _ => exact ⟨_, hread, hnext⟩

theorem skip_chain {blocks : List (List Byte)} {n : ℕ} (h : Chain p features fs cluster blocks)
    (hn : n < blocks.length) :
    ∃ c, skip p features fs n cluster = .ok c ∧ Chain p features fs c (blocks.drop n) := by
  induction n generalizing cluster blocks with
  | zero => exact ⟨cluster, rfl, h⟩
  | succ n ih =>
    obtain ⟨next, hnext, htail⟩ := h.tail (by omega)
    obtain ⟨c, hskip, hchain⟩ := ih htail (by rw [List.length_tail]; omega)
    refine ⟨c, ?_, by rwa [List.drop_tail] at hchain⟩
    simp only [skip, hnext, bind, Except.bind, hskip]

theorem copyLoop_ne_ok {f : Fault}
    (hturn : copyCluster p features fs count cluster offset 0 = .error f) :
    copyLoop p features fs count fuel cluster offset 0 ≠ .ok bytes := by
  cases fuel with
  | zero => simp [copyLoop]
  | succ fuel => simp [copyLoop, hturn, bind, Except.bind]

theorem copyLoop_of_turn {next copied : ℕ} (h : Chain p features fs cluster (block :: rest))
    (hnext : fs.getNextCluster p features cluster = .ok next)
    (hturn : copyCluster p features fs count cluster offset 0 = .ok (bytes, copied, next))
    (hfuel : (block :: rest).length ≤ fuel) (hle : copied ≤ count) (hcount : count < wordSize) :
    copyLoop p features fs count fuel cluster offset 0 =
      .ok (bytes ++ rest.flatten.take (count - copied)) := by
  obtain ⟨fuel, rfl⟩ : ∃ n, fuel = n + 1 := ⟨fuel - 1, by simp at hfuel; omega⟩
  rw [copyLoop, hturn]
  simp only [bind, Except.bind]
  cases h with
  | last _ hnext' heoc =>
    obtain rfl := Except.ok.inj (hnext.symm.trans hnext')
    simp [heoc]
  | more _ hnext' heoc htail =>
    obtain rfl := Except.ok.inj (hnext.symm.trans hnext')
    rw [if_neg (by omega), copyLoop_chain htail (by simpa using hfuel) hle hcount]

/-- A request for more than a cluster that starts after it: the copy length underflows, or wraps
around so that the slice ends before it starts. -/
theorem copyCluster_beyond (hread : fs.readCluster p cluster = .ok block)
    (hcount : fs.clusterSize < count) (hoff : fs.clusterSize < offset) (hword : offset < wordSize) :
    ∃ why, copyCluster p features fs count cluster offset 0 = .error (.panic why) := by
  have hlen := FatFs.length_readCluster hread
  unfold copyCluster
  simp only [hread, Profile.sub_of_le p (Nat.zero_le count), Nat.sub_zero, arith_ok, bind,
    Except.bind, toCopy, gt_iff_lt, hcount, if_true]
  cases p with
  | dev =>
    refine ⟨.overflow, ?_⟩
    rw [Profile.sub_dev_of_lt hoff, arith_error]
  | release =>
    refine ⟨.bounds, ?_⟩
    obtain ⟨n, hsub, hadd⟩ := Profile.sub_then_add_release hoff hword
    rw [hsub, arith_ok]
    simp only []
    rw [hadd, arith_ok]
    simp only []
    rw [slice_of_not (by omega)]

/-- From an offset in the first cluster of a chain, the loop gives the bytes of the chain. -/
theorem copyLoop_of_passes (h : Chain p features fs cluster (block :: rest))
    (hpass : Passes fs.clusterSize offset count) (hfuel : (block :: rest).length ≤ fuel)
    (hword : offset + count < wordSize) :
    copyLoop p features fs count fuel cluster offset 0 =
      .ok (((block :: rest).flatten.drop offset).take count) := by
  obtain ⟨next, hread, hnext⟩ := h.head
  have hlen := FatFs.length_readCluster hread
  have hoff : offset ≤ fs.clusterSize := by
    obtain hsum | ⟨hoff, -⟩ := hpass <;> omega
  have hturn : copyCluster p features fs count cluster offset 0 =
      .ok ((block.drop offset).take count, min count (fs.clusterSize - offset), next) := by
    rw [copyCluster_eq hread (Nat.zero_le count) hpass hword, hnext]
    simp only [bind, Except.bind, Nat.sub_zero, Nat.zero_add]
  rw [copyLoop_of_turn h hnext hturn hfuel (min_le_left _ _) (by omega), List.flatten_cons,
    List.drop_append_of_le_length (by omega), List.take_append, List.length_drop, hlen]
  congr 3
  omega

theorem copyCluster_of_not_passes (hread : fs.readCluster p cluster = .ok block)
    (hpass : ¬ Passes fs.clusterSize offset count) (hword : offset + count < wordSize) :
    ∃ why, copyCluster p features fs count cluster offset 0 = .error (.panic why) := by
  have hlen := FatFs.length_readCluster hread
  unfold Passes at hpass
  by_cases hcount : count ≤ fs.clusterSize
  · refine ⟨.bounds, ?_⟩
    unfold copyCluster
    simp only [hread, Profile.sub_of_le p (Nat.zero_le count), Nat.sub_zero, arith_ok, bind,
      Except.bind, toCopy, not_lt.mpr hcount, if_false]
    rw [Profile.add_of_lt p hword, arith_ok]
    simp only []
    rw [slice_of_not (by omega)]
  · exact copyCluster_beyond hread (by omega) (by omega) (by omega)

theorem exists_copyLoop_iff (h : Chain p features fs cluster (block :: rest))
    (hword : offset + count < wordSize) :
    (∃ fuel, copyLoop p features fs count fuel cluster offset 0 = .ok bytes) ↔
      Passes fs.clusterSize offset count ∧
        bytes = ((block :: rest).flatten.drop offset).take count := by
  constructor
  · rintro ⟨fuel, hloop⟩
    by_cases hpass : Passes fs.clusterSize offset count
    · obtain ⟨blocks, hchain, hfuel⟩ := exists_chain hloop
      obtain rfl := hchain.unique h
      rw [copyLoop_of_passes h hpass hfuel hword] at hloop
      exact ⟨hpass, (Except.ok.inj hloop).symm⟩
    · obtain ⟨next, hread, -⟩ := h.head
      obtain ⟨why, hturn⟩ := @copyCluster_of_not_passes p features _ _ _ _ _ hread hpass hword
      exact absurd hloop (copyLoop_ne_ok hturn)
  · rintro ⟨hpass, rfl⟩
    exact ⟨_, copyLoop_of_passes h hpass le_rfl hword⟩

end First

/-! ## Reads inside a file -/

section Reads

variable {p : Profile} {features : KernelFeatures} {fs : FatFs} {entry : FileEntry}
variable {blocks : List (List Byte)} {count offset : ℕ} {bytes whole : List Byte}

/-- `VNode::read` of a file returns. -/
def Reads (p : Profile) (features : KernelFeatures) (fs : FatFs) (entry : FileEntry)
    (count offset : ℕ) (bytes : List Byte) : Prop :=
  ∃ fuel, vnodeRead p features fs fuel (.archive entry) count offset = .ok bytes

/-- What a read inside the file gives: the bytes from an offset that counts the skipped clusters
twice. -/
theorem reads_iff (hchain : Chain p features fs entry.cluster blocks)
    (hholds : entry.fileSize.toNat ≤ blocks.flatten.length) (hoff : offset < entry.fileSize.toNat)
    (hsum : offset + count ≤ entry.fileSize.toNat) :
    Reads p features fs entry count offset bytes ↔
      Passes fs.clusterSize offset count ∧ bytes =
        (blocks.flatten.drop (offset / fs.clusterSize * fs.clusterSize + offset)).take count := by
  have hpos := hchain.clusterSize_pos (by omega)
  have hword : offset + count < wordSize := by
    have := entry.fileSize.toNat_lt
    unfold wordSize
    omega
  have hn : offset / fs.clusterSize < blocks.length := by
    rw [hchain.length_flatten] at hholds
    exact Nat.div_lt_of_lt_mul (by rw [mul_comm]; omega)
  obtain ⟨c, hskip, hrest⟩ := skip_chain hchain hn
  have hread : Reads p features fs entry count offset bytes ↔
      ∃ fuel, copyLoop p features fs count fuel c offset 0 = .ok bytes := by
    unfold Reads
    simp only [vnodeRead_archive hoff hsum, File.read, hpos.ne', if_false, hskip, bind, Except.bind]
  have hflat := flatten_drop hchain.length_block (offset / fs.clusterSize)
  obtain ⟨block, rest, heq⟩ := List.exists_cons_of_ne_nil hrest.ne_nil
  rw [heq] at hrest hflat
  rw [hread, exists_copyLoop_iff hrest hword, hflat, List.drop_drop]

/-- The requests whose answer is right: those inside the first cluster, and those from inside it
for more than a cluster. One for more than a cluster that starts with the second cluster is answered
from the third on, which is right only where the bytes repeat. -/
def Served (size : ℕ) (data : List Byte) (offset count : ℕ) : Prop :=
  offset + count ≤ size ∨ (offset < size ∧ size < count) ∨
    (offset = size ∧ size < count ∧ (data.drop (2 * size)).take count = (data.drop size).take count)

theorem served_iff {size : ℕ} {data : List Byte} (hpos : 0 < size) :
    Served size data offset count ↔ Passes size offset count ∧
      (data.drop (offset / size * size + offset)).take count = (data.drop offset).take count := by
  unfold Served Passes
  rcases lt_trichotomy offset size with hlt | rfl | hgt
  · rw [Nat.div_eq_of_lt hlt, Nat.zero_mul, Nat.zero_add]
    simp [hlt, hlt.le, hlt.ne]
  · rw [Nat.div_self hpos, Nat.one_mul, ← Nat.two_mul]
    constructor
    · rintro (hsum | ⟨hlt, -⟩ | ⟨-, hcount, hrep⟩)
      · obtain rfl : count = 0 := by omega
        exact ⟨.inl hsum, by simp⟩
      · omega
      · exact ⟨.inr ⟨le_rfl, hcount⟩, hrep⟩
    · rintro ⟨hsum | ⟨-, hcount⟩, hrep⟩
      · exact .inl hsum
      · exact .inr (.inr ⟨rfl, hcount, hrep⟩)
  · constructor
    · rintro (hsum | ⟨hlt, -⟩ | ⟨heq, -⟩) <;> omega
    · rintro ⟨hsum | ⟨hle, -⟩, -⟩ <;> omega

/-- A whole file that can be read is the front of a chain. -/
theorem exists_chain_of_reads (h : Reads p features fs entry entry.fileSize.toNat 0 whole) :
    0 < entry.fileSize.toNat ∧ ∃ blocks, Chain p features fs entry.cluster blocks ∧
      whole = blocks.flatten.take entry.fileSize.toNat := by
  obtain ⟨fuel, h⟩ := h
  have hword := entry.fileSize.toNat_lt
  have hsize : 0 < entry.fileSize.toNat := by
    by_contra hzero
    simp [vnodeRead, File.len, bind, Except.bind, show entry.fileSize.toNat = 0 by omega] at h
  refine ⟨hsize, ?_⟩
  rw [vnodeRead_archive hsize (by omega), File.read] at h
  split_ifs at h with hpos
  simp only [Nat.zero_div, skip, bind, Except.bind] at h
  obtain ⟨blocks, hchain, hfuel⟩ := exists_chain h
  rw [copyLoop_chain hchain hfuel (Nat.zero_le _) (by unfold wordSize; omega), Nat.sub_zero] at h
  exact ⟨blocks, hchain, (Except.ok.inj h).symm⟩

end Reads

/-! ## Reading in pieces -/

/-- The offsets and sizes of consecutive pieces. -/
def spans : ℕ → List ℕ → List (ℕ × ℕ)
  | _, [] => []
  | offset, n :: ns => (offset, n) :: spans (offset + n) ns

section Pieces

variable {whole : List Byte} {offset : ℕ} {sizes : List ℕ} {parts : List (List Byte)}

theorem mem_spans {s : ℕ × ℕ} (hs : s ∈ spans offset sizes) :
    s.2 ∈ sizes ∧ s.1 + s.2 ≤ offset + sizes.sum := by
  induction sizes generalizing offset with
  | nil => cases hs
  | cons n ns ih =>
    rw [List.sum_cons]
    obtain rfl | hs := List.mem_cons.mp hs
    · exact ⟨List.mem_cons_self, by simp only []; omega⟩
    · obtain ⟨hmem, hle⟩ := ih hs
      exact ⟨List.mem_cons_of_mem n hmem, by omega⟩

/-- The consecutive slices of a byte string make up a slice. -/
theorem flatten_of_slices
    (h : List.Forall₂ (fun s part => part = (whole.drop s.1).take s.2) (spans offset sizes) parts) :
    parts.flatten = (whole.drop offset).take sizes.sum := by
  induction sizes generalizing offset parts with
  | nil => cases h; simp
  | cons n ns ih =>
    obtain _ | ⟨hpart, htail⟩ := h
    rw [List.flatten_cons, hpart, ih htail, List.sum_cons, List.take_add, List.drop_drop]

theorem length_flatten_le
    (h : List.Forall₂ (fun s part => part.length ≤ s.2) (spans offset sizes) parts) :
    parts.flatten.length ≤ sizes.sum := by
  induction sizes generalizing offset parts with
  | nil => cases h; simp
  | cons n ns ih =>
    obtain _ | ⟨hpart, htail⟩ := h
    rw [List.flatten_cons, List.length_append, List.sum_cons]
    exact add_le_add hpart (ih htail)

/-- Pieces of at most their sizes that make up a slice are its consecutive slices. -/
theorem slices_of_flatten (hlen : offset + sizes.sum ≤ whole.length)
    (hle : List.Forall₂ (fun s part => part.length ≤ s.2) (spans offset sizes) parts)
    (hflat : parts.flatten = (whole.drop offset).take sizes.sum) :
    List.Forall₂ (fun s part => part = (whole.drop s.1).take s.2) (spans offset sizes) parts := by
  induction sizes generalizing offset parts with
  | nil => cases hle; exact .nil
  | cons n ns ih =>
    obtain _ | @⟨-, part, -, parts, hpart, htail⟩ := hle
    have hrest := length_flatten_le htail
    rw [List.flatten_cons, List.sum_cons] at hflat
    rw [List.sum_cons] at hlen
    -- the lengths add up only if the first piece has its full size
    have hn : part.length = n := by
      have := congrArg List.length hflat
      rw [List.length_append, List.length_take, List.length_drop, min_eq_left (by omega)] at this
      simp only [] at hpart
      omega
    rw [List.take_add, List.drop_drop] at hflat
    obtain ⟨hfirst, hflat⟩ := List.append_inj hflat
      (by rw [List.length_take, List.length_drop, min_eq_left (by omega), hn])
    exact .cons hfirst (ih (by omega) htail hflat)

theorem forall₂_slices_iff : List.Forall₂ (fun s part => part = (whole.drop s.1).take s.2)
    (spans offset sizes) parts ↔
      parts = (spans offset sizes).map fun s => (whole.drop s.1).take s.2 := by
  have hmap := List.forall₂_map_left_iff (R := (· = ·)) (l := spans offset sizes) (u := parts)
    (f := fun s : ℕ × ℕ => (whole.drop s.1).take s.2)
  rw [List.forall₂_eq_eq_eq] at hmap
  simp only [eq_comm (a := parts), hmap, eq_comm]

/-- Answers of at most the size asked for make up a byte string exactly when each of them is its
slice. -/
theorem pieces_iff {R : ℕ × ℕ → List Byte → Prop} (hsum : sizes.sum = whole.length)
    (hle : ∀ s ∈ spans 0 sizes, ∀ part, R s part → part.length ≤ s.2) :
    (∃ parts, List.Forall₂ R (spans 0 sizes) parts ∧ parts.flatten = whole) ↔
      ∀ s ∈ spans 0 sizes, R s ((whole.drop s.1).take s.2) := by
  have hwhole : (whole.drop 0).take sizes.sum = whole := by simp [hsum]
  constructor
  · rintro ⟨parts, hparts, hflat⟩
    have hshort := ((List.forall₂_and_left _ _).mpr ⟨hle, hparts⟩).imp fun s part h => h.1 part h.2
    have hslices := slices_of_flatten (by omega) hshort (hflat.trans hwhole.symm)
    rw [forall₂_slices_iff.mp hslices, List.forall₂_map_right_iff, List.forall₂_same] at hparts
    exact hparts
  · intro h
    refine ⟨_, ?_, (flatten_of_slices (forall₂_slices_iff.mpr rfl)).trans hwhole⟩
    rw [List.forall₂_map_right_iff, List.forall₂_same]
    exact h

end Pieces

section Agreement

variable {p : Profile} {features : KernelFeatures} {fs : FatFs} {entry : FileEntry}
variable {whole : List Byte}

/-- The reads inside a file that agree with the whole file are the ones `Served` describes, and
consecutive reads make up the file exactly when each of them is one of these. -/
theorem reads_slice_iff_served (hwhole : Reads p features fs entry entry.fileSize.toNat 0 whole)
    (hlen : whole.length = entry.fileSize.toNat) :
    ∃ blocks, Chain p features fs entry.cluster blocks ∧
      (∀ offset count, offset < entry.fileSize.toNat → offset + count ≤ entry.fileSize.toNat →
        (Reads p features fs entry count offset ((whole.drop offset).take count) ↔
          Served fs.clusterSize blocks.flatten offset count)) ∧
      ∀ sizes : List ℕ, (∀ n ∈ sizes, 0 < n) → sizes.sum = entry.fileSize.toNat →
        ((∃ parts, List.Forall₂ (fun s part => Reads p features fs entry s.2 s.1 part)
            (spans 0 sizes) parts ∧ parts.flatten = whole) ↔
          ∀ s ∈ spans 0 sizes, Served fs.clusterSize blocks.flatten s.1 s.2) := by
  obtain ⟨hsize, blocks, hchain, rfl⟩ := exists_chain_of_reads hwhole
  have hholds : entry.fileSize.toNat ≤ blocks.flatten.length := by
    rw [List.length_take] at hlen
    omega
  have hpos := hchain.clusterSize_pos (by omega)
  have hslice (offset count : ℕ) (hsum : offset + count ≤ entry.fileSize.toNat) :
      ((blocks.flatten.take entry.fileSize.toNat).drop offset).take count =
        (blocks.flatten.drop offset).take count := by
    rw [List.drop_take, List.take_take, min_eq_left (by omega)]
  have hreads (offset count : ℕ) (hoff : offset < entry.fileSize.toNat)
      (hsum : offset + count ≤ entry.fileSize.toNat) :
      Reads p features fs entry count offset
          (((blocks.flatten.take entry.fileSize.toNat).drop offset).take count) ↔
        Served fs.clusterSize blocks.flatten offset count := by
    rw [hslice offset count hsum, reads_iff hchain hholds hoff hsum, served_iff hpos,
      eq_comm (a := (blocks.flatten.drop offset).take count)]
  refine ⟨blocks, hchain, hreads, fun sizes hpieces htotal => ?_⟩
  have hin (s : ℕ × ℕ) (hs : s ∈ spans 0 sizes) :
      s.1 < entry.fileSize.toNat ∧ s.1 + s.2 ≤ entry.fileSize.toNat := by
    obtain ⟨hmem, hle⟩ := mem_spans hs
    have := hpieces _ hmem
    omega
  have hshort (s : ℕ × ℕ) (hs : s ∈ spans 0 sizes) (part : List Byte)
      (hpart : Reads p features fs entry s.2 s.1 part) : part.length ≤ s.2 := by
    obtain ⟨-, rfl⟩ := (reads_iff hchain hholds (hin s hs).1 (hin s hs).2).mp hpart
    exact List.length_take_le _ _
  rw [pieces_iff (htotal.trans hlen.symm) hshort]
  exact forall₂_congr fun s hs => hreads s.1 s.2 (hin s hs).1 (hin s hs).2

end Agreement

/-- The bytes of the demonstration file. -/
def demoWhole : List Byte :=
  [window demoDevice.data 1024 512, window demoDevice.data 1536 512].flatten.take 1024

theorem length_demoWhole : demoWhole.length = demoEntry.fileSize.toNat := by
  simp [demoWhole, demoEntry]

theorem demo_reads_iff {count offset : ℕ} {bytes : List Byte} (hoff : offset < 1024)
    (hsum : offset + count ≤ 1024) :
    Reads .dev ⟨true⟩ demoVolume demoEntry count offset bytes ↔ Passes 512 offset count ∧
      bytes = ([window demoDevice.data 1024 512, window demoDevice.data 1536 512].flatten.drop
        (offset / 512 * 512 + offset)).take count :=
  reads_iff demo_chain (by simp [demoEntry]) hoff hsum

theorem demo_reads_whole :
    Reads .dev ⟨true⟩ demoVolume demoEntry demoEntry.fileSize.toNat 0 demoWhole :=
  (demo_reads_iff (by decide) (by decide)).mpr ⟨.inr ⟨by decide, by decide⟩, rfl⟩

/-- 600 bytes from byte 100 on, across the two clusters of the demonstration file. -/
theorem reads_across_clusters :
    Reads .dev ⟨true⟩ demoVolume demoEntry 600 100 ((demoWhole.drop 100).take 600) := by
  obtain ⟨blocks, -, hreads, -⟩ := reads_slice_iff_served demo_reads_whole length_demoWhole
  exact (hreads 100 600 (by decide) (by decide)).mpr (.inr (.inl ⟨by decide, by decide⟩))

/-- The first byte of the second cluster of the demonstration file cannot be read. -/
theorem second_cluster_not_reads :
    Reads .dev ⟨true⟩ demoVolume demoEntry demoEntry.fileSize.toNat 0 demoWhole ∧
      demoWhole.length = demoEntry.fileSize.toNat ∧ 512 < demoEntry.fileSize.toNat ∧
      512 + 1 ≤ demoEntry.fileSize.toNat ∧
      ¬ Reads .dev ⟨true⟩ demoVolume demoEntry 1 512 ((demoWhole.drop 512).take 1) := by
  refine ⟨demo_reads_whole, length_demoWhole, by decide, by decide, fun h => ?_⟩
  obtain ⟨hsum | ⟨-, hcount⟩, -⟩ := (demo_reads_iff (by decide) (by decide)).mp h <;> omega

end CappuccinOS.Fat
