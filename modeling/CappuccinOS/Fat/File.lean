import CappuccinOS.Fat.Volume

/-!
# Reading FAT files (`drivers/fs/fat.rs`, `drivers/fs/vfs.rs`)

`File::read` skips clusters, then copies cluster after cluster until the table ends the chain; the
table alone decides when it stops, so the loop takes fuel. `Chain` is the chain of clusters the
table gives from a cluster on, with their bytes.

1. `File.read`, and `VNode::read` and `read_all` over it;
2. `copyLoop_chain`: along a chain, the loop copies what is left of the request, and
   `exists_chain`: where the loop returns, there is a chain;
3. `readAll_eq_take_chain`: a whole file is the front of its chain.
-/

namespace CappuccinOS.Fat

open Storage

/-! ## The calls -/

structure FileEntry where
  highFirstClusterNumber : UInt16
  lowFirstClusterNumber : UInt16
  fileSize : UInt32

/-- The first cluster of a file. -/
def FileEntry.cluster (e : FileEntry) : ℕ :=
  e.highFirstClusterNumber.toNat <<< 16 ||| e.lowFirstClusterNumber.toNat

inductive File
  | archive (entry : FileEntry)
  | dir (cluster : ℕ)

section Calls

variable (p : Profile) (features : KernelFeatures) (fs : FatFs)

/-- The `while` loop of `File::read`: `n` clusters further along the chain. -/
def skip : ℕ → ℕ → Except Fault ℕ
  | 0, cluster => .ok cluster
  | n + 1, cluster => do
    let cluster ← fs.getNextCluster p features cluster
    skip n cluster

def toCopy (remaining offset : ℕ) : Except Fault ℕ :=
  if remaining > fs.clusterSize then arith (p.sub fs.clusterSize offset) else .ok remaining

/-- A turn of the copy loop of `File::read`: the bytes it copies, `copied_bytes` after it, and the
next cluster. -/
def copyCluster (count cluster offset copiedBytes : ℕ) : Except Fault (List Byte × ℕ × ℕ) := do
  let clusterData ← fs.readCluster p cluster
  let remaining ← arith (p.sub count copiedBytes)
  let toCopy ← toCopy p fs remaining offset
  let stop ← arith (p.add offset toCopy)
  let bytes ← slice clusterData offset stop
  let copiedBytes ← arith (p.add copiedBytes toCopy)
  let next ← fs.getNextCluster p features cluster
  .ok (bytes, copiedBytes, next)

/-- The copy loop of `File::read`. -/
def copyLoop (count : ℕ) : ℕ → ℕ → ℕ → ℕ → Except Fault (List Byte)
  | 0, _, _, _ => .error .fuel
  | fuel + 1, cluster, offset, copiedBytes => do
    let (bytes, copiedBytes, next) ← copyCluster p features fs count cluster offset copiedBytes
    if next ≥ fs.fatType.eoc then .ok bytes
    else do
      let rest ← copyLoop count fuel next 0 copiedBytes
      .ok (bytes ++ rest)

def File.read (fuel : ℕ) (file : File) (count offset : ℕ) : Except Fault (List Byte) :=
  match file with
  | .archive entry =>
    if fs.clusterSize = 0 then .error .divideByZero
    else do
      let cluster ← skip p features fs (offset / fs.clusterSize) entry.cluster
      copyLoop p features fs count fuel cluster offset 0
  | .dir _ => .error (.panic .assertion)

def File.len : File → Except Fault ℕ
  | .archive entry => .ok entry.fileSize.toNat
  | .dir _ => .error (.panic .assertion)

def vnodeRead (fuel : ℕ) (file : File) (count offset : ℕ) : Except Fault (List Byte) := do
  let len ← file.len
  if offset ≥ len ∨ count > len then .error .err
  else do
    let stop ← arith (p.add count offset)
    if stop > len then .error .err
    else file.read p features fs fuel count offset

/-- `File::read_all` of an open file. -/
def readAll (fuel : ℕ) (file : File) (offset : ℕ) : Except Fault (List Byte) := do
  let len ← file.len
  let count ← arith (p.sub len offset)
  vnodeRead p features fs fuel file count offset

end Calls

/-! ## Chains -/

/-- The clusters the table links from `cluster` on, with their bytes. -/
inductive Chain (p : Profile) (features : KernelFeatures) (fs : FatFs) : ℕ → List (List Byte) → Prop
  | last {cluster next : ℕ} {block : List Byte} (hread : fs.readCluster p cluster = .ok block)
      (hnext : fs.getNextCluster p features cluster = .ok next) (heoc : fs.fatType.eoc ≤ next) :
      Chain p features fs cluster [block]
  | more {cluster next : ℕ} {block : List Byte} {blocks : List (List Byte)}
      (hread : fs.readCluster p cluster = .ok block)
      (hnext : fs.getNextCluster p features cluster = .ok next) (heoc : next < fs.fatType.eoc)
      (htail : Chain p features fs next blocks) : Chain p features fs cluster (block :: blocks)

section Runs

variable {p : Profile} {features : KernelFeatures} {fs : FatFs}
variable {count cluster offset copied fuel : ℕ} {block : List Byte} {blocks : List (List Byte)}

theorem Chain.length_block (h : Chain p features fs cluster blocks) :
    ∀ b ∈ blocks, b.length = fs.clusterSize := by
  induction h with
  | last hread _ _ =>
    intro b hb
    rw [List.mem_singleton.mp hb]
    exact FatFs.length_readCluster hread
  | more hread _ _ _ ih =>
    intro b hb
    obtain rfl | hb := List.mem_cons.mp hb
    · exact FatFs.length_readCluster hread
    · exact ih b hb

/-- The requests that a turn answers: those that end in the cluster it reads, and those for more
than a cluster. The offset counts from the start of that cluster. -/
def Passes (size offset count : ℕ) : Prop :=
  offset + count ≤ size ∨ (offset ≤ size ∧ size < count)

theorem passes_zero (size count : ℕ) : Passes size 0 count := by
  unfold Passes
  omega

theorem toCopy_of_passes {remaining : ℕ} (h : Passes fs.clusterSize offset remaining) :
    toCopy p fs remaining offset = .ok (min remaining (fs.clusterSize - offset)) := by
  unfold Passes at h
  unfold toCopy
  split_ifs with hlong
  · rw [Profile.sub_of_le p (by omega), arith_ok, min_eq_right (by omega)]
  · rw [min_eq_left (by omega)]

/-- A turn copies what is left of the cluster, or of the request, and then asks the table. -/
theorem copyCluster_eq (hread : fs.readCluster p cluster = .ok block) (hle : copied ≤ count)
    (hpass : Passes fs.clusterSize offset (count - copied)) (hword : offset + count < wordSize) :
    copyCluster p features fs count cluster offset copied =
      fs.getNextCluster p features cluster >>= fun next => .ok ((block.drop offset).take
        (count - copied), copied + min (count - copied) (fs.clusterSize - offset), next) := by
  have hlen := FatFs.length_readCluster hread
  have hsize := fs.clusterSize_lt
  have hoff : offset ≤ fs.clusterSize := by
    unfold Passes at hpass
    omega
  have htake : (block.drop offset).take (min (count - copied) (fs.clusterSize - offset)) =
      (block.drop offset).take (count - copied) := by
    rw [List.take_eq_take_min, List.length_drop, hlen, min_assoc, min_self,
      ← hlen, ← List.length_drop, ← List.take_eq_take_min]
  have hcopy : min (count - copied) (fs.clusterSize - offset) ≤ fs.clusterSize - offset :=
    min_le_right _ _
  have hcopy' : min (count - copied) (fs.clusterSize - offset) ≤ count - copied := min_le_left _ _
  unfold copyCluster
  simp only [hread, Profile.sub_of_le p hle, toCopy_of_passes hpass, arith_ok, bind, Except.bind]
  generalize min (count - copied) (fs.clusterSize - offset) = n at htake hcopy hcopy' ⊢
  rw [Profile.add_of_lt p (by omega), arith_ok]
  simp only [slice_of_le (Nat.le_add_right offset n) (show offset + n ≤ block.length by omega),
    Nat.add_sub_cancel_left, htake]
  rw [Profile.add_of_lt p (by omega), arith_ok]

/-- A turn from the start of a cluster copies the whole cluster, or what is left of the request. -/
theorem copyCluster_zero {next : ℕ} (hread : fs.readCluster p cluster = .ok block)
    (hnext : fs.getNextCluster p features cluster = .ok next) (hle : copied ≤ count)
    (hcount : count < wordSize) :
    copyCluster p features fs count cluster 0 copied =
      .ok (block.take (count - copied), copied + min (count - copied) fs.clusterSize, next) := by
  rw [copyCluster_eq hread hle (passes_zero _ _) (by omega), hnext]
  rfl

/-- Along a chain the loop copies what is left of the request. -/
theorem copyLoop_chain (h : Chain p features fs cluster blocks) (hfuel : blocks.length ≤ fuel)
    (hle : copied ≤ count) (hcount : count < wordSize) :
    copyLoop p features fs count fuel cluster 0 copied =
      .ok (blocks.flatten.take (count - copied)) := by
  induction h generalizing fuel copied with
  | last hread hnext heoc =>
    obtain ⟨fuel, rfl⟩ : ∃ n, fuel = n + 1 := ⟨fuel - 1, by simp at hfuel; omega⟩
    rw [copyLoop, copyCluster_zero hread hnext hle hcount]
    simp [bind, Except.bind, heoc]
  | @more cluster next block blocks hread hnext heoc htail ih =>
    obtain ⟨fuel, rfl⟩ : ∃ n, fuel = n + 1 := ⟨fuel - 1, by simp at hfuel; omega⟩
    have hlen := FatFs.length_readCluster hread
    have hrest := @ih (copied + min (count - copied) fs.clusterSize) fuel
      (by simp at hfuel; omega) (by omega)
    rw [copyLoop, copyCluster_zero hread hnext hle hcount]
    simp only [bind, Except.bind]
    rw [if_neg (by omega), hrest]
    simp only [List.flatten_cons, List.take_append, hlen]
    congr 3
    omega

theorem exists_chain {bytes : List Byte}
    (h : copyLoop p features fs count fuel cluster offset copied = .ok bytes) :
    ∃ blocks, Chain p features fs cluster blocks ∧ blocks.length ≤ fuel := by
  induction fuel generalizing cluster offset copied bytes with
  | zero => cases h
  | succ fuel ih =>
    rw [copyLoop] at h
    obtain ⟨⟨first, copied', next⟩, hturn, h⟩ := bind_eq_ok.mp h
    unfold copyCluster at hturn
    obtain ⟨block, hread, hturn⟩ := bind_eq_ok.mp hturn
    obtain ⟨_, -, hturn⟩ := bind_eq_ok.mp hturn
    obtain ⟨_, -, hturn⟩ := bind_eq_ok.mp hturn
    obtain ⟨_, -, hturn⟩ := bind_eq_ok.mp hturn
    obtain ⟨_, -, hturn⟩ := bind_eq_ok.mp hturn
    obtain ⟨_, -, hturn⟩ := bind_eq_ok.mp hturn
    obtain ⟨next', hnext, hturn⟩ := bind_eq_ok.mp hturn
    cases hturn
    by_cases heoc : fs.fatType.eoc ≤ next
    · exact ⟨[block], .last hread hnext heoc, by simp⟩
    · simp only [ge_iff_le, heoc, if_false] at h
      obtain ⟨rest, hrest, -⟩ := bind_eq_ok.mp h
      obtain ⟨blocks, hchain, hlen⟩ := ih hrest
      exact ⟨block :: blocks, .more hread hnext (by omega) hchain, by simpa using hlen⟩

theorem Chain.unique {blocks' : List (List Byte)} (h : Chain p features fs cluster blocks)
    (h' : Chain p features fs cluster blocks') : blocks = blocks' := by
  induction h generalizing blocks' with
  | last hread hnext heoc =>
    cases h' with
    | last hread' _ _ => rw [Except.ok.inj (hread.symm.trans hread')]
    | more _ hnext' heoc' _ =>
      obtain rfl := Except.ok.inj (hnext.symm.trans hnext')
      omega
  | more hread hnext heoc _ ih =>
    cases h' with
    | last _ hnext' heoc' =>
      obtain rfl := Except.ok.inj (hnext.symm.trans hnext')
      omega
    | more hread' hnext' _ htail' =>
      obtain rfl := Except.ok.inj (hnext.symm.trans hnext')
      rw [Except.ok.inj (hread.symm.trans hread'), ih htail']

theorem Chain.ne_nil (h : Chain p features fs cluster blocks) : blocks ≠ [] := by
  cases h <;> simp

theorem Chain.exists_first (h : Chain p features fs cluster blocks) :
    ∃ block others, blocks = block :: others ∧ fs.readCluster p cluster = .ok block := by
  cases h with
  | last hread _ _ => exact ⟨_, [], rfl, hread⟩
  | more hread _ _ _ => exact ⟨_, _, rfl, hread⟩

theorem Chain.length_flatten (h : Chain p features fs cluster blocks) :
    blocks.flatten.length = blocks.length * fs.clusterSize :=
  length_flatten_blocks h.length_block

/-- A chain that holds a byte has clusters of positive size. -/
theorem Chain.clusterSize_pos (h : Chain p features fs cluster blocks)
    (hpos : 0 < blocks.flatten.length) : 0 < fs.clusterSize := by
  rw [h.length_flatten] at hpos
  exact Nat.pos_of_mul_pos_left hpos

end Runs

/-! ## Whole files -/

section Whole

variable {p : Profile} {features : KernelFeatures} {fs : FatFs} {entry : FileEntry}
variable {blocks : List (List Byte)} {fuel : ℕ}

/-- What `VNode::read` passes on: the requests inside the file. -/
theorem vnodeRead_archive {count offset : ℕ} (hoff : offset < entry.fileSize.toNat)
    (hsum : offset + count ≤ entry.fileSize.toNat) :
    vnodeRead p features fs fuel (.archive entry) count offset =
      File.read p features fs fuel (.archive entry) count offset := by
  have hsize := entry.fileSize.toNat_lt
  unfold vnodeRead
  simp only [File.len, bind, Except.bind]
  rw [if_neg (by omega), Profile.add_of_lt p (by unfold wordSize; omega), arith_ok]
  simp only []
  rw [if_neg (by omega)]

/-- A request from the start of a file gives the front of its chain. -/
theorem read_eq_take_chain {count : ℕ} (hcount : 1 ≤ count) (hword : count < wordSize)
    (hchain : Chain p features fs entry.cluster blocks) (hholds : count ≤ blocks.flatten.length)
    (hfuel : blocks.length ≤ fuel) :
    File.read p features fs fuel (.archive entry) count 0 = .ok (blocks.flatten.take count) := by
  have hpos := hchain.clusterSize_pos (by omega)
  simp only [File.read, hpos.ne', if_false, Nat.zero_div, skip, bind, Except.bind]
  exact copyLoop_chain hchain hfuel (Nat.zero_le _) (by omega)

theorem readAll_eq_read (hsize : 1 ≤ entry.fileSize.toNat) :
    readAll p features fs fuel (.archive entry) 0 =
      File.read p features fs fuel (.archive entry) entry.fileSize.toNat 0 := by
  unfold readAll
  simp only [File.len, bind, Except.bind]
  rw [Profile.sub_of_le p (Nat.zero_le _), arith_ok]
  simp only [Nat.sub_zero]
  exact vnodeRead_archive (by omega) (by omega)

/-- The whole file, read from its start, is the front of its chain. -/
theorem readAll_eq_take_chain (hsize : 1 ≤ entry.fileSize.toNat)
    (hchain : Chain p features fs entry.cluster blocks)
    (hholds : entry.fileSize.toNat ≤ blocks.flatten.length) (hfuel : blocks.length ≤ fuel) :
    readAll p features fs fuel (.archive entry) 0 =
      .ok (blocks.flatten.take entry.fileSize.toNat) := by
  have hword := entry.fileSize.toNat_lt
  rw [readAll_eq_read hsize]
  exact read_eq_take_chain hsize (by unfold wordSize; omega) hchain hholds hfuel

end Whole

/-- A disk whose bytes are the numbers of their sectors. -/
def demoDevice : BlockDevice := ⟨fun i => BitVec.ofNat 8 (i / 512), fun _ _ => true⟩

/-- A FAT16 volume with the chain of clusters 2 and 3. -/
def demoVolume : FatFs :=
  ⟨.gptPartition ⟨0, 64⟩ demoDevice, some [0xFFF0, 0xFFFF, 3, 0xFFFF], ⟨512, 1, 1, 1, 0, 1⟩, .fat16⟩

/-- A file of two clusters. -/
def demoEntry : FileEntry := ⟨0, 2, 1024⟩

theorem demo_readCluster {c : ℕ} (h2 : 2 ≤ c) (h3 : c ≤ 3) :
    demoVolume.readCluster .dev c = .ok (window demoDevice.data (512 * c) 512) := by
  interval_cases c <;>
    simp [FatFs.readCluster, FatFs.clusterToSector, FatFs.firstDataSector,
      BIOSParameterBlock.rootDirSectors, demoVolume, FatFs.sectorsPerFat, Profile.fit,
      Profile.subFit, Profile.add, Partition.read, BlockDevice.read, demoDevice, wordSize,
      sectorSize, bind, Except.bind]

theorem demo_chain : Chain .dev ⟨true⟩ demoVolume demoEntry.cluster
    [window demoDevice.data 1024 512, window demoDevice.data 1536 512] := by
  have h2 : demoVolume.getNextCluster .dev ⟨true⟩ 2 = .ok 3 := rfl
  have h3 : demoVolume.getNextCluster .dev ⟨true⟩ 3 = .ok 0xFFFF := rfl
  refine .more (demo_readCluster le_rfl (by decide)) h2 (by decide) ?_
  exact .last (demo_readCluster (by decide) le_rfl) h3 (by decide)

/-- The whole file on the demonstration volume. -/
theorem readAll_demo : readAll .dev ⟨true⟩ demoVolume 2 (.archive demoEntry) 0 =
    .ok ([window demoDevice.data 1024 512, window demoDevice.data 1536 512].flatten.take 1024) :=
  readAll_eq_take_chain (by decide) demo_chain (by simp [demoEntry]) le_rfl

end CappuccinOS.Fat
