import CappuccinOS.Fat.Partial

/-!
# When a FAT read ends

The copy loop of `File::read` leaves off at the end-of-chain mark, not when the request is served: a
table whose links go on behind the last cluster that is needed keeps it reading.

1. `copiedAt` lists how many bytes have been copied at each cluster read.
2. `EndsWithin`: from a cluster on, the links come to a mark or to an unreadable cluster at the
   latest with the cluster that holds the last byte asked for.
3. `loopStops_iff`: this is when the loop ends and reads no cluster too much, and `stops_iff` for
   the whole read.
-/

namespace CappuccinOS.Fat

open Storage

section Loop

variable (p : Profile) (features : KernelFeatures) (fs : FatFs)

/-- The number of bytes copied before each cluster read of the copy loop. -/
def copiedAt (count : ℕ) : ℕ → ℕ → ℕ → ℕ → List ℕ
  | 0, _, _, _ => []
  | fuel + 1, cluster, offset, copiedBytes =>
    copiedBytes :: match copyCluster p features fs count cluster offset copiedBytes with
      | .error _ => []
      | .ok (_, copiedBytes, next) =>
        if next ≥ fs.fatType.eoc then [] else copiedAt count fuel next 0 copiedBytes

/-- A call returned `Ok` or `Err`. -/
def Returned {α : Type} (r : Except Fault α) : Prop := (∃ a, r = .ok a) ∨ r = .error .err

/-- The copy loop returns, and after its first cluster it reads one only while bytes are missing. -/
def LoopStops (count cluster offset copied : ℕ) : Prop :=
  ∃ fuel, Returned (copyLoop p features fs count fuel cluster offset copied) ∧
    ∀ n ∈ (copiedAt p features fs count fuel cluster offset copied).tail, n < count

/-- The links from a cluster on, `room` bytes of which are read, for `left` bytes: they come to an
end-of-chain mark or to a cluster that cannot be read no later than the bytes are complete. -/
inductive EndsWithin : ℕ → ℕ → ℕ → Prop
  | unreadable {cluster room left : ℕ} (hread : fs.readCluster p cluster = .error .err) :
      EndsWithin cluster room left
  | last {cluster room left next : ℕ} {block : List Byte}
      (hread : fs.readCluster p cluster = .ok block)
      (hnext : fs.getNextCluster p features cluster = .ok next) (heoc : fs.fatType.eoc ≤ next) :
      EndsWithin cluster room left
  | more {cluster room left next : ℕ} {block : List Byte}
      (hread : fs.readCluster p cluster = .ok block)
      (hnext : fs.getNextCluster p features cluster = .ok next) (heoc : next < fs.fatType.eoc)
      (hleft : room < left) (htail : EndsWithin next fs.clusterSize (left - room)) :
      EndsWithin cluster room left

end Loop

section Stops

variable {p : Profile} {features : KernelFeatures} {fs : FatFs}
variable {count cluster offset copied : ℕ} {block : List Byte}

theorem getNextCluster_ne_err : fs.getNextCluster p features cluster ≠ .error .err := by
  unfold FatFs.getNextCluster
  split_ifs
  · unfold FatFs.nextInMem
    split
    · exact nofun
    · split <;> exact nofun
  · refine bind_ne_error (arith_ne_err _) fun _ => bind_ne_error (arith_ne_err _) fun _ =>
      bind_ne_error (expect_ne_err _) fun _ => ?_
    split <;> exact bind_ne_error (slice_ne_err _ _ _) fun _ => nofun

theorem skip_ne_err (n : ℕ) : skip p features fs n cluster ≠ .error .err := by
  induction n generalizing cluster with
  | zero => exact nofun
  | succ n ih => exact bind_ne_error getNextCluster_ne_err fun _ => ih

theorem not_returned_error {α : Type} {f : Fault} (hf : f ≠ .err) :
    ¬ Returned (.error f : Except Fault α) := by
  rintro (⟨a, h⟩ | h)
  · cases h
  · exact hf (Except.error.inj h)

theorem mem_copiedAt {fuel n : ℕ}
    (h : n ∈ copiedAt p features fs count fuel cluster offset copied) :
    n = copied ∨ n ∈ (copiedAt p features fs count fuel cluster offset copied).tail := by
  cases fuel with
  | zero => cases h
  | succ fuel =>
    rw [copiedAt] at h
    exact List.mem_cons.mp h

theorem self_mem_copiedAt {fuel : ℕ}
    (h : Returned (copyLoop p features fs count fuel cluster offset copied)) :
    copied ∈ copiedAt p features fs count fuel cluster offset copied := by
  cases fuel with
  | zero => exact absurd h (not_returned_error nofun)
  | succ fuel =>
    rw [copiedAt]
    exact List.mem_cons_self

theorem copyLoop_error {f : Fault}
    (hturn : copyCluster p features fs count cluster offset copied = .error f) (fuel : ℕ) :
    copyLoop p features fs count (fuel + 1) cluster offset copied = .error f ∧
      copiedAt p features fs count (fuel + 1) cluster offset copied = [copied] := by
  rw [copyLoop, copiedAt, hturn]
  exact ⟨rfl, rfl⟩

theorem copyCluster_unreadable {f : Fault} (hread : fs.readCluster p cluster = .error f) :
    copyCluster p features fs count cluster offset copied = .error f := by
  rw [copyCluster, hread]
  rfl

theorem copyLoop_last {bytes : List Byte} {copied' next : ℕ}
    (hturn : copyCluster p features fs count cluster offset copied = .ok (bytes, copied', next))
    (heoc : fs.fatType.eoc ≤ next) (fuel : ℕ) :
    copyLoop p features fs count (fuel + 1) cluster offset copied = .ok bytes ∧
      copiedAt p features fs count (fuel + 1) cluster offset copied = [copied] := by
  rw [copyLoop, copiedAt, hturn]
  simp only [bind, Except.bind]
  rw [if_pos heoc, if_pos heoc]
  exact ⟨rfl, rfl⟩

theorem copyLoop_more {bytes : List Byte} {copied' next : ℕ}
    (hturn : copyCluster p features fs count cluster offset copied = .ok (bytes, copied', next))
    (heoc : next < fs.fatType.eoc) (fuel : ℕ) :
    (Returned (copyLoop p features fs count (fuel + 1) cluster offset copied) ↔
      Returned (copyLoop p features fs count fuel next 0 copied')) ∧
      copiedAt p features fs count (fuel + 1) cluster offset copied =
        copied :: copiedAt p features fs count fuel next 0 copied' := by
  rw [copyLoop, copiedAt, hturn]
  simp only [bind, Except.bind]
  rw [if_neg (by omega), if_neg (by omega)]
  refine ⟨?_, rfl⟩
  rcases copyLoop p features fs count fuel next 0 copied' with f | rest
  · unfold Returned
    simp
  · exact iff_of_true (.inl ⟨_, rfl⟩) (.inl ⟨_, rfl⟩)

theorem EndsWithin.loopStops {room left : ℕ} (h : EndsWithin p features fs cluster room left)
    (hroom : room = fs.clusterSize - offset) (hleft : left = count - copied)
    (hpass : Passes fs.clusterSize offset left) (hle : copied ≤ count)
    (hword : offset + count < wordSize) : LoopStops p features fs count cluster offset copied := by
  induction h generalizing offset copied with
  | unreadable hread =>
    obtain ⟨hloop, hcopied⟩ := copyLoop_error (copyCluster_unreadable hread) 0
    exact ⟨1, .inr hloop, by rw [hcopied]; exact nofun⟩
  | last hread hnext heoc =>
    subst hleft
    have hturn := @copyCluster_eq p features _ _ _ _ _ _ hread hle hpass hword
    rw [hnext] at hturn
    obtain ⟨hloop, hcopied⟩ := copyLoop_last hturn heoc 0
    exact ⟨1, .inl ⟨_, hloop⟩, by rw [hcopied]; exact nofun⟩
  | @more cluster room left next block hread hnext heoc hlt _ ih =>
    subst hleft hroom
    have hturn := @copyCluster_eq p features _ _ _ _ _ _ hread hle hpass hword
    rw [hnext, min_eq_right hlt.le] at hturn
    obtain ⟨fuel, hreturned, hcopied⟩ := @ih 0 (copied + (fs.clusterSize - offset)) rfl (by omega)
      (passes_zero _ _) (by omega) (by omega)
    obtain ⟨hiff, hat⟩ := copyLoop_more hturn heoc fuel
    refine ⟨fuel + 1, hiff.mpr hreturned, ?_⟩
    rw [hat, List.tail_cons]
    intro n hn
    rcases mem_copiedAt hn with rfl | hn
    · omega
    · exact hcopied n hn

/-- The links of a loop that ends are ones that end in time. -/
theorem endsWithin_of_loopStops (h : LoopStops p features fs count cluster offset copied)
    (hpass : Passes fs.clusterSize offset (count - copied)) (hle : copied ≤ count)
    (hword : offset + count < wordSize) :
    EndsWithin p features fs cluster (fs.clusterSize - offset) (count - copied) := by
  obtain ⟨fuel, hreturned, hcopied⟩ := h
  induction fuel generalizing cluster offset copied with
  | zero => exact absurd hreturned (not_returned_error nofun)
  | succ fuel ih =>
    cases hread : fs.readCluster p cluster with
    | error f =>
      rw [(copyLoop_error (copyCluster_unreadable hread) fuel).1] at hreturned
      by_cases hf : f = .err
      · exact .unreadable (by rw [hread, hf])
      · exact absurd hreturned (not_returned_error hf)
    | ok block =>
      have hturn := @copyCluster_eq p features _ _ _ _ _ _ hread hle hpass hword
      cases hnext : fs.getNextCluster p features cluster with
      | error f =>
        rw [hnext] at hturn
        rw [(copyLoop_error hturn fuel).1] at hreturned
        refine absurd hreturned (not_returned_error fun hf => ?_)
        rw [hf] at hnext
        exact getNextCluster_ne_err hnext
      | ok next =>
        rw [hnext] at hturn
        by_cases heoc : fs.fatType.eoc ≤ next
        · exact .last hread hnext heoc
        · obtain ⟨hiff, hat⟩ := copyLoop_more hturn (by omega) fuel
          rw [hat, List.tail_cons] at hcopied
          have hreturned := hiff.mp hreturned
          -- the next cluster is read with bytes still missing
          have hmissing := hcopied _ (self_mem_copiedAt hreturned)
          have hmin : min (count - copied) (fs.clusterSize - offset) = fs.clusterSize - offset := by
            omega
          rw [hmin] at hreturned hcopied hmissing
          have htail := ih (passes_zero _ _) hmissing.le (by omega) hreturned
            fun n hn => hcopied n (List.mem_of_mem_tail hn)
          refine .more hread hnext (by omega) (by omega) ?_
          rwa [Nat.sub_zero, ← Nat.sub_sub] at htail

/-- **The copy loop ends**, and stops when it has its bytes, exactly when the links end in time. -/
theorem loopStops_iff (hpass : Passes fs.clusterSize offset (count - copied)) (hle : copied ≤ count)
    (hword : offset + count < wordSize) :
    LoopStops p features fs count cluster offset copied ↔
      EndsWithin p features fs cluster (fs.clusterSize - offset) (count - copied) :=
  ⟨fun h => endsWithin_of_loopStops h hpass hle hword,
    fun h => h.loopStops rfl rfl hpass hle hword⟩

/-- A request that does not pass the first slice returns only if the first cluster cannot be
read. -/
theorem loopStops_iff_of_not_passes (hpass : ¬ Passes fs.clusterSize offset count)
    (hword : offset + count < wordSize) :
    LoopStops p features fs count cluster offset 0 ↔ fs.readCluster p cluster = .error .err := by
  constructor
  · rintro ⟨fuel, hreturned, -⟩
    cases fuel with
    | zero => exact absurd hreturned (not_returned_error nofun)
    | succ fuel =>
      cases hread : fs.readCluster p cluster with
      | error f =>
        rw [(copyLoop_error (copyCluster_unreadable hread) fuel).1] at hreturned
        by_contra hf
        exact not_returned_error (fun h => hf (by rw [h])) hreturned
      | ok block =>
        obtain ⟨why, hturn⟩ := copyCluster_of_not_passes hread hpass hword
        rw [(copyLoop_error hturn fuel).1] at hreturned
        exact absurd hreturned (not_returned_error nofun)
  · intro hread
    obtain ⟨hloop, hcopied⟩ := copyLoop_error (copyCluster_unreadable hread) 0
    exact ⟨1, .inr hloop, by rw [hcopied]; exact nofun⟩

end Stops

/-! ## Whole reads -/

/-- `VNode::read` of a file returns, and after the first cluster it reads one only while bytes are
missing. -/
def Stops (p : Profile) (features : KernelFeatures) (fs : FatFs) (entry : FileEntry)
    (count offset : ℕ) : Prop :=
  ∃ fuel, Returned (vnodeRead p features fs fuel (.archive entry) count offset) ∧
    ∀ cluster, skip p features fs (offset / fs.clusterSize) entry.cluster = .ok cluster →
      ∀ n ∈ (copiedAt p features fs count fuel cluster offset 0).tail, n < count

/-- The links of the table serve a request: they lead to its first cluster, and either that one
cannot be read, or the request passes the slice of the first turn and the links end in time. -/
def LinksServe (p : Profile) (features : KernelFeatures) (fs : FatFs) (entry : FileEntry)
    (count offset : ℕ) : Prop :=
  ∃ cluster, skip p features fs (offset / fs.clusterSize) entry.cluster = .ok cluster ∧
    (fs.readCluster p cluster = .error .err ∨ (Passes fs.clusterSize offset count ∧
      EndsWithin p features fs cluster (fs.clusterSize - offset) count))

/-- **A FAT read ends**, and stops when it has its bytes, exactly when the links of the table lead
to a first cluster and come to an end with the last one that is needed. -/
theorem stops_iff (p : Profile) (features : KernelFeatures) (fs : FatFs) (entry : FileEntry)
    (count offset : ℕ) (hsize : fs.clusterSize ≠ 0) (hoff : offset < entry.fileSize.toNat)
    (hsum : offset + count ≤ entry.fileSize.toNat) :
    Stops p features fs entry count offset ↔ LinksServe p features fs entry count offset := by
  have hword : offset + count < wordSize := by
    have := entry.fileSize.toNat_lt
    unfold wordSize
    omega
  have hread : ∀ fuel, vnodeRead p features fs fuel (.archive entry) count offset =
      skip p features fs (offset / fs.clusterSize) entry.cluster >>= fun cluster =>
        copyLoop p features fs count fuel cluster offset 0 := by
    intro fuel
    rw [vnodeRead_archive hoff hsum, File.read, if_neg hsize]
  unfold Stops LinksServe
  simp only [hread]
  cases hskip : skip p features fs (offset / fs.clusterSize) entry.cluster with
  | error f =>
    have hf : f ≠ .err := by
      rintro rfl
      exact skip_ne_err _ hskip
    refine iff_of_false ?_ ?_
    · rintro ⟨fuel, hreturned, -⟩
      exact not_returned_error hf hreturned
    · rintro ⟨cluster, h, -⟩
      cases h
  | ok cluster =>
    have hstops : (∃ fuel, Returned (copyLoop p features fs count fuel cluster offset 0) ∧
        ∀ c, (Except.ok cluster : Except Fault ℕ) = .ok c →
          ∀ n ∈ (copiedAt p features fs count fuel c offset 0).tail, n < count) ↔
        LoopStops p features fs count cluster offset 0 := by
      simp only [Except.ok.injEq, forall_eq', LoopStops]
    refine hstops.trans ?_
    simp only [Except.ok.injEq, exists_eq_left']
    by_cases hpass : Passes fs.clusterSize offset count
    · rw [loopStops_iff hpass (Nat.zero_le count) hword, Nat.sub_zero]
      exact ⟨fun h => .inr ⟨hpass, h⟩, fun h => h.elim .unreadable And.right⟩
    · rw [loopStops_iff_of_not_passes hpass hword]
      exact ⟨.inl, fun h => h.elim id fun h => absurd h.1 hpass⟩

/-! ## A chain in a circle -/

/-- A FAT16 volume whose cluster 2 is followed by itself. -/
def circleVolume : FatFs := { demoVolume with fat := some [0xFFF0, 0xFFFF, 2, 0xFFFF] }

/-- A file of one cluster. -/
def circleEntry : FileEntry := ⟨0, 2, 512⟩

theorem circle_readCluster {c : ℕ} (h2 : 2 ≤ c) (h3 : c ≤ 3) :
    circleVolume.readCluster .dev c = .ok (window demoDevice.data (512 * c) 512) :=
  demo_readCluster h2 h3

/-- The file of `demoVolume` ends with its second cluster. -/
theorem stops_demo : demoVolume.clusterSize ≠ 0 ∧
    Stops .dev ⟨true⟩ demoVolume demoEntry 1024 0 := by
  refine ⟨by decide, (stops_iff .dev ⟨true⟩ demoVolume demoEntry 1024 0 (by decide) (by decide)
    (by decide)).mpr ⟨2, rfl, .inr ⟨.inr ⟨by decide, by decide⟩, ?_⟩⟩⟩
  have h2 : demoVolume.getNextCluster .dev ⟨true⟩ 2 = .ok 3 := rfl
  have h3 : demoVolume.getNextCluster .dev ⟨true⟩ 3 = .ok 0xFFFF := rfl
  exact .more (demo_readCluster le_rfl (by decide)) h2 (by decide) (by decide)
    (.last (demo_readCluster (by decide) le_rfl) h3 (by decide))

theorem circle_copyLoop (fuel : ℕ) {copied : ℕ} (h : copied ≤ 512) :
    copyLoop .dev ⟨true⟩ circleVolume 512 fuel 2 0 copied = .error .fuel := by
  have hnext : circleVolume.getNextCluster .dev ⟨true⟩ 2 = .ok 2 := rfl
  induction fuel generalizing copied with
  | zero => rfl
  | succ fuel ih =>
    have hturn := copyCluster_zero (circle_readCluster le_rfl (by decide)) hnext h (by decide)
    rw [copyLoop, hturn]
    simp only [bind, Except.bind]
    rw [if_neg (by decide), ih (by omega)]

/-- All 512 bytes come from the first turn, but the loop never ends. -/
theorem circle_never_stops : circleEntry.fileSize.toNat = 512 ∧ circleVolume.clusterSize ≠ 0 ∧
    ¬ Stops .dev ⟨true⟩ circleVolume circleEntry 512 0 := by
  refine ⟨rfl, by decide, ?_⟩
  rintro ⟨fuel, hreturned, -⟩
  rw [vnodeRead_archive (by decide) (by decide)] at hreturned
  rw [File.read, if_neg (by decide), Nat.zero_div, skip] at hreturned
  simp only [bind, Except.bind] at hreturned
  have hcluster : circleEntry.cluster = 2 := rfl
  rw [hcluster, circle_copyLoop fuel (Nat.zero_le _)] at hreturned
  exact absurd hreturned (not_returned_error (Fault.noConfusion ·))

end CappuccinOS.Fat
