import CappuccinOS.Storage.Partition

/-!
# The extent of a partition

GPT names the last sector of a partition, MBR the number of its sectors. `Partition::read` compares
the end of a request, the sector behind its last one, with either: with the first sector behind an
MBR partition, but with the last sector of a GPT partition. So the two kinds differ on the requests
that end with the last sector, and on no others (`extent_iff`).
-/

namespace CappuccinOS.Storage

namespace Partition

/-- What `Partition::read` asks the block device for: a first sector and a number of sectors. -/
def request (p : Profile) (partition : Partition) (sector sectorCount : ℕ) :
    Except Fault (ℕ × ℕ) :=
  match partition with
  | gptPartition e _ => do
    let first ← arith (p.add e.startSector.toNat sector)
    let stop ← arith (p.add first sectorCount)
    if stop > e.endSector.toNat then .error .err
    else .ok (first, sectorCount)
  | mbrPartition e _ => do
    let first ← arith (p.add e.partitionStartLba.toNat sector)
    let stop ← arith (p.add first sectorCount)
    if stop > e.partitionStartLba.toNat + e.partitionSectors.toNat then .error .err
    else .ok (first, sectorCount)

theorem read_eq_request (p : Profile) (partition : Partition) (sector n : ℕ) :
    partition.read p sector n =
      partition.request p sector n >>= fun r => partition.device.read r.1 r.2 := by
  cases partition with
  | mbrPartition e d =>
    rw [read, request, bind_assoc]
    congr 1
    funext first
    rw [bind_assoc]
    congr 1
    funext stop
    split_ifs <;> rfl
  | gptPartition e d =>
    rw [read, request, bind_assoc]
    congr 1
    funext first
    rw [bind_assoc]
    congr 1
    funext stop
    split_ifs <;> rfl

/-- The request is accepted, that is passed on to the device. -/
def Accepts (partition : Partition) (p : Profile) (sector n : ℕ) : Prop :=
  ∃ r, partition.request p sector n = .ok r

/-- Both partitions accept the request or none does, they then ask for the same sectors, and the two
reads have the same outcome. -/
structure Agree (a : Partition) (p : Profile) (b : Partition) (sector n : ℕ) : Prop where
  accepts : a.Accepts p sector n ↔ b.Accepts p sector n
  sectors : ∀ r r', a.request p sector n = .ok r → b.request p sector n = .ok r' → r = r'
  reads : a.read p sector n = b.read p sector n

/-- Partitions of one device with the same request have the same reads. -/
theorem Agree.of_request_eq {p : Profile} {a b : Partition} {sector n : ℕ}
    (hdevice : a.device = b.device) (h : a.request p sector n = b.request p sector n) :
    a.Agree p b sector n where
  accepts := by unfold Accepts; rw [h]
  sectors r r' hr hr' := by
    rw [h, hr'] at hr
    exact (Except.ok.inj hr).symm
  reads := by rw [read_eq_request, read_eq_request, h, hdevice]

end Partition

/-- Both entries describe the sectors from the GPT entry's first to its last one. -/
structure SameExtent (g : GPTPartitionEntry) (m : MBRPartition) : Prop where
  start_eq : g.startSector.toNat = m.partitionStartLba.toNat
  start_le : g.startSector.toNat ≤ g.endSector.toNat
  sectors_eq : m.partitionSectors.toNat = g.endSector.toNat - g.startSector.toNat + 1

section Extent

variable {p : Profile} {d : BlockDevice} {g : GPTPartitionEntry} {m : MBRPartition} {sector n : ℕ}

/-- What both kinds of partition do with a request whose sums fit. -/
theorem bounded_request {start last : ℕ} (hfit : start + sector + n < wordSize) :
    (do
      let first ← arith (p.add start sector)
      let stop ← arith (p.add first n)
      if stop > last then .error .err else .ok (first, n)) =
      if start + sector + n ≤ last then Except.ok (start + sector, n)
      else .error Fault.err := by
  rw [Profile.add_of_lt p (by omega), arith_ok]
  simp only [bind, Except.bind]
  rw [Profile.add_of_lt p hfit, arith_ok]
  simp only [gt_iff_lt, ← not_le, ite_not]

theorem request_gpt (hfit : g.startSector.toNat + sector + n < wordSize) :
    (Partition.gptPartition g d).request p sector n =
      if g.startSector.toNat + sector + n ≤ g.endSector.toNat then
        .ok (g.startSector.toNat + sector, n)
      else .error .err :=
  bounded_request hfit

theorem request_mbr (hfit : m.partitionStartLba.toNat + sector + n < wordSize) :
    (Partition.mbrPartition m d).request p sector n =
      if m.partitionStartLba.toNat + sector + n ≤
        m.partitionStartLba.toNat + m.partitionSectors.toNat then
        .ok (m.partitionStartLba.toNat + sector, n)
      else .error .err :=
  bounded_request hfit

end Extent

/-- **GPT and MBR partitions of one extent** agree on a request exactly when it does not end with
the last sector. -/
theorem extent_iff (p : Profile) (d : BlockDevice) (g : GPTPartitionEntry) (m : MBRPartition)
    (h : SameExtent g m) (sector n : ℕ) (hfit : g.startSector.toNat + sector + n < wordSize) :
    (Partition.gptPartition g d).Agree p (.mbrPartition m d) sector n ↔
      g.startSector.toNat + sector + n ≠ g.endSector.toNat + 1 := by
  obtain ⟨hstart, hle, hsectors⟩ := h
  have hgpt := @request_gpt p d g sector n hfit
  have hmbr := @request_mbr p d m sector n (by rwa [← hstart])
  rw [← hstart, hsectors] at hmbr
  constructor
  · intro hagree hlast
    have hiff := hagree.accepts
    unfold Partition.Accepts at hiff
    rw [hgpt, hmbr, if_neg (by omega), if_pos (by omega)] at hiff
    obtain ⟨r, hr⟩ := hiff.mpr ⟨_, rfl⟩
    cases hr
  · intro hne
    refine Partition.Agree.of_request_eq (by rfl) ?_
    rw [hgpt, hmbr]
    by_cases hin : g.startSector.toNat + sector + n ≤ g.endSector.toNat
    · rw [if_pos hin, if_pos (by omega)]
    · rw [if_neg hin, if_neg (by omega)]

/-- The sectors 2048 to 4095, as GPT and as MBR have them. -/
def gptExtent : GPTPartitionEntry := ⟨2048, 4095⟩

def mbrExtent : MBRPartition := ⟨2048, 2048⟩

theorem sameExtent_demo : SameExtent gptExtent mbrExtent := ⟨rfl, by decide, by decide⟩

/-- A request for the first sector. -/
theorem extent_agree_first : SameExtent gptExtent mbrExtent ∧
    (Partition.gptPartition gptExtent ⟨fun _ => 0, fun _ _ => true⟩).Agree .dev
      (.mbrPartition mbrExtent ⟨fun _ => 0, fun _ _ => true⟩) 0 1 :=
  ⟨sameExtent_demo, (extent_iff .dev _ gptExtent mbrExtent sameExtent_demo 0 1 (by decide)).mpr
    (by decide)⟩

/-- A request for the last sector: the GPT partition rejects it. -/
theorem extent_last_differs : SameExtent gptExtent mbrExtent ∧
    ¬ (Partition.gptPartition gptExtent ⟨fun _ => 0, fun _ _ => true⟩).Agree .dev
      (.mbrPartition mbrExtent ⟨fun _ => 0, fun _ _ => true⟩) 2047 1 := by
  refine ⟨sameExtent_demo, fun h => ?_⟩
  have hgpt := @request_gpt .dev ⟨fun _ => 0, fun _ _ => true⟩ gptExtent 2047 1 (by decide)
  have hmbr := @request_mbr .dev ⟨fun _ => 0, fun _ _ => true⟩ mbrExtent 2047 1 (by decide)
  rw [if_neg (by decide)] at hgpt
  rw [if_pos (by decide)] at hmbr
  obtain ⟨r, hr⟩ := h.accepts.mpr ⟨_, hmbr⟩
  rw [hgpt] at hr
  cases hr

end CappuccinOS.Storage
