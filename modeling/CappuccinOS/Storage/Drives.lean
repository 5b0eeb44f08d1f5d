import CappuccinOS.Storage.Transfers

/-!
# Drives behind the ATA bus (`drivers/storage/ide.rs`)

What the callers of `BlockDevice` see of the bus.

1. `Disk.read`, `Disk.write`: the calls on drives that are arrays of sectors, with the guard of
   `ATADrive::read` as it is.
2. `calls_refine`: for any hardware that follows the protocol, every sequence of calls on the bus
   returns, with what the same calls on the arrays give. A request is for at least one sector and
   for no more than the count register holds.
3. `written_is_read`: so what was written is read, whatever the calls in between do elsewhere.
4. `detect_then_calls`: `ide_initialize` finds the drives that are there and that it can use, and no
   others, and leaves them ready for such calls.
5. `Slow`: hardware that follows the protocol, with drives that are busy for some reads of the
   status.
-/

namespace CappuccinOS.Storage.Pio

/-! ## The calls on arrays of sectors -/

namespace Disk

/-- The drive without its bus. -/
def drive (disk : Disk) : Storage.ATADrive where
  sectorCount := UInt32.ofNat (leNat ((disk.identifyData.drop 120).take 4))
  medium := disk.medium
  reads := disk.reads
  addressable := disk.addressable

/-- `BlockDevice::read` on the sectors of a drive. -/
def read (p : Profile) (disk : Disk) (sector n : ℕ) : Except Fault (List Byte) :=
  (disk.drive.read p sector n).map fun sectors => sectors.flatMap disk.bytes

/-- `BlockDevice::write` on the sectors of a drive. -/
def write (disk : Disk) (sector : ℕ) (buffer : List Byte) : Except Fault Unit × Disk :=
  disk.writeSectors (lba sector) (buffer.length / 512) buffer

end Disk

/-- A call of a `BlockDevice`. -/
inductive Call
  | read (drive : ATADrive) (sector sectorCount : ℕ)
  | write (drive : ATADrive) (sector : ℕ) (buffer : List Byte)

namespace Call

/-- The call on the bus. -/
def run {σ : Type} (hw : Ports σ) (p : Profile) (fuel : ℕ) : Call → Driver σ (List Byte)
  | read drive sector sectorCount => drive.read hw p fuel sector sectorCount
  | write drive sector buffer => do
    drive.write hw p fuel sector buffer
    return []

/-- The call on the arrays. -/
def answer (p : Profile) (D : ATADriveType → Option Disk) :
    Call → Except Fault (List Byte) × (ATADriveType → Option Disk)
  | read drive sector sectorCount =>
    match D drive.driveType with
    | some disk => (disk.read p sector sectorCount, D)
    | none => (.error .err, D)
  | write drive sector buffer =>
    match D drive.driveType with
    | some disk => ((disk.write sector buffer).1.map fun _ => [],
        Function.update D drive.driveType (some (disk.write sector buffer).2))
    | none => (.error .err, D)

/-- The number of sectors that a call asks for is one that the count register holds. -/
def Sized : Call → Prop
  | read _ sector sectorCount => 1 ≤ sectorCount ∧ sectorCount ≤ countWidth sector
  | write _ sector buffer => 1 ≤ buffer.length / 512 ∧ buffer.length / 512 ≤ countWidth sector

def driveOf : Call → ATADrive
  | read drive _ _ => drive
  | write drive _ _ => drive

end Call

/-- The calls of a list, with the outcome of each. -/
def runCalls {σ : Type} (hw : Ports σ) (p : Profile) (fuel : ℕ) :
    List Call → Driver σ (List (Except Fault (List Byte)))
  | [] => return []
  | call :: calls => do
    let outcome ← (call.run hw p fuel).attempt
    let outcomes ← runCalls hw p fuel calls
    return outcome :: outcomes

def answers (p : Profile) (D : ATADriveType → Option Disk) :
    List Call → List (Except Fault (List Byte)) × (ATADriveType → Option Disk)
  | [] => ([], D)
  | call :: calls =>
    ((call.answer p D).1 :: (answers p (call.answer p D).2 calls).1,
      (answers p (call.answer p D).2 calls).2)

/-- A drive that is there, as `ide_initialize` has found it. -/
def Known (D : ATADriveType → Option Disk) (drive : ATADrive) : Prop :=
  (D drive.driveType).map Disk.identifyData = some drive.identifyData

/-! ## One call -/

theorem sectorCount_eq {drive : ATADrive} {disk : Disk}
    (h : drive.identifyData = disk.identifyData) :
    drive.sectorCount = disk.drive.sectorCount.toNat := by
  have hlt : leNat ((disk.identifyData.drop 120).take 4) < 2 ^ 32 := leNat_take_lt _ 4
  rw [ATADrive.sectorCount, h, Disk.drive, UInt32.toNat_ofNat', Nat.mod_eq_of_lt hlt]

theorem fit_bytes {p : Profile} {sector n : ℕ} (hn : n ≤ countWidth sector) :
    p.fit 64 (sectorSize * n) = .ok (sectorSize * n) := by
  have hwidth := countWidth_le sector
  exact p.fit_of_lt (by unfold sectorSize; omega)

theorem overwrite_whole {n : ℕ} {bytes : List Byte} (h : bytes.length = n) :
    ATABus.overwrite (List.replicate n 0) 0 bytes = bytes := by
  rw [ATABus.overwrite, List.take_zero, List.nil_append, Nat.zero_add,
    List.drop_eq_nil_of_le (by rw [List.length_replicate, h]), List.append_nil]

section Calls

variable {σ : Type} {hw : Ports σ} {view : σ → Channel} {wait : σ → ℕ} (H : hw.Obeys view wait)
  {p : Profile} {D : ATADriveType → Option Disk} {s : σ} {disk : Disk} {drive : ATADrive}
  {sector n : ℕ}
include H

theorem ideAccess_settles {direction : ATADriveDirection} {buffer : List Byte}
    {r : Except Fault (List Byte)} {Q : Channel → Prop} (h : Between D (view s))
    (hd : D drive.driveType = some disk) (hn : 1 ≤ n ∧ n ≤ countWidth sector)
    (hlen : sectorSize * n ≤ buffer.length)
    (hloop : ∀ s, Serves D drive.driveType (view s)
        ⟨disk, .busy none (.sectors direction (lba sector) n)⟩ →
      ∃ s', Settles (fun fuel => ATABus.transfer hw fuel direction n 0 buffer) s r s' ∧
        Q (view s')) :
    ∃ s', Settles
        (fun fuel => ATABus.ideAccess hw p fuel drive.driveType sector n direction buffer) s
      r s' ∧ Q (view s') := by
  have hfit : p.fit 64 (n * sectorSize) = .ok (n * sectorSize) := by
    rw [Nat.mul_comm]
    exact fit_bytes hn.2
  have hcheck : check (buffer.length ≥ n * sectorSize) = .ok () :=
    if_pos (by rwa [Nat.mul_comm])
  obtain ⟨s₁, hawait, hlater, hbusy⟩ := ATABus.awaitBusy_settles H s
  have hrest := (h.aged hlater.toAged).allRest hbusy
  obtain ⟨s₂, houts, hserves⟩ := access_serves H hrest hd sector n direction
  rw [(countOf_eq_iff (countWidth_pos sector)).mpr hn] at hserves
  obtain ⟨s', htransfer, hq⟩ := hloop s₂ hserves
  refine ⟨s', ?_, hq⟩
  refine hawait.bind ((Settles.of_forall fun _ => houts).bind ?_)
  exact (Settles.lift (arith_eq_ok.mpr hfit)).bind ((Settles.lift (arith_eq_ok.mpr hcheck)).bind
    htransfer)

theorem read_loop (hd : D drive.driveType = some disk) (s : σ)
    (h : Serves D drive.driveType (view s) ⟨disk, .busy none (.sectors .read sector n)⟩) :
    ∃ s', Settles (fun fuel =>
        ATABus.transfer hw fuel .read n 0 (List.replicate (sectorSize * n) 0)) s
        (Except.map (fun sectors => sectors.flatMap disk.bytes)
          (if (List.range' sector n).all disk.reads then .ok (List.range' sector n)
            else .error .err)) s' ∧
      Between D (view s') := by
  have hbytes : (List.range' sector n).flatMap disk.bytes =
      window disk.medium (sectorSize * sector) (sectorSize * n) :=
        flatMap_window disk.medium sector n
  have hlen : 2 * 0 + sectorSize * n ≤ (List.replicate (sectorSize * n) (0 : Byte)).length := by
    rw [List.length_replicate]
    omega
  obtain ⟨s', d', failed, hloop, hserves, hidle⟩ := transfer_read H rfl hlen h
  have hbetween := hserves.between hidle
  rw [← hd, Function.update_eq_self] at hbetween
  refine ⟨s', ?_, hbetween⟩
  split_ifs with hreads
  · rw [if_pos hreads, Nat.mul_zero, overwrite_whole (length_window ..)] at hloop
    rw [Except.map, hbytes]
    exact hloop
  · rw [if_neg hreads] at hloop
    exact hloop

theorem read_settles (h : Between D (view s)) (hd : D drive.driveType = some disk)
    (hdata : drive.identifyData = disk.identifyData) (hn : 1 ≤ n ∧ n ≤ countWidth sector) :
    ∃ s', Settles (fun fuel => drive.read hw p fuel sector n) s (disk.read p sector n) s' ∧
      Between D (view s') := by
  unfold Disk.read Storage.ATADrive.read
  cases hstop : arith (p.add sector n) with
  | error e => exact ⟨s, (Settles.lift hstop).bind_error, h⟩
  | ok stop =>
    show ∃ s', Settles _ s (Except.map _ (if stop > disk.drive.sectorCount.toNat then
      Except.error Fault.err else disk.drive.ideAccess sector n)) s' ∧ Between D (view s')
    rw [← sectorCount_eq hdata]
    by_cases hguard : stop > drive.sectorCount
    · refine ⟨s, (Settles.lift hstop).bind (.of_forall fun fuel => ?_), h⟩
      rw [if_pos hguard, if_pos hguard]
      rfl
    · obtain ⟨s₁, hreset, h₁⟩ := ATABus.softwareReset_apply H h
      have hbuffer : (List.replicate (sectorSize * n) (0 : Byte)).length = sectorSize * n :=
        List.length_replicate
      obtain ⟨s', hread, hb⟩ := ideAccess_settles H (p := p) h₁ hd hn hbuffer.ge
        (read_loop H hd)
      refine ⟨s', (Settles.lift hstop).bind ?_, hb⟩
      simp only [if_neg hguard]
      exact (Settles.of_forall fun _ => hreset).bind
        ((Settles.lift (arith_eq_ok.mpr (fit_bytes hn.2))).bind hread)

theorem write_settles {buffer : List Byte} (h : Between D (view s))
    (hd : D drive.driveType = some disk)
    (hn : 1 ≤ buffer.length / 512 ∧ buffer.length / 512 ≤ countWidth sector) :
    ∃ s', Settles (fun fuel => drive.write hw p fuel sector buffer) s
        (disk.write sector buffer).1 s' ∧
      Between (Function.update D drive.driveType (some (disk.write sector buffer).2))
        (view s') := by
  have hlen : sectorSize * (buffer.length / 512) ≤ buffer.length := Nat.mul_div_le ..
  obtain ⟨s₁, hreset, h₁⟩ := ATABus.softwareReset_apply H h
  have hloop : ∀ s, Serves D drive.driveType (view s)
        ⟨disk, .busy none (.sectors .write (lba sector) (buffer.length / 512))⟩ →
      ∃ s', Settles (fun fuel => ATABus.transfer hw fuel .write (buffer.length / 512) 0 buffer) s
          ((disk.write sector buffer).1.map fun _ => buffer) s' ∧
        Between (Function.update D drive.driveType (some (disk.write sector buffer).2))
          (view s') := by
    intro s hserves
    have hlen' : 2 * 0 + sectorSize * (buffer.length / 512) ≤ buffer.length := by omega
    obtain ⟨s', d', failed, hloop, hserves, hidle⟩ := transfer_write H rfl hlen' hserves
    exact ⟨s', hloop, hserves.between hidle⟩
  obtain ⟨s', hwrite, hb⟩ := ideAccess_settles H (p := p) h₁ hd hn hlen hloop
  refine ⟨s', (Settles.of_forall fun _ => hreset).bind
    ((Settles.lift (arith_eq_ok.mpr (fit_bytes hn.2))).bind ?_), hb⟩
  simp only [if_neg (Nat.not_lt.mpr hlen)]
  cases hout : (disk.write sector buffer).1 with
  | ok u =>
    rw [hout] at hwrite
    exact hwrite.bind (.of_forall fun _ => rfl)
  | error e =>
    rw [hout] at hwrite
    exact hwrite.bind_error

/-- A call on the bus comes to what the call on the arrays gives. -/
theorem call_settles {call : Call} (h : Between D (view s)) (hknown : Known D call.driveOf)
    (hsized : call.Sized) :
    ∃ s', Settles (fun fuel => call.run hw p fuel) s (call.answer p D).1 s' ∧
      Between (call.answer p D).2 (view s') := by
  obtain ⟨disk, hd, hdata⟩ := Option.map_eq_some_iff.mp hknown
  cases call with
  | read drive sector n =>
    have hd : D drive.driveType = some disk := hd
    rw [Call.answer, hd]
    exact read_settles H h hd hdata.symm hsized
  | write drive sector buffer =>
    have hd : D drive.driveType = some disk := hd
    rw [Call.answer, hd]
    obtain ⟨s', hwrite, hb⟩ := write_settles H (p := p) h hd hsized
    refine ⟨s', ?_, hb⟩
    show Settles _ s ((disk.write sector buffer).1.map fun _ => []) s'
    cases hout : (disk.write sector buffer).1 with
    | ok u =>
      rw [hout] at hwrite
      exact hwrite.bind (.of_forall fun _ => rfl)
    | error e =>
      rw [hout] at hwrite
      exact hwrite.bind_error

end Calls

section Frame

variable {p : Profile} {D : ATADriveType → Option Disk} {drive : ATADrive}

theorem writeSectors_frame (disk : Disk) (sector left : ℕ) (buffer : List Byte) :
    (disk.writeSectors sector left buffer).2.reads = disk.reads ∧
      (disk.writeSectors sector left buffer).2.identifyData = disk.identifyData ∧
      ∀ a, a < sectorSize * sector ∨ sectorSize * (sector + left) ≤ a →
        (disk.writeSectors sector left buffer).2.medium a = disk.medium a := by
  induction left generalizing disk sector buffer with
  | zero => exact ⟨rfl, rfl, fun _ _ => rfl⟩
  | succ left ih =>
    rw [Disk.writeSectors]
    cases disk.writes sector with
    | stored =>
      obtain ⟨hreads, hdata, hmedium⟩ :=
        ih (disk.store sector (buffer.take sectorSize)) (sector + 1) (buffer.drop sectorSize)
      refine ⟨hreads, hdata, fun a ha => ?_⟩
      dsimp only
      rw [hmedium a (by unfold sectorSize at *; omega)]
      exact if_neg (by unfold sectorSize at *; omega)
    | refused | lost => exact ⟨rfl, rfl, fun _ _ => rfl⟩

theorem Known.answer {call : Call} (h : Known D drive) : Known (call.answer p D).2 drive := by
  cases call with
  | read drive' sector n =>
    rw [Call.answer]
    cases D drive'.driveType <;> exact h
  | write drive' sector buffer =>
    rw [Call.answer]
    cases hd : D drive'.driveType with
    | none => exact h
    | some disk =>
      show (Function.update D drive'.driveType _ drive.driveType).map _ = _
      by_cases ht : drive.driveType = drive'.driveType
      · rw [Known, ht, hd] at h
        rw [ht, Function.update_self, ← h]
        exact congrArg some (writeSectors_frame ..).2.1
      · rwa [Function.update_of_ne ht]

end Frame

/-! ## Runs -/

/-- **The bus is not seen.** For any hardware that follows the protocol, every sequence of calls
returns, call by call with what the same calls on arrays of sectors give, and leaves drives with the
contents of these arrays: sectors that were stored are read back, other sectors and the other drive
keep theirs, and a sector that cannot be read or written gives an error, unless it is the last one
of a write and gets lost on the way. -/
theorem calls_refine {σ : Type} {hw : Ports σ} {view : σ → Channel} {wait : σ → ℕ}
    (H : hw.Obeys view wait) (p : Profile) {D : ATADriveType → Option Disk} {s : σ}
    {calls : List Call} (h : Between D (view s))
    (hcalls : ∀ call ∈ calls, Known D call.driveOf ∧ call.Sized) :
    ∃ s', Settles (fun fuel => runCalls hw p fuel calls) s (.ok (answers p D calls).1) s' ∧
      Between (answers p D calls).2 (view s') := by
  induction calls generalizing D s with
  | nil => exact ⟨s, .of_forall fun _ => rfl, h⟩
  | cons call calls ih =>
    obtain ⟨hknown, hsized⟩ := hcalls call List.mem_cons_self
    obtain ⟨s₁, hcall, h₁⟩ := call_settles H (p := p) h hknown hsized
    obtain ⟨s', hrest, hb⟩ := ih h₁ fun call' hmem =>
      have h' := hcalls call' (List.mem_cons_of_mem _ hmem)
      ⟨h'.1.answer, h'.2⟩
    exact ⟨s', hcall.attempt.bind (hrest.bind (.of_forall fun _ => rfl)), hb⟩

theorem window_store (disk : Disk) (sector : ℕ) {bytes : List Byte}
    (h : bytes.length = sectorSize) :
    window (disk.store sector bytes).medium (sectorSize * sector) sectorSize = bytes := by
  refine List.ext_getElem (by rw [length_window, h]) fun i hi hi' => ?_
  have hin : sectorSize * sector ≤ sectorSize * sector + i ∧
      sectorSize * sector + i < sectorSize * (sector + 1) := by
    rw [length_window] at hi
    rw [Nat.mul_succ]
    omega
  have hget : (window (disk.store sector bytes).medium (sectorSize * sector) sectorSize)[i] =
      (disk.store sector bytes).medium (sectorSize * sector + i) := by
    simp [window]
  rw [hget]
  show (if _ then bytes.getD (sectorSize * sector + i - sectorSize * sector) 0 else _) = _
  rw [if_pos hin, Nat.add_sub_cancel_left, List.getD_eq_getElem _ _ hi']

theorem writeSectors_ok {disk : Disk} {sector left : ℕ} {buffer : List Byte}
    (h : ∀ i < left, disk.writes (sector + i) = .stored)
    (hlen : buffer.length = sectorSize * left) :
    (disk.writeSectors sector left buffer).1 = .ok () ∧
      window (disk.writeSectors sector left buffer).2.medium (sectorSize * sector)
        (sectorSize * left) = buffer := by
  induction left generalizing disk sector buffer with
  | zero => exact ⟨rfl, (List.eq_nil_of_length_eq_zero hlen).symm⟩
  | succ left ih =>
    have hfirst : disk.writes sector = .stored := h 0 (Nat.succ_pos left)
    have hrest : ∀ i < left,
        (disk.store sector (buffer.take sectorSize)).writes (sector + 1 + i) = .stored := by
      intro i hi
      rw [Nat.add_assoc, Nat.add_comm 1 i]
      exact h (i + 1) (Nat.succ_lt_succ hi)
    rw [Nat.mul_succ] at hlen
    obtain ⟨hok, hwindow⟩ := ih hrest
      (show (buffer.drop sectorSize).length = _ by rw [List.length_drop, hlen, Nat.add_sub_cancel])
    rw [Disk.writeSectors, hfirst]
    dsimp only
    obtain ⟨-, -, hmedium⟩ := writeSectors_frame (disk.store sector (buffer.take sectorSize))
      (sector + 1) left (buffer.drop sectorSize)
    generalize ((disk.store sector (buffer.take sectorSize)).writeSectors (sector + 1) left
      (buffer.drop sectorSize)) = w at hok hwindow hmedium
    -- the first sector is not written again
    have hhead : window w.2.medium (sectorSize * sector) sectorSize = buffer.take sectorSize := by
      rw [← window_store disk sector (show (buffer.take sectorSize).length = sectorSize by
        rw [List.length_take, hlen]; omega)]
      refine List.map_congr_left fun a ha => hmedium a (.inl ?_)
      rw [Nat.mul_succ]
      exact (List.mem_range'_1.mp ha).2
    refine ⟨hok, ?_⟩
    calc window w.2.medium (sectorSize * sector) (sectorSize * (left + 1))
        = window w.2.medium (sectorSize * sector) (sectorSize + sectorSize * left) := by
          rw [Nat.mul_succ, Nat.add_comm]
      _ = buffer.take sectorSize ++ buffer.drop sectorSize := by
          rw [← window_append, hhead, ← hwindow, Nat.mul_succ]
      _ = buffer := List.take_append_drop ..

/-- A call that writes none of `n` sectors of a drive. -/
def Call.Apart (drive : ATADrive) (sector n : ℕ) : Call → Prop
  | read _ _ _ => True
  | write drive' sector' buffer => drive'.driveType ≠ drive.driveType ∨
      lba sector' + buffer.length / 512 ≤ sector ∨ sector + n ≤ lba sector'

/-- What a drive shows of some sectors, and that it is the same drive. -/
def Agree (sector n : ℕ) (disk disk' : Disk) : Prop :=
  disk'.reads = disk.reads ∧ disk'.identifyData = disk.identifyData ∧
    window disk'.medium (sectorSize * sector) (sectorSize * n) =
      window disk.medium (sectorSize * sector) (sectorSize * n)

section Apart

variable {p : Profile} {D : ATADriveType → Option Disk} {disk : Disk} {drive : ATADrive}
  {sector n : ℕ}

theorem Call.Apart.answer {call : Call} (h : call.Apart drive sector n)
    (hd : D drive.driveType = some disk) :
    ∃ disk', (call.answer p D).2 drive.driveType = some disk' ∧ Agree sector n disk disk' := by
  cases call with
  | read drive' sector' n' =>
    rw [Call.answer]
    cases D drive'.driveType <;> exact ⟨disk, hd, rfl, rfl, rfl⟩
  | write drive' sector' buffer =>
    rw [Call.answer]
    cases hd' : D drive'.driveType with
    | none => exact ⟨disk, hd, rfl, rfl, rfl⟩
    | some disk' =>
      by_cases ht : drive.driveType = drive'.driveType
      · obtain rfl : disk' = disk := Option.some.inj (hd'.symm.trans (ht ▸ hd))
        refine ⟨_, by rw [ht]; exact Function.update_self .., ?_⟩
        obtain ⟨hreads, hdata, hmedium⟩ :=
          writeSectors_frame disk' (lba sector') (buffer.length / 512) buffer
        refine ⟨hreads, hdata, List.map_congr_left fun a ha => hmedium a ?_⟩
        have hapart := h.resolve_left fun hne => hne ht.symm
        have hmem := List.mem_range'_1.mp ha
        unfold sectorSize at *
        omega
      · exact ⟨disk, (Function.update_of_ne ht ..).trans hd, rfl, rfl, rfl⟩

theorem answers_agree {calls : List Call} (h : ∀ call ∈ calls, call.Apart drive sector n)
    (hd : D drive.driveType = some disk) :
    ∃ disk', (answers p D calls).2 drive.driveType = some disk' ∧ Agree sector n disk disk' := by
  induction calls generalizing D disk with
  | nil => exact ⟨disk, hd, rfl, rfl, rfl⟩
  | cons call calls ih =>
    obtain ⟨disk₁, hd₁, hreads₁, hdata₁, hmedium₁⟩ := (h call List.mem_cons_self).answer hd
    obtain ⟨disk', hd', hreads, hdata, hmedium⟩ :=
      ih (fun call' hmem => h call' (List.mem_cons_of_mem _ hmem)) hd₁
    exact ⟨disk', hd', hreads.trans hreads₁, hdata.trans hdata₁, hmedium.trans hmedium₁⟩

theorem answers_append (D : ATADriveType → Option Disk) (first second : List Call) :
    answers p D (first ++ second) =
      ((answers p D first).1 ++ (answers p (answers p D first).2 second).1,
        (answers p (answers p D first).2 second).2) := by
  induction first generalizing D with
  | nil => rfl
  | cons call first ih => rw [List.cons_append, answers, ih, answers, List.cons_append]

theorem length_answers (D : ATADriveType → Option Disk) (calls : List Call) :
    (answers p D calls).1.length = calls.length := by
  induction calls generalizing D with
  | nil => rfl
  | cons call calls ih => rw [answers, List.length_cons, ih, List.length_cons]

theorem read_ok (hdata : drive.identifyData = disk.identifyData)
    (hend : sector + n ≤ drive.sectorCount) (h : ∀ i < n, disk.reads (sector + i) = true) :
    disk.read p sector n = .ok (window disk.medium (sectorSize * sector) (sectorSize * n)) := by
  have hcount := disk.drive.sectorCount.toNat_lt
  rw [sectorCount_eq hdata] at hend
  have hadd : p.add sector n = .ok (sector + n) :=
    p.add_of_lt (by unfold wordSize; omega)
  have hlba : lba sector = sector := lba_of_lt (by omega)
  have haccess : disk.drive.ideAccess sector n = .ok (List.range' sector n) :=
    Storage.ATADrive.ideAccess_eq_ok.mpr ⟨by rwa [hlba], by rw [hlba]⟩
  have hread : disk.drive.read p sector n = .ok (List.range' sector n) := by
    rw [Storage.ATADrive.read, hadd, arith_ok]
    exact (if_neg (by omega)).trans haccess
  rw [Disk.read, hread, Except.map]
  exact congrArg Except.ok (flatMap_window disk.medium sector n)

/-- **What was written is read.** For any hardware that follows the protocol, sectors that a drive
can write and read hold what was written to them last: any calls in between that do not write them
leave it. -/
theorem written_is_read {σ : Type} {hw : Ports σ} {view : σ → Channel} {wait : σ → ℕ}
    (H : hw.Obeys view wait) (p : Profile) {s : σ} {buffer : List Byte} {calls : List Call}
    (h : Between D (view s)) (hd : D drive.driveType = some disk)
    (hdata : drive.identifyData = disk.identifyData) (hn : 1 ≤ n ∧ n ≤ countWidth sector)
    (hlen : buffer.length = sectorSize * n) (hend : sector + n ≤ drive.sectorCount)
    (hsound : ∀ i < n, disk.writes (sector + i) = .stored ∧ disk.reads (sector + i) = true)
    (hcalls : ∀ call ∈ calls, Known D call.driveOf ∧ call.Sized ∧ call.Apart drive sector n) :
    ∃ outcomes s', outcomes.length = calls.length ∧
      Settles (fun fuel => runCalls hw p fuel
          (.write drive sector buffer :: (calls ++ [.read drive sector n]))) s
        (.ok (.ok [] :: (outcomes ++ [.ok buffer]))) s' := by
  have hknown : Known D drive := Option.map_eq_some_iff.mpr ⟨disk, hd, hdata.symm⟩
  have hsectors : buffer.length / 512 = n := by rw [hlen, Nat.mul_div_cancel_left _ (by decide)]
  have hlba : lba sector = sector := by
    have hcount := disk.drive.sectorCount.toNat_lt
    rw [sectorCount_eq hdata] at hend
    exact lba_of_lt (by omega)
  -- the write
  obtain ⟨hok, hwritten⟩ := writeSectors_ok (fun i hi => (hsound i hi).1) hlen
  have hwrite : disk.write sector buffer = disk.writeSectors sector n buffer := by
    rw [Disk.write, hlba, hsectors]
  obtain ⟨hreads, hdata', -⟩ := writeSectors_frame disk sector n buffer
  have hanswer : Call.answer p D (.write drive sector buffer) = (.ok [],
      Function.update D drive.driveType (some (disk.writeSectors sector n buffer).2)) := by
    rw [Call.answer, hd]
    dsimp only
    rw [hwrite, hok]
    rfl
  -- the calls behind it
  obtain ⟨disk', hd', hreads', hdata'', hmedium⟩ := answers_agree (p := p)
    (fun call hmem => (hcalls call hmem).2.2)
    (Function.update_self drive.driveType (some (disk.writeSectors sector n buffer).2) D)
  have hread : disk'.read p sector n = .ok buffer := by
    rw [read_ok (hdata.trans (hdata'.symm.trans hdata''.symm)) hend (fun i hi => ?_), hmedium,
      hwritten]
    rw [hreads', hreads]
    exact (hsound i hi).2
  have hanswers :
      (answers p D (.write drive sector buffer :: (calls ++ [.read drive sector n]))).1 =
      .ok [] :: ((answers p (Function.update D drive.driveType
        (some (disk.writeSectors sector n buffer).2)) calls).1 ++ [.ok buffer]) := by
    rw [answers, hanswer, answers_append]
    simp only [answers, Call.answer, hd', hread]
  have hall : ∀ call ∈
      (.write drive sector buffer :: (calls ++ [.read drive sector n]) : List Call),
      Known D call.driveOf ∧ call.Sized := by
    intro call hmem
    rcases List.mem_cons.mp hmem with rfl | hmem
    · exact ⟨hknown, show 1 ≤ _ ∧ _ ≤ _ by rwa [hsectors]⟩
    · rcases List.mem_append.mp hmem with hmem | hmem
      · exact ⟨(hcalls call hmem).1, (hcalls call hmem).2.1⟩
      · rw [List.mem_singleton.mp hmem]
        exact ⟨hknown, hn⟩
  obtain ⟨s', hrun, -⟩ := calls_refine H p h hall
  rw [hanswers] at hrun
  exact ⟨_, s', length_answers _ calls, hrun⟩

/-! ## Slow drives -/

/-- A channel whose drives are busy until the status has been read `polls` times more. -/
structure Slow where
  channel : Channel
  polls : ℕ

namespace Channel

variable {c : Channel}

/-- No drive has anything to do. -/
def isIdle (c : Channel) : Bool :=
  [ATADriveType.parent, .child].all fun t =>
    match c.drives t with
    | some ⟨_, .idle _⟩ => true
    | some _ => false
    | none => true

/-- Both drives are done. -/
def settle (c : Channel) : Channel := { c with drives := fun t => (c.drives t).map Drive.settled }

/-- Busy, idle or ready for a word. -/
def status (c : Channel) : Byte :=
  match c.selected with
  | none => 0x00
  | some ⟨_, .busy ..⟩ => 0x80
  | some ⟨_, .idle failed⟩ => if failed then 0x51 else 0x50
  | some _ => 0x58

theorem isIdle_of_idle (h : c.Idle) : c.isIdle = true := by
  refine List.all_eq_true.mpr fun t _ => ?_
  cases hd : c.drives t with
  | none => rfl
  | some d =>
    obtain ⟨disk, phase⟩ := d
    obtain ⟨failed, hphase⟩ := h t _ hd
    have hphase : phase = .idle failed := hphase
    rw [hphase]

theorem later_settle (c : Channel) : c.Later c.settle where
  select := rfl
  drives _ := .inr rfl
  registers _ := rfl

theorem not_busy_settle (c : Channel) : ¬ c.settle.IsBusy := by
  rintro ⟨d, hd, hb⟩
  obtain ⟨d', -, rfl⟩ := Option.map_eq_some_iff.mp hd
  exact d'.not_busy_settled hb

theorem shows_status (c : Channel) : c.Shows c.status := by
  unfold Shows status
  cases c.selected with
  | none => rfl
  | some d =>
    obtain ⟨disk, phase⟩ := d
    cases phase with
    | idle failed => cases failed <;> simp [Drive.Shows, is, ATADriveStatus.toByte]
    | busy cached job => simp [Drive.Shows, is, ATADriveStatus.toByte]
    | sending words job | receiving sector words job =>
      simp [Drive.Shows, is, ATADriveStatus.toByte]

end Channel

namespace Slow

/-- A drive that is not idle ignores what is written to the registers. -/
def outb (w : RegisterWrite) (s : Slow) : Slow :=
  if s.channel.isIdle then
    match w with
    | (.commandAndStatus, b) => ⟨s.channel.command b, 3⟩
    | w => { s with channel.registers := put s.channel.registers w }
  else s

def inStatus (s : Slow) : Byte × Slow :=
  if s.polls = 0 then (s.channel.settle.status, ⟨s.channel.settle, 0⟩)
  else (s.channel.status, ⟨s.channel, s.polls - 1⟩)

/-- A drive that has moved its last word is busy again. -/
def inw (s : Slow) : Word × Slow :=
  match s.channel.selected with
  | some d => (d.inw.1, ⟨s.channel.next d.inw.2, 3⟩)
  | none => (0xFFFF, s)

def outw (w : Word) (s : Slow) : Slow :=
  match s.channel.selected with
  | some d => ⟨s.channel.next (d.outw w), 3⟩
  | none => s

def ports : Ports Slow where
  outb := outb
  outControl _ s := s
  inStatus := inStatus
  inAltStatus := inStatus
  inLba1 s := (s.channel.address Registers.lba1, s)
  inLba2 s := (s.channel.address Registers.lba2, s)
  inw := inw
  outw := outw

theorem readsStatus (s : Slow) : ReadsStatus channel polls inStatus s := by
  unfold inStatus
  constructor <;> split_ifs with h
  · exact s.channel.later_settle
  · exact .refl _
  · exact s.channel.settle.shows_status
  · exact s.channel.shows_status
  · exact fun hb => absurd hb s.channel.not_busy_settle
  · exact fun _ => Nat.sub_one_lt h

theorem ports_obeys : ports.Obeys channel polls where
  write s w hw hidle := by
    obtain ⟨register, b⟩ := w
    have hout : ports.outb (register, b) s =
        { s with channel.registers := put s.channel.registers (register, b) } := by
      show (if s.channel.isIdle then _ else _) = _
      rw [if_pos (Channel.isIdle_of_idle hidle)]
      cases register with
      | commandAndStatus => exact absurd rfl hw
      | sectorCount0 | lba0 | lba1 | lba2 | deviceSelect => rfl
    rw [hout]
    exact .refl _
  writeCount s b _ := by
    show s.channel.Aged (if s.channel.isIdle then _ else _ : Slow).channel
    split_ifs
    · exact ⟨rfl, fun _ => .inl rfl⟩
    · exact (Channel.Later.refl _).toAged
  command s b hidle := by
    have hout : ports.outb (.commandAndStatus, b) s = ⟨s.channel.command b, 3⟩ :=
      if_pos (Channel.isIdle_of_idle hidle)
    rw [hout]
    exact .refl _
  control s := .refl _
  status := readsStatus
  altStatus := readsStatus
  lba1 s := ⟨.refl _, rfl, le_rfl⟩
  lba2 s := ⟨.refl _, rfl, le_rfl⟩
  inw s disk w words job h := by
    show (inw s).1 = w ∧ Channel.Later _ (inw s).2.channel
    rw [inw, h]
    refine ⟨?_, .refl _⟩
    cases words <;> rfl
  outw s w disk sector words job h := by
    show Channel.Later _ (outw w s).channel
    rw [outw, h]
    exact .refl _

end Slow

/-- The data of a drive of 64 sectors that takes sector numbers. -/
def demoData : List Byte :=
  List.replicate 99 0 ++ [0x02] ++ List.replicate 20 0 ++ [64] ++ List.replicate 391 0

def demoDisk : Disk where
  medium _ := 0
  reads sector := sector < 64
  writes sector := if sector < 64 then .stored else .refused
  addressable sector h := by
    have hlt : sector < 64 := of_decide_eq_true h
    omega
  identifyData := demoData
  signature := (0, 0)

/-- It is the child; the parent is of another kind. -/
def demoDisks : ATADriveType → Option Disk
  | .parent => some { demoDisk with signature := (0x14, 0xEB) }
  | .child => some demoDisk

/-- Drives that have nothing to do. -/
def demoSlow : Slow where
  channel :=
    { registers := ⟨⟨0, 0⟩, ⟨0, 0⟩, ⟨0, 0⟩, ⟨0, 0⟩, 0⟩
      drives := fun t => (demoDisks t).map fun disk => ⟨disk, .idle false⟩ }
  polls := 0

def demoDrive : ATADrive := ⟨demoData, .child⟩

theorem demoSlow_rests : AllRest demoDisks demoSlow.channel := fun _ => ⟨false, rfl⟩

/-- A sector is written and read back, with another one read in between. -/
theorem written_is_read_demo : ∃ outcomes s', outcomes.length = 1 ∧
    Settles (fun fuel => runCalls Slow.ports .dev fuel [.write demoDrive 5 (List.replicate 512 7),
      .read demoDrive 63 1, .read demoDrive 5 1]) demoSlow
      (.ok (.ok [] :: (outcomes ++ [.ok (List.replicate 512 7)]))) s' := by
  have hend : 5 + 1 ≤ demoDrive.sectorCount := by decide +kernel
  have hsound : ∀ i < 1, demoDisk.writes (5 + i) = .stored ∧ demoDisk.reads (5 + i) = true := by
    decide
  have hcalls : ∀ call ∈ [Call.read demoDrive 63 1],
      Known demoDisks call.driveOf ∧ call.Sized ∧ call.Apart demoDrive 5 1 := by
    intro call hmem
    rw [List.mem_singleton.mp hmem]
    exact ⟨rfl, show 1 ≤ 1 ∧ 1 ≤ countWidth 63 by decide, trivial⟩
  have hplace : demoDisks demoDrive.driveType = some demoDisk := rfl
  exact written_is_read Slow.ports_obeys .dev demoSlow_rests.between hplace rfl (by decide)
    List.length_replicate hend hsound hcalls

end Apart

/-! ## Detection -/

section Detection

/-- The drive in a place, if the driver can use it. -/
def found (D : ATADriveType → Option Disk) (t : ATADriveType) : Option ATADrive :=
  (D t).bind fun disk =>
    if disk.signature = (0, 0) ∧ ATADrive.capable disk.identifyData then
      some ⟨disk.identifyData, t⟩
    else none

/-- The writes of `identify` before its command. -/
def identifyWrites (t : ATADriveType) : List RegisterWrite :=
  [Storage.ATABus.select (0xA0#8 ||| t.toByte), (.sectorCount0, 0), (.lba0, 0), (.lba1, 0),
    (.lba2, 0)]

theorem identifyWrites_apply (t : ATADriveType) (r : Registers) :
    ((identifyWrites t).foldl put r).drive = t ∧
      ((identifyWrites t).foldl put r).lba1.current = 0 ∧
        ((identifyWrites t).foldl put r).lba2.current = 0 := by
  refine ⟨?_, rfl, rfl⟩
  have hselect : (if (0xA0#8 ||| t.toByte).getLsbD 4 then ATADriveType.child else .parent) = t := by
    cases t <;> decide
  exact hselect

theorem Serves.allRest {D : ATADriveType → Option Disk} {t : ATADriveType} {c : Channel}
    {disk : Disk} {failed : Bool} (h : Serves D t c ⟨disk, .idle failed⟩) (hd : D t = some disk) :
    AllRest D c := by
  intro u
  by_cases hu : u = t
  · subst hu
    refine ⟨failed, ?_⟩
    rw [hd, Option.map_some]
    rcases h.here with heq | heq <;> exact heq
  · exact h.others u hu

/-- A drive that has taken the identify command does not work on sectors. -/
theorem Serves.not_working {D : ATADriveType → Option Disk} {t : ATADriveType} {c : Channel}
    {d : Drive}
    (h : Serves D t c d) (hd : ¬ d.Working) : ¬ c.Working := by
  rintro ⟨u, ⟨disk, phase⟩, hu, hw⟩
  by_cases ht : u = t
  · subst ht
    rcases h.here with heq | heq <;> rw [heq] at hu <;> rw [← Option.some.inj hu] at hw
    · exact hd hw
    · exact hd hw.of_settled
  · obtain ⟨failed, hrest⟩ := h.others u ht
    rw [hrest] at hu
    obtain ⟨disk', -, heq⟩ := Option.map_eq_some_iff.mp hu
    rw [← heq] at hw
    exact hw

/-- While the drive is busy, the address registers show what `identify` wrote to them. -/
theorem Serves.address_of_busy {D : ATADriveType → Option Disk} {t : ATADriveType} {c : Channel}
    {d : Drive} {register : Registers → Latch} (h : Serves D t c d) (hb : c.IsBusy)
    (hd : d.phase = .busy none .abort ∨ (register c.registers).current = 0) :
    c.address register = 0 := by
  obtain ⟨disk, phase⟩ := d
  rw [Channel.address, h.selected_of_busy hb]
  rcases hd with hphase | hzero
  · have hphase : phase = .busy none .abort := hphase
    rw [hphase]
  · split
    · rfl
    · exact hzero

theorem address_of_zero {c : Channel} {register : Registers → Latch}
    (h : (register c.registers).current = 0) : c.address register = 0 := by
  unfold Channel.address
  split
  · rfl
  · exact h

theorem address_of_not_busy {c : Channel} {register : Registers → Latch} (h : ¬ c.IsBusy) :
    c.address register = (register c.registers).current := by
  unfold Channel.address
  split
  · next disk hd => exact absurd ⟨_, hd, _, _, rfl⟩ h
  · rfl

section Identify

variable {σ : Type} {hw : Ports σ} {view : σ → Channel} {wait : σ → ℕ} (H : hw.Obeys view wait)
  {D : ATADriveType → Option Disk} {t : ATADriveType} {s : σ} {disk : Disk}
include H

theorem identify_writes (h : AllRest D (view s)) (t : ATADriveType) :
    ∃ s₁ c, ATABus.outs hw (identifyWrites t) s = (.ok (), s₁) ∧ AllRest D c ∧
      c.registers.drive = t ∧ c.registers.lba1.current = 0 ∧ c.registers.lba2.current = 0 ∧
      (c.command identifyCommand).Later
        (view (hw.outb (.commandAndStatus, identifyCommand) (hw.outControl 0x02 s₁))) := by
  have hpre : ∀ w ∈ identifyWrites t, w.1 ≠ .commandAndStatus := by
    simp [identifyWrites, Storage.ATABus.select]
  obtain ⟨s₁, houts, hall, hregisters⟩ := outs_apply H hpre h
  have hcontrol := H.control s₁
  have hsame := hcontrol.registers hall.not_working
  rw [hregisters] at hsame
  obtain ⟨hdrive, hlba1, hlba2⟩ := identifyWrites_apply t (view s).registers
  rw [← hsame] at hdrive hlba1 hlba2
  have hrest := hall.aged hcontrol.toAged
  exact ⟨s₁, _, houts, hrest, hdrive, hlba1, hlba2, H.command _ _ hrest.idle⟩

/-- The loop that watches for a drive of another kind ends, when the drive is no longer busy. It
fails only if the drive is of another kind. -/
theorem watchSignature_settles {d : Drive} (h : Serves D t (view s) d) (hd : ¬ d.Working)
    (hkind : d.phase = .busy none .abort ∨ (view s).registers.lba1.current = 0 ∧
      (view s).registers.lba2.current = 0) :
    ∃ r s', Settles (ATABus.watchSignature hw) s r s' ∧ Serves D t (view s') d ∧
      (view s').registers = (view s).registers ∧ ¬ (view s').IsBusy ∧
      (r = .ok () ∨ r = .error .err ∧ d.phase = .busy none .abort) := by
  refine Settles.loop (I := fun s₁ => Serves D t (view s₁) d ∧
    (view s₁).registers = (view s).registers) wait (fun s₁ hI => ?_) ⟨h, rfl⟩
  obtain ⟨hserves, hregisters⟩ := hI
  obtain ⟨b, s₂, hstatus, hlater, hshows, hwait⟩ := ATABus.status_apply H s₁
  have hserves₂ := hserves.aged hlater.toAged
  have hregisters₂ := (hlater.registers (hserves.not_working hd)).trans hregisters
  by_cases hb : (view s₂).IsBusy
  · have hlba1 := H.lba1 s₂
    have hserves₃ := hserves₂.aged hlba1.later.toAged
    have hregisters₃ := (hlba1.later.registers (hserves₂.not_working hd)).trans hregisters₂
    have hlba2 := H.lba2 (hw.inLba1 s₂).2
    have hserves₄ := hserves₃.aged hlba2.later.toAged
    have hregisters₄ := (hlba2.later.registers (hserves₃.not_working hd)).trans hregisters₃
    have hmid : (hw.inLba1 s₂).1 = 0 := by
      rw [hlba1.value]
      exact hserves₂.address_of_busy hb (hkind.imp_right fun h => by rw [hregisters₂]; exact h.1)
    have hturn : ∀ fuel, ATABus.watchSignature hw (fuel + 1) s₁ =
        (if (hw.inLba1 s₂).1 ≠ 0 ∨ (hw.inLba2 (hw.inLba1 s₂).2).1 ≠ 0 then .throw .err
          else ATABus.watchSignature hw fuel) (hw.inLba2 (hw.inLba1 s₂).2).2 := by
      intro fuel
      rw [ATABus.watchSignature, Action.bind_apply_ok hstatus, if_pos (hshows.isBusy_iff.mpr hb),
        Action.bind_apply_ok (Action.step_apply ..), Action.bind_apply_ok (Action.step_apply ..)]
    by_cases hhigh : (hw.inLba2 (hw.inLba1 s₂).2).1 = 0
    · refine .inl ⟨_, fun fuel => ?_, ⟨hserves₄, hregisters₄⟩,
        (hlba2.wait.trans hlba1.wait).trans_lt (hwait hb)⟩
      rw [hturn, if_neg (by rw [hmid, hhigh]; simp)]
    · -- the drive has aborted the command between the two reads
      have hkind' : d.phase = .busy none .abort := hkind.resolve_right fun h => hhigh <| by
        rw [hlba2.value]
        exact address_of_zero (by rw [hregisters₃]; exact h.2)
      have hbusy : ¬ (view (hw.inLba1 s₂).2).IsBusy := fun hb => hhigh <| by
        rw [hlba2.value]
        exact hserves₃.address_of_busy hb (.inl hkind')
      refine .inr ⟨.error .err, _, fun fuel => ?_, hserves₄, hregisters₄,
        fun hb => hbusy (hlba2.later.busy hb), .inr ⟨rfl, hkind'⟩⟩
      rw [hturn, if_pos (.inr hhigh)]
      rfl
  · refine .inr ⟨.ok (), s₂, fun fuel => ?_, hserves₂, hregisters₂, hb, .inl rfl⟩
    rw [ATABus.watchSignature, Action.bind_apply_ok hstatus, if_neg fun h =>
      hb (hshows.isBusy_iff.mp h)]
    rfl

/-- A read of the address registers of a drive that has settled. -/
theorem addresses_apply {d : Drive} (h : Serves D t (view s) d) (hd : ¬ d.Working)
    (hbusy : ¬ (view s).IsBusy) :
    ∃ s₁ s', hw.inLba1 s = ((view s).registers.lba1.current, s₁) ∧
      hw.inLba2 s₁ = ((view s).registers.lba2.current, s') ∧ Serves D t (view s') d.settled := by
  have hlba1 := H.lba1 s
  have hserves₁ := (h.settle hbusy).aged hlba1.later.toAged
  have hlba2 := H.lba2 (hw.inLba1 s).2
  have hbusy₁ := fun hb => hbusy (hlba1.later.busy hb)
  have hvalue := hlba2.value
  rw [address_of_not_busy hbusy₁, hlba1.later.registers (h.not_working hd)] at hvalue
  exact ⟨_, _, Prod.ext (hlba1.value.trans (address_of_not_busy hbusy)) rfl, Prod.ext hvalue rfl,
    hserves₁.aged hlba2.later.toAged⟩

/-- Behind its command `identify` watches the drive until it is no longer busy. -/
theorem identify_watch {c : Channel} {d : Drive} (h : Serves D t c d) (hd : ¬ d.Working)
    (hkind : d.phase = .busy none .abort ∨ c.registers.lba1.current = 0 ∧
      c.registers.lba2.current = 0) (hs : c.Later (view s)) :
    ∃ b s₁ r s', ATABus.status hw s = (.ok b, s₁) ∧ b ≠ 0 ∧
      Settles (ATABus.watchSignature hw) s₁ r s' ∧ Serves D t (view s') d ∧
      (view s').registers = c.registers ∧ ¬ (view s').IsBusy ∧
      (r = .ok () ∨ r = .error .err ∧ d.phase = .busy none .abort) := by
  obtain ⟨b, s₁, hstatus, hlater, hshows, -⟩ := ATABus.status_apply H s
  have hserves := h.aged (hs.trans hlater).toAged
  have hregisters := (hs.trans hlater).registers (h.not_working hd)
  rw [← hregisters] at hkind ⊢
  obtain ⟨r, s', hwatch, hrest⟩ := watchSignature_settles H hserves hd hkind
  exact ⟨b, s₁, r, s', hstatus, hserves.status_ne_zero hshows, hwatch, hrest⟩

/-- `identify` gives the data of a drive that knows the command. -/
theorem identify_settles (h : AllRest D (view s)) (hd : D t = some disk)
    (hdata : disk.identifyData.length = sectorSize) (hsignature : disk.signature = (0, 0)) :
    ∃ s', Settles (fun fuel => ATABus.identify hw fuel t) s (.ok disk.identifyData) s' ∧
      AllRest D (view s') := by
  obtain ⟨s₁, c, houts, hall, hdrive, hlba1, hlba2, hlater⟩ := identify_writes H h t
  obtain ⟨failed, hrest⟩ := hall t
  rw [hd, Option.map_some] at hrest
  have hidle : Serves D t c ⟨disk, .idle failed⟩ := ⟨hdrive, .inl hrest, fun u _ => hall u⟩
  -- the drive takes the command
  have hcommand : c.command identifyCommand = c.next ⟨disk, .busy none .identify⟩ := by
    rw [Channel.command, hidle.selected rfl]
    dsimp only
    rw [if_pos rfl, if_pos hsignature]
  rw [hcommand] at hlater
  have hworking : ¬ (Drive.mk disk (.busy none .identify)).Working := by
    rintro ⟨_, _, _, h⟩
    cases h
  obtain ⟨b, s₂, r, s₃, hstatus, hne, hwatch, hserves, hregisters, hbusy, hr⟩ :=
    identify_watch H (hidle.next _) hworking (.inr ⟨hlba1, hlba2⟩) hlater
  obtain rfl := hr.resolve_right fun h => by cases h.2
  obtain ⟨s₄, s₅, hmid, hhigh, hserves₅⟩ := addresses_apply H hserves hworking hbusy
  rw [hregisters] at hmid hhigh
  -- it offers its data
  obtain ⟨s₆, hready, hserves₆⟩ := ATABus.waitForDriveReady_ok H hserves₅ trivial
  have hlen : (wordsOf disk.identifyData).length = sectorWords := by
    rw [length_wordsOf, hdata]
    rfl
  have hwords : wordsOf disk.identifyData ≠ [] := by
    rw [← List.length_pos_iff, hlen]
    decide
  obtain ⟨s', hinsw, hdone⟩ := ATABus.insw_apply H hwords hserves₆
  rw [hlen] at hinsw
  refine ⟨s', ?_, Serves.allRest hdone hd⟩
  refine (Settles.of_forall fun _ => houts).bind ((Settles.modify _ _).bind
    ((Settles.modify _ _).bind ((Settles.of_forall fun _ => hstatus).bind ?_)))
  simp only [if_neg hne]
  refine hwatch.bind ((Settles.step hmid).bind ((Settles.step hhigh).bind ?_))
  have hsame : ¬ (c.registers.lba1.current, c.registers.lba2.current) ≠ (0x00, 0x00) := by
    rw [hlba1, hlba2]
    exact not_not_intro rfl
  show Settles (fun fuel => if (c.registers.lba1.current, c.registers.lba2.current) ≠ (0x00, 0x00)
    then _ else _) _ _ _
  simp only [if_neg hsame]
  refine hready.bind ((Settles.of_forall fun _ => hinsw).bind (.of_forall fun _ => ?_))
  rw [bytesOf_wordsOf (by rw [hdata]; decide)]
  rfl

theorem identify_absent (h : AllRest D (view s)) (hd : D t = none) :
    ∃ s', Settles (fun fuel => ATABus.identify hw fuel t) s (.error .err) s' ∧
      AllRest D (view s') := by
  obtain ⟨s₁, c, houts, hall, hdrive, -, -, hlater⟩ := identify_writes H h t
  have hselected : c.selected = none := by
    obtain ⟨failed, hrest⟩ := hall t
    rw [Channel.selected, hdrive, hrest, hd, Option.map_none]
  have hcommand : c.command identifyCommand = c := by rw [Channel.command, hselected]
  rw [hcommand] at hlater
  obtain ⟨b, s₂, hstatus, hlater₂, hshows, -⟩ := ATABus.status_apply H
    (hw.outb (.commandAndStatus, identifyCommand) (hw.outControl 0x02 s₁))
  have haged := hlater.toAged.trans hlater₂.toAged
  have hrest := hall.aged haged
  have hzero : b = 0x00 := by
    have hnone : (view s₂).selected = none := by
      obtain ⟨failed, hnone⟩ := hrest t
      rw [Channel.selected, haged.drive, hdrive, hnone, hd, Option.map_none]
    rwa [Channel.Shows, hnone] at hshows
  refine ⟨s₂, ?_, hrest⟩
  refine (Settles.of_forall fun _ => houts).bind ((Settles.modify _ _).bind
    ((Settles.modify _ _).bind ((Settles.of_forall fun _ => hstatus).bind ?_)))
  simp only [if_pos hzero]
  exact .of_forall fun _ => rfl

/-- `identify` gives an error if the drive does not know the command. -/
theorem identify_foreign (h : AllRest D (view s)) (hd : D t = some disk)
    (hsignature : disk.signature ≠ (0, 0)) :
    ∃ s', Settles (fun fuel => ATABus.identify hw fuel t) s (.error .err) s' ∧
      AllRest D (view s') := by
  obtain ⟨s₁, c, houts, hall, hdrive, -, -, hlater⟩ := identify_writes H h t
  obtain ⟨failed, hrest⟩ := hall t
  rw [hd, Option.map_some] at hrest
  have hidle : Serves D t c ⟨disk, .idle failed⟩ := ⟨hdrive, .inl hrest, fun u _ => hall u⟩
  -- the drive will show its signature
  obtain ⟨c₁, hc₁, hserves₁, hlba1, hlba2⟩ : ∃ c₁, c.command identifyCommand = c₁ ∧
      Serves D t c₁ ⟨disk, .busy none .abort⟩ ∧
      c₁.registers.lba1.current = disk.signature.1 ∧
        c₁.registers.lba2.current = disk.signature.2 := by
    have hnext := hidle.next ⟨disk, .busy none .abort⟩
    refine ⟨{ c.next ⟨disk, .busy none .abort⟩ with
      registers := put (put c.registers (.lba1, disk.signature.1)) (.lba2, disk.signature.2) }, ?_,
      ⟨hnext.drive, hnext.here, hnext.others⟩, rfl, rfl⟩
    rw [Channel.command, hidle.selected rfl]
    dsimp only
    rw [if_pos rfl, if_neg hsignature]
  rw [hc₁] at hlater
  have hworking : ¬ (Drive.mk disk (.busy none .abort)).Working := by
    rintro ⟨_, _, _, h⟩
    cases h
  obtain ⟨b, s₂, r, s₃, hstatus, hne, hwatch, hserves, hregisters, hbusy, hr⟩ :=
    identify_watch H hserves₁ hworking (.inl rfl) hlater
  rcases hr with rfl | ⟨rfl, -⟩
  · obtain ⟨s₄, s₅, hmid, hhigh, hserves₅⟩ := addresses_apply H hserves hworking hbusy
    rw [hregisters, hlba1] at hmid
    rw [hregisters, hlba2] at hhigh
    refine ⟨s₅, ?_, Serves.allRest hserves₅ hd⟩
    refine (Settles.of_forall fun _ => houts).bind ((Settles.modify _ _).bind
      ((Settles.modify _ _).bind ((Settles.of_forall fun _ => hstatus).bind ?_)))
    simp only [if_neg hne]
    refine hwatch.bind ((Settles.step hmid).bind ((Settles.step hhigh).bind ?_))
    show Settles (fun fuel => if disk.signature ≠ (0x00, 0x00) then _ else _) _ _ _
    simp only [if_pos (show disk.signature ≠ (0x00, 0x00) from hsignature)]
    exact .of_forall fun _ => rfl
  · refine ⟨s₃, ?_, Serves.allRest (hserves.settle hbusy) hd⟩
    refine (Settles.of_forall fun _ => houts).bind ((Settles.modify _ _).bind
      ((Settles.modify _ _).bind ((Settles.of_forall fun _ => hstatus).bind ?_)))
    simp only [if_neg hne]
    exact hwatch.bind_error

/-- `ATADrive::new` gives a drive that is there and that it can use. -/
theorem new_settles (h : AllRest D (view s))
    (hdata : ∀ disk, D t = some disk → disk.identifyData.length = sectorSize) :
    ∃ s' r, Settles (fun fuel => ATADrive.new hw fuel t) s r s' ∧ AllRest D (view s') ∧
      r.toOption = found D t := by
  cases hdisk : D t with
  | none =>
    obtain ⟨s', hidentify, hrest⟩ := identify_absent H h hdisk
    refine ⟨s', _, hidentify.bind_error, hrest, ?_⟩
    rw [found, hdisk]
    rfl
  | some disk =>
    have hfound : found D t = if disk.signature = (0, 0) ∧ ATADrive.capable disk.identifyData then
        some ⟨disk.identifyData, t⟩ else none := by
      rw [found, hdisk]
      rfl
    by_cases hsignature : disk.signature = (0, 0)
    · obtain ⟨s', hidentify, hrest⟩ := identify_settles H h hdisk (hdata disk hdisk) hsignature
      by_cases hcapable : ATADrive.capable disk.identifyData = true
      · refine ⟨s', .ok ⟨disk.identifyData, t⟩, hidentify.bind (.of_forall fun _ => ?_), hrest, ?_⟩
        · simp only [if_pos hcapable]
          rfl
        · rw [hfound, if_pos ⟨hsignature, hcapable⟩]
          rfl
      · refine ⟨s', .error .err, hidentify.bind (.of_forall fun _ => ?_), hrest, ?_⟩
        · simp only [if_neg hcapable]
          rfl
        · rw [hfound, if_neg fun hc => hcapable hc.2]
          rfl
    · obtain ⟨s', hidentify, hrest⟩ := identify_foreign H h hdisk hsignature
      refine ⟨s', _, hidentify.bind_error, hrest, ?_⟩
      rw [hfound, if_neg fun hc => hsignature hc.1]
      rfl

end Identify

theorem known_of_mem {D : ATADriveType → Option Disk} {drive : ATADrive}
    (h : drive ∈ [ATADriveType.parent, .child].filterMap (found D)) : Known D drive := by
  obtain ⟨t, -, hfound⟩ := List.mem_filterMap.mp h
  obtain ⟨disk, hdisk, hdrive⟩ := Option.bind_eq_some_iff.mp hfound
  split_ifs at hdrive with husable
  obtain rfl := Option.some.inj hdrive
  exact Option.map_eq_some_iff.mpr ⟨disk, hdisk, rfl⟩

/-- **From detection on.** For any hardware that follows the protocol, `ide_initialize` finds the
drives that are there, that know the identify command and that take sector numbers, the parent
first, each with its own identify data, and no others. After that every sequence of calls through
them is answered as on arrays of sectors. -/
theorem detect_then_calls {σ : Type} {hw : Ports σ} {view : σ → Channel} {wait : σ → ℕ}
    (H : hw.Obeys view wait) (p : Profile) {D : ATADriveType → Option Disk} {s : σ}
    (h : AllRest D (view s))
    (hdata : ∀ t disk, D t = some disk → disk.identifyData.length = sectorSize) :
    ∃ s', Settles (detect hw) s (.ok ([ATADriveType.parent, .child].filterMap (found D))) s' ∧
      ∀ calls : List Call,
        (∀ call ∈ calls, call.driveOf ∈ [ATADriveType.parent, .child].filterMap (found D) ∧
          call.Sized) →
        ∃ s'', Settles (fun fuel => runCalls hw p fuel calls) s' (.ok (answers p D calls).1) s'' ∧
          Between (answers p D calls).2 (view s'') := by
  obtain ⟨s₁, r₁, hparent, h₁, hr₁⟩ := new_settles H h (hdata .parent)
  obtain ⟨s', r₂, hchild, hrest, hr₂⟩ := new_settles H h₁ (hdata .child)
  have hlist : [r₁, r₂].filterMap Except.toOption =
      [ATADriveType.parent, .child].filterMap (found D) := by
    simp only [List.filterMap_cons, List.filterMap_nil, hr₁, hr₂]
  rw [← hlist]
  refine ⟨s', hparent.attempt.bind (hchild.attempt.bind (.of_forall fun _ => rfl)),
    fun calls hcalls => calls_refine H p hrest.between fun call hmem => ?_⟩
  rw [hlist] at hcalls
  exact ⟨known_of_mem (hcalls call hmem).1, (hcalls call hmem).2⟩

theorem demo_found : [ATADriveType.parent, .child].filterMap (found demoDisks) = [demoDrive] := by
  decide +kernel

/-- A read at its end and one across it. -/
def demoCalls : List Call := [.read demoDrive 63 1, .read demoDrive 63 2]

theorem demo_answers :
    (answers .dev demoDisks demoCalls).1 = [.ok (List.replicate 512 0), .error .err] := by
  have h1 : Disk.read .dev demoDisk 63 1 = .ok (List.replicate 512 0) := by decide +kernel
  have h2 : Disk.read .dev demoDisk 63 2 = .error .err := by decide +kernel
  exact congrArg₂ (fun x y => [x, y]) h1 h2

theorem detect_then_calls_demo : ∃ s' s'',
    Settles (detect Slow.ports) demoSlow (.ok [demoDrive]) s' ∧
    Settles (fun fuel => runCalls Slow.ports .dev fuel demoCalls) s'
      (.ok [.ok (List.replicate 512 0), .error .err]) s'' := by
  have hdata : ∀ t disk, demoDisks t = some disk → disk.identifyData.length = sectorSize := by
    intro t disk h
    have hlen : demoData.length = sectorSize := by decide +kernel
    cases t <;> obtain rfl := Option.some.inj h <;> exact hlen
  obtain ⟨s', hdetect, hcalls⟩ := detect_then_calls Slow.ports_obeys .dev demoSlow_rests hdata
  rw [demo_found] at hdetect hcalls
  obtain ⟨s'', hrun, -⟩ := hcalls demoCalls (by
    intro call hmem
    rcases List.mem_pair.mp hmem with rfl | rfl
    · exact ⟨List.mem_singleton_self _, show 1 ≤ 1 ∧ 1 ≤ countWidth 63 by decide⟩
    · exact ⟨List.mem_singleton_self _, show 1 ≤ 2 ∧ 2 ≤ countWidth 63 by decide⟩)
  rw [demo_answers] at hrun
  exact ⟨s', s'', hdetect, hrun⟩

end Detection

end CappuccinOS.Storage.Pio
