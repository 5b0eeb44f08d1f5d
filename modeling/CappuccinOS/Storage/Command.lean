import CappuccinOS.Storage.Ata

/-!
# The commands of an ATA bus (`ATABus::ide_access` of `drivers/storage/ide.rs`)

`ide_access` tells a drive the first sector and the number of sectors by byte-wide register writes,
in a 28-bit or a 48-bit form that it selects on the sector alone, and then transfers the sectors in
a loop of its own.

1. `ATABus.ideAccess` lists the register writes and runs the transfer loop.
2. `Registers.decode` is the drive: every task file register holds the last two bytes written to it,
   and the command byte says how they are read.
3. The decoded address is the sector, up to 48 bits (`decode_writes`); the decoded count is the
   number of sectors taken modulo the width of the count register, where 0 stands for the width
   itself. So a command means what was asked exactly if the number of sectors is at least one and
   at most that width (`ATADrive.means_iff`).
-/

namespace CappuccinOS.Storage

inductive ATADriveType
  | parent
  | child
  deriving DecidableEq

/-- The discriminants of `ATADriveType`. -/
def ATADriveType.toByte : ATADriveType → Byte
  | parent => 0 <<< 4
  | child => 1 <<< 4

/-- The registers of `ATADriveDataRegister` that `ide_access` writes. -/
inductive ATADriveDataRegister
  | sectorCount0
  | lba0
  | lba1
  | lba2
  | deviceSelect
  | commandAndStatus
  deriving DecidableEq

inductive ATADriveDirection
  | read
  | write
  deriving DecidableEq

/-- The commands of `ATADriveCommand` that `ide_access` sends. -/
inductive ATADriveCommand
  | readPIO
  | readPIOExt
  | writePIO
  | writePIOExt
  deriving DecidableEq

def ATADriveCommand.toByte : ATADriveCommand → Byte
  | readPIO => 0x20
  | readPIOExt => 0x24
  | writePIO => 0x30
  | writePIOExt => 0x34

/-- An `outb` to a register of the bus. -/
abbrev RegisterWrite := ATADriveDataRegister × Byte

namespace ATABus

def select (drive : Byte) : RegisterWrite := (.deviceSelect, drive)

def sendCommand (command : ATADriveCommand) : RegisterWrite := (.commandAndStatus, command.toByte)

/-- `x as u8`. -/
def asU8 (x : ℕ) : Byte := BitVec.ofNat 8 x

/-- The register writes of `ide_access`. -/
def writes (drive : ATADriveType) (sector sectorCount : ℕ) (direction : ATADriveDirection) :
    List RegisterWrite :=
  let usingLba48 := sector ≥ 2 ^ 28 - 1
  if usingLba48 then
    [select (0x40#8 ||| drive.toByte),
      -- high bytes
      (.sectorCount0, asU8 (sectorCount >>> 8)),
      (.lba0, asU8 (sector >>> 24)),
      (.lba1, asU8 (sector >>> 32)),
      (.lba2, asU8 (sector >>> 40)),
      -- low bytes
      (.sectorCount0, asU8 sectorCount),
      (.lba0, asU8 sector),
      (.lba1, asU8 (sector >>> 8)),
      (.lba2, asU8 (sector >>> 16)),
      match direction with
      | .read => sendCommand ATADriveCommand.readPIOExt
      | .write => sendCommand ATADriveCommand.writePIOExt]
  else
    [select (0xE0#8 ||| drive.toByte ||| (asU8 (sector >>> 24) &&& 0x0F#8)),
      (.sectorCount0, asU8 sectorCount),
      (.lba0, asU8 sector),
      (.lba1, asU8 (sector >>> 8)),
      (.lba2, asU8 (sector >>> 16)),
      match direction with
      | .read => sendCommand ATADriveCommand.readPIO
      | .write => sendCommand ATADriveCommand.writePIO]

/-- The transfer loop of `ide_access`, with the outcome of each `wait_for_drive_ready`: the number
of 512-byte transfers. -/
def transferLoop (ready : ℕ → Bool) : ℕ → ℕ → Except Fault ℕ
  | done, 0 => .ok done
  | done, left + 1 => if ready done then transferLoop ready (done + 1) left else .error .err

/-- What `ide_access` does to the bus: its register writes, and behind the command the number of
transfers or why they stop. -/
structure Access where
  writes : List RegisterWrite
  transfers : Except Fault ℕ

/-- `ATABus::ide_access` on a buffer of the given length. -/
def ideAccess (p : Profile) (ready : ℕ → Bool) (drive : ATADriveType) (sector sectorCount : ℕ)
    (direction : ATADriveDirection) (bufferLen : ℕ) : Access where
  writes := writes drive sector sectorCount direction
  transfers := do
    let arraySize ← arith (p.fit 64 (sectorCount * sectorSize))
    arith (check (bufferLen ≥ arraySize))
    transferLoop ready 0 sectorCount

/-- `ATABus::read`, whose buffer holds the sectors asked for. -/
def read (p : Profile) (ready : ℕ → Bool) (drive : ATADriveType) (sector sectorCount : ℕ) :
    Except Fault Access := do
  let bufferLen ← arith (p.fit 64 (sectorSize * sectorCount))
  return ideAccess p ready drive sector sectorCount .read bufferLen

end ATABus

/-! ## The drive's side -/

/-- A task file register: the byte written last and the one before it. -/
structure Latch where
  previous : Byte
  current : Byte

/-- The register behind a write. -/
def Latch.push (l : Latch) (b : Byte) : Latch := ⟨l.current, b⟩

/-- The task file of a drive. -/
structure Registers where
  sectorCount0 : Latch
  lba0 : Latch
  lba1 : Latch
  lba2 : Latch
  deviceSelect : Byte

/-- What a drive is told to do. -/
structure Request where
  drive : ATADriveType
  direction : ATADriveDirection
  sector : ℕ
  sectorCount : ℕ
  deriving DecidableEq

namespace Registers

/-- Bit 4 of device select names the drive. -/
def drive (r : Registers) : ATADriveType :=
  if r.deviceSelect.getLsbD 4 then .child else .parent

/-- The sector of a 28-bit command. -/
def sector28 (r : Registers) : ℕ :=
  r.lba0.current.toNat + 2 ^ 8 * r.lba1.current.toNat + 2 ^ 16 * r.lba2.current.toNat +
    2 ^ 24 * (r.deviceSelect &&& 0x0F#8).toNat

/-- The number of sectors of a 28-bit command, where 0 stands for 256. -/
def count28 (r : Registers) : ℕ :=
  if r.sectorCount0.current.toNat = 0 then 256 else r.sectorCount0.current.toNat

/-- The sector of a 48-bit command. -/
def sector48 (r : Registers) : ℕ :=
  r.lba0.current.toNat + 2 ^ 8 * r.lba1.current.toNat + 2 ^ 16 * r.lba2.current.toNat +
    2 ^ 24 * r.lba0.previous.toNat + 2 ^ 32 * r.lba1.previous.toNat +
      2 ^ 40 * r.lba2.previous.toNat

/-- The number of sectors of a 48-bit command, where 0 stands for 65536. -/
def count48 (r : Registers) : ℕ :=
  let n := r.sectorCount0.current.toNat + 2 ^ 8 * r.sectorCount0.previous.toNat
  if n = 0 then 65536 else n

/-- The request of a command byte. Bit 6 of device select has the drive read the registers as a
sector number. -/
def request (r : Registers) (command : Byte) : Option Request :=
  if r.deviceSelect.getLsbD 6 then
    if command = 0x20 then some ⟨r.drive, .read, r.sector28, r.count28⟩
    else if command = 0x30 then some ⟨r.drive, .write, r.sector28, r.count28⟩
    else if command = 0x24 then some ⟨r.drive, .read, r.sector48, r.count48⟩
    else if command = 0x34 then some ⟨r.drive, .write, r.sector48, r.count48⟩
    else none
  else none

/-- The request that a drive reads off the register writes, up to the command. -/
def decode (r : Registers) : List RegisterWrite → Option Request
  | [] => none
  | (.sectorCount0, b) :: rest => decode { r with sectorCount0 := r.sectorCount0.push b } rest
  | (.lba0, b) :: rest => decode { r with lba0 := r.lba0.push b } rest
  | (.lba1, b) :: rest => decode { r with lba1 := r.lba1.push b } rest
  | (.lba2, b) :: rest => decode { r with lba2 := r.lba2.push b } rest
  | (.deviceSelect, b) :: rest => decode { r with deviceSelect := b } rest
  | (.commandAndStatus, b) :: _ => r.request b

end Registers

/-! ## What the writes mean -/

/-- The width of the count register that `ide_access` uses for a sector. -/
def countWidth (sector : ℕ) : ℕ := if sector ≥ 2 ^ 28 - 1 then 65536 else 256

theorem countWidth_pos (sector : ℕ) : 0 < countWidth sector := by
  unfold countWidth
  split_ifs <;> omega

theorem countWidth_le (sector : ℕ) : countWidth sector ≤ 65536 := by
  unfold countWidth
  split_ifs <;> omega

/-- The number of sectors that a drive takes from a count register of the given width. -/
def countOf (width n : ℕ) : ℕ := if n % width = 0 then width else n % width

section Decode

variable (r : Registers) (drive : ATADriveType) (sector n : ℕ) (direction : ATADriveDirection)

theorem toNat_asU8 (x : ℕ) : (ATABus.asU8 x).toNat = x % 256 := BitVec.toNat_ofNat ..

theorem select48 : (0x40#8 ||| drive.toByte).getLsbD 6 = true ∧
    (if (0x40#8 ||| drive.toByte).getLsbD 4 then ATADriveType.child else .parent) = drive := by
  cases drive <;> decide

theorem select28 (b : Byte) :
    (0xE0#8 ||| drive.toByte ||| (b &&& 0x0F#8)).getLsbD 6 = true ∧
      (if (0xE0#8 ||| drive.toByte ||| (b &&& 0x0F#8)).getLsbD 4 then ATADriveType.child
        else .parent) = drive ∧
      (0xE0#8 ||| drive.toByte ||| (b &&& 0x0F#8)) &&& 0x0F#8 = b &&& 0x0F#8 := by
  cases drive <;> revert b <;> decide

theorem toNat_nibble (b : Byte) : (b &&& 0x0F#8).toNat = b.toNat % 16 := by
  rw [BitVec.toNat_and]
  exact Nat.and_two_pow_sub_one_eq_mod _ 4

/-- The registers behind the writes of the 48-bit form. -/
def registers48 : Registers where
  sectorCount0 := ⟨ATABus.asU8 (n >>> 8), ATABus.asU8 n⟩
  lba0 := ⟨ATABus.asU8 (sector >>> 24), ATABus.asU8 sector⟩
  lba1 := ⟨ATABus.asU8 (sector >>> 32), ATABus.asU8 (sector >>> 8)⟩
  lba2 := ⟨ATABus.asU8 (sector >>> 40), ATABus.asU8 (sector >>> 16)⟩
  deviceSelect := 0x40#8 ||| drive.toByte

/-- The registers behind the writes of the 28-bit form. -/
def registers28 : Registers where
  sectorCount0 := r.sectorCount0.push (ATABus.asU8 n)
  lba0 := r.lba0.push (ATABus.asU8 sector)
  lba1 := r.lba1.push (ATABus.asU8 (sector >>> 8))
  lba2 := r.lba2.push (ATABus.asU8 (sector >>> 16))
  deviceSelect := 0xE0#8 ||| drive.toByte ||| (ATABus.asU8 (sector >>> 24) &&& 0x0F#8)

theorem sector48_registers48 : (registers48 drive sector n).sector48 = sector % 2 ^ 48 := by
  simp only [Registers.sector48, registers48, toNat_asU8, Nat.shiftRight_eq_div_pow]
  omega

theorem count48_registers48 : (registers48 drive sector n).count48 = countOf 65536 n := by
  have hn : n % 256 + 2 ^ 8 * (n / 2 ^ 8 % 256) = n % 65536 := by omega
  simp only [Registers.count48, registers48, toNat_asU8, Nat.shiftRight_eq_div_pow, hn]
  rfl

theorem sector28_registers28 : (registers28 r drive sector n).sector28 = sector % 2 ^ 28 := by
  have hnibble : (registers28 r drive sector n).deviceSelect &&& 0x0F#8 =
      ATABus.asU8 (sector >>> 24) &&& 0x0F#8 := (select28 drive _).2.2
  rw [Registers.sector28, hnibble, toNat_nibble]
  simp only [registers28, Latch.push, toNat_asU8, Nat.shiftRight_eq_div_pow]
  omega

theorem count28_registers28 : (registers28 r drive sector n).count28 = countOf 256 n := by
  simp only [Registers.count28, registers28, Latch.push, toNat_asU8]
  rfl

/-- **The drive reads the address back**, up to 48 bits, and the number of sectors modulo the width
of the count register. -/
theorem decode_writes : r.decode (ATABus.writes drive sector n direction) =
    some ⟨drive, direction, lba sector, countOf (countWidth sector) n⟩ := by
  unfold ATABus.writes lba countWidth
  dsimp only
  by_cases hlba : sector ≥ 2 ^ 28 - 1
  · rw [if_pos hlba, if_pos hlba, if_pos hlba, ← sector48_registers48 drive sector n,
      ← count48_registers48 drive sector n]
    obtain ⟨hmode, hdrive⟩ := select48 drive
    have hmode : (registers48 drive sector n).deviceSelect.getLsbD 6 = true := hmode
    have hdrive : (registers48 drive sector n).drive = drive := hdrive
    cases direction with
    | read =>
      calc _ = (registers48 drive sector n).request 0x24 := rfl
        _ = _ := by simp [Registers.request, hmode, hdrive]
    | write =>
      calc _ = (registers48 drive sector n).request 0x34 := rfl
        _ = _ := by simp [Registers.request, hmode, hdrive]
  · rw [if_neg hlba, if_neg hlba, if_neg hlba, ← sector28_registers28 r drive sector n,
      ← count28_registers28 r drive sector n]
    obtain ⟨hmode, hdrive, -⟩ := select28 drive (ATABus.asU8 (sector >>> 24))
    have hmode : (registers28 r drive sector n).deviceSelect.getLsbD 6 = true := hmode
    have hdrive : (registers28 r drive sector n).drive = drive := hdrive
    cases direction with
    | read =>
      calc _ = (registers28 r drive sector n).request 0x20 := rfl
        _ = _ := by simp [Registers.request, hmode, hdrive]
    | write =>
      calc _ = (registers28 r drive sector n).request 0x30 := rfl
        _ = _ := by simp [Registers.request, hmode, hdrive]

end Decode

theorem lba_eq_iff {sector : ℕ} : lba sector = sector ↔ sector < 2 ^ 48 := by
  constructor
  · intro h
    by_contra hge
    have hmod : lba sector = sector % 2 ^ 48 := if_pos (by omega)
    have hlt : sector % 2 ^ 48 < 2 ^ 48 := Nat.mod_lt _ (by norm_num)
    omega
  · exact lba_of_lt

theorem countOf_eq_iff {width n : ℕ} (hwidth : 0 < width) :
    countOf width n = n ↔ 1 ≤ n ∧ n ≤ width := by
  have hlt : n % width < width := Nat.mod_lt _ hwidth
  unfold countOf
  split_ifs with h
  · constructor
    · omega
    · rintro ⟨hpos, hle⟩
      by_contra hne
      rw [Nat.mod_eq_of_lt (by omega)] at h
      omega
  · constructor
    · omega
    · rintro ⟨-, hle⟩
      refine Nat.mod_eq_of_lt (lt_of_le_of_ne hle ?_)
      rintro rfl
      exact h (Nat.mod_self n)

theorem transferLoop_ready (done left : ℕ) :
    ATABus.transferLoop (fun _ => true) done left = .ok (done + left) := by
  induction left generalizing done with
  | zero => rfl
  | succ left ih =>
    rw [ATABus.transferLoop, if_pos rfl, ih]
    congr 1
    omega

namespace ATADrive

/-- `ATADrive::read`, with what it does to the bus. -/
def access (p : Profile) (d : ATADrive) (ready : ℕ → Bool) (drive : ATADriveType)
    (sector sectorCount : ℕ) : Except Fault ATABus.Access := do
  let stop ← arith (p.add sector sectorCount)
  if stop > d.sectorCount.toNat then .error .err
  else ATABus.read p ready drive sector sectorCount

/-- The guard of `ATADrive::read` lets a request pass. -/
def Accepts (p : Profile) (d : ATADrive) (sector n : ℕ) : Prop :=
  ∃ stop, p.add sector n = .ok stop ∧ stop ≤ d.sectorCount.toNat

/-- The command means what was asked: whatever the registers held before, the drive reads off the
writes a read of these sectors, and on a drive that is ready each time the loop transfers as many
sectors. -/
def Means (p : Profile) (d : ATADrive) (drive : ATADriveType) (sector n : ℕ) : Prop :=
  ∃ access, d.access p (fun _ => true) drive sector n = .ok access ∧
    (∀ r : Registers, r.decode access.writes = some ⟨drive, .read, sector, n⟩) ∧
      access.transfers = .ok n

variable {p : Profile} {d : ATADrive} {drive : ATADriveType} {sector n : ℕ}

theorem access_of_accepts (h : d.Accepts p sector n) (ready : ℕ → Bool) :
    d.access p ready drive sector n = ATABus.read p ready drive sector n := by
  obtain ⟨stop, hadd, hle⟩ := h
  rw [access, hadd, arith_ok]
  exact if_neg (by omega)

theorem writes_of_access {ready : ℕ → Bool} {a : ATABus.Access}
    (h : d.access p ready drive sector n = .ok a) :
    a.writes = ATABus.writes drive sector n .read := by
  obtain ⟨stop, -, h⟩ := bind_eq_ok.mp h
  split_ifs at h
  obtain ⟨len, -, h⟩ := bind_eq_ok.mp h
  obtain rfl := pure_eq_ok.mp h
  rfl

/-- A command that means what was asked has lost nothing of the sector and of the number. -/
theorem Means.decoded (h : d.Means p drive sector n) :
    lba sector = sector ∧ countOf (countWidth sector) n = n := by
  obtain ⟨a, haccess, hdecode, -⟩ := h
  have hrequest := hdecode ⟨⟨0, 0⟩, ⟨0, 0⟩, ⟨0, 0⟩, ⟨0, 0⟩, 0⟩
  rw [writes_of_access haccess, decode_writes] at hrequest
  injection hrequest with hrequest
  injection hrequest with _ _ hsector hn
  exact ⟨hsector, hn⟩

/-- **The ATA command** of an accepted request means what was asked exactly when the number of
sectors is one that the count register can hold and the sector number has 48 bits. -/
theorem means_iff (p : Profile) (d : ATADrive) (drive : ATADriveType) (sector n : ℕ)
    (haccepts : d.Accepts p sector n) :
    d.Means p drive sector n ↔ sector < 2 ^ 48 ∧ 1 ≤ n ∧ n ≤ countWidth sector := by
  rw [← lba_eq_iff, ← countOf_eq_iff (countWidth_pos sector)]
  constructor
  · exact Means.decoded
  · rintro ⟨hsector, hn⟩
    have hle := ((countOf_eq_iff (countWidth_pos sector)).mp hn).2
    have hfit : p.fit 64 (sectorSize * n) = .ok (sectorSize * n) :=
      p.fit_of_lt (by have := countWidth_le sector; unfold sectorSize; omega)
    refine ⟨ATABus.ideAccess p (fun _ => true) drive sector n .read (sectorSize * n), ?_, ?_, ?_⟩
    · rw [access_of_accepts haccepts, ATABus.read, hfit]
      rfl
    · intro r
      rw [ATABus.ideAccess, decode_writes, hsector, hn]
    · have hcheck : check (sectorSize * n ≥ sectorSize * n) = .ok () := if_pos le_rfl
      rw [ATABus.ideAccess, Nat.mul_comm n, hfit, arith_ok]
      simp only [bind, Except.bind, hcheck, arith_ok, transferLoop_ready, Nat.zero_add]

end ATADrive

/-- A drive of 2048 sectors. -/
def smallDrive : ATADrive := ⟨2048, fun _ => 0, fun _ => false, by simp⟩

theorem means_first : smallDrive.Accepts .dev 0 1 ∧ smallDrive.Means .dev .parent 0 1 := by
  have haccepts : smallDrive.Accepts .dev 0 1 := ⟨1, rfl, by decide⟩
  exact ⟨haccepts, (ATADrive.means_iff .dev smallDrive .parent 0 1 haccepts).mpr (by decide)⟩

/-- A request for 257 sectors: the drive is told to read one. -/
theorem means_fails :
    smallDrive.Accepts .dev 0 257 ∧ ¬ smallDrive.Means .dev .parent 0 257 := by
  refine ⟨⟨257, rfl, by decide⟩, fun h => ?_⟩
  have hcount : countOf (countWidth 0) 257 = 1 := by decide
  rw [h.decoded.2] at hcount
  omega

end CappuccinOS.Storage
