import CappuccinOS.Lib.Fuel
import CappuccinOS.Storage.Command

/-!
# The ATA bus (`ATABus` and `ATADrive` of `drivers/storage/ide.rs`)

The driver and up to two drives share the registers of a channel. The driver sends a command,
watches the status register, and moves the data of each sector through the data port word by word.

1. `Drive` and `Channel` are the PIO protocol: a drive that takes a command is busy, then asks for
   or offers a sector, and so on until it has no more. A sector that it cannot read or does not want
   to write ends the command with an error. A sector that it was sent is on the medium when it is
   done with it, not when the last word arrives; it may also get lost on the way.
2. The hardware is not in the kernel: `Ports` is whatever is behind the ports, and `Ports.Obeys`
   says what the driver relies on, that it follows the protocol in its own time.
3. `ATABus` and `ATADrive` are the driver, on any hardware.
-/

namespace CappuccinOS.Storage.Pio

/-- What the data port moves at a time. -/
abbrev Word := BitVec 16

/-- The bytes of words, as they come to lie in memory. -/
def bytesOf (words : List Word) : List Byte :=
  words.flatMap fun w => [w.extractLsb' 0 8, w.extractLsb' 8 8]

/-- The words in memory. -/
def wordsOf : List Byte → List Word
  | [] => []
  | [_] => []
  | low :: high :: rest => (high ++ low) :: wordsOf rest

/-- The words of a sector. -/
abbrev sectorWords : ℕ := 256

/-! ## Drives -/

/-- What becomes of a sector that a drive is told to write: it is stored, it is refused before its
data, or its data is taken and lost. -/
inductive Writing
  | stored
  | refused
  | lost
  deriving DecidableEq

/-- A drive apart from what it is doing: its medium, the sectors it can read and write, the data of
its identify command, and what it shows in the registers `lba1` and `lba2` if it does not know that
command. -/
structure Disk where
  medium : ℕ → Byte
  reads : ℕ → Bool
  writes : ℕ → Writing
  addressable : ∀ lba, reads lba = true → lba < 2 ^ 48 - 1
  identifyData : List Byte
  signature : Byte × Byte

/-- What is left to do of a command. -/
inductive Job
  | done
  | abort
  | identify
  | sectors (direction : ATADriveDirection) (sector left : ℕ)

/-- What a drive is doing. While it is busy it may have a sector to write that it was sent; it
sends or receives the words of a sector, with a job behind it. -/
inductive Phase
  | idle (failed : Bool)
  | busy (cached : Option (ℕ × List Byte)) (job : Job)
  | sending (words : List Word) (job : Job)
  | receiving (sector : ℕ) (words : List Word) (job : Job)

structure Drive where
  disk : Disk
  phase : Phase

namespace Disk

/-- The bytes of a sector. -/
def bytes (disk : Disk) (sector : ℕ) : List Byte :=
  window disk.medium (sectorSize * sector) sectorSize

/-- A sector is written. -/
def store (disk : Disk) (sector : ℕ) (bytes : List Byte) : Disk :=
  { disk with
    medium := fun a =>
      if sectorSize * sector ≤ a ∧ a < sectorSize * (sector + 1) then
        bytes.getD (a - sectorSize * sector) 0
      else disk.medium a }

/-- What a drive does when it is no longer busy. -/
def proceed (disk : Disk) : Job → Phase
  | .done => .idle false
  | .abort => .idle true
  | .identify => .sending (wordsOf disk.identifyData) .done
  | .sectors _ _ 0 => .idle false
  | .sectors .read sector (left + 1) =>
    if disk.reads sector then .sending (wordsOf (disk.bytes sector))
      (.sectors .read (sector + 1) left)
    else .idle true
  | .sectors .write sector (left + 1) =>
    if disk.writes sector = .refused then .idle true
    else .receiving sector [] (.sectors .write (sector + 1) left)

end Disk

namespace Drive

def IsBusy (d : Drive) : Prop := ∃ cached job, d.phase = .busy cached job

/-- The drive at the end of its busy period. -/
def settled (d : Drive) : Drive :=
  match d.phase with
  | .busy none job => ⟨d.disk, d.disk.proceed job⟩
  | .busy (some (sector, bytes)) job =>
    if d.disk.writes sector = .lost then ⟨d.disk, .idle true⟩
    else ⟨d.disk.store sector bytes, (d.disk.store sector bytes).proceed job⟩
  | _ => d

/-- The drive is at work on sectors. -/
def Working (d : Drive) : Prop :=
  match d.phase with
  | .idle _ => False
  | .busy _ job => ∃ direction sector left, job = .sectors direction sector left
  | .sending _ job => ∃ direction sector left, job = .sectors direction sector left
  | .receiving .. => True

/-- A drive that has sent its last sector is idle. -/
def afterSending : Job → Phase
  | .done => .idle false
  | .sectors _ _ 0 => .idle false
  | job => .busy none job

/-- A word is read from the data port. -/
def inw (d : Drive) : Word × Drive :=
  match d.phase with
  | .sending [w] job => (w, { d with phase := afterSending job })
  | .sending (w :: words) job => (w, { d with phase := .sending words job })
  | _ => (0xFFFF, d)

/-- A word is written to the data port. -/
def outw (w : Word) (d : Drive) : Drive :=
  match d.phase with
  | .receiving sector words job =>
    if words.length + 1 = sectorWords then
      { d with phase := .busy (some (sector, bytesOf (words ++ [w]))) job }
    else { d with phase := .receiving sector (words ++ [w]) job }
  | _ => d

end Drive

/-! ## The status register -/

/-- The flags of `ATADriveStatus` that the driver tests. -/
inductive ATADriveStatus
  | error
  | dataReqReady
  | writeFault
  | busy

def ATADriveStatus.toByte : ATADriveStatus → Byte
  | error => 0x01
  | dataReqReady => 0x08
  | writeFault => 0x20
  | busy => 0x80

/-- `u8 == ATADriveStatus`. -/
def is (status : Byte) (flag : ATADriveStatus) : Bool := status &&& flag.toByte != 0

/-- What the status register says of a drive: it is busy, and shows no error then; or it is idle,
and shows whether it has failed; or it has a word to move. -/
def Drive.Shows (d : Drive) (status : Byte) : Prop :=
  match d.phase with
  | .busy .. => is status .busy ∧ ¬ is status .error ∧ ¬ is status .writeFault
  | .idle failed =>
    status ≠ 0 ∧ ¬ is status .busy ∧ (failed ↔ is status .error ∨ is status .writeFault)
  | _ =>
    ¬ is status .busy ∧ ¬ is status .error ∧ ¬ is status .writeFault ∧ is status .dataReqReady

/-! ## The channel -/

/-- The registers and the drives. -/
structure Channel where
  registers : Registers
  drives : ATADriveType → Option Drive

/-- `ATADriveCommand::Identify`. -/
def identifyCommand : Byte := 0xEC

/-- A register is written. -/
def put (r : Registers) : RegisterWrite → Registers
  | (.sectorCount0, b) => { r with sectorCount0 := r.sectorCount0.push b }
  | (.lba0, b) => { r with lba0 := r.lba0.push b }
  | (.lba1, b) => { r with lba1 := r.lba1.push b }
  | (.lba2, b) => { r with lba2 := r.lba2.push b }
  | (.deviceSelect, b) => { r with deviceSelect := b }
  | (.commandAndStatus, _) => r

namespace Channel

/-- The drive that device select names. -/
def selected (c : Channel) : Option Drive := c.drives c.registers.drive

/-- The selected drive goes on as `d`. -/
def next (c : Channel) (d : Drive) : Channel :=
  { c with drives := Function.update c.drives c.registers.drive (some d) }

def Idle (c : Channel) : Prop := ∀ t d, c.drives t = some d → ∃ failed, d.phase = .idle failed

/-- No drive moves words through the data port. -/
def PortFree (c : Channel) : Prop :=
  ∀ t d, c.drives t = some d → d.IsBusy ∨ ∃ failed, d.phase = .idle failed

def IsBusy (c : Channel) : Prop := ∃ d, c.selected = some d ∧ d.IsBusy

/-- A drive is at work on sectors. -/
def Working (c : Channel) : Prop := ∃ t d, c.drives t = some d ∧ d.Working

/-- What the status register says; for a drive that is not there it is 0. -/
def Shows (c : Channel) (status : Byte) : Prop :=
  match c.selected with
  | some d => d.Shows status
  | none => status = 0

/-- What an address register shows. A drive that does not know the identify command shows its
signature when it has aborted it. -/
def address (c : Channel) (register : Registers → Latch) : Byte :=
  match c.selected with
  | some ⟨_, .busy none .abort⟩ => 0
  | _ => (register c.registers).current

/-- The selected drive, which is idle, is sent a command. -/
def command (c : Channel) (b : Byte) : Channel :=
  match c.selected with
  | some ⟨disk, _⟩ =>
    if b = identifyCommand then
      if disk.signature = (0, 0) then c.next ⟨disk, .busy none .identify⟩
      else
        { c.next ⟨disk, .busy none .abort⟩ with
          registers := put (put c.registers (.lba1, disk.signature.1)) (.lba2, disk.signature.2) }
    else
      match c.registers.request b with
      | some q => c.next ⟨disk, .busy none (.sectors q.direction q.sector q.sectorCount)⟩
      | none => c.next ⟨disk, .busy none .abort⟩
  | none => c

/-- Some time has passed: a busy drive may be done. -/
structure Aged (c c' : Channel) : Prop where
  select : c'.registers.deviceSelect = c.registers.deviceSelect
  drives : ∀ t, c'.drives t = c.drives t ∨ c'.drives t = (c.drives t).map Drive.settled

/-- Some time has passed, and nothing else has changed. A drive that is at work on sectors keeps
count of them in the address registers. -/
structure Later (c c' : Channel) : Prop extends Aged c c' where
  registers : ¬ c.Working → c'.registers = c.registers

end Channel

/-! ## The hardware -/

/-- The ports of a channel, with the hardware behind them in some state. -/
structure Ports (σ : Type) where
  /-- `outb` to a register. -/
  outb : RegisterWrite → σ → σ
  /-- `outb` to `ControlAndAltStatus`. -/
  outControl : Byte → σ → σ
  /-- `inb` from `CommandAndStatus`. -/
  inStatus : σ → Byte × σ
  /-- `inb` from `ControlAndAltStatus`. -/
  inAltStatus : σ → Byte × σ
  /-- `inb` from `LBA1`. -/
  inLba1 : σ → Byte × σ
  /-- `inb` from `LBA2`. -/
  inLba2 : σ → Byte × σ
  /-- `inw` from `Data`. -/
  inw : σ → Word × σ
  /-- `outw` to `Data`. -/
  outw : Word → σ → σ

section Obeys

variable {σ : Type} (view : σ → Channel) (wait : σ → ℕ)

/-- A read of a status register: a drive that is still busy is so for fewer reads from then on. -/
structure ReadsStatus (read : σ → Byte × σ) (s : σ) : Prop where
  later : (view s).Later (view (read s).2)
  shows : (view (read s).2).Shows (read s).1
  wait : (view (read s).2).IsBusy → wait (read s).2 < wait s

/-- A read of an address register. -/
structure ReadsAddress (read : σ → Byte × σ) (register : Registers → Latch) (s : σ) : Prop where
  later : (view s).Later (view (read s).2)
  value : (read s).1 = (view s).address register
  wait : wait (read s).2 ≤ wait s

/-- The hardware follows the protocol: `view` is what its state is to the protocol, and `wait`
bounds how often the status has to be read until the selected drive is not busy. -/
structure Ports.Obeys (hw : Ports σ) : Prop where
  /-- Idle drives take a write of a register. -/
  write : ∀ s w, w.1 ≠ .commandAndStatus → (view s).Idle →
    Channel.Later { view s with registers := put (view s).registers w } (view (hw.outb w s))
  /-- A drive that is busy does not mind a write of the count register. -/
  writeCount : ∀ s b, (view s).PortFree → (view s).Aged (view (hw.outb (.sectorCount0, b) s))
  /-- Idle drives take a command. -/
  command : ∀ s b, (view s).Idle →
    ((view s).command b).Later (view (hw.outb (.commandAndStatus, b) s))
  /-- Interrupts are turned off. -/
  control : ∀ s, (view s).Later (view (hw.outControl 0x02 s))
  status : ∀ s, ReadsStatus view wait hw.inStatus s
  altStatus : ∀ s, ReadsStatus view wait hw.inAltStatus s
  lba1 : ∀ s, ReadsAddress view wait hw.inLba1 Registers.lba1 s
  lba2 : ∀ s, ReadsAddress view wait hw.inLba2 Registers.lba2 s
  /-- A drive that offers words gives the next one. -/
  inw : ∀ s disk w words job, (view s).selected = some ⟨disk, .sending (w :: words) job⟩ →
    (hw.inw s).1 = w ∧
      ((view s).next (Drive.inw ⟨disk, .sending (w :: words) job⟩).2).Later (view (hw.inw s).2)
  /-- A drive that asks for words takes one. -/
  outw : ∀ s w disk sector words job, (view s).selected = some ⟨disk, .receiving sector words job⟩ →
    ((view s).next (Drive.outw w ⟨disk, .receiving sector words job⟩)).Later (view (hw.outw w s))

end Obeys

/-! ## The driver -/

/-- What the driver does to the hardware. -/
abbrev Driver (σ : Type) := Action σ Fault

section Driver

variable {σ : Type} (hw : Ports σ)

namespace ATABus

def outb (write : RegisterWrite) : Driver σ Unit := .modify (hw.outb write)

def outs : List RegisterWrite → Driver σ Unit
  | [] => pure ()
  | write :: rest => do
    outb hw write
    outs rest

def status : Driver σ Byte := do
  -- waste 400ns
  .times 4 do
    let _ ← .step hw.inAltStatus
  .step hw.inStatus

def waitForDriveReady : ℕ → Driver σ Unit
  | 0 => .throw .fuel
  | fuel + 1 => do
    let status ← status hw
    if is status .error || is status .writeFault then .throw .err
    else if is status .busy then waitForDriveReady fuel
    else if is status .dataReqReady then return
    else waitForDriveReady fuel

def awaitBusy : ℕ → Driver σ Unit
  | 0 => .throw .fuel
  | fuel + 1 => do
    let status ← status hw
    if is status .busy then awaitBusy fuel
    else return

def insw : ℕ → Driver σ (List Word)
  | 0 => return []
  | count + 1 => do
    let w ← .step hw.inw
    let words ← insw count
    return w :: words

def outsw : List Word → Driver σ Unit
  | [] => return
  | w :: words => do
    .modify (hw.outw w)
    outsw words

/-- `ATABus::software_reset`. It adds `ControlAndAltStatus` to `io_bar` and not to `control_bar`, so
that it writes the sector count register. -/
def softwareReset : Driver σ Unit := do
  outb hw (.sectorCount0, 0x04)
  .times 10 do
    let _ ← status hw
  outb hw (.sectorCount0, 0x00)

/-- The loop of `identify` that watches for a drive of another kind. -/
def watchSignature : ℕ → Driver σ Unit
  | 0 => .throw .fuel
  | fuel + 1 => do
    let status ← status hw
    if is status .busy then do
      let lbaMid ← .step hw.inLba1
      let lbaHigh ← .step hw.inLba2
      if lbaMid ≠ 0 ∨ lbaHigh ≠ 0 then .throw .err
      else watchSignature fuel
    else return

def identify (fuel : ℕ) (drive : ATADriveType) : Driver σ (List Byte) := do
  outs hw [ATABus.select (0xA0#8 ||| drive.toByte), (.sectorCount0, 0), (.lba0, 0), (.lba1, 0),
    (.lba2, 0)]
  -- interrupts are turned off
  .modify (hw.outControl 0x02)
  outb hw (.commandAndStatus, identifyCommand)
  let status ← status hw
  if status = 0x00 then .throw .err
  else do
    watchSignature hw fuel
    let lbaMid ← .step hw.inLba1
    let lbaHigh ← .step hw.inLba2
    -- `IDEDriveType::from_lba`: only PATA drives are supported
    if (lbaMid, lbaHigh) ≠ (0x00, 0x00) then .throw .err
    else do
      waitForDriveReady hw fuel
      let words ← insw hw sectorWords
      return bytesOf words

/-- Bytes of a buffer are replaced. -/
def overwrite (buffer : List Byte) (offset : ℕ) (bytes : List Byte) : List Byte :=
  buffer.take offset ++ bytes ++ buffer.drop (offset + bytes.length)

/-- The loop of `ide_access`, with the sectors left and the offset in words. -/
def transfer (fuel : ℕ) (direction : ATADriveDirection) :
    ℕ → ℕ → List Byte → Driver σ (List Byte)
  | 0, _, buffer => return buffer
  | left + 1, bufferOffset, buffer => do
    waitForDriveReady hw fuel
    match direction with
    | .read => do
      let words ← insw hw sectorWords
      transfer fuel direction left (bufferOffset + sectorWords)
        (overwrite buffer (2 * bufferOffset) (bytesOf words))
    | .write => do
      outsw hw (wordsOf ((buffer.drop (2 * bufferOffset)).take sectorSize))
      transfer fuel direction left (bufferOffset + sectorWords) buffer

/-- `ATABus::ide_access`; the buffer as it is left. -/
def ideAccess (p : Profile) (fuel : ℕ) (drive : ATADriveType) (sector sectorCount : ℕ)
    (direction : ATADriveDirection) (buffer : List Byte) : Driver σ (List Byte) := do
  awaitBusy hw fuel
  outs hw (ATABus.writes drive sector sectorCount direction)
  let arraySize ← .lift (arith (p.fit 64 (sectorCount * sectorSize)))
  .lift (arith (check (buffer.length ≥ arraySize)))
  transfer hw fuel direction sectorCount 0 buffer

def read (p : Profile) (fuel : ℕ) (drive : ATADriveType) (sector sectorCount : ℕ) :
    Driver σ (List Byte) := do
  let bufferLen ← .lift (arith (p.fit 64 (sectorSize * sectorCount)))
  ideAccess hw p fuel drive sector sectorCount .read (List.replicate bufferLen 0)

def write (p : Profile) (fuel : ℕ) (drive : ATADriveType) (sector sectorCount : ℕ)
    (buffer : List Byte) : Driver σ Unit := do
  let size ← .lift (arith (p.fit 64 (sectorSize * sectorCount)))
  if buffer.length < size then .throw .err
  else do
    let _ ← ideAccess hw p fuel drive sector sectorCount .write buffer
    return

end ATABus

structure ATADrive where
  identifyData : List Byte
  driveType : ATADriveType
  deriving DecidableEq

namespace ATADrive

/-- The word at 98 has bit 9 set: the drive takes sector numbers. -/
def capable (identifyData : List Byte) : Bool :=
  leNat ((identifyData.drop 98).take 2) &&& 0x200 != 0

def new (fuel : ℕ) (drive : ATADriveType) : Driver σ ATADrive := do
  let identifyData ← ATABus.identify hw fuel drive
  if capable identifyData then return ⟨identifyData, drive⟩
  else .throw .err

def sectorCount (d : ATADrive) : ℕ := leNat ((d.identifyData.drop 120).take 4)

def read (p : Profile) (fuel : ℕ) (d : ATADrive) (sector sectorCount : ℕ) :
    Driver σ (List Byte) := do
  let stop ← .lift (arith (p.add sector sectorCount))
  if stop > d.sectorCount then .throw .err
  else do
    ATABus.softwareReset hw
    ATABus.read hw p fuel d.driveType sector sectorCount

def write (p : Profile) (fuel : ℕ) (d : ATADrive) (sector : ℕ) (buffer : List Byte) :
    Driver σ Unit := do
  ATABus.softwareReset hw
  ATABus.write hw p fuel d.driveType sector (buffer.length / 512) buffer

end ATADrive

/-- The drives that `ide_initialize` finds. -/
def detect (fuel : ℕ) : Driver σ (List ATADrive) := do
  let parent ← (ATADrive.new hw fuel .parent).attempt
  let child ← (ATADrive.new hw fuel .child).attempt
  return [parent, child].filterMap Except.toOption

end Driver

end CappuccinOS.Storage.Pio
