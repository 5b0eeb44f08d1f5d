import CappuccinOS.Storage.Partition

/-!
# ATA drives (`drivers/storage/ide.rs`)

`ATADrive::read` compares the end of a request with the sector count of the drive's identify data
and passes it to `ide_access`, which writes the sector number to the address registers and takes
the sectors from the data port one at a time. The sum in the comparison wraps in the `release`
profile and the registers keep 48 bits of the number; a request that is answered has lost nothing
by either, since no drive has a sector at the last 48-bit address (`read_eq_ok`).
-/

namespace CappuccinOS.Storage

/-- `ATADrive`: the sector count of its identify data, the bytes it holds and the addresses it reads
without an error. A drive has at most `2 ^ 48 - 1` sectors. -/
structure ATADrive where
  sectorCount : UInt32
  medium : ℕ → Byte
  reads : ℕ → Bool
  addressable : ∀ lba, reads lba = true → lba < 2 ^ 48 - 1

/-- The address that `ide_access` writes to the registers, in its two modes. -/
def lba (sector : ℕ) : ℕ :=
  if sector ≥ 2 ^ 28 - 1 then sector % 2 ^ 48 else sector % 2 ^ 28

namespace ATADrive

/-- `ide_access` for a read, with the sectors that it takes from the drive. -/
def ideAccess (d : ATADrive) (sector sectorCount : ℕ) : Except Fault (List ℕ) :=
  if (List.range' (lba sector) sectorCount).all d.reads then
    .ok (List.range' (lba sector) sectorCount)
  else
    .error .err

/-- `ATADrive::read`, with the sectors that it takes from the drive. -/
def read (p : Profile) (d : ATADrive) (sector sectorCount : ℕ) : Except Fault (List ℕ) := do
  let stop ← arith (p.add sector sectorCount)
  if stop > d.sectorCount.toNat then .error .err
  else d.ideAccess sector sectorCount

/-- The drive as a `BlockDevice` of the `release` profile. -/
def blockDevice (d : ATADrive) : BlockDevice where
  data := d.medium
  answers sector sectorCount := (d.read .release sector sectorCount).toBool

end ATADrive

theorem lba_of_lt {sector : ℕ} (h : sector < 2 ^ 48) : lba sector = sector := by
  unfold lba
  split_ifs with hmode <;> exact Nat.mod_eq_of_lt (by omega)

theorem flatMap_window (f : ℕ → Byte) (sector n : ℕ) :
    (List.range' sector n).flatMap (fun s => window f (sectorSize * s) sectorSize) =
      window f (sectorSize * sector) (sectorSize * n) := by
  induction n generalizing sector with
  | zero => simp [window]
  | succ n ih =>
    rw [List.range'_succ, List.flatMap_cons, ih]
    unfold window
    rw [← List.map_append, Nat.mul_succ, Nat.mul_succ, List.range'_append_1, Nat.add_comm]

namespace ATADrive

variable {d : ATADrive} {sector n : ℕ} {sectors : List ℕ}

theorem ideAccess_eq_ok : d.ideAccess sector n = .ok sectors ↔
    (∀ i < n, d.reads (lba sector + i) = true) ∧ sectors = List.range' (lba sector) n := by
  have hall : (List.range' (lba sector) n).all d.reads = true ↔
      ∀ i < n, d.reads (lba sector + i) = true := by
    rw [List.all_eq_true]
    constructor
    · exact fun h i hi => h _ (by rw [List.mem_range'_1]; omega)
    · intro h s hs
      obtain ⟨hs, hlt⟩ := List.mem_range'_1.mp hs
      obtain ⟨i, rfl⟩ := Nat.exists_eq_add_of_le hs
      exact h i (by omega)
  unfold ideAccess
  rw [← hall]
  split_ifs with h
  · simp [h, eq_comm]
  · simp [h]

/-- An answered request is not a wrapped one: it would cross the last 48-bit address. -/
theorem lt_of_answered (hsector : sector < wordSize)
    (hstop : (sector + n) % wordSize ≤ d.sectorCount.toNat)
    (hreads : ∀ i < n, d.reads (lba sector + i) = true) (hn : 0 < n) : sector < 2 ^ 48 := by
  by_contra hge
  have hcount := d.sectorCount.toNat_lt
  have hwrap : wordSize ≤ sector + n := by
    by_contra hlt
    rw [Nat.mod_eq_of_lt (by omega)] at hstop
    omega
  have hlba : lba sector = sector % 2 ^ 48 := if_pos (by omega)
  -- the distance from the sector to the last address of its 48 bits
  have hmod : sector % 2 ^ 48 < 2 ^ 48 := Nat.mod_lt _ (by norm_num)
  have hlast : 2 ^ 48 - 1 - sector % 2 ^ 48 < n := by
    unfold wordSize at hsector hwrap
    omega
  have := d.addressable _ (hreads _ hlast)
  omega

theorem read_eq_ok (hsector : sector < wordSize) (hn : 0 < n) :
    d.read .release sector n = .ok sectors ↔
      sector + n ≤ d.sectorCount.toNat ∧ (∀ i < n, d.reads (sector + i) = true) ∧
        sectors = List.range' sector n := by
  have hcount := d.sectorCount.toNat_lt
  unfold read
  rw [bind_eq_ok]
  constructor
  · rintro ⟨stop, hstop, h⟩
    have hstop := Profile.eq_mod_of_add (arith_eq_ok.mp hstop)
    split_ifs at h with hle
    obtain ⟨hreads, rfl⟩ := ideAccess_eq_ok.mp h
    have hlt : sector < 2 ^ 48 := lt_of_answered hsector (by omega) hreads hn
    rw [lba_of_lt hlt] at hreads ⊢
    refine ⟨?_, hreads, rfl⟩
    by_contra hgt
    have hbig : wordSize ≤ sector + n := by
      by_contra hsmall
      rw [Nat.mod_eq_of_lt (by omega)] at hstop
      omega
    have := d.addressable _ (hreads (2 ^ 48 - 1 - sector) (by unfold wordSize at hbig; omega))
    omega
  · rintro ⟨hle, hreads, rfl⟩
    have hsmall : sector + n < wordSize := by unfold wordSize; omega
    have hlba : lba sector = sector := lba_of_lt (by omega)
    refine ⟨sector + n, arith_eq_ok.mpr (Profile.add_of_lt _ hsmall), ?_⟩
    rw [if_neg (by omega)]
    exact ideAccess_eq_ok.mpr ⟨by rwa [hlba], by rw [hlba]⟩

theorem read_eq_err (h : ∀ sectors, d.read .release sector n ≠ .ok sectors) :
    d.read .release sector n = .error .err := by
  unfold read at h ⊢
  obtain ⟨stop, hstop⟩ : ∃ stop, Profile.release.add sector n = .ok stop := by
    unfold Profile.add
    split_ifs <;> exact ⟨_, rfl⟩
  rw [hstop, arith_ok] at h ⊢
  simp only [bind, Except.bind] at h ⊢
  split_ifs with hle
  · rfl
  · rw [if_neg hle] at h
    unfold ideAccess at h ⊢
    split_ifs with hall
    · exact absurd (if_pos hall) (h _)
    · rfl

/-- As a block device a drive gives the bytes of the sectors that it reads, in order. -/
theorem blockDevice_read (hsector : sector < wordSize) (hn : 0 < n) : d.blockDevice.read sector n =
    (d.read .release sector n).map fun sectors =>
      sectors.flatMap fun s => window d.medium (sectorSize * s) sectorSize := by
  unfold BlockDevice.read blockDevice
  cases hread : d.read .release sector n with
  | ok sectors =>
    obtain ⟨-, -, rfl⟩ := (read_eq_ok hsector hn).mp hread
    simp [hread, Except.toBool, Except.map, flatMap_window]
  | error f =>
    have herr : d.read .release sector n = .error .err :=
      read_eq_err fun sectors h => by rw [h] at hread; cases hread
    rw [hread] at herr
    simp [hread, Except.toBool, Except.map, Except.error.inj herr]

end ATADrive

end CappuccinOS.Storage
