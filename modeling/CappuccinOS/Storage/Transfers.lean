import CappuccinOS.Storage.Pio

/-!
# Reads and writes through the ATA bus (`drivers/storage/ide.rs`)

Against the registers and the busy times of the drives stands what a caller expects: drives are
arrays of sectors, of which some cannot be read or written. Here is one command on the bus, for any
hardware that follows the protocol.

1. `Channel.Aged`, `Channel.Later`: time passes, and a drive that has settled is not changed by it.
2. The loops of the driver end, and leave a drive that has settled (`awaitBusy_settles`,
   `waitForDriveReady_ok`).
3. `transfer_read`, `transfer_write`: the loop of `ide_access` against the sectors that the drive
   was told about.
4. Between calls the drive that was used last may still be writing its last sector (`Between`); a
   command takes drives that rest to one that serves it (`access_serves`).
-/

namespace CappuccinOS.Storage.Pio

/-! ## Words -/

theorem length_wordsOf (l : List Byte) : (wordsOf l).length = l.length / 2 := by
  induction l using wordsOf.induct with
  | case1 => rfl
  | case2 b => simp [wordsOf]
  | case3 low high rest ih =>
    rw [wordsOf, List.length_cons, ih, List.length_cons, List.length_cons]
    omega

theorem bytes_word (low high : Byte) :
    [(high ++ low : Word).extractLsb' 0 8, (high ++ low : Word).extractLsb' 8 8] = [low, high] := by
  congr 1
  · ext i hi
    rw [BitVec.getElem_extractLsb', Nat.zero_add]
    exact (BitVec.getLsbD_append ..).trans (by rw [if_pos hi, BitVec.getLsbD_eq_getElem hi])
  · congr 1
    ext i hi
    rw [BitVec.getElem_extractLsb']
    exact (BitVec.getLsbD_append ..).trans (by
      rw [if_neg (by omega), Nat.add_sub_cancel_left, BitVec.getLsbD_eq_getElem hi])

theorem bytesOf_cons (w : Word) (words : List Word) :
    bytesOf (w :: words) = [w.extractLsb' 0 8, w.extractLsb' 8 8] ++ bytesOf words :=
  List.flatMap_cons

/-- Memory that is read as words is written back as it was. -/
theorem bytesOf_wordsOf {l : List Byte} (h : 2 ∣ l.length) : bytesOf (wordsOf l) = l := by
  induction l using wordsOf.induct with
  | case1 => rfl
  | case2 b =>
    rw [List.length_singleton] at h
    omega
  | case3 low high rest ih =>
    rw [List.length_cons, List.length_cons] at h
    rw [wordsOf, bytesOf_cons, bytes_word, ih (by omega)]
    rfl

@[simp] theorem Disk.length_bytes (disk : Disk) (sector : ℕ) :
    (disk.bytes sector).length = sectorSize := length_window ..

theorem Disk.bytesOf_bytes (disk : Disk) (sector : ℕ) :
    bytesOf (wordsOf (disk.bytes sector)) = disk.bytes sector :=
  bytesOf_wordsOf (by rw [Disk.length_bytes]; decide)

theorem Disk.length_words (disk : Disk) (sector : ℕ) :
    (wordsOf (disk.bytes sector)).length = sectorWords := by
  rw [length_wordsOf, Disk.length_bytes]
  rfl

/-! ## Time -/

namespace Drive

variable {d : Drive}

theorem settled_of_not_busy (h : ¬ d.IsBusy) : d.settled = d := by
  obtain ⟨disk, phase⟩ := d
  cases phase with
  | busy cached job => exact absurd ⟨cached, job, rfl⟩ h
  | idle failed | sending words job | receiving sector words job => rfl

theorem not_busy_proceed (disk : Disk) (job : Job) :
    ¬ (Drive.mk disk (disk.proceed job)).IsBusy := by
  rintro ⟨cached, job', h⟩
  cases job with
  | done | abort | identify => cases h
  | sectors direction sector left =>
    unfold Disk.proceed at h
    cases left with
    | zero => cases h
    | succ left => cases direction <;> dsimp only at h <;> split_ifs at h

theorem not_busy_settled (d : Drive) : ¬ d.settled.IsBusy := by
  obtain ⟨disk, phase⟩ := d
  cases phase with
  | busy cached job =>
    cases cached with
    | none => exact not_busy_proceed disk job
    | some cached =>
      unfold settled
      dsimp only
      split_ifs
      · rintro ⟨cached', job', h⟩
        cases h
      · exact not_busy_proceed _ job
  | idle failed | sending words job | receiving sector words job =>
    rintro ⟨cached', job', h⟩
    cases h

@[simp] theorem settled_settled (d : Drive) : d.settled.settled = d.settled :=
  settled_of_not_busy d.not_busy_settled

theorem Working.of_settled (h : d.settled.Working) : d.Working := by
  obtain ⟨disk, phase⟩ := d
  have hproceed : ∀ (disk : Disk) (job : Job), (Drive.mk disk (disk.proceed job)).Working →
      ∃ direction sector left, job = .sectors direction sector left := by
    intro disk job h
    cases job with
    | done | abort => exact h.elim
    | identify =>
      obtain ⟨_, _, _, h⟩ := h
      cases h
    | sectors direction sector left => exact ⟨direction, sector, left, rfl⟩
  cases phase with
  | busy cached job =>
    cases cached with
    | none => exact hproceed disk job h
    | some cached =>
      unfold settled at h
      dsimp only at h
      split_ifs at h
      · exact h.elim
      · exact hproceed _ job h
  | idle failed | sending words job | receiving sector words job => exact h

theorem Shows.ne_zero {b : Byte} (h : d.Shows b) : b ≠ 0 := by
  obtain ⟨disk, phase⟩ := d
  rintro rfl
  cases phase with
  | busy cached job => exact absurd h.1 (by decide)
  | idle failed => exact h.1 rfl
  | sending words job | receiving sector words job => exact absurd h.2.2.2 (by decide)

theorem Shows.isBusy_iff {b : Byte} (h : d.Shows b) : is b .busy = true ↔ d.IsBusy := by
  obtain ⟨disk, phase⟩ := d
  cases phase with
  | busy cached job => exact iff_of_true h.1 ⟨cached, job, rfl⟩
  | idle failed => exact iff_of_false h.2.1 (by rintro ⟨_, _, h⟩; cases h)
  | sending words job | receiving sector words job =>
    exact iff_of_false h.1 (by rintro ⟨_, _, h⟩; cases h)

/-- The drive has a word to move. -/
def Asks (d : Drive) : Prop :=
  match d.phase with
  | .sending .. => True
  | .receiving .. => True
  | _ => False

theorem Shows.of_busy {b : Byte} (h : d.Shows b) (hd : d.IsBusy) :
    is b .busy = true ∧ is b .error = false ∧ is b .writeFault = false := by
  obtain ⟨cached, job, hphase⟩ := hd
  unfold Shows at h
  rw [hphase] at h
  simpa using h

theorem Shows.of_asks {b : Byte} (h : d.Shows b) (hd : d.Asks) : is b .busy = false ∧
    is b .error = false ∧ is b .writeFault = false ∧ is b .dataReqReady = true := by
  obtain ⟨disk, phase⟩ := d
  cases phase with
  | busy cached job | idle failed => exact hd.elim
  | sending words job | receiving sector words job => simpa [Shows] using h

theorem Shows.of_failed {b : Byte} (h : d.Shows b) (hd : d.phase = .idle true) :
    is b .error = true ∨ is b .writeFault = true := by
  unfold Shows at h
  rw [hd] at h
  exact h.2.2.mp rfl

end Drive

namespace Channel

variable {c c' c'' : Channel}

theorem Aged.drive (h : c.Aged c') : c'.registers.drive = c.registers.drive := by
  unfold Registers.drive
  rw [h.select]

theorem Aged.trans (h : c.Aged c') (h' : c'.Aged c'') : c.Aged c'' where
  select := h'.select.trans h.select
  drives t := by
    rcases h.drives t with hd | hd <;> rcases h'.drives t with hd' | hd' <;> rw [hd', hd]
    · exact .inl rfl
    · exact .inr rfl
    · exact .inr rfl
    · rw [Option.map_map]
      exact .inr (congrArg (Option.map · _) (funext Drive.settled_settled))

theorem Later.refl (c : Channel) : c.Later c where
  select := rfl
  drives _ := .inl rfl
  registers _ := rfl

theorem Aged.working (h : c.Aged c') (hw : c'.Working) : c.Working := by
  obtain ⟨t, d, hd, hw⟩ := hw
  rcases h.drives t with heq | heq <;> rw [heq] at hd
  · exact ⟨t, d, hd, hw⟩
  · obtain ⟨d', hd', rfl⟩ := Option.map_eq_some_iff.mp hd
    exact ⟨t, d', hd', hw.of_settled⟩

theorem Later.trans (h : c.Later c') (h' : c'.Later c'') : c.Later c'' where
  toAged := h.toAged.trans h'.toAged
  registers hc := (h'.registers fun hw => hc (h.toAged.working hw)).trans (h.registers hc)

/-- A drive that is busy has been so. -/
theorem Aged.busy (h : c.Aged c') (hb : c'.IsBusy) : c.IsBusy := by
  obtain ⟨d, hd, hb⟩ := hb
  rw [selected, h.drive] at hd
  rcases h.drives c.registers.drive with heq | heq <;> rw [heq] at hd
  · exact ⟨d, hd, hb⟩
  · obtain ⟨d', -, rfl⟩ := Option.map_eq_some_iff.mp hd
    exact absurd hb d'.not_busy_settled

theorem Shows.isBusy_iff {b : Byte} (h : c.Shows b) : is b .busy = true ↔ c.IsBusy := by
  unfold Shows at h
  cases hd : c.selected with
  | none =>
    rw [hd] at h
    have h : b = 0 := h
    rw [h]
    refine iff_of_false (by decide) ?_
    rintro ⟨d, hd', -⟩
    rw [hd] at hd'
    cases hd'
  | some d =>
    rw [hd] at h
    have h : d.Shows b := h
    rw [h.isBusy_iff]
    refine ⟨fun hb => ⟨d, hd, hb⟩, ?_⟩
    rintro ⟨d', hd', hb⟩
    obtain rfl := Option.some.inj (hd.symm.trans hd')
    exact hb

end Channel

/-! ## What a command finds -/

/-- The drives that `D` names, idle. -/
def Rests (disk : Option Disk) (drive : Option Drive) : Prop :=
  ∃ failed, drive = disk.map fun disk => ⟨disk, .idle failed⟩

/-- The drive in place `t` is selected and is `d`, or comes to be what `d` comes to; the others
rest. -/
structure Serves (D : ATADriveType → Option Disk) (t : ATADriveType) (c : Channel) (d : Drive) :
    Prop where
  drive : c.registers.drive = t
  here : c.drives t = some d ∨ c.drives t = some d.settled
  others : ∀ u, u ≠ t → Rests (D u) (c.drives u)

/-- The drives rest. -/
def AllRest (D : ATADriveType → Option Disk) (c : Channel) : Prop := ∀ t, Rests (D t) (c.drives t)

/-- The drives as they are between two calls. One that is still writing is the one selected. -/
structure Between (D : ATADriveType → Option Disk) (c : Channel) : Prop where
  settled : ∀ t, Rests (D t) ((c.drives t).map Drive.settled)
  quiet : ∀ t, t ≠ c.registers.drive → ∀ d, c.drives t = some d → ¬ d.IsBusy

theorem Rests.settled {disk : Option Disk} {drive : Option Drive} (h : Rests disk drive) :
    drive.map Drive.settled = drive := by
  obtain ⟨failed, rfl⟩ := h
  rw [Option.map_map]
  rfl

section Aged

variable {D : ATADriveType → Option Disk} {t : ATADriveType} {c c' : Channel} {d : Drive}
  {disk : Disk}

theorem Rests.aged {u : ATADriveType} (h : Rests (D u) (c.drives u)) (hc : c.Aged c') :
    Rests (D u) (c'.drives u) := by
  rcases hc.drives u with heq | heq <;> rw [heq]
  · exact h
  · rwa [h.settled]

theorem AllRest.aged (h : AllRest D c) (hc : c.Aged c') : AllRest D c' := fun t => (h t).aged hc

theorem AllRest.idle (h : AllRest D c) : c.Idle := by
  intro t d hd
  obtain ⟨failed, hrest⟩ := h t
  rw [hrest] at hd
  obtain ⟨disk, -, rfl⟩ := Option.map_eq_some_iff.mp hd
  exact ⟨failed, rfl⟩

theorem AllRest.not_working (h : AllRest D c) : ¬ c.Working := by
  rintro ⟨t, ⟨disk, phase⟩, hd, hw⟩
  obtain ⟨failed, hphase⟩ := h.idle t _ hd
  have hphase : phase = .idle failed := hphase
  subst hphase
  exact hw

theorem Serves.aged (h : Serves D t c d) (hc : c.Aged c') : Serves D t c' d where
  drive := hc.drive.trans h.drive
  here := by
    rcases hc.drives t with heq | heq <;> rw [heq]
    · exact h.here
    · rcases h.here with hd | hd <;> rw [hd]
      · exact .inr rfl
      · exact .inr (congrArg some d.settled_settled)
  others u hu := (h.others u hu).aged hc

theorem Serves.settle (h : Serves D t c d) (hc : ¬ c.IsBusy) : Serves D t c d.settled where
  drive := h.drive
  here := by
    rw [Drive.settled_settled, or_self]
    rcases h.here with hd | hd
    · rw [hd, Drive.settled_of_not_busy fun hb => hc ⟨d, by rw [Channel.selected, h.drive, hd], hb⟩]
    · exact hd
  others := h.others

theorem Serves.selected_of_busy (h : Serves D t c d) (hb : c.IsBusy) : c.selected = some d := by
  obtain ⟨d', hd', hb⟩ := hb
  rw [Channel.selected, h.drive] at hd' ⊢
  rcases h.here with heq | heq
  · exact heq
  · obtain rfl := Option.some.inj (heq.symm.trans hd')
    exact absurd hb d.not_busy_settled

theorem Serves.selected (h : Serves D t c d) (hd : d.settled = d) : c.selected = some d := by
  rw [Channel.selected, h.drive]
  rcases h.here with heq | heq
  · exact heq
  · rwa [hd] at heq

theorem Serves.status_ne_zero {b : Byte} (h : Serves D t c d) (hb : c.Shows b) : b ≠ 0 := by
  rw [Channel.Shows, Channel.selected, h.drive] at hb
  rcases h.here with heq | heq <;> rw [heq] at hb <;> exact Drive.Shows.ne_zero hb

theorem Serves.next (h : Serves D t c d) (d' : Drive) : Serves D t (c.next d') d' where
  drive := h.drive
  here := by
    show Function.update c.drives c.registers.drive (some d') t = _ ∨ _
    rw [h.drive, Function.update_self]
    exact .inl rfl
  others u hu := by
    show Rests _ (Function.update c.drives c.registers.drive (some d') u)
    rw [h.drive, Function.update_of_ne hu]
    exact h.others u hu

theorem Between.aged (h : Between D c) (hc : c.Aged c') : Between D c' where
  settled t := by
    rcases hc.drives t with heq | heq <;> rw [heq]
    · exact h.settled t
    · rw [Option.map_map, funext (f := Drive.settled ∘ Drive.settled) Drive.settled_settled]
      exact h.settled t
  quiet t ht d hd := by
    rw [hc.drive] at ht
    rcases hc.drives t with heq | heq <;> rw [heq] at hd
    · exact h.quiet t ht d hd
    · obtain ⟨d', -, rfl⟩ := Option.map_eq_some_iff.mp hd
      exact d'.not_busy_settled

theorem Between.portFree (h : Between D c) : c.PortFree := by
  intro t d hd
  by_cases hb : d.IsBusy
  · exact .inl hb
  · obtain ⟨failed, hrest⟩ := h.settled t
    rw [hd, Option.map_some, Drive.settled_of_not_busy hb] at hrest
    obtain ⟨disk, -, rfl⟩ := Option.map_eq_some_iff.mp hrest.symm
    exact .inr ⟨failed, rfl⟩

/-- When the drive that was used last is no longer busy, the drives rest. -/
theorem Between.allRest (h : Between D c) (hc : ¬ c.IsBusy) : AllRest D c := by
  intro t
  have hsettled : (c.drives t).map Drive.settled = c.drives t := by
    cases hd : c.drives t with
    | none => rfl
    | some d =>
      have hbusy : ¬ d.IsBusy := by
        by_cases ht : t = c.registers.drive
        · exact fun hb => hc ⟨d, by rw [Channel.selected, ← ht, hd], hb⟩
        · exact h.quiet t ht d hd
      rw [Option.map_some, Drive.settled_of_not_busy hbusy]
  exact hsettled ▸ h.settled t

theorem AllRest.between (h : AllRest D c) : Between D c where
  settled t := by
    rw [(h t).settled]
    exact h t
  quiet t _ d hd := by
    obtain ⟨failed, hphase⟩ := h.idle t d hd
    rintro ⟨cached, job, hbusy⟩
    rw [hphase] at hbusy
    cases hbusy

/-- A drive that has come to rest is as it is between calls. -/
theorem Serves.between {failed : Bool} (h : Serves D t c d)
    (hd : d.settled = ⟨disk, .idle failed⟩) :
    Between (Function.update D t (some disk)) c where
  settled u := by
    by_cases hu : u = t
    · subst hu
      refine ⟨failed, ?_⟩
      rcases h.here with heq | heq <;>
        rw [heq, Function.update_self, Option.map_some, Option.map_some]
      · rw [hd]
      · rw [Drive.settled_settled, hd]
    · rw [Function.update_of_ne hu, (h.others u hu).settled]
      exact h.others u hu
  quiet u hu d' hd' := by
    rw [h.drive] at hu
    obtain ⟨failed, hdrive⟩ := h.others u hu
    rw [hdrive] at hd'
    obtain ⟨disk, -, rfl⟩ := Option.map_eq_some_iff.mp hd'
    rintro ⟨cached, job, hbusy⟩
    cases hbusy

end Aged

/-! ## The loops of the driver -/

/-- Time passes while the status is read. -/
structure Passes {σ : Type} (view : σ → Channel) (wait : σ → ℕ) (s s' : σ) : Prop where
  later : (view s).Later (view s')
  wait : (view s').IsBusy → wait s' ≤ wait s

theorem Passes.trans {σ : Type} {view : σ → Channel} {wait : σ → ℕ} {s s' s'' : σ}
    (h : Passes view wait s s') (h' : Passes view wait s' s'') : Passes view wait s s'' where
  later := h.later.trans h'.later
  wait hb := (h'.wait hb).trans (h.wait (h'.later.busy hb))

section Loops

variable {σ : Type} {hw : Ports σ} {view : σ → Channel} {wait : σ → ℕ} (H : hw.Obeys view wait)
  {D : ATADriveType → Option Disk} {t : ATADriveType} {d : Drive} {s : σ}
include H

namespace ATABus

/-- `status` is a read of the status register, some time later. -/
theorem status_apply (s : σ) : ∃ b s', status hw s = (.ok b, s') ∧ (view s).Later (view s') ∧
    (view s').Shows b ∧ ((view s').IsBusy → wait s' < wait s) := by
  obtain ⟨s₁, hwaste, hpasses⟩ := Action.times_ok (m := do let _ ← .step hw.inAltStatus)
    (R := Passes view wait) (fun s => ⟨.refl _, fun _ => le_rfl⟩) Passes.trans
    (fun s => ⟨(hw.inAltStatus s).2, rfl, (H.altStatus s).later, fun hb =>
      ((H.altStatus s).wait hb).le⟩) 4 s
  have hread := H.status s₁
  refine ⟨(hw.inStatus s₁).1, (hw.inStatus s₁).2, (Action.bind_apply_ok hwaste).trans rfl,
    hpasses.later.trans hread.later, hread.shows, fun hb => ?_⟩
  exact (hread.wait hb).trans_le (hpasses.wait (hread.later.busy hb))

/-- `software_reset` writes the count register of a drive that may be busy. -/
theorem softwareReset_apply (h : Between D (view s)) :
    ∃ s', softwareReset hw s = (.ok (), s') ∧ Between D (view s') := by
  have hturn : ∀ s, ∃ s', (do let _ ← status hw : Driver σ Unit) s = (.ok (), s') ∧
      (view s).Aged (view s') := by
    intro s
    obtain ⟨b, s', hstatus, hlater, -⟩ := status_apply H s
    exact ⟨s', Action.bind_apply_ok hstatus, hlater.toAged⟩
  obtain ⟨s₁, htimes, haged⟩ := Action.times_ok (R := fun s s' => (view s).Aged (view s'))
    (fun s => (Channel.Later.refl _).toAged) Channel.Aged.trans hturn 10
    (hw.outb (.sectorCount0, 0x04) s)
  have h₁ := (h.aged (H.writeCount s _ h.portFree)).aged haged
  refine ⟨hw.outb (.sectorCount0, 0x00) s₁, ?_, h₁.aged (H.writeCount s₁ _ h₁.portFree)⟩
  have hfirst : outb hw (.sectorCount0, 0x04) s = (.ok (), hw.outb (.sectorCount0, 0x04) s) := rfl
  rw [softwareReset, Action.bind_apply_ok hfirst, Action.bind_apply_ok htimes]
  rfl

/-- `await_busy` ends, when the selected drive is no longer busy. -/
theorem awaitBusy_settles (s : σ) : ∃ s', Settles (awaitBusy hw) s (.ok ()) s' ∧
    (view s).Later (view s') ∧ ¬ (view s').IsBusy := by
  obtain ⟨r, s', hloop, rfl, hQ⟩ := Settles.loop (m := awaitBusy hw)
    (I := fun s₁ => (view s).Later (view s₁))
    (Q := fun r s' => r = .ok () ∧ (view s).Later (view s') ∧ ¬ (view s').IsBusy) wait
    (fun s₁ hI => by
      obtain ⟨b, s₂, hstatus, hlater, hshows, hwait⟩ := status_apply H s₁
      by_cases hb : (view s₂).IsBusy
      · refine .inl ⟨s₂, fun fuel => ?_, hI.trans hlater, hwait hb⟩
        rw [awaitBusy, Action.bind_apply_ok hstatus, if_pos (hshows.isBusy_iff.mpr hb)]
      · refine .inr ⟨.ok (), s₂, fun fuel => ?_, rfl, hI.trans hlater, hb⟩
        rw [awaitBusy, Action.bind_apply_ok hstatus,
          if_neg fun h => hb (hshows.isBusy_iff.mp h)]
        rfl) (Channel.Later.refl _)
  exact ⟨s', hloop, hQ⟩

/-- `wait_for_drive_ready` ends when the drive has settled, with what it makes of the status
then. -/
theorem waitForDriveReady_settles (h : Serves D t (view s) d) {r : Except Fault Unit}
    (hr : ∀ b, d.settled.Shows b → ∀ fuel s s', status hw s = (.ok b, s') →
      waitForDriveReady hw (fuel + 1) s = (r, s')) :
    ∃ s', Settles (waitForDriveReady hw) s r s' ∧ Serves D t (view s') d.settled := by
  obtain ⟨r', s', hloop, rfl, hQ⟩ := Settles.loop (m := waitForDriveReady hw)
    (I := fun s => Serves D t (view s) d)
    (Q := fun r' s' => r' = r ∧ Serves D t (view s') d.settled) wait
    (fun s₁ hI => by
      obtain ⟨b, s₂, hstatus, hlater, hshows, hwait⟩ := status_apply H s₁
      have hserves := hI.aged hlater.toAged
      by_cases hb : (view s₂).IsBusy
      · refine .inl ⟨s₂, fun fuel => ?_, hserves, hwait hb⟩
        obtain ⟨d', hd', hbusy⟩ := hb
        rw [Channel.Shows, hd'] at hshows
        have hflags := Drive.Shows.of_busy hshows hbusy
        rw [waitForDriveReady, Action.bind_apply_ok hstatus]
        simp [hflags]
      · have hsettled := hserves.settle hb
        rw [Channel.Shows, hsettled.selected d.settled_settled] at hshows
        exact .inr ⟨r, s₂, fun fuel => hr b hshows fuel s₁ s₂ hstatus, rfl, hsettled⟩) h
  exact ⟨s', hloop, hQ⟩

theorem waitForDriveReady_ok (h : Serves D t (view s) d) (hd : d.settled.Asks) :
    ∃ s', Settles (waitForDriveReady hw) s (.ok ()) s' ∧ Serves D t (view s') d.settled := by
  refine waitForDriveReady_settles H h fun b hshows fuel s s' hstatus => ?_
  have hflags := Drive.Shows.of_asks hshows hd
  rw [waitForDriveReady, Action.bind_apply_ok hstatus]
  simp [hflags]

theorem waitForDriveReady_err (h : Serves D t (view s) d) (hd : d.settled.phase = .idle true) :
    ∃ s', Settles (waitForDriveReady hw) s (.error .err) s' ∧ Serves D t (view s') d.settled := by
  refine waitForDriveReady_settles H h fun b hshows fuel s s' hstatus => ?_
  have hflags := Drive.Shows.of_failed hshows hd
  rw [waitForDriveReady, Action.bind_apply_ok hstatus, if_pos (by simpa using hflags)]
  rfl

end ATABus

end Loops

/-! ## The data port -/

section Port

variable {σ : Type} {hw : Ports σ} {view : σ → Channel} {wait : σ → ℕ} (H : hw.Obeys view wait)
  {D : ATADriveType → Option Disk} {t : ATADriveType} {s : σ} {disk : Disk} {job : Job}
include H

namespace ATABus

theorem insw_apply {words : List Word} (hne : words ≠ [])
    (h : Serves D t (view s) ⟨disk, .sending words job⟩) :
    ∃ s', insw hw words.length s = (.ok words, s') ∧
      Serves D t (view s') ⟨disk, Drive.afterSending job⟩ := by
  induction words generalizing s with
  | nil => exact absurd rfl hne
  | cons w words ih =>
    obtain ⟨hword, hlater⟩ := H.inw s disk w words job (h.selected rfl)
    have hin : hw.inw s = (w, (hw.inw s).2) := Prod.ext hword rfl
    have hserves := (h.next _).aged hlater.toAged
    rw [List.length_cons, insw, Action.bind_apply_ok (Action.step_apply ..), hin]
    cases words with
    | nil => exact ⟨_, rfl, hserves⟩
    | cons w' words =>
      obtain ⟨s', hrest, hserves⟩ := ih (List.cons_ne_nil _ _) hserves
      exact ⟨s', Action.bind_apply_ok hrest, hserves⟩

theorem outsw_apply {sector : ℕ} {sent words : List Word} (hne : words ≠ [])
    (hlen : sent.length + words.length = sectorWords)
    (h : Serves D t (view s) ⟨disk, .receiving sector sent job⟩) :
    ∃ s', outsw hw words s = (.ok (), s') ∧
      Serves D t (view s') ⟨disk, .busy (some (sector, bytesOf (sent ++ words))) job⟩ := by
  induction words generalizing s sent with
  | nil => exact absurd rfl hne
  | cons w words ih =>
    rw [List.length_cons] at hlen
    have hlater := H.outw s w disk sector sent job (h.selected rfl)
    have hserves := (h.next _).aged hlater.toAged
    rw [outsw, Action.bind_apply_ok (Action.modify_apply ..)]
    cases words with
    | nil =>
      have hlast : Drive.outw w ⟨disk, .receiving sector sent job⟩ =
          ⟨disk, .busy (some (sector, bytesOf (sent ++ [w]))) job⟩ := if_pos hlen
      rw [hlast] at hserves
      exact ⟨_, rfl, hserves⟩
    | cons w' words =>
      have hmore : Drive.outw w ⟨disk, .receiving sector sent job⟩ =
          ⟨disk, .receiving sector (sent ++ [w]) job⟩ :=
        if_neg (by rw [List.length_cons] at hlen; omega)
      rw [hmore] at hserves
      obtain ⟨s', hrest, hserves⟩ := ih (List.cons_ne_nil _ _)
        (by rw [List.length_append, List.length_singleton]; omega) hserves
      rw [List.append_assoc] at hserves
      exact ⟨s', hrest, hserves⟩

end ATABus

end Port

/-! ## The sectors of a command -/

theorem overwrite_nil (buffer : List Byte) (offset : ℕ) :
    ATABus.overwrite buffer offset [] = buffer := by
  simp [ATABus.overwrite]

theorem length_overwrite {buffer bytes : List Byte} {offset : ℕ}
    (h : offset + bytes.length ≤ buffer.length) :
    (ATABus.overwrite buffer offset bytes).length = buffer.length := by
  simp only [ATABus.overwrite, List.length_append, List.length_take, List.length_drop]
  omega

theorem overwrite_append {buffer first second : List Byte} {offset : ℕ}
    (h : offset ≤ buffer.length) :
    ATABus.overwrite (ATABus.overwrite buffer offset first) (offset + first.length) second =
      ATABus.overwrite buffer offset (first ++ second) := by
  have hlen : (buffer.take offset ++ first).length = offset + first.length := by
    rw [List.length_append, List.length_take, Nat.min_eq_left h]
  have htake : (ATABus.overwrite buffer offset first).take (offset + first.length) =
      buffer.take offset ++ first := by
    rw [ATABus.overwrite, ← hlen, List.take_left']
    rfl
  have hdrop : (ATABus.overwrite buffer offset first).drop (offset + first.length + second.length) =
      buffer.drop (offset + (first ++ second).length) := by
    rw [ATABus.overwrite, ← hlen, ← List.drop_drop, List.drop_left' rfl, List.drop_drop, hlen,
      List.length_append, Nat.add_assoc]
  rw [ATABus.overwrite, htake, hdrop, ATABus.overwrite, List.append_assoc (List.take offset buffer)]

/-- Sectors are written one after the other, up to the first that cannot be. Nobody asks what has
become of the last one. -/
def Disk.writeSectors (disk : Disk) (sector : ℕ) : ℕ → List Byte → Except Fault Unit × Disk
  | 0, _ => (.ok (), disk)
  | left + 1, buffer =>
    match disk.writes sector with
    | .stored =>
      (disk.store sector (buffer.take sectorSize)).writeSectors (sector + 1) left
        (buffer.drop sectorSize)
    | .refused => (.error .err, disk)
    | .lost => (if left = 0 then .ok () else .error .err, disk)

theorem two_mul_offset (offset : ℕ) : 2 * (offset + sectorWords) = 2 * offset + sectorSize :=
  Nat.mul_add 2 offset sectorWords

section Transfers

variable {σ : Type} {hw : Ports σ} {view : σ → Channel} {wait : σ → ℕ} (H : hw.Obeys view wait)
  {D : ATADriveType → Option Disk} {t : ATADriveType} {s : σ} {disk : Disk} {d : Drive}
  {sector left offset : ℕ} {buffer : List Byte}
include H

theorem transfer_sector_read (hreads : disk.reads sector = true)
    (hd : d.settled = ⟨disk, disk.proceed (.sectors .read sector (left + 1))⟩)
    (h : Serves D t (view s) d) :
    ∃ s₁ s₂, Settles (ATABus.waitForDriveReady hw) s (.ok ()) s₁ ∧
      ATABus.insw hw sectorWords s₁ = (.ok (wordsOf (disk.bytes sector)), s₂) ∧
      Serves D t (view s₂) ⟨disk, Drive.afterSending (.sectors .read (sector + 1) left)⟩ := by
  replace hd : d.settled =
      ⟨disk, .sending (wordsOf (disk.bytes sector)) (.sectors .read (sector + 1) left)⟩ :=
    hd.trans (congrArg (Drive.mk disk) (if_pos hreads))
  obtain ⟨s₁, hready, hserves⟩ := ATABus.waitForDriveReady_ok H h (by rw [hd]; trivial)
  rw [hd] at hserves
  have hne : wordsOf (disk.bytes sector) ≠ [] := by
    rw [← List.length_pos_iff, Disk.length_words]
    decide
  obtain ⟨s₂, hinsw, hserves⟩ := ATABus.insw_apply H hne hserves
  rw [Disk.length_words] at hinsw
  exact ⟨s₁, s₂, hready, hinsw, hserves⟩

/-- **The loop of a read** gives the bytes of the sectors, or an error if one cannot be read. The
drive is idle then. -/
theorem transfer_read (hd : d.settled = ⟨disk, disk.proceed (.sectors .read sector left)⟩)
    (hlen : 2 * offset + sectorSize * left ≤ buffer.length) (h : Serves D t (view s) d) :
    ∃ s' d' failed, Settles (fun fuel => ATABus.transfer hw fuel .read left offset buffer) s
        (if (List.range' sector left).all disk.reads then
          .ok (ATABus.overwrite buffer (2 * offset)
            (window disk.medium (sectorSize * sector) (sectorSize * left)))
        else .error .err) s' ∧
      Serves D t (view s') d' ∧ d'.settled = ⟨disk, .idle failed⟩ := by
  induction left generalizing s d sector offset buffer with
  | zero =>
    refine ⟨s, d, false, ?_, h, hd⟩
    rw [Nat.mul_zero]
    show Settles _ s (.ok (ATABus.overwrite buffer (2 * offset) [])) s
    rw [overwrite_nil]
    exact .of_forall fun fuel => rfl
  | succ left ih =>
    replace hlen : 2 * offset + sectorSize + sectorSize * left ≤ buffer.length := by
      rw [Nat.mul_succ] at hlen
      omega
    rw [List.range'_succ, List.all_cons]
    by_cases hreads : disk.reads sector = true
    · obtain ⟨s₁, s₂, hready, hinsw, hserves⟩ := transfer_sector_read H hreads hd h
      have hbytes : disk.bytes sector ++
          window disk.medium (sectorSize * (sector + 1)) (sectorSize * left) =
          window disk.medium (sectorSize * sector) (sectorSize * (left + 1)) := by
        rw [Disk.bytes, Nat.mul_succ sectorSize sector, window_append, Nat.mul_succ, Nat.add_comm]
      have hpiece : 2 * offset + (disk.bytes sector).length ≤ buffer.length := by
        rw [disk.length_bytes]
        exact le_trans (Nat.le_add_right _ _) hlen
      have hlen' : 2 * (offset + sectorWords) + sectorSize * left ≤
          (ATABus.overwrite buffer (2 * offset) (disk.bytes sector)).length := by
        rwa [length_overwrite hpiece, two_mul_offset]
      have hnext : Drive.settled ⟨disk, Drive.afterSending (.sectors .read (sector + 1) left)⟩ =
          ⟨disk, disk.proceed (.sectors .read (sector + 1) left)⟩ := by
        cases left <;> rfl
      obtain ⟨s', d', failed, hrest, hserves, hidle⟩ := ih hnext hlen' hserves
      refine ⟨s', d', failed, ?_, hserves, hidle⟩
      rw [two_mul_offset, ← disk.length_bytes sector,
        overwrite_append (le_trans (Nat.le_add_right _ _) hpiece), disk.length_bytes sector,
        hbytes] at hrest
      rw [hreads, Bool.true_and]
      refine .bind hready ((Settles.of_forall fun _ => hinsw).bind ?_)
      rw [Disk.bytesOf_bytes]
      exact hrest
    · replace hd : d.settled = ⟨disk, .idle true⟩ :=
        hd.trans (congrArg (Drive.mk disk) (if_neg hreads))
      obtain ⟨s', herr, hserves⟩ := ATABus.waitForDriveReady_err H h (by rw [hd])
      refine ⟨s', d.settled, true, ?_, hserves, d.settled_settled.trans hd⟩
      rw [Bool.eq_false_of_not_eq_true hreads]
      exact herr.bind_error

theorem transfer_sector_write (hwrites : disk.writes sector ≠ .refused)
    (hd : d.settled = ⟨disk, disk.proceed (.sectors .write sector (left + 1))⟩)
    (hlen : 2 * offset + sectorSize ≤ buffer.length) (h : Serves D t (view s) d) :
    ∃ s₁ s₂, Settles (ATABus.waitForDriveReady hw) s (.ok ()) s₁ ∧
      ATABus.outsw hw (wordsOf ((buffer.drop (2 * offset)).take sectorSize)) s₁ = (.ok (), s₂) ∧
      Serves D t (view s₂) ⟨disk, .busy (some (sector, (buffer.drop (2 * offset)).take sectorSize))
        (.sectors .write (sector + 1) left)⟩ := by
  have hpiece : ((buffer.drop (2 * offset)).take sectorSize).length = sectorSize := by
    rw [List.length_take, List.length_drop]
    omega
  replace hd : d.settled = ⟨disk, .receiving sector [] (.sectors .write (sector + 1) left)⟩ :=
    hd.trans (congrArg (Drive.mk disk) (if_neg hwrites))
  obtain ⟨s₁, hready, hserves⟩ := ATABus.waitForDriveReady_ok H h (by rw [hd]; trivial)
  rw [hd] at hserves
  have hwords : (wordsOf ((buffer.drop (2 * offset)).take sectorSize)).length = sectorWords := by
    rw [length_wordsOf, hpiece]
    rfl
  have hne : wordsOf ((buffer.drop (2 * offset)).take sectorSize) ≠ [] := by
    rw [← List.length_pos_iff, hwords]
    decide
  obtain ⟨s₂, houtsw, hserves⟩ :=
    ATABus.outsw_apply H hne (by rw [hwords, List.length_nil, Nat.zero_add]) hserves
  rw [List.nil_append, bytesOf_wordsOf (by rw [hpiece]; decide)] at hserves
  exact ⟨s₁, s₂, hready, houtsw, hserves⟩

/-- **The loop of a write** sends the sectors of the buffer, up to the first that cannot be written.
The last one is still being written then. -/
theorem transfer_write (hd : d.settled = ⟨disk, disk.proceed (.sectors .write sector left)⟩)
    (hlen : 2 * offset + sectorSize * left ≤ buffer.length) (h : Serves D t (view s) d) :
    ∃ s' d' failed, Settles (fun fuel => ATABus.transfer hw fuel .write left offset buffer) s
        ((disk.writeSectors sector left (buffer.drop (2 * offset))).1.map fun _ => buffer) s' ∧
      Serves D t (view s') d' ∧ d'.settled =
        ⟨(disk.writeSectors sector left (buffer.drop (2 * offset))).2, .idle failed⟩ := by
  induction left generalizing s d disk sector offset with
  | zero => exact ⟨s, d, false, .of_forall fun _ => rfl, h, hd⟩
  | succ left ih =>
    replace hlen : 2 * offset + sectorSize + sectorSize * left ≤ buffer.length := by
      rw [Nat.mul_succ] at hlen
      omega
    have hpiece : 2 * offset + sectorSize ≤ buffer.length := le_trans (Nat.le_add_right _ _) hlen
    rw [Disk.writeSectors]
    cases hwrites : disk.writes sector with
    | stored =>
      obtain ⟨s₁, s₂, hready, houtsw, hserves⟩ :=
        transfer_sector_write H (by rw [hwrites]; decide) hd hpiece h
      have hnext : Drive.settled ⟨disk, .busy
          (some (sector, (buffer.drop (2 * offset)).take sectorSize))
          (.sectors .write (sector + 1) left)⟩ = _ := if_neg (by rw [hwrites]; decide)
      obtain ⟨s', d', failed, hrest, hserves, hidle⟩ :=
        ih hnext (by rwa [two_mul_offset]) hserves
      rw [two_mul_offset, ← List.drop_drop] at hrest hidle
      exact ⟨s', d', failed, .bind hready ((Settles.of_forall fun _ => houtsw).bind hrest), hserves,
        hidle⟩
    | refused =>
      replace hd : d.settled = ⟨disk, .idle true⟩ :=
        hd.trans (congrArg (Drive.mk disk) (if_pos hwrites))
      obtain ⟨s', herr, hserves⟩ := ATABus.waitForDriveReady_err H h (by rw [hd])
      exact ⟨s', d.settled, true, herr.bind_error, hserves, d.settled_settled.trans hd⟩
    | lost =>
      obtain ⟨s₁, s₂, hready, houtsw, hserves⟩ :=
        transfer_sector_write H (by rw [hwrites]; decide) hd hpiece h
      have hnext : Drive.settled ⟨disk, .busy
          (some (sector, (buffer.drop (2 * offset)).take sectorSize))
          (.sectors .write (sector + 1) left)⟩ = ⟨disk, .idle true⟩ := if_pos hwrites
      cases left with
      | zero =>
        exact ⟨s₂, _, true, .bind hready ((Settles.of_forall fun _ => houtsw).bind
          (.of_forall fun _ => rfl)), hserves, hnext⟩
      | succ left =>
        -- the wait for the next sector sees the error
        obtain ⟨s', herr, hserves⟩ := ATABus.waitForDriveReady_err H hserves (by rw [hnext])
        exact ⟨s', _, true, .bind hready ((Settles.of_forall fun _ => houtsw).bind
          herr.bind_error), hserves, (Drive.settled_settled _).trans hnext⟩

end Transfers

/-! ## Commands -/

theorem outs_append {σ : Type} {hw : Ports σ} (first second : List RegisterWrite) {s s' : σ}
    (h : ATABus.outs hw first s = (.ok (), s')) :
    ATABus.outs hw (first ++ second) s = ATABus.outs hw second s' := by
  induction first generalizing s with
  | nil =>
    obtain ⟨-, rfl⟩ := Prod.mk.inj h
    rfl
  | cons w first ih => exact ih h

/-- What a drive reads off the writes is the request of the command on the registers as they are
left. -/
theorem decode_append {writes : List RegisterWrite}
    (h : ∀ w ∈ writes, w.1 ≠ .commandAndStatus) (r : Registers) (b : Byte) :
    r.decode (writes ++ [(.commandAndStatus, b)]) = (writes.foldl put r).request b := by
  induction writes generalizing r with
  | nil => rfl
  | cons w writes ih =>
    have hrest := fun r => ih (fun w hw => h w (List.mem_cons_of_mem _ hw)) r
    obtain ⟨register, b'⟩ := w
    cases register with
    | commandAndStatus => exact absurd rfl (h _ List.mem_cons_self)
    | sectorCount0 | lba0 | lba1 | lba2 | deviceSelect => exact hrest _

theorem drive_of_request {r : Registers} {b : Byte} {q : Request} (h : r.request b = some q) :
    r.drive = q.drive := by
  unfold Registers.request at h
  split_ifs at h <;> obtain rfl := Option.some.inj h <;> rfl

theorem exists_writes (t : ATADriveType) (sector n : ℕ) (direction : ATADriveDirection) :
    ∃ writes b, Storage.ATABus.writes t sector n direction = writes ++ [(.commandAndStatus, b)] ∧
      (∀ w ∈ writes, w.1 ≠ .commandAndStatus) ∧ b ≠ identifyCommand := by
  unfold Storage.ATABus.writes
  dsimp only
  split_ifs with h <;> cases direction
  · exact ⟨[_, _, _, _, _, _, _, _, _], 0x24, rfl, by simp [Storage.ATABus.select], by decide⟩
  · exact ⟨[_, _, _, _, _, _, _, _, _], 0x34, rfl, by simp [Storage.ATABus.select], by decide⟩
  · exact ⟨[_, _, _, _, _], 0x20, rfl, by simp [Storage.ATABus.select], by decide⟩
  · exact ⟨[_, _, _, _, _], 0x30, rfl, by simp [Storage.ATABus.select], by decide⟩

section Commands

variable {σ : Type} {hw : Ports σ} {view : σ → Channel} {wait : σ → ℕ} (H : hw.Obeys view wait)
  {D : ATADriveType → Option Disk} {t : ATADriveType} {s : σ} {disk : Disk}
include H

/-- Drives that rest take the writes of registers before a command. -/
theorem outs_apply {writes : List RegisterWrite} (hwrites : ∀ w ∈ writes, w.1 ≠ .commandAndStatus)
    (h : AllRest D (view s)) : ∃ s', ATABus.outs hw writes s = (.ok (), s') ∧
      AllRest D (view s') ∧ (view s').registers = writes.foldl put (view s).registers := by
  induction writes generalizing s with
  | nil => exact ⟨s, rfl, h, rfl⟩
  | cons w writes ih =>
    have hlater := H.write s w (hwrites w List.mem_cons_self) h.idle
    have hput : AllRest D { view s with registers := put (view s).registers w } := h
    have hregisters := hlater.registers hput.not_working
    obtain ⟨s', hrest, hall, hr⟩ :=
      ih (fun w hw => hwrites w (List.mem_cons_of_mem _ hw)) (hput.aged hlater.toAged)
    rw [hregisters] at hr
    exact ⟨s', hrest, hall, hr⟩

/-- A drive that rests takes up what the driver asks it for. -/
theorem access_serves (h : AllRest D (view s)) (hd : D t = some disk) (sector n : ℕ)
    (direction : ATADriveDirection) :
    ∃ s', ATABus.outs hw (Storage.ATABus.writes t sector n direction) s = (.ok (), s') ∧
      Serves D t (view s') ⟨disk, .busy none
        (.sectors direction (lba sector) (countOf (countWidth sector) n))⟩ := by
  obtain ⟨writes, b, hwrites, hpre, hb⟩ := exists_writes t sector n direction
  have hdecode := decode_writes (view s).registers t sector n direction
  rw [hwrites, decode_append hpre] at hdecode
  obtain ⟨s₁, houts, hall, hregisters⟩ := outs_apply H hpre h
  rw [← hregisters] at hdecode
  obtain ⟨failed, hrest⟩ := hall t
  rw [hd, Option.map_some] at hrest
  have hserves : Serves D t (view s₁) ⟨disk, .idle failed⟩ :=
    ⟨drive_of_request hdecode, .inl hrest, fun u _ => hall u⟩
  have hcommand : (view s₁).command b = (view s₁).next ⟨disk, .busy none
      (.sectors direction (lba sector) (countOf (countWidth sector) n))⟩ := by
    rw [Channel.command, hserves.selected rfl]
    dsimp only
    rw [if_neg hb, hdecode]
  have hlater := H.command s₁ b hall.idle
  rw [hcommand] at hlater
  refine ⟨hw.outb (.commandAndStatus, b) s₁, ?_, (hserves.next _).aged hlater.toAged⟩
  rw [hwrites, outs_append _ _ houts]
  rfl

end Commands

end CappuccinOS.Storage.Pio
