import CappuccinOS.Acpi.Tables

/-!
# The records of the MADT (`arch/x86_64/interrupts/apic.rs`)

Behind its two fields the MADT is a sequence of records. `APIC::new` goes through them by the length
byte that each has; a record of length zero keeps it where it is.

1. `readRecord`, `recordLoop` and `APIC.records` are the part of `APIC::new` that reads the table;
2. `Record` is a record of the format, `encode` its bytes and `apply` what it is to do;
   `recordLoop_encode` says that the loop does this for each record of a sequence;
3. `Reached` are the places that the walk comes to, on any bytes; `ends_iff` says when it ends;
4. `records_iff` puts both together.
-/

namespace CappuccinOS.Acpi

structure LAPIC where
  acpiProcessorId : Byte
  apicId : Byte
  flags : ℕ
  deriving DecidableEq

structure IOAPIC where
  ioapicId : Byte
  reserved : Byte
  ptr : ℕ
  globalInterruptBase : ℕ
  deriving DecidableEq

structure IOAPICSourceOverride where
  busSource : Byte
  irqSource : Byte
  globalSystemInterrupt : ℕ
  flags : ℕ
  deriving DecidableEq

/-- The variables that the loop of `APIC::new` sets. -/
structure Records where
  lapicPtr : ℕ
  ioApic : Option IOAPIC
  ioApicSourceOverride : Option IOAPICSourceOverride
  cpus : List LAPIC
  deriving DecidableEq

section Source

variable (p : Profile) (mem : ℕ → Byte) (hhdm : ℕ)

/-- The record at `ptr`. -/
def readRecord (ptr : ℕ) (r : Records) : Except Fault Records :=
  if mem ptr = 0#8 then
    if mem (ptr + 4) &&& 1#8 ≠ 0#8 then
      .ok { r with
        cpus := r.cpus ++ [⟨mem (ptr + 2), mem (ptr + 3), leNat (window mem (ptr + 4) 4)⟩] }
    else .ok r
  else if mem ptr = 1#8 then do
    let address ← arith (p.add (leNat (window mem (ptr + 4) 4)) hhdm)
    .ok { r with
      ioApic := some
        ⟨mem (ptr + 2), mem (ptr + 3), address, leNat (window mem (ptr + 8) 4)⟩ }
  else if mem ptr = 2#8 then
    .ok { r with
      ioApicSourceOverride := some
        ⟨mem (ptr + 2), mem (ptr + 3), leNat (window mem (ptr + 4) 4),
          leNat (window mem (ptr + 8) 2)⟩ }
  else if mem ptr = 5#8 then do
    let address ← arith (p.add (leNat (window mem (ptr + 4) 8)) hhdm)
    .ok { r with lapicPtr := address }
  else .ok r

/-- The loop of `APIC::new`. -/
def recordLoop (ptrEnd : ℕ) : ℕ → ℕ → Records → Except Fault Records
  | 0, _, _ => .error .fuel
  | turns + 1, ptr, r =>
    if ptr < ptrEnd then do
      let r ← readRecord p mem hhdm ptr r
      recordLoop ptrEnd turns (ptr + (mem (ptr + 1)).toNat) r
    else .ok r

/-- `APIC::new`, from the table on to the end of the loop. -/
def APIC.records (madt : SDT) (turns : ℕ) : Except Fault Records := do
  let lapicPtr ← arith (p.add (leNat (window mem madt.inner 4)) hhdm)
  match madt.extra with
  | none => .error (.panic .unwrap)
  | some (ptr, _) => do
    let size ← arith (p.sub (tableLength mem madt.header) 44)
    recordLoop p mem hhdm (ptr + size) turns ptr ⟨lapicPtr, none, none, []⟩

end Source

/-! ## Records -/

/-- A record of the format. Of the types that the code has no use for only the size counts. -/
inductive Record
  | processor (id apicId : Byte) (flags : BitVec 32)
  | ioApic (id reserved : Byte) (address base : BitVec 32)
  | sourceOverride (bus irq : Byte) (interrupt : BitVec 32) (flags : BitVec 16)
  | lapicAddress (reserved : Byte × Byte) (address : BitVec 64)
  | other (type : Byte) (body : List Byte) (type_ne : type ∉ [0#8, 1#8, 2#8, 5#8])
      (body_le : body.length ≤ 253)

namespace Record

def type : Record → Byte
  | processor .. => 0#8
  | ioApic .. => 1#8
  | sourceOverride .. => 2#8
  | lapicAddress .. => 5#8
  | other type .. => type

/-- What follows the type and the length. -/
def body : Record → List Byte
  | processor id apicId flags => [id, apicId] ++ leBytes 4 flags.toNat
  | ioApic id reserved address base =>
    [id, reserved] ++ leBytes 4 address.toNat ++ leBytes 4 base.toNat
  | sourceOverride bus irq interrupt flags =>
    [bus, irq] ++ leBytes 4 interrupt.toNat ++ leBytes 2 flags.toNat
  | lapicAddress reserved address => [reserved.1, reserved.2] ++ leBytes 8 address.toNat
  | other _ body _ _ => body

def encode (r : Record) : List Byte := r.type :: .ofNat 8 (r.body.length + 2) :: r.body

theorem body_length_le (r : Record) : r.body.length ≤ 253 := by
  cases r with
  | other type body hne hle => exact hle
  | _ => simp [body]

theorem length_encode (r : Record) : r.encode.length = r.body.length + 2 := rfl

/-- The processor of a record, when it is enabled. -/
def cpu : Record → Option LAPIC
  | processor id apicId flags =>
    if flags.toNat % 2 = 1 then some ⟨id, apicId, flags.toNat⟩ else none
  | _ => none

/-- The address that replaces the one of the header. -/
def lapic : Record → Option ℕ
  | lapicAddress _ address => some address.toNat
  | _ => none

/-- What a record is to do. -/
def apply (p : Profile) (hhdm : ℕ) (s : Records) : Record → Except Fault Records
  | processor id apicId flags =>
    .ok { s with cpus := s.cpus ++ ((processor id apicId flags).cpu).toList }
  | ioApic id reserved address base => do
    let address ← arith (p.add address.toNat hhdm)
    .ok { s with ioApic := some ⟨id, reserved, address, base.toNat⟩ }
  | sourceOverride bus irq interrupt flags =>
    .ok { s with ioApicSourceOverride := some ⟨bus, irq, interrupt.toNat, flags.toNat⟩ }
  | lapicAddress _ address => do
    let address ← arith (p.add address.toNat hhdm)
    .ok { s with lapicPtr := address }
  | other .. => .ok s

end Record

/-! ## A record in memory -/

section Loop

variable {p : Profile} {mem : ℕ → Byte} {hhdm ptr : ℕ}

theorem mem_of_window {l : List Byte} {i : ℕ} {b : Byte} (h : window mem ptr l.length = l)
    (hi : l[i]? = some b) : mem (ptr + i) = b := by
  obtain ⟨hlt, -⟩ := List.getElem?_eq_some_iff.mp hi
  rw [← h] at hi
  simp only [window, List.getElem?_map] at hi
  rw [List.getElem?_range' hlt, Nat.one_mul] at hi
  exact Option.some.inj hi

theorem window_of_window {l : List Byte} {i n : ℕ} (h : window mem ptr l.length = l)
    (hi : i + n ≤ l.length) : window mem (ptr + i) n = (l.drop i).take n := by
  rw [← take_window mem (show n ≤ l.length - i by omega), ← drop_window, h]

theorem leNat_window {l : List Byte} {i n v : ℕ} (h : window mem ptr l.length = l)
    (hl : (l.drop i).take n = leBytes n v) (hi : i + n ≤ l.length) (hv : v < 256 ^ n) :
    leNat (window mem (ptr + i) n) = v := by
  rw [window_of_window h hi, hl, leNat_leBytes, Nat.mod_eq_of_lt hv]

theorem and_one_ne_zero (v : ℕ) : BitVec.ofNat 8 v &&& 1#8 ≠ 0#8 ↔ v % 2 = 1 := by
  have hone : (BitVec.ofNat 8 v &&& 1#8).toNat = v % 2 := by
    rw [BitVec.toNat_and, BitVec.toNat_ofNat, show (1#8).toNat = 2 ^ 1 - 1 from rfl,
      Nat.and_two_pow_sub_one_eq_mod]
    omega
  rw [Ne, ← BitVec.toNat_inj, hone, show (0#8).toNat = 0 from rfl]
  omega

/-- Where a record of the format lies, the loop does what the record is to do. -/
theorem readRecord_encode {r : Record} (h : window mem ptr r.encode.length = r.encode)
    (s : Records) : readRecord p mem hhdm ptr s = r.apply p hhdm s := by
  unfold readRecord
  cases r with
  | processor id apicId flags =>
    have htype : mem ptr = 0#8 := mem_of_window h (i := 0) rfl
    have hid : mem (ptr + 2) = id := mem_of_window h rfl
    have hapic : mem (ptr + 3) = apicId := mem_of_window h rfl
    have hbit : mem (ptr + 4) = .ofNat 8 flags.toNat := mem_of_window h rfl
    have hflags : leNat (window mem (ptr + 4) 4) = flags.toNat :=
      leNat_window h rfl le_rfl flags.isLt
    rw [if_pos htype, hid, hapic, hbit, hflags, Record.apply, Record.cpu]
    simp only [and_one_ne_zero]
    split_ifs
    · rfl
    · rw [Option.toList_none, List.append_nil]
  | ioApic id reserved address base =>
    have hlen : (Record.ioApic id reserved address base).encode.length = 12 := rfl
    have htype : mem ptr = 1#8 := mem_of_window h (i := 0) rfl
    have hid : mem (ptr + 2) = id := mem_of_window h rfl
    have hreserved : mem (ptr + 3) = reserved := mem_of_window h rfl
    have haddress : leNat (window mem (ptr + 4) 4) = address.toNat :=
      leNat_window h rfl (by omega) address.isLt
    have hbase : leNat (window mem (ptr + 8) 4) = base.toNat :=
      leNat_window h rfl le_rfl base.isLt
    rw [htype, if_neg (by decide), if_pos rfl, hid, hreserved, haddress, hbase]
    rfl
  | sourceOverride bus irq interrupt flags =>
    have hlen : (Record.sourceOverride bus irq interrupt flags).encode.length = 10 := rfl
    have htype : mem ptr = 2#8 := mem_of_window h (i := 0) rfl
    have hbus : mem (ptr + 2) = bus := mem_of_window h rfl
    have hirq : mem (ptr + 3) = irq := mem_of_window h rfl
    have hinterrupt : leNat (window mem (ptr + 4) 4) = interrupt.toNat :=
      leNat_window h rfl (by omega) interrupt.isLt
    have hflags : leNat (window mem (ptr + 8) 2) = flags.toNat :=
      leNat_window h rfl le_rfl flags.isLt
    rw [htype, if_neg (by decide), if_neg (by decide), if_pos rfl, hbus, hirq, hinterrupt, hflags]
    rfl
  | lapicAddress reserved address =>
    have htype : mem ptr = 5#8 := mem_of_window h (i := 0) rfl
    have haddress : leNat (window mem (ptr + 4) 8) = address.toNat :=
      leNat_window h rfl le_rfl address.isLt
    rw [htype, if_neg (by decide), if_neg (by decide), if_neg (by decide), if_pos rfl, haddress]
    rfl
  | other type body hne hle =>
    have htype : mem ptr = type := mem_of_window h (i := 0) rfl
    simp only [List.mem_cons, List.not_mem_nil, or_false, not_or] at hne
    obtain ⟨h0, h1, h2, h5⟩ := hne
    rw [htype]
    exact (if_neg h0).trans ((if_neg h1).trans ((if_neg h2).trans (if_neg h5)))

theorem length_byte {r : Record} (h : window mem ptr r.encode.length = r.encode) :
    (mem (ptr + 1)).toNat = r.encode.length := by
  have hle := r.body_length_le
  have hbyte : mem (ptr + 1) = .ofNat 8 (r.body.length + 2) := mem_of_window h rfl
  rw [hbyte, BitVec.toNat_ofNat, r.length_encode]
  omega

theorem recordLoop_encode (rs : List Record) {s : Records}
    (h : window mem ptr (rs.flatMap Record.encode).length = rs.flatMap Record.encode) :
    recordLoop p mem hhdm (ptr + (rs.flatMap Record.encode).length) (rs.length + 1) ptr s =
      rs.foldlM (Record.apply p hhdm) s := by
  induction rs generalizing ptr s with
  | nil => exact if_neg (by simp)
  | cons r rs ih =>
    rw [List.flatMap_cons, List.length_append] at h ⊢
    have hlen := r.length_encode
    have hfirst : window mem ptr r.encode.length = r.encode := by
      rw [← take_window mem (Nat.le_add_right _ (rs.flatMap Record.encode).length), h,
        List.take_left]
    have hrest : window mem (ptr + r.encode.length) (rs.flatMap Record.encode).length =
        rs.flatMap Record.encode := by
      have hdrop := drop_window mem ptr (r.encode.length + (rs.flatMap Record.encode).length)
        r.encode.length
      rw [h, List.drop_left, Nat.add_sub_cancel_left] at hdrop
      exact hdrop.symm
    rw [List.length_cons, recordLoop, if_pos (by omega), readRecord_encode hfirst,
      length_byte hfirst, List.foldlM_cons, ← Nat.add_assoc]
    cases r.apply p hhdm s with
    | error f => rfl
    | ok s' => exact ih hrest

/-! ## What a sequence of records gives -/

theorem add_eq_mod {a : ℕ} (h : p = .dev → a + hhdm < wordSize) :
    p.add a hhdm = .ok ((a + hhdm) % wordSize) := by
  cases p with
  | dev => rw [Profile.add_of_lt _ (h rfl), Nat.mod_eq_of_lt (h rfl)]
  | release => exact Profile.add_release a hhdm

theorem apply_ne_fuel (s : Records) (r : Record) : r.apply p hhdm s ≠ .error .fuel := by
  cases r with
  | ioApic id reserved address base => exact bind_ne_fuel (arith_ne_fuel _) fun _ => nofun
  | lapicAddress reserved address => exact bind_ne_fuel (arith_ne_fuel _) fun _ => nofun
  | _ => exact nofun

theorem foldlM_ne_fuel (rs : List Record) (s : Records) :
    rs.foldlM (Record.apply p hhdm) s ≠ .error .fuel := by
  induction rs generalizing s with
  | nil => exact nofun
  | cons r rs ih =>
    rw [List.foldlM_cons]
    exact bind_ne_fuel (apply_ne_fuel s r) ih

/-- The local APIC addresses of a sequence are in the direct map. -/
def Fits (p : Profile) (hhdm : ℕ) (rs : List Record) : Prop :=
  p = .dev → ∀ a ∈ rs.filterMap Record.lapic, a + hhdm < wordSize

/-- The address that a sequence leaves, from that of the header. -/
def lapicOf (rs : List Record) (address : ℕ) : ℕ :=
  (rs.filterMap Record.lapic).getLast?.getD address

theorem apply_eq (hle : hhdm + 2 ^ 32 ≤ wordSize) {r : Record} (hfit : Fits p hhdm [r])
    (s : Records) : ∃ s', r.apply p hhdm s = .ok s' ∧ s'.cpus = s.cpus ++ r.cpu.toList ∧
      s'.lapicPtr = r.lapic.elim s.lapicPtr fun a => (a + hhdm) % wordSize := by
  cases r with
  | processor id apicId flags => exact ⟨_, rfl, rfl, rfl⟩
  | ioApic id reserved address base =>
    have hlt := address.isLt
    have hadd := p.add_of_lt (show address.toNat + hhdm < wordSize by omega)
    refine ⟨_, bind_eq_ok.mpr ⟨_, arith_eq_ok.mpr hadd, rfl⟩, ?_, rfl⟩
    exact (List.append_nil _).symm
  | sourceOverride bus irq interrupt flags => exact ⟨_, rfl, (List.append_nil _).symm, rfl⟩
  | lapicAddress reserved address =>
    have hadd := add_eq_mod fun hp => hfit hp address.toNat List.mem_cons_self
    exact ⟨_, bind_eq_ok.mpr ⟨_, arith_eq_ok.mpr hadd, rfl⟩, (List.append_nil _).symm, rfl⟩
  | other type body hne hbody => exact ⟨_, rfl, (List.append_nil _).symm, rfl⟩

theorem fits_cons {r : Record} {rs : List Record} :
    Fits p hhdm (r :: rs) ↔ Fits p hhdm [r] ∧ Fits p hhdm rs := by
  have hsplit : (r :: rs).filterMap Record.lapic =
      [r].filterMap Record.lapic ++ rs.filterMap Record.lapic := by
    rw [← List.filterMap_append, List.singleton_append]
  unfold Fits
  rw [hsplit]
  constructor
  · intro h
    exact ⟨fun hp a ha => h hp a (List.mem_append_left _ ha),
      fun hp a ha => h hp a (List.mem_append_right _ ha)⟩
  · rintro ⟨hfirst, hrest⟩ hp a ha
    rcases List.mem_append.mp ha with ha | ha
    · exact hfirst hp a ha
    · exact hrest hp a ha

theorem lapicOf_cons (r : Record) (rs : List Record) (address : ℕ) :
    lapicOf (r :: rs) address = lapicOf rs (r.lapic.elim address id) := by
  unfold lapicOf
  rw [List.filterMap_cons]
  cases r.lapic with
  | none => rfl
  | some a =>
    dsimp only
    rw [List.getLast?_cons]
    rfl

theorem foldlM_eq (hle : hhdm + 2 ^ 32 ≤ wordSize) {rs : List Record} (hfit : Fits p hhdm rs)
    {s : Records} {address : ℕ} (hs : s.lapicPtr = (address + hhdm) % wordSize) :
    ∃ s', rs.foldlM (Record.apply p hhdm) s = .ok s' ∧
      s'.cpus = s.cpus ++ rs.filterMap Record.cpu ∧
      s'.lapicPtr = (lapicOf rs address + hhdm) % wordSize := by
  induction rs generalizing s address with
  | nil => exact ⟨s, rfl, (List.append_nil _).symm, hs⟩
  | cons r rs ih =>
    obtain ⟨hfirst, hrest⟩ := fits_cons.mp hfit
    obtain ⟨s1, happly, hcpus, hlapic⟩ := apply_eq hle hfirst s
    have hs1 : s1.lapicPtr = (r.lapic.elim address id + hhdm) % wordSize := by
      rw [hlapic]
      cases r.lapic with
      | none => exact hs
      | some a => rfl
    obtain ⟨s2, hfold, hcpus2, hlapic2⟩ := ih hrest hs1
    refine ⟨s2, ?_, ?_, ?_⟩
    · rw [List.foldlM_cons]
      exact bind_eq_ok.mpr ⟨s1, happly, hfold⟩
    · rw [hcpus2, hcpus, List.append_assoc, List.filterMap_cons]
      cases r.cpu <;> rfl
    · rw [hlapic2, lapicOf_cons]

/-- In the `dev` profile a sequence that is gone through has no address above the direct map. -/
theorem fits_of_foldlM {rs : List Record} {s s' : Records}
    (h : rs.foldlM (Record.apply p hhdm) s = .ok s') : Fits p hhdm rs := by
  induction rs generalizing s with
  | nil => exact fun _ a ha => absurd ha List.not_mem_nil
  | cons r rs ih =>
    rw [List.foldlM_cons] at h
    obtain ⟨s1, happly, hfold⟩ := bind_eq_ok.mp h
    refine fits_cons.mpr ⟨?_, ih hfold⟩
    rintro rfl a ha
    cases r with
    | lapicAddress reserved address =>
      obtain ⟨v, hadd, -⟩ := bind_eq_ok.mp happly
      obtain rfl := List.mem_singleton.mp ha
      exact (Profile.add_dev_eq_ok.mp (arith_eq_ok.mp hadd)).2
    | _ => cases ha

/-! ## Any bytes -/

/-- A record at which the `dev` profile panics. -/
def Overflows (p : Profile) (mem : ℕ → Byte) (hhdm ptr : ℕ) : Prop :=
  p = .dev ∧ mem ptr = 5#8 ∧ wordSize ≤ leNat (window mem (ptr + 4) 8) + hhdm

/-- The places that the walk comes to from `start`. -/
inductive Reached (p : Profile) (mem : ℕ → Byte) (hhdm ptrEnd start : ℕ) : ℕ → Prop
  | start : Reached p mem hhdm ptrEnd start start
  | next {ptr : ℕ} (h : Reached p mem hhdm ptrEnd start ptr) (hlt : ptr < ptrEnd)
      (hread : ¬ Overflows p mem hhdm ptr) :
      Reached p mem hhdm ptrEnd start (ptr + (mem (ptr + 1)).toNat)

/-- Every record of length zero that the walk comes to is one at which it panics. -/
def NeverStalls (p : Profile) (mem : ℕ → Byte) (hhdm ptrEnd start : ℕ) : Prop :=
  ∀ ptr, Reached p mem hhdm ptrEnd start ptr → ptr < ptrEnd → mem (ptr + 1) = 0#8 →
    Overflows p mem hhdm ptr

theorem readRecord_of_overflows (h : Overflows p mem hhdm ptr) (s : Records) :
    readRecord p mem hhdm ptr s = .error (.panic .overflow) := by
  obtain ⟨rfl, htype, hover⟩ := h
  have hadd : Profile.dev.add (leNat (window mem (ptr + 4) 8)) hhdm = .error .overflow :=
    if_neg (Nat.not_lt.mpr hover)
  unfold readRecord
  rw [htype, if_neg (by decide), if_neg (by decide), if_neg (by decide), if_pos rfl, hadd]
  rfl

theorem readRecord_of_not (hle : hhdm + 2 ^ 32 ≤ wordSize) (h : ¬ Overflows p mem hhdm ptr)
    (s : Records) : ∃ s', readRecord p mem hhdm ptr s = .ok s' := by
  unfold readRecord
  split_ifs with h0 hbit h1 h2 h5
  · exact ⟨_, rfl⟩
  · exact ⟨_, rfl⟩
  · have hlt : leNat (window mem (ptr + 4) 4) < 2 ^ 32 := leNat_window_lt mem (ptr + 4) 4
    have hadd := p.add_of_lt (show leNat (window mem (ptr + 4) 4) + hhdm < wordSize by omega)
    exact ⟨_, bind_eq_ok.mpr ⟨_, arith_eq_ok.mpr hadd, rfl⟩⟩
  · exact ⟨_, rfl⟩
  · have hadd := @add_eq_mod p hhdm (leNat (window mem (ptr + 4) 8)) fun hp =>
      Nat.lt_of_not_le fun hover => h ⟨hp, h5, hover⟩
    exact ⟨_, bind_eq_ok.mpr ⟨_, arith_eq_ok.mpr hadd, rfl⟩⟩
  · exact ⟨_, rfl⟩

/-! ## When the walk ends -/

variable {ptrEnd start : ℕ}

theorem recordLoop_add {turns : ℕ} {s : Records} {x : Except Fault Records}
    (h : recordLoop p mem hhdm ptrEnd turns ptr s = x) (hx : x ≠ .error .fuel) (more : ℕ) :
    recordLoop p mem hhdm ptrEnd (turns + more) ptr s = x := by
  induction turns generalizing ptr s with
  | zero => exact absurd h.symm hx
  | succ turns ih =>
    rw [Nat.succ_add, recordLoop]
    rw [recordLoop] at h
    split_ifs at h ⊢ with hlt
    · cases hread : readRecord p mem hhdm ptr s with
      | error f =>
        rw [hread] at h
        exact h
      | ok s' =>
        rw [hread] at h
        exact ih h
    · exact h

theorem recordLoop_ne_fuel (hle : hhdm + 2 ^ 32 ≤ wordSize)
    (hnever : NeverStalls p mem hhdm ptrEnd start) {n : ℕ} (hn : ptrEnd - ptr ≤ n)
    (hreached : Reached p mem hhdm ptrEnd start ptr) (s : Records) :
    recordLoop p mem hhdm ptrEnd (n + 1) ptr s ≠ .error .fuel := by
  induction n generalizing ptr s with
  | zero =>
    rw [recordLoop, if_neg (by omega)]
    exact nofun
  | succ n ih =>
    rw [recordLoop]
    split_ifs with hlt
    · by_cases hover : Overflows p mem hhdm ptr
      · rw [readRecord_of_overflows hover]
        exact nofun
      · obtain ⟨s', hread⟩ := readRecord_of_not hle hover s
        have hlen : (mem (ptr + 1)).toNat ≠ 0 := fun h0 =>
          hover (hnever ptr hreached hlt (BitVec.eq_of_toNat_eq h0))
        rw [hread]
        exact ih (by omega) (hreached.next hlt hover) s'
    · exact nofun

/-- The loop does not get past a record of length zero that it can read. -/
theorem recordLoop_stall (hle : hhdm + 2 ^ 32 ≤ wordSize) (hlt : ptr < ptrEnd)
    (hzero : mem (ptr + 1) = 0#8) (hread : ¬ Overflows p mem hhdm ptr) (turns : ℕ) (s : Records) :
    recordLoop p mem hhdm ptrEnd turns ptr s = .error .fuel := by
  induction turns generalizing s with
  | zero => rfl
  | succ turns ih =>
    obtain ⟨s', hs'⟩ := readRecord_of_not hle hread s
    rw [recordLoop, if_pos hlt, hs', hzero]
    exact ih s'

/-- What does not end from a place that the walk comes to does not end from the start. -/
theorem Reached.recordLoop_fuel (hle : hhdm + 2 ^ 32 ≤ wordSize)
    (hreached : Reached p mem hhdm ptrEnd start ptr)
    (h : ∀ turns s, recordLoop p mem hhdm ptrEnd turns ptr s = .error .fuel) (turns : ℕ)
    (s : Records) : recordLoop p mem hhdm ptrEnd turns start s = .error .fuel := by
  induction hreached generalizing turns s with
  | start => exact h turns s
  | next _ hlt hread ih =>
    refine ih (fun turns s => ?_) turns s
    cases turns with
    | zero => rfl
    | succ turns =>
      obtain ⟨s', hs'⟩ := readRecord_of_not hle hread s
      rw [recordLoop, if_pos hlt, hs']
      exact h turns s'

theorem ends_iff (hle : hhdm + 2 ^ 32 ≤ wordSize) (s : Records) :
    (∃ turns, recordLoop p mem hhdm ptrEnd turns start s ≠ .error .fuel) ↔
      NeverStalls p mem hhdm ptrEnd start := by
  constructor
  · rintro ⟨turns, hends⟩ ptr hreached hlt hzero
    by_contra hread
    exact hends (hreached.recordLoop_fuel hle (recordLoop_stall hle hlt hzero hread) turns s)
  · intro hnever
    exact ⟨_, recordLoop_ne_fuel hle hnever le_rfl .start s⟩

end Loop

/-! ## The record area -/

/-- Where the records start. -/
def SDT.area (madt : SDT) : ℕ := madt.header + 44

/-- The bytes that the table has for them. -/
def SDT.areaSize (mem : ℕ → Byte) (madt : SDT) : ℕ := tableLength mem madt.header - 44

section Area

variable {p : Profile} {mem : ℕ → Byte} {hhdm address : ℕ} {madt : SDT}

/-- The local APIC address in the header. -/
def SDT.lapicAddress (mem : ℕ → Byte) (madt : SDT) : ℕ := leNat (window mem madt.inner 4)

theorem extra_of_new (h : SDT.new mem hhdm 8 address = .ok madt) :
    madt.extra = if madt.areaSize mem = 0 then none else some (madt.area, madt.areaSize mem) := by
  have hheader : sdtHeaderSize = 36 := rfl
  unfold SDT.new at h
  dsimp only at h
  split_ifs at h with hlen hmore
  · cases h
    rw [if_neg (by unfold SDT.areaSize; dsimp only; omega)]
    rfl
  · cases h
    rw [if_pos (by unfold SDT.areaSize; dsimp only; omega)]

theorem records_of_empty (h : SDT.new mem hhdm 8 address = .ok madt)
    (hle : hhdm + 2 ^ 32 ≤ wordSize) (hempty : madt.areaSize mem = 0) (turns : ℕ) :
    APIC.records p mem hhdm madt turns = .error (.panic .unwrap) := by
  have hlt : leNat (window mem madt.inner 4) < 2 ^ 32 := leNat_window_lt mem madt.inner 4
  have hextra := extra_of_new h
  rw [if_pos hempty] at hextra
  unfold APIC.records
  rw [hextra, p.add_of_lt (by omega)]
  rfl

theorem records_of_area (h : SDT.new mem hhdm 8 address = .ok madt)
    (hle : hhdm + 2 ^ 32 ≤ wordSize) (hsize : madt.areaSize mem ≠ 0) (turns : ℕ) :
    APIC.records p mem hhdm madt turns =
      recordLoop p mem hhdm (madt.area + madt.areaSize mem) turns madt.area
        ⟨(madt.lapicAddress mem + hhdm) % wordSize, none, none, []⟩ := by
  have hlt : leNat (window mem madt.inner 4) < 2 ^ 32 := leNat_window_lt mem madt.inner 4
  have hextra := extra_of_new h
  rw [if_neg hsize] at hextra
  have hsub : p.sub (tableLength mem madt.header) 44 = .ok (madt.areaSize mem) :=
    p.sub_of_le (by unfold SDT.areaSize at hsize; omega)
  unfold APIC.records SDT.lapicAddress
  rw [hextra, add_eq_mod fun _ => by omega, hsub]
  rfl

/-- The loop over the record area ends, with a result or a panic. -/
def Ends (p : Profile) (mem : ℕ → Byte) (hhdm : ℕ) (madt : SDT) : Prop :=
  ∃ turns, APIC.records p mem hhdm madt turns ≠ .error .fuel

/-- When the area is a sequence of records, the processors are the enabled ones in their order and
the local APIC is at the last address given, in the direct map. -/
def Exact (p : Profile) (mem : ℕ → Byte) (hhdm : ℕ) (madt : SDT) : Prop :=
  ∀ rs, window mem madt.area (madt.areaSize mem) = rs.flatMap Record.encode →
    ∃ turns s, APIC.records p mem hhdm madt turns = .ok s ∧ s.cpus = rs.filterMap Record.cpu ∧
      s.lapicPtr = (lapicOf rs (madt.lapicAddress mem) + hhdm) % wordSize

theorem records_encode (h : SDT.new mem hhdm 8 address = .ok madt)
    (hle : hhdm + 2 ^ 32 ≤ wordSize) (hsize : madt.areaSize mem ≠ 0) {rs : List Record}
    (hrs : window mem madt.area (madt.areaSize mem) = rs.flatMap Record.encode) :
    APIC.records p mem hhdm madt (rs.length + 1) = rs.foldlM (Record.apply p hhdm)
      ⟨(madt.lapicAddress mem + hhdm) % wordSize, none, none, []⟩ := by
  have hlen : (rs.flatMap Record.encode).length = madt.areaSize mem := by
    rw [← hrs, length_window]
  rw [records_of_area h hle hsize, ← hlen]
  exact recordLoop_encode rs (by rw [hlen, hrs])

theorem fits_of_exact (h : SDT.new mem hhdm 8 address = .ok madt)
    (hle : hhdm + 2 ^ 32 ≤ wordSize) (hsize : madt.areaSize mem ≠ 0)
    (hexact : Exact p mem hhdm madt) {rs : List Record}
    (hrs : window mem madt.area (madt.areaSize mem) = rs.flatMap Record.encode) :
    Fits p hhdm rs := by
  obtain ⟨turns, s, hs, -, -⟩ := hexact rs hrs
  have hfold := records_encode (p := p) h hle hsize hrs
  rw [records_of_area h hle hsize] at hs hfold
  have hmore := recordLoop_add hs nofun (rs.length + 1)
  have hmore' := recordLoop_add hfold (foldlM_ne_fuel rs _) turns
  rw [Nat.add_comm turns] at hmore
  exact fits_of_foldlM (hmore'.symm.trans hmore)

end Area

/-- **MADT parsing ends and is exact** when there is a record area, the walk comes to no record of
length zero in it, and, where overflow is checked, the addresses of the records are in the direct
map. The direct map covers 4 GiB at least. -/
theorem records_iff (p : Profile) {mem : ℕ → Byte} {hhdm address : ℕ} {madt : SDT}
    (h : SDT.new mem hhdm 8 address = .ok madt) (hle : hhdm + 2 ^ 32 ≤ wordSize) :
    Ends p mem hhdm madt ∧ Exact p mem hhdm madt ↔
      madt.areaSize mem ≠ 0 ∧
        NeverStalls p mem hhdm (madt.area + madt.areaSize mem) madt.area ∧
        ∀ rs, window mem madt.area (madt.areaSize mem) = rs.flatMap Record.encode →
          Fits p hhdm rs := by
  constructor
  · rintro ⟨⟨turns, hends⟩, hexact⟩
    have hsize : madt.areaSize mem ≠ 0 := by
      intro hempty
      obtain ⟨turns, s, hs, -, -⟩ := hexact [] (by rw [hempty]; rfl)
      rw [records_of_empty h hle hempty] at hs
      cases hs
    rw [records_of_area h hle hsize] at hends
    exact ⟨hsize, (ends_iff hle _).mp ⟨turns, hends⟩, fun rs => fits_of_exact h hle hsize hexact⟩
  · rintro ⟨hsize, hnever, hfits⟩
    constructor
    · obtain ⟨turns, hends⟩ := (ends_iff hle _).mpr hnever
      exact ⟨turns, by rwa [records_of_area h hle hsize]⟩
    · intro rs hrs
      obtain ⟨s, hfold, hcpus, hlapic⟩ := foldlM_eq hle (hfits rs hrs)
        (s := ⟨(madt.lapicAddress mem + hhdm) % wordSize, none, none, []⟩) rfl
      exact ⟨rs.length + 1, s, (records_encode h hle hsize hrs).trans hfold, hcpus, hlapic⟩

/-! A table at `0x2000` with these bytes in its record area. -/

def madtMemory (records : List Byte) : ℕ → Byte :=
  memoryOf [(0x2000 + sampleHhdm,
    headerBytes [0x41#8, 0x50#8, 0x49#8, 0x43#8] (44 + records.length) ++
      leBytes 4 0xFEE00000 ++ leBytes 4 0 ++ records)]

def madtSdt (size : ℕ) : SDT where
  header := 0x2000 + sampleHhdm
  inner := 0x2000 + sampleHhdm + 36
  extra := some (0x2000 + sampleHhdm + 44, size)

theorem sampleHhdm_le : sampleHhdm + 2 ^ 32 ≤ wordSize := by
  unfold sampleHhdm wordSize
  norm_num

/-- An enabled processor, a new address of the local APIC and a processor that is disabled. -/
def sampleRecords : List Record :=
  [.processor 0 3 1, .lapicAddress (0, 0) 0xFEE01000, .processor 1 4 0]

def sampleArea : List Byte := sampleRecords.flatMap Record.encode

theorem records_iff_sample :
    SDT.new (madtMemory sampleArea) sampleHhdm 8 0x2000 = .ok (madtSdt 28) ∧
      Ends .release (madtMemory sampleArea) sampleHhdm (madtSdt 28) ∧
      ∃ turns s, APIC.records .release (madtMemory sampleArea) sampleHhdm (madtSdt 28) turns =
          .ok s ∧
        s.cpus = [⟨0, 3, 1⟩] ∧ s.lapicPtr = (0xFEE01000 + sampleHhdm) % wordSize := by
  have hnew : SDT.new (madtMemory sampleArea) sampleHhdm 8 0x2000 = .ok (madtSdt 28) := by
    decide +kernel
  have hsize : (madtSdt 28).areaSize (madtMemory sampleArea) = 28 := by decide +kernel
  have hfirst : madtMemory sampleArea ((madtSdt 28).area + 0 + 1) = 8#8 := by decide +kernel
  have hsecond : madtMemory sampleArea ((madtSdt 28).area + 8 + 1) = 12#8 := by decide +kernel
  have hthird : madtMemory sampleArea ((madtSdt 28).area + 20 + 1) = 8#8 := by decide +kernel
  have hnever : NeverStalls .release (madtMemory sampleArea) sampleHhdm
      ((madtSdt 28).area + (madtSdt 28).areaSize (madtMemory sampleArea)) (madtSdt 28).area := by
    intro ptr hreached hlt hzero
    rw [hsize] at hlt hreached
    -- the walk comes to the three records and to the end
    have hplaces : ∃ i ∈ [0, 8, 20, 28], ptr = (madtSdt 28).area + i := by
      clear hlt hzero
      induction hreached with
      | start => exact ⟨0, by simp, rfl⟩
      | next _ hlt _ ih =>
        obtain ⟨i, hi, rfl⟩ := ih
        simp only [List.mem_cons, List.not_mem_nil, or_false] at hi
        obtain rfl | rfl | rfl | rfl := hi
        · exact ⟨8, by simp, by rw [hfirst]; rfl⟩
        · exact ⟨20, by simp, by rw [hsecond]; rfl⟩
        · exact ⟨28, by simp, by rw [hthird]; rfl⟩
        · exact absurd hlt (lt_irrefl _)
    obtain ⟨i, hi, rfl⟩ := hplaces
    simp only [List.mem_cons, List.not_mem_nil, or_false] at hi
    obtain rfl | rfl | rfl | rfl := hi
    · exact absurd (hfirst.symm.trans hzero) (by decide)
    · exact absurd (hsecond.symm.trans hzero) (by decide)
    · exact absurd (hthird.symm.trans hzero) (by decide)
    · exact absurd hlt (lt_irrefl _)
  obtain ⟨hends, hexact⟩ := (records_iff .release hnew sampleHhdm_le).mpr
    ⟨by rw [hsize]; norm_num, hnever, by rintro rs - hp; cases hp⟩
  exact ⟨hnew, hends, hexact sampleRecords (by decide +kernel)⟩

/-- A record of length zero. -/
theorem not_ends_zero :
    SDT.new (madtMemory [0xFF#8, 0#8]) sampleHhdm 8 0x2000 = .ok (madtSdt 2) ∧
      ¬ Ends .dev (madtMemory [0xFF#8, 0#8]) sampleHhdm (madtSdt 2) := by
  have hnew : SDT.new (madtMemory [0xFF#8, 0#8]) sampleHhdm 8 0x2000 = .ok (madtSdt 2) := by
    decide +kernel
  have hsize : (madtSdt 2).areaSize (madtMemory [0xFF#8, 0#8]) = 2 := by decide +kernel
  have htype : madtMemory [0xFF#8, 0#8] (madtSdt 2).area = 0xFF#8 := by decide +kernel
  have hzero : madtMemory [0xFF#8, 0#8] ((madtSdt 2).area + 1) = 0#8 := by decide +kernel
  refine ⟨hnew, ?_⟩
  rintro ⟨turns, hends⟩
  apply hends
  rw [records_of_area hnew sampleHhdm_le (by rw [hsize]; norm_num), hsize]
  refine recordLoop_stall sampleHhdm_le (Nat.lt_add_of_pos_right (by norm_num)) hzero ?_ turns _
  rintro ⟨-, h5, -⟩
  rw [htype] at h5
  exact absurd h5 (by decide)

end CappuccinOS.Acpi
