import CappuccinOS.Gzip.Inflate

/-!
# Running the decoder on a bit string

`At c bs o` describes a state of the decoder as a reader of its input sees it: the bits still to
be read are `bs`, the output so far is `o`, and the ring is what emitting `o` leaves in it. `Run m
bs o a o'` says that `m`, started in front of the bits `bs` with output `o`, returns `a`, has then
read exactly these bits, and leaves the output `o'`.

1. `Run.pure` and `Run.bind` compose runs; the bits of the parts are appended.
2. `run_getBit` and `run_getBits` are the runs of the bit reader.
3. `ringOf_data` says what the ring holds: the last 32 KiB of the output, each byte at its
   position modulo 32768; `ringOf_data_zero`, that the rest of it holds zeros. From them follow
   `run_emit` and `run_peek`.
-/

namespace CappuccinOS.Gzip

/-- The bits still to be read. -/
def InflateContext.bits (c : InflateContext) : List Bool :=
  (bytesBits c.inputBuf).drop c.bitIndex

/-- The ring after one more byte. -/
def HuffRing.push (r : HuffRing) (b : Byte) : HuffRing :=
  let pointer := if r.pointer = 32768 then 0 else r.pointer
  ⟨pointer + 1, Function.update r.data pointer b⟩

/-- The ring after the output `o`. -/
def ringOf (o : List Byte) : HuffRing := o.foldl HuffRing.push ⟨0, fun _ => 0#8⟩

/-- The decoder in front of the bits `bs`, with output `o`. -/
structure At (c : InflateContext) (bs : List Bool) (o : List Byte) : Prop where
  index_le : c.bitIndex ≤ 8
  bits_eq : c.bits = bs
  output_eq : c.outputBuf = o
  ring_eq : c.ring = ringOf o

/-- From output `o`, `m` reads exactly `bs`, returns `a` and leaves the output `o'`. -/
def Run {α : Type} (m : Inflate α) (bs : List Bool) (o : List Byte) (a : α) (o' : List Byte) :
    Prop :=
  ∀ c rest, At c (bs ++ rest) o → ∃ c', m c = .ok (a, c') ∧ At c' rest o'

theorem at_new (bytes : List Byte) : At (.new bytes) (bytesBits bytes) [] :=
  ⟨Nat.zero_le _, rfl, rfl, rfl⟩

/-- The input holds at least the bits that are to be read. -/
theorem At.length_le {c : InflateContext} {bs : List Bool} {o : List Byte} (h : At c bs o) :
    bs.length ≤ 8 * c.inputBuf.length := by
  rw [← h.bits_eq, InflateContext.bits, List.length_drop, length_bytesBits]
  omega

/-! ## Composition -/

theorem bind_of_ok {α β : Type} {m : Inflate α} {f : α → Inflate β} {c c' : InflateContext} {a : α}
    (h : m c = .ok (a, c')) : (m >>= f) c = f a c' := by
  show m c >>= _ = _
  rw [h]
  rfl

theorem bind_of_error {α β : Type} {m : Inflate α} {f : α → Inflate β} {c : InflateContext}
    {e : Fault} (h : m c = .error e) : (m >>= f) c = .error e := by
  show m c >>= _ = _
  rw [h]
  rfl

theorem bind_congr_of_eq {α β : Type} {m m' : Inflate α} {c c' : InflateContext}
    (h : m c = m' c') (f : α → Inflate β) : (m >>= f) c = (m' >>= f) c' := by
  show m c >>= _ = m' c' >>= _
  rw [h]

theorem exists_of_bind {α β : Type} {m : Inflate α} {f : α → Inflate β} {c c' : InflateContext}
    {b : β} (h : (m >>= f) c = .ok (b, c')) : ∃ a c1, m c = .ok (a, c1) ∧ f a c1 = .ok (b, c') := by
  obtain ⟨⟨a, c1⟩, hm, hf⟩ := bind_eq_ok.mp h
  exact ⟨a, c1, hm, hf⟩

theorem Run.pure {α : Type} (a : α) (o : List Byte) : Run (Pure.pure a) [] o a o :=
  fun c _ h => ⟨c, rfl, h⟩

theorem Run.bind {α β : Type} {m : Inflate α} {f : α → Inflate β} {bs bs' : List Bool}
    {o o' o'' : List Byte} {a : α} {b : β} (hm : Run m bs o a o') (hf : Run (f a) bs' o' b o'') :
    Run (m >>= f) (bs ++ bs') o b o'' := by
  intro c rest h
  rw [List.append_assoc] at h
  obtain ⟨c1, hc1, h1⟩ := hm c (bs' ++ rest) h
  obtain ⟨c2, hc2, h2⟩ := hf c1 rest h1
  exact ⟨c2, (bind_of_ok hc1).trans hc2, h2⟩

theorem Run.bind_nil {α β : Type} {m : Inflate α} {f : α → Inflate β} {bs : List Bool}
    {o o' : List Byte} {a : α} {b : β} (hm : Run m [] o a o) (hf : Run (f a) bs o b o') :
    Run (m >>= f) bs o b o' :=
  hm.bind hf

theorem Run.bind_pure {α β : Type} {m : Inflate α} {bs : List Bool} {o o' : List Byte} {a : α}
    (hm : Run m bs o a o') (g : α → β) : Run (m >>= fun x => Pure.pure (g x)) bs o (g a) o' := by
  have h := hm.bind (f := fun x => Pure.pure (g x)) (Run.pure (g a) o')
  rwa [List.append_nil] at h

theorem Run.of_ok {α : Type} {m : Inflate α} {bs rest : List Bool} {o o' : List Byte} {a b : α}
    {c c' : InflateContext} (hm : Run m bs o a o') (h : At c (bs ++ rest) o)
    (hret : m c = .ok (b, c')) : b = a ∧ At c' rest o' := by
  obtain ⟨c1, hc1, h1⟩ := hm c rest h
  cases hret.symm.trans hc1
  exact ⟨rfl, h1⟩

/-- A loop whose turns are taken from the input has at least as many as there are bits to read. -/
theorem Run.get_bind {α : Type} {f : InflateContext → Inflate α} {bs : List Bool}
    {o o' : List Byte} {a : α}
    (hf : ∀ c, bs.length ≤ 8 * c.inputBuf.length → Run (f c) bs o a o') :
    Run (get >>= f) bs o a o' := by
  intro c rest h
  have hlen := h.length_le
  rw [List.length_append] at hlen
  exact hf c (by omega) c rest h

theorem run_ensure {q : Panic} {P : Prop} [Decidable P] (h : P) (o : List Byte) :
    Run (ensure q P) [] o () o :=
  fun c _ hc => ⟨c, if_pos h, hc⟩

theorem run_lift {α : Type} {e : Except Fault α} {a : α} (h : e = .ok a) (o : List Byte) :
    Run (lift e) [] o a o := by
  subst h
  exact fun c _ hc => ⟨c, rfl, hc⟩

theorem run_index {l : List ℕ} {i v : ℕ} (h : l[i]? = some v) (o : List Byte) :
    Run (index l i) [] o v o := by
  intro c rest hc
  refine ⟨c, ?_, hc⟩
  simp only [index, h]

/-! What has run when such a step returns. -/

theorem ensure_inv {q : Panic} {P : Prop} [Decidable P] {u : Unit} {c c' : InflateContext}
    (h : ensure q P c = .ok (u, c')) : P ∧ c' = c := by
  unfold ensure at h
  split_ifs at h with hP
  cases h
  exact ⟨hP, rfl⟩

theorem lift_inv {α : Type} {e : Except Fault α} {a : α} {c c' : InflateContext}
    (h : lift e c = .ok (a, c')) : e = .ok a ∧ c' = c := by
  unfold lift at h
  split at h
  · cases h
    exact ⟨rfl, rfl⟩
  · cases h

theorem index_inv {l : List ℕ} {i v : ℕ} {c c' : InflateContext}
    (h : index l i c = .ok (v, c')) : l[i]? = some v ∧ c' = c := by
  unfold index at h
  split at h
  · rename_i hv
    cases h
    exact ⟨hv, rfl⟩
  · cases h

/-! ## Bits -/

/-- With a bit index below eight the next bit is the one that `get_bit` masks out. -/
theorem bits_cons_of_lt (x : Byte) (l : List Byte) {k : ℕ} (hk : k < 8) :
    (bytesBits (x :: l)).drop k = x.getLsbD k :: (bytesBits (x :: l)).drop (k + 1) := by
  have hlen := length_byteBits x
  rw [bytesBits_cons, List.drop_append_of_le_length (by omega),
    List.drop_append_of_le_length (by omega), byteBits, drop_bitsLE_cons _ hk, List.cons_append,
    ← BitVec.testBit_toNat]

/-- A first byte that is not used up: `get_bit` masks its next bit out. -/
theorem getBit_of_lt {c : InflateContext} {x : Byte} {l : List Byte} {b : Bool} {bs : List Bool}
    {o : List Byte} (hc : c.inputBuf = x :: l) (hlt : c.bitIndex < 8) (h : At c (b :: bs) o) :
    getBit c = .ok (b, { c with bitIndex := c.bitIndex + 1 }) ∧
      At { c with bitIndex := c.bitIndex + 1 } bs o := by
  have hbits := h.bits_eq
  rw [InflateContext.bits, hc, bits_cons_of_lt x l hlt, List.cons.injEq] at hbits
  obtain ⟨hb, hrest⟩ := hbits
  constructor
  · have hdrop : dropByte c = .ok c := if_neg (by omega)
    unfold getBit
    rw [hdrop]
    simp only [bind, Except.bind, hc]
    rw [byte_mask_ne_zero x hlt, hb]
  · refine ⟨hlt, ?_, h.output_eq, h.ring_eq⟩
    rw [InflateContext.bits, hc]
    exact hrest

theorem panic_of_getBit {c : InflateContext} {e : Fault} (h : getBit c = .error e) :
    ∃ w, e = .panic w := by
  unfold getBit dropByte at h
  split_ifs at h
  · split at h
    · exact ⟨_, (Except.error.inj h).symm⟩
    · cases h
  · simp only [bind, Except.bind] at h
    split at h
    · exact ⟨_, (Except.error.inj h).symm⟩
    · cases h

theorem run_getBit (b : Bool) (o : List Byte) : Run getBit [b] o b o := by
  intro c rest h
  have hbits := h.bits_eq
  rcases Nat.lt_or_ge c.bitIndex 8 with hlt | hge
  · cases hc : c.inputBuf with
    | nil => simp [InflateContext.bits, hc] at hbits
    | cons x l => exact ⟨_, getBit_of_lt hc hlt h⟩
  · -- the first byte is used up, and the bit is the first of the next one
    have h8 : c.bitIndex = 8 := le_antisymm h.index_le hge
    cases hc : c.inputBuf with
    | nil => simp [InflateContext.bits, hc] at hbits
    | cons x l =>
      rw [InflateContext.bits, hc, h8, bytesBits_cons,
        List.drop_left' (length_byteBits x)] at hbits
      cases hl : l with
      | nil => simp [hl] at hbits
      | cons y l' =>
        have hat : At { c with inputBuf := y :: l', bitIndex := 0 } ([b] ++ rest) o :=
          ⟨by simp, by rw [← hbits, hl]; rfl, h.output_eq, h.ring_eq⟩
        obtain ⟨hget, hnext⟩ := getBit_of_lt rfl (by simp) hat
        refine ⟨_, ?_, hnext⟩
        rw [← hget]
        simp [getBit, dropByte, h8, hc, hl, bind, Except.bind]

/-- One more bit above the `bit` bits read so far. -/
theorem or_shiftLeft_valLE (byte bit : ℕ) (b : Bool) (bs : List Bool) :
    byte ||| b.toNat <<< bit ||| valLE bs <<< (bit + 1) = byte ||| valLE (b :: bs) <<< bit := by
  have hb := Bool.toNat_lt b
  have hcons : valLE (b :: bs) = valLE bs <<< 1 ||| b.toNat := by
    rw [← Nat.shiftLeft_add_eq_or_of_lt (by omega), Nat.shiftLeft_eq, valLE]
    omega
  rw [hcons, Nat.shiftLeft_or_distrib, ← Nat.shiftLeft_add, Nat.add_comm 1 bit, Nat.or_assoc,
    Nat.or_comm (b.toNat <<< bit)]

/-- What `get_bits` makes of its bits, from bit `bit` on. Without overflow checks the shift is taken
modulo 32, so that bits behind the 32nd fall on earlier ones. -/
def orBits : List Bool → ℕ → ℕ → ℕ
  | [], _, byte => byte
  | b :: bs, bit, byte => orBits bs (bit + 1) (byte ||| b.toNat <<< (bit % 32))

theorem orBits_eq {bs : List Bool} {bit byte : ℕ} (h : bit + bs.length ≤ 32) :
    orBits bs bit byte = byte ||| valLE bs <<< bit := by
  induction bs generalizing bit byte with
  | nil => rw [orBits, valLE, Nat.zero_shiftLeft, Nat.or_zero]
  | cons b bs ih =>
    rw [List.length_cons] at h
    rw [orBits, Nat.mod_eq_of_lt (by omega), ih (by omega), or_shiftLeft_valLE]

theorem orBits_eq_valLE {bs : List Bool} (h : bs.length ≤ 32) : orBits bs 0 0 = valLE bs := by
  rw [orBits_eq (by omega), Nat.shiftLeft_zero, Nat.zero_or]

theorem shl_of_dev {p : Profile} {bit : ℕ} (h : p = .dev → bit < 32) (x : ℕ) :
    shl p x bit = .ok (x <<< (bit % 32)) := by
  unfold shl
  split_ifs with hlt
  · rw [Nat.mod_eq_of_lt hlt]
  · cases p with
    | dev => exact absurd (h rfl) hlt
    | release => rfl

/-- The only shift that fails is the one the overflow check stops. -/
theorem panic_of_shl {p : Profile} {x bit : ℕ} {e : Fault} (h : shl p x bit = .error e) :
    ∃ w, e = .panic w := by
  unfold shl at h
  split_ifs at h
  cases p with
  | dev => exact ⟨_, (Except.error.inj h).symm⟩
  | release => cases h

theorem run_getBitsFrom (p : Profile) (bs : List Bool) (bit byte : ℕ) (o : List Byte)
    (h : p = .dev → bit + bs.length ≤ 32) :
    Run (getBitsFrom p bs.length bit byte) bs o (orBits bs bit byte) o := by
  induction bs generalizing bit byte with
  | nil => exact Run.pure byte o
  | cons b bs ih =>
    rw [List.length_cons] at h
    have hshl := shl_of_dev (fun hp => by have := h hp; omega : p = .dev → bit < 32) b.toNat
    have hrest := ih (bit + 1) (byte ||| b.toNat <<< (bit % 32)) fun hp => by
      have := h hp
      omega
    exact (run_getBit b o).bind ((run_lift hshl o).bind_nil hrest)

theorem run_getBits (p : Profile) (bs : List Bool) (o : List Byte) (h : bs.length ≤ 32) :
    Run (getBits p bs.length) bs o (valLE bs) o := by
  rw [← orBits_eq_valLE h]
  exact run_getBitsFrom p bs 0 0 o fun _ => by omega

theorem run_getBits_mod (p : Profile) (v w : ℕ) (o : List Byte) (hw : w ≤ 32) :
    Run (getBits p w) (bitsLE v w) o (v % 2 ^ w) o := by
  have := run_getBits p (bitsLE v w) o (by rwa [length_bitsLE])
  rwa [length_bitsLE, valLE_bitsLE] at this

theorem run_getBits_bitsLE (p : Profile) (v w : ℕ) (o : List Byte) (hw : w ≤ 32)
    (hv : v < 2 ^ w) : Run (getBits p w) (bitsLE v w) o v o := by
  have := run_getBits_mod p v w o hw
  rwa [Nat.mod_eq_of_lt hv] at this

theorem run_getBitsBase_bits (p : Profile) (bs : List Bool) (base : ℕ) (o : List Byte)
    (h : p = .dev → bs.length ≤ 32) :
    Run (getBitsBase p bs.length base) bs o ((base + orBits bs 0 0) % 2 ^ 32) o := by
  have hread : Run (if bs.length ≠ 0 then getBits p bs.length else Pure.pure 0) bs o
      (orBits bs 0 0) o := by
    split_ifs with h0
    · exact run_getBitsFrom p bs 0 0 o fun hp => by have := h hp; omega
    · have hnil : bs = [] := List.length_eq_zero_iff.mp (not_not.mp h0)
      subst hnil
      exact Run.pure 0 o
  exact hread.bind_pure fun x => (base + x) % 2 ^ 32

/-- `get_bits_base` reads the excess of a value over its base. -/
theorem run_getBitsBase (p : Profile) {num base v : ℕ} (o : List Byte) (hw : num ≤ 31)
    (hle : base ≤ v) (hv : v - base < 2 ^ num) (hmax : v < 2 ^ 32) :
    Run (getBitsBase p num base) (bitsLE (v - base) num) o v o := by
  have hlen := length_bitsLE (v - base) num
  have hrun := run_getBitsBase_bits p (bitsLE (v - base) num) base o fun _ => by omega
  rwa [orBits_eq_valLE (by omega), valLE_bitsLE, Nat.mod_eq_of_lt hv, Nat.add_sub_cancel' hle,
    Nat.mod_eq_of_lt hmax, hlen] at hrun

/-! ## The window -/

theorem ringOf_append (o : List Byte) (b : Byte) : ringOf (o ++ [b]) = (ringOf o).push b := by
  rw [ringOf, List.foldl_append]
  rfl

theorem ringOf_pointer (o : List Byte) :
    (ringOf o).pointer ≤ 32768 ∧ (ringOf o).pointer % 32768 = o.length % 32768 := by
  induction o using List.reverseRecOn with
  | nil => exact ⟨Nat.zero_le _, rfl⟩
  | append_singleton o b ih =>
    rw [ringOf_append, List.length_append, List.length_singleton]
    simp only [HuffRing.push]
    split_ifs with h <;> omega

/-- Every byte of the last 32 KiB of the output lies at its position modulo 32768. -/
theorem ringOf_data (o : List Byte) {j : ℕ} {b : Byte} (hj : o[j]? = some b)
    (hnear : o.length ≤ j + 32768) : (ringOf o).data (j % 32768) = b := by
  induction o using List.reverseRecOn with
  | nil => simp at hj
  | append_singleton o b' ih =>
    obtain ⟨hle, hmod⟩ := ringOf_pointer o
    rw [List.length_append, List.length_singleton] at hnear
    rw [ringOf_append]
    simp only [HuffRing.push]
    rcases Nat.lt_trichotomy j o.length with hlt | heq | hgt
    · -- an older byte: the write goes elsewhere, since the distance is below 32768
      rw [List.getElem?_append_left hlt] at hj
      rw [Function.update_of_ne, ih hj (by omega)]
      split_ifs <;> omega
    · have hb : b' = b := by simpa [heq] using hj
      rw [Function.update_apply, if_pos, hb]
      split_ifs <;> omega
    · rw [List.getElem?_eq_none (by simp; omega)] at hj
      cases hj

theorem ringOf_data_zero (o : List Byte) {j : ℕ} (hj : o.length ≤ j) (hmax : j < 32768) :
    (ringOf o).data j = 0#8 := by
  induction o using List.reverseRecOn with
  | nil => rfl
  | append_singleton o b ih =>
    obtain ⟨hle, hmod⟩ := ringOf_pointer o
    rw [List.length_append, List.length_singleton] at hj
    rw [ringOf_append]
    simp only [HuffRing.push]
    rw [Function.update_of_ne, ih (by omega)]
    split_ifs <;> omega

theorem run_emit (b : Byte) (o : List Byte) : Run (emit b) [] o () (o ++ [b]) := by
  intro c rest h
  obtain ⟨hle, -⟩ := ringOf_pointer o
  rw [← h.ring_eq] at hle
  have hptr : (if c.ring.pointer = 32768 then 0 else c.ring.pointer) < 32768 := by
    split_ifs <;> omega
  refine ⟨{ c with ring := c.ring.push b, outputBuf := c.outputBuf ++ [b] }, ?_, ?_⟩
  · have hensure : ensure .bounds ((if c.ring.pointer = 32768 then 0 else c.ring.pointer) < 32768)
        c = .ok ((), c) := if_pos hptr
    unfold emit
    rw [bind_of_ok (rfl : (get : Inflate InflateContext) c = .ok (c, c))]
    rw [bind_of_ok hensure]
    rfl
  · exact ⟨h.index_le, h.bits_eq, by rw [h.output_eq], by rw [h.ring_eq, ringOf_append]⟩

/-- The byte `d` back from the end of the output, as the ring has it: zero before the start. -/
def windowByte (d : ℕ) (o : List Byte) : Byte :=
  if d ≤ o.length then o.getD (o.length - d) 0#8 else 0#8

theorem run_peek {offset : ℕ} (o : List Byte) (hpos : 1 ≤ offset) (hmax : offset ≤ 32768) :
    Run (peek offset) [] o (windowByte offset o) o := by
  intro c rest h
  obtain ⟨hptr, hmod⟩ := ringOf_pointer o
  have hidx : ((ringOf o).pointer + wordSize - offset) % wordSize % 32768 =
      (o.length + 32768 - offset) % 32768 := by
    unfold wordSize
    omega
  have hdata : (ringOf o).data ((o.length + 32768 - offset) % 32768) = windowByte offset o := by
    unfold windowByte
    split_ifs with hle
    · have hget : o[o.length - offset]? = some (o.getD (o.length - offset) 0#8) := by
        rw [List.getD_eq_getElem _ _ (by omega), List.getElem?_eq_getElem]
      rw [← ringOf_data o hget (by omega)]
      congr 1
      omega
    · rw [Nat.mod_eq_of_lt (by omega)]
      exact ringOf_data_zero o (by omega) (by omega)
  refine ⟨c, ?_, h⟩
  show Except.ok (c.ring.data ((c.ring.pointer + wordSize - offset) % wordSize % 32768), c) = _
  rw [h.ring_eq, hidx, hdata]

end CappuccinOS.Gzip
