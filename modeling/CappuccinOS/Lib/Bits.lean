import Mathlib

/-!
# Bit strings of numbers and bytes

`bitsLE` and `bitsBE` write a number as a bit string of given width, least or most significant
bit first, and `valLE` reads the former back. `bytesBits` is the bit string of a byte string, each
byte least significant bit first; `packBits` goes the other way and fills the last byte with
zeros (`bytesBits_packBits`).
-/

namespace CappuccinOS

abbrev Byte := BitVec 8

/-- The `w` low bits of `v`, least significant first. -/
def bitsLE : ℕ → ℕ → List Bool
  | _, 0 => []
  | v, w + 1 => v.testBit 0 :: bitsLE (v / 2) w

/-- The `w` low bits of `v`, most significant first. -/
def bitsBE (v : ℕ) : ℕ → List Bool
  | 0 => []
  | w + 1 => v.testBit w :: bitsBE v w

/-- The number a bit string stands for, least significant bit first. -/
def valLE : List Bool → ℕ
  | [] => 0
  | b :: bs => b.toNat + 2 * valLE bs

@[simp] theorem length_bitsLE (v w : ℕ) : (bitsLE v w).length = w := by
  induction w generalizing v with
  | zero => rfl
  | succ w ih => rw [bitsLE, List.length_cons, ih]

@[simp] theorem length_bitsBE (v w : ℕ) : (bitsBE v w).length = w := by
  induction w with
  | zero => rfl
  | succ w ih => rw [bitsBE, List.length_cons, ih]

theorem toNat_testBit_zero (v : ℕ) : (v.testBit 0).toNat = v % 2 := by
  rw [Nat.testBit_zero]
  rcases Nat.mod_two_eq_zero_or_one v with h | h <;> simp [h]

theorem valLE_bitsLE (v w : ℕ) : valLE (bitsLE v w) = v % 2 ^ w := by
  induction w generalizing v with
  | zero => rw [pow_zero, Nat.mod_one]; rfl
  | succ w ih =>
    rw [bitsLE, valLE, ih, toNat_testBit_zero, pow_succ, mul_comm (2 ^ w), Nat.mod_mul]

theorem valLE_lt (bs : List Bool) : valLE bs < 2 ^ bs.length := by
  induction bs with
  | nil => exact Nat.one_pos
  | cons b bs ih =>
    have hb := Bool.toNat_lt b
    rw [valLE, List.length_cons, pow_succ]
    omega

theorem bitsLE_valLE (bs : List Bool) : bitsLE (valLE bs) bs.length = bs := by
  induction bs with
  | nil => rfl
  | cons b bs ih =>
    have h0 : (b.toNat + 2 * valLE bs).testBit 0 = b := by
      rw [Nat.testBit_zero]; cases b <;> simp [Nat.add_mod]
    have hdiv : (b.toNat + 2 * valLE bs) / 2 = valLE bs := by
      have := Bool.toNat_lt b; omega
    rw [List.length_cons, bitsLE, valLE, h0, hdiv, ih]

theorem drop_bitsLE (v : ℕ) {w i : ℕ} (h : i ≤ w) :
    (bitsLE v w).drop i = bitsLE (v / 2 ^ i) (w - i) := by
  induction i generalizing v w with
  | zero => simp
  | succ i ih =>
    obtain ⟨w, rfl⟩ : ∃ n, w = n + 1 := ⟨w - 1, by omega⟩
    rw [bitsLE, List.drop_succ_cons, ih _ (by omega), Nat.div_div_eq_div_mul,
      Nat.add_sub_add_right, pow_succ, mul_comm]

/-- Reading the bit at `i` off a bit string that has been read up to there. -/
theorem drop_bitsLE_cons (v : ℕ) {w i : ℕ} (h : i < w) :
    (bitsLE v w).drop i = v.testBit i :: (bitsLE v w).drop (i + 1) := by
  rw [drop_bitsLE v h.le, drop_bitsLE v h, show w - i = w - (i + 1) + 1 by omega, bitsLE,
    Nat.div_div_eq_div_mul, pow_succ, Nat.testBit_div_two_pow, Nat.zero_add]

theorem bitsLE_append (v m n : ℕ) : bitsLE v (m + n) = bitsLE v m ++ bitsLE (v / 2 ^ m) n := by
  induction m generalizing v with
  | zero => simp [bitsLE]
  | succ m ih =>
    rw [Nat.succ_add, bitsLE, ih, bitsLE, List.cons_append, Nat.div_div_eq_div_mul, pow_succ,
      mul_comm 2]

theorem bitsLE_congr {v v' w : ℕ} (h : v % 2 ^ w = v' % 2 ^ w) : bitsLE v w = bitsLE v' w := by
  rw [← bitsLE_valLE (bitsLE v w), ← bitsLE_valLE (bitsLE v' w), valLE_bitsLE, valLE_bitsLE, h,
    length_bitsLE, length_bitsLE]

theorem bitsLE_zero (n : ℕ) : bitsLE 0 n = List.replicate n false := by
  induction n with
  | zero => rfl
  | succ n ih =>
    rw [bitsLE, Nat.zero_div, ih, List.replicate_succ, Nat.zero_testBit]

/-- The number after the bits `bs` have been read behind `v`, most significant first. -/
def readBE (v : ℕ) (bs : List Bool) : ℕ := bs.foldl (fun v b => 2 * v + b.toNat) v

theorem readBE_cons (v : ℕ) (b : Bool) (bs : List Bool) :
    readBE v (b :: bs) = readBE (2 * v + b.toNat) bs := rfl

theorem readBE_div (v : ℕ) (bs : List Bool) : readBE v bs / 2 ^ bs.length = v := by
  induction bs generalizing v with
  | nil => simp [readBE]
  | cons b bs ih =>
    have hb := Bool.toNat_lt b
    rw [readBE_cons, List.length_cons, pow_succ, ← Nat.div_div_eq_div_mul, ih]
    omega

/-- The bits that were read are the last ones of the number. -/
theorem bitsBE_readBE (v : ℕ) (bs : List Bool) : bitsBE (readBE v bs) bs.length = bs := by
  induction bs generalizing v with
  | nil => rfl
  | cons b bs ih =>
    have hbit : (readBE (2 * v + b.toNat) bs).testBit bs.length = b := by
      rw [← Nat.zero_add bs.length, ← Nat.testBit_div_two_pow, readBE_div, Nat.testBit_zero]
      cases b <;> simp [Nat.add_mod]
    rw [readBE_cons, List.length_cons, bitsBE, hbit, ih]

/-! ## Bytes -/

/-- The bits of a byte, least significant first. -/
def byteBits (b : Byte) : List Bool := bitsLE b.toNat 8

/-- The bits of a byte string. -/
def bytesBits (l : List Byte) : List Bool := l.flatMap byteBits

@[simp] theorem length_byteBits (b : Byte) : (byteBits b).length = 8 := length_bitsLE _ _

@[simp] theorem bytesBits_nil : bytesBits [] = [] := rfl

@[simp] theorem bytesBits_cons (b : Byte) (l : List Byte) :
    bytesBits (b :: l) = byteBits b ++ bytesBits l := rfl

@[simp] theorem bytesBits_append (l m : List Byte) :
    bytesBits (l ++ m) = bytesBits l ++ bytesBits m := List.flatMap_append

theorem length_bytesBits (l : List Byte) : (bytesBits l).length = 8 * l.length := by
  induction l with
  | nil => rfl
  | cons b l ih =>
    rw [bytesBits_cons, List.length_append, ih, length_byteBits, List.length_cons]
    ring

theorem byteBits_ofNat (v : ℕ) : byteBits (BitVec.ofNat 8 v) = bitsLE v 8 := by
  rw [byteBits, BitVec.toNat_ofNat]
  exact bitsLE_congr (Nat.mod_mod _ _)

/-- Testing a byte against the mask `1 << k` reads bit `k`. -/
theorem byte_mask_ne_zero (b : Byte) {k : ℕ} (hk : k < 8) :
    (b &&& 1#8 <<< k != 0#8) = b.getLsbD k := by
  have hpow : BitVec.twoPow 8 k ≠ 0#8 := by
    intro h
    have := congrArg (fun v : Byte => v.getLsbD k) h
    simp [hk] at this
  rw [← BitVec.twoPow_eq, BitVec.and_twoPow]
  by_cases hb : b.getLsbD k
  · simp [hb, hpow]
  · simp [hb]

/-- Bits packed into bytes, least significant first; the last byte is filled with zeros. -/
def packBits (bs : List Bool) : List Byte :=
  if bs.isEmpty then [] else BitVec.ofNat 8 (valLE (bs.take 8)) :: packBits (bs.drop 8)
termination_by bs.length
decreasing_by
  rename_i h
  cases bs with
  | nil => simp at h
  | cons b bs => simp only [List.drop_succ_cons, List.length_drop, List.length_cons]; omega

theorem byteBits_ofNat_valLE {bs : List Bool} (h : bs.length ≤ 8) :
    byteBits (BitVec.ofNat 8 (valLE bs)) = bs ++ List.replicate (8 - bs.length) false := by
  have hlt : valLE bs < 2 ^ 8 :=
    lt_of_lt_of_le (valLE_lt bs) (Nat.pow_le_pow_right (by norm_num) h)
  have hzero : valLE bs / 2 ^ bs.length = 0 := Nat.div_eq_of_lt (valLE_lt bs)
  rw [byteBits, BitVec.toNat_ofNat, Nat.mod_eq_of_lt hlt]
  conv_lhs => rw [show 8 = bs.length + (8 - bs.length) by omega]
  rw [bitsLE_append, bitsLE_valLE, hzero, bitsLE_zero]

theorem bytesBits_packBits (bs : List Bool) :
    ∃ k, bytesBits (packBits bs) = bs ++ List.replicate k false := by
  induction bs using packBits.induct with
  | case1 bs h =>
    rw [packBits, if_pos h, List.isEmpty_iff.mp h]
    exact ⟨0, rfl⟩
  | case2 bs h ih =>
    obtain ⟨k, hk⟩ := ih
    rw [packBits, if_neg h, bytesBits_cons, byteBits_ofNat_valLE (List.length_take_le 8 bs), hk]
    rcases Nat.lt_or_ge bs.length 8 with hlen | hlen
    · refine ⟨8 - bs.length + k, ?_⟩
      rw [List.take_of_length_le hlen.le, List.drop_of_length_le hlen.le, List.nil_append,
        List.append_assoc, List.replicate_append_replicate]
    · refine ⟨k, ?_⟩
      rw [List.length_take, Nat.min_eq_left hlen, Nat.sub_self, List.replicate_zero,
        List.append_nil, ← List.append_assoc, List.take_append_drop]

end CappuccinOS
