import CappuccinOS.Gzip.Container

/-!
# The checksum in closed form

`adler32` keeps two sums that are coupled and reduced at each byte, and swaps the bytes of its
result; `uncompress_data` reads the trailer in the other byte order.

1. `adlerS1_eq` and `adlerS2_eq` are the closed forms: the sum of the bytes, and the sum in which
   each byte is weighted by the number of bytes from it to the end.
2. `adler32U32` is the source's loop on 32-bit words, under either profile; `adler32U32_eq` says
   that nothing in it overflows.
3. `adler32_eq_trailer_iff`: the comparison holds exactly for the big-endian trailer of the format.
-/

namespace CappuccinOS.Gzip

open Finset

/-! ## The two sums -/

/-- The sum of the bytes. -/
def byteSum (d : List Byte) : ℕ := ∑ i ∈ range d.length, (d.getD i 0#8).toNat

/-- The sum of the bytes, each times the number of bytes from it to the end. -/
def weightedSum (d : List Byte) : ℕ :=
  ∑ i ∈ range d.length, (d.length - i) * (d.getD i 0#8).toNat

/-- The first half of the checksum. -/
def adlerA (d : List Byte) : ℕ := (1 + byteSum d) % 65521

/-- The second half of the checksum. -/
def adlerB (d : List Byte) : ℕ := (d.length + weightedSum d) % 65521

theorem getD_append_left {d : List Byte} {i : ℕ} (b : Byte) (hi : i ∈ range d.length) :
    (d ++ [b]).getD i 0#8 = d.getD i 0#8 := by
  rw [List.getD_append _ _ _ _ (mem_range.mp hi)]

theorem getD_append_last (d : List Byte) (b : Byte) : (d ++ [b]).getD d.length 0#8 = b := by
  rw [List.getD_append_right _ _ _ _ le_rfl, Nat.sub_self, List.getD_cons_zero]

theorem byteSum_append (d : List Byte) (b : Byte) :
    byteSum (d ++ [b]) = byteSum d + b.toNat := by
  unfold byteSum
  rw [List.length_append, List.length_singleton, sum_range_succ, getD_append_last]
  congr 1
  refine sum_congr rfl fun i hi => ?_
  rw [getD_append_left b hi]

/-- One byte more moves every other one a place away from the end. -/
theorem weightedSum_append (d : List Byte) (b : Byte) :
    weightedSum (d ++ [b]) = weightedSum d + byteSum d + b.toNat := by
  have hstep : ∀ i ∈ range d.length,
      (d.length + 1 - i) * ((d ++ [b]).getD i 0#8).toNat =
        (d.length - i) * (d.getD i 0#8).toNat + (d.getD i 0#8).toNat := by
    intro i hi
    have hlt := mem_range.mp hi
    rw [getD_append_left b hi, Nat.succ_sub hlt.le, Nat.succ_mul]
  unfold weightedSum
  rw [List.length_append, List.length_singleton, sum_range_succ, getD_append_last,
    sum_congr rfl hstep, sum_add_distrib, Nat.add_sub_cancel_left, Nat.one_mul]
  rfl

theorem adlerS1_eq (d : List Byte) : adlerS1 d = adlerA d := by
  induction d using List.reverseRecOn with
  | nil => rfl
  | append_singleton d b ih =>
    rw [adlerS1_append, ih]
    unfold adlerA
    rw [byteSum_append]
    omega

theorem adlerS2_eq (d : List Byte) : adlerS2 d = adlerB d := by
  induction d using List.reverseRecOn with
  | nil => rfl
  | append_singleton d b ih =>
    rw [adlerS2_append, ih, adlerS1_eq]
    unfold adlerA adlerB
    rw [weightedSum_append, byteSum_append, List.length_append, List.length_singleton]
    omega

theorem adler_eq (d : List Byte) : adler d = 65536 * adlerB d + adlerA d := by
  rw [adler, adlerS1_eq, adlerS2_eq, mul_comm]

/-! ## 32-bit words -/

/-- The loop of `adler32`, with its two additions on `u32`. -/
def adlerLoopU32 (p : Profile) : List Byte → ℕ → ℕ → Except Panic (ℕ × ℕ)
  | [], a, b => .ok (a, b)
  | byte :: rest, a, b => do
    let a ← p.fit 32 (a + byte.toNat)
    let b ← p.fit 32 (b + a % 65521)
    adlerLoopU32 p rest (a % 65521) (b % 65521)

/-- `adler32` on `u32`; the shift drops what leaves the word. -/
def adler32U32 (p : Profile) (bytes : List Byte) : Except Panic ℕ := do
  let s ← adlerLoopU32 p bytes 1 0
  pure (swapBytes (s.2 <<< 16 % 2 ^ 32 ||| s.1))

theorem adlerLoopU32_eq (p : Profile) (d : List Byte) {a b : ℕ} (ha : a < 65521)
    (hb : b < 65521) : adlerLoopU32 p d a b = .ok (adlerLoop d a b) := by
  induction d generalizing a b with
  | nil => rfl
  | cons byte rest ih =>
    have hbyte := byte.isLt
    have ha' : (a + byte.toNat) % 65521 < 65521 := Nat.mod_lt _ (by norm_num)
    have hb' : (b + (a + byte.toNat) % 65521) % 65521 < 65521 := Nat.mod_lt _ (by norm_num)
    refine bind_eq_ok.mpr ⟨a + byte.toNat, p.fit_of_lt (by omega), bind_eq_ok.mpr ?_⟩
    exact ⟨b + (a + byte.toNat) % 65521, p.fit_of_lt (by omega), ih ha' hb'⟩

theorem adler32U32_eq (p : Profile) (d : List Byte) : adler32U32 p d = .ok (adler32 d) := by
  have hb : (adlerLoop d 1 0).2 < 2 ^ 16 := by
    rw [adlerLoop_eq]
    exact lt_trans (Nat.mod_lt _ (by norm_num)) (by norm_num)
  have hshift : (adlerLoop d 1 0).2 <<< 16 % 2 ^ 32 = (adlerLoop d 1 0).2 <<< 16 := by
    rw [Nat.shiftLeft_eq]
    omega
  refine bind_eq_ok.mpr ⟨adlerLoop d 1 0, adlerLoopU32_eq p d (by norm_num) (by norm_num), ?_⟩
  rw [hshift]
  rfl

/-! ## The trailer -/

theorem length_beBytes (v : ℕ) : (beBytes v).length = 4 := rfl

/-- The checksum of `d` is computed without an overflow under both profiles, and a four-byte
trailer passes the comparison of `uncompress_data` exactly when it is the big-endian encoding of
the two sums. -/
theorem adler32_eq_trailer_iff (p : Profile) (d t : List Byte) (ht : t.length = 4) :
    adler32U32 p d = .ok (adler32 d) ∧
      (adler32 d = leNat t ↔ t = beBytes (65536 * adlerB d + adlerA d)) := by
  refine ⟨adler32U32_eq p d, ?_⟩
  -- both sides are swapped: the result of the loop, and the trailer by its byte order
  rw [adler32_eq, ← leNat_beBytes, adler_eq]
  constructor
  · intro h
    exact leNat_inj (ht.trans (length_beBytes _).symm) h.symm
  · rintro rfl
    rfl

theorem adler32_eq_trailer_iff_abc :
    ([0x02#8, 0x4D#8, 0x01#8, 0x27#8] : List Byte).length = 4 ∧
      adler32U32 .dev [0x61#8, 0x62#8, 0x63#8] = .ok (adler32 [0x61#8, 0x62#8, 0x63#8]) ∧
      (adler32 [0x61#8, 0x62#8, 0x63#8] = leNat [0x02#8, 0x4D#8, 0x01#8, 0x27#8] ↔
        [0x02#8, 0x4D#8, 0x01#8, 0x27#8] =
          beBytes (65536 * adlerB [0x61#8, 0x62#8, 0x63#8] + adlerA [0x61#8, 0x62#8, 0x63#8])) :=
  ⟨rfl, adler32_eq_trailer_iff .dev _ _ rfl⟩

end CappuccinOS.Gzip
