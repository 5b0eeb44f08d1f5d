import CappuccinOS.Gzip.Table

/-!
# What a decoder that returns has read

`run_decode` says that `decode` reads the code of a symbol. This is the other direction: a symbol
that `decode` returns has a code, and this code is what it has read.

1. `getBit_cases`: there is a next bit, or `get_bit` panics; from it, what `get_bits` has read
   (`getBits_inv`, `getBitsBase_inv`);
2. `decodeFrom_inv`: the loop stops at a length `k` with the number `first k + r`, `r` below the
   number of codes of that length. Together with the bits read before, `offs` is this number less
   the codes passed;
3. `decode_exact`: both directions.
-/

namespace CappuccinOS.Gzip

open Canonical

section Bits

variable {c c' : InflateContext} {bs : List Bool} {o : List Byte}

theorem getBit_of_nil (h : At c [] o) : ∃ q, getBit c = .error (.panic q) := by
  have hbits := h.bits_eq
  have hindex := h.index_le
  rw [InflateContext.bits, List.drop_eq_nil_iff, length_bytesBits] at hbits
  unfold getBit dropByte
  by_cases h8 : c.bitIndex = 8
  · have hone : c.inputBuf.length ≤ 1 := by omega
    have htail : c.inputBuf.tail = [] := by
      rw [← List.length_eq_zero_iff, List.length_tail]
      omega
    exact ⟨.assertion, by simp only [h8, if_true, htail, bind, Except.bind]⟩
  · have hnil : c.inputBuf = [] := by
      rw [← List.length_eq_zero_iff]
      omega
    exact ⟨.bounds, by simp only [if_neg h8, bind, Except.bind, hnil]⟩

/-- `get_bit` returns the next bit, or there is none and it panics. -/
theorem getBit_cases (h : At c bs o) :
    (bs = [] ∧ ∃ q, getBit c = .error (.panic q)) ∨
      ∃ b bs' c', bs = b :: bs' ∧ getBit c = .ok (b, c') ∧ At c' bs' o := by
  cases bs with
  | nil => exact .inl ⟨rfl, getBit_of_nil h⟩
  | cons b bs' =>
    obtain ⟨c', hc', h'⟩ := run_getBit b o c bs' h
    exact .inr ⟨b, bs', c', rfl, hc', h'⟩

theorem getBit_inv {b : Bool} (h : At c bs o) (hret : getBit c = .ok (b, c')) :
    ∃ bs', bs = b :: bs' ∧ At c' bs' o := by
  rcases getBit_cases h with ⟨-, q, hq⟩ | ⟨b', bs', c'', rfl, hok, hat⟩
  · cases hret.symm.trans hq
  · cases hret.symm.trans hok
    exact ⟨bs', rfl, hat⟩

end Bits

section Numbers

variable {p : Profile} {c c' : InflateContext} {bs : List Bool} {o : List Byte}

/-- With overflow checks the loop of `get_bits` does not get past bit 31. -/
theorem shl_inv {x bit v : ℕ} (h : shl p x bit = .ok v) :
    (p = .dev → bit < 32) ∧ v = x <<< (bit % 32) := by
  have hlt : p = .dev → bit < 32 := by
    rintro rfl
    unfold shl at h
    split_ifs at h with hlt
    exact hlt
  rw [shl_of_dev hlt] at h
  cases h
  exact ⟨hlt, rfl⟩

theorem getBitsFrom_inv {n bit byte v : ℕ} (hat : At c bs o)
    (hret : getBitsFrom p n bit byte c = .ok (v, c')) :
    ∃ xs bs', bs = xs ++ bs' ∧ xs.length = n ∧ v = orBits xs bit byte ∧
      (p = .dev → n ≠ 0 → bit + n ≤ 32) ∧ At c' bs' o := by
  induction n generalizing bit byte c bs with
  | zero =>
    cases hret
    exact ⟨[], bs, rfl, rfl, rfl, fun _ h => absurd rfl h, hat⟩
  | succ n ih =>
    obtain ⟨b, c1, hbit, hret1⟩ := exists_of_bind hret
    obtain ⟨w, c2, hshl, hret2⟩ := exists_of_bind hret1
    obtain ⟨bs1, rfl, hat1⟩ := getBit_inv hat hbit
    obtain ⟨hok, rfl⟩ := lift_inv hshl
    obtain ⟨hdev, rfl⟩ := shl_inv hok
    obtain ⟨xs, bs', rfl, hlen, hv, hmax, hat'⟩ := ih hat1 hret2
    refine ⟨b :: xs, bs', rfl, by rw [List.length_cons, hlen], hv, fun hp _ => ?_, hat'⟩
    have hbit' := hdev hp
    by_cases hn : n = 0
    · omega
    · have := hmax hp hn
      omega

theorem getBitsBase_inv {num base v : ℕ} (hat : At c bs o)
    (hret : getBitsBase p num base c = .ok (v, c')) :
    ∃ xs bs', bs = xs ++ bs' ∧ xs.length = num ∧ v = (base + orBits xs 0 0) % 2 ^ 32 ∧
      (p = .dev → xs.length ≤ 32) ∧ At c' bs' o := by
  obtain ⟨w, c1, hread, hret1⟩ := exists_of_bind hret
  cases hret1
  split_ifs at hread with h0
  · obtain ⟨xs, bs', rfl, hlen, rfl, hmax, hat'⟩ := getBitsFrom_inv hat hread
    refine ⟨xs, bs', rfl, hlen, rfl, fun hp => ?_, hat'⟩
    have := hmax hp h0
    omega
  · cases hread
    exact ⟨[], bs, rfl, (not_not.mp h0).symm, rfl, fun _ => Nat.zero_le _, hat⟩

theorem getBits_inv {n v : ℕ} (hn : n ≤ 32) (hat : At c bs o)
    (hret : getBits p n c = .ok (v, c')) :
    v < 2 ^ n ∧ ∃ bs', bs = bitsLE v n ++ bs' ∧ At c' bs' o := by
  obtain ⟨xs, bs', rfl, hlen, rfl, -, hat'⟩ := getBitsFrom_inv hat hret
  have hlt := valLE_lt xs
  rw [orBits_eq_valLE (by omega), ← hlen]
  exact ⟨hlt, bs', by rw [bitsLE_valLE], hat'⟩

theorem getBitsBase_inv_small {num base v : ℕ} (hnum : num ≤ 31) (hbase : base < 2 ^ 31)
    (hat : At c bs o) (hret : getBitsBase p num base c = .ok (v, c')) :
    base ≤ v ∧ v - base < 2 ^ num ∧ ∃ bs', bs = bitsLE (v - base) num ++ bs' ∧ At c' bs' o := by
  obtain ⟨xs, bs', rfl, hlen, hv, -, hat'⟩ := getBitsBase_inv hat hret
  have hlt := valLE_lt xs
  have hpow : 2 ^ xs.length ≤ 2 ^ 31 := Nat.pow_le_pow_right (by norm_num) (by omega)
  rw [orBits_eq_valLE (by omega), Nat.mod_eq_of_lt (by omega)] at hv
  have hsub : v - base = valLE xs := by omega
  rw [hsub, ← hlen]
  exact ⟨by omega, hlt, bs', by rw [bitsLE_valLE], hat'⟩

end Numbers

section Decode

variable {huff : Huff} {lens : List ℕ} {c c' : InflateContext} {bs : List Bool} {o : List Byte}

/-- The loop of `decode`, after `j` bits with the value `v`: where it stops, the number read is a
code of its length. -/
theorem decodeFrom_inv (ht : TableFor huff lens) {turns j offs v slot : ℕ}
    (hv : offs + (first lens j + count lens j) = v) (hat : At c bs o)
    (hret : decodeFrom huff turns (j + 1) (base lens (j + 1)) offs c = .ok (slot, c')) :
    ∃ xs bs' k r, bs = xs ++ bs' ∧ At c' bs' o ∧ k = j + xs.length ∧ k ≠ 0 ∧
      r < count lens k ∧ slot = base lens k + r ∧ readBE v xs = first lens k + r := by
  induction turns generalizing j offs v c bs with
  | zero => cases hret
  | succ turns ih =>
    rw [decodeFrom] at hret
    obtain ⟨b, c1, hbit, hret1⟩ := exists_of_bind hret
    obtain ⟨u, c2, hens, hret2⟩ := exists_of_bind hret1
    obtain ⟨bs1, rfl, hat1⟩ := getBit_inv hat hbit
    obtain ⟨h15, rfl⟩ := ensure_inv hens
    clear hret hret1
    have hcount := ht.counts (j + 1) h15
    have hfirst : 2 * offs + b.toNat + first lens (j + 1) = 2 * v + b.toNat := by
      rw [first, ← hv]
      ring
    split_ifs at hret2 with hlt
    · cases hret2
      refine ⟨[b], bs1, j + 1, 2 * offs + b.toNat, rfl, hat1, rfl, Nat.succ_ne_zero j, ?_, rfl, ?_⟩
      · rwa [← hcount]
      · rw [readBE_cons, ← hfirst, Nat.add_comm]
        rfl
    · rw [hcount] at hret2 hlt
      obtain ⟨xs, bs', k, r, rfl, hat', hk, hne, hr, hslot, hread⟩ :=
        ih (v := 2 * v + b.toNat) (by omega) hat1 hret2
      refine ⟨b :: xs, bs', k, r, rfl, hat', ?_, hne, hr, hslot, hread⟩
      rw [hk, List.length_cons]
      omega

/-- A symbol that `decode` returns has a code, and it is the code that was read. Nothing is asked of
the lengths. -/
theorem decode_inv (ht : TableFor huff lens) {s : ℕ} (hat : At c bs o)
    (hret : decode huff c = .ok (s, c')) :
    Coded lens s ∧ ∃ bs', bs = codeBits lens s ++ bs' ∧ At c' bs' o := by
  unfold decode at hret
  obtain ⟨slot, c1, hloop, hret1⟩ := exists_of_bind hret
  obtain ⟨u, c2, hens, hret2⟩ := exists_of_bind hret1
  obtain ⟨-, rfl⟩ := ensure_inv hens
  clear hret hret1
  cases hret2
  have hbase : base lens (0 + 1) = 0 := rfl
  have hzero : 0 + (first lens 0 + count lens 0) = 0 := rfl
  obtain ⟨xs, bs', k, r, rfl, hat', hk, hne, hr, rfl, hread⟩ :=
    decodeFrom_inv ht hzero hat (by rw [hbase]; exact hloop)
  rw [Nat.zero_add] at hk
  obtain ⟨s, hlen, hrank⟩ := exists_rank hne hr
  have hslot : base lens k + r = slot lens s := by rw [slot, hlen, hrank]
  have hsymbol : huff.symbols (base lens k + r) = s := by
    rw [hslot, ht.symbols s (by rwa [hlen])]
  have hread' : code lens s = readBE 0 xs := by rw [code, hlen, hrank, hread]
  have hcode : codeBits lens s = xs := by
    rw [codeBits, hread', hlen, hk, bitsBE_readBE]
  have hfits : code lens s < 2 ^ len lens s := by
    rw [hread', hlen, hk]
    exact Nat.lt_of_div_eq_zero (Nat.two_pow_pos _) (readBE_div 0 xs)
  rw [hsymbol, hcode]
  exact ⟨⟨by rwa [hlen], hfits⟩, bs', rfl, hat'⟩

end Decode

/-- **Decoding is exact.** With the table that `build_huffman` makes from code lengths under Kraft's
inequality, `decode` returns the symbol `s` after `k` bits exactly when `k` is the length of its
code and the first `k` bits are its code. -/
theorem decode_exact (lens : List ℕ) (h288 : lens.length ≤ 288) (h15 : ∀ l ∈ lens, l ≤ 15)
    (hkraft : Kraft lens 15) :
    ∃ huff, buildHuffman lens lens.length .zero = .ok huff ∧
      ∀ c bs o, At c bs o → ∀ s k,
        (∃ c', decode huff c = .ok (s, c') ∧ k ≤ bs.length ∧ At c' (bs.drop k) o) ↔
          k ≠ 0 ∧ k = len lens s ∧ bs.take k = codeBits lens s := by
  obtain ⟨huff, hbuild, ht⟩ := buildHuffman_spec lens lens.length .zero
    (by rwa [List.take_length]) le_rfl h288
  rw [List.take_length] at ht
  refine ⟨huff, hbuild, fun c bs o hat s k => ?_⟩
  have hlen : ∀ s, (codeBits lens s).length = len lens s := fun s => length_bitsBE _ _
  constructor
  · rintro ⟨c', hret, hk, hat'⟩
    obtain ⟨⟨hne, -⟩, bs', rfl, hat''⟩ := decode_inv ht hat hret
    have hrest : (codeBits lens s ++ bs').drop k = bs' := by
      rw [← hat'.bits_eq, hat''.bits_eq]
    have hk' : k = len lens s := by
      have hlength := congrArg List.length hrest
      rw [List.length_drop, List.length_append, hlen] at hlength
      rw [List.length_append, hlen] at hk
      omega
    exact ⟨by rwa [hk'], hk', by rw [hk', ← hlen, List.take_left]⟩
  · rintro ⟨hne, rfl, htake⟩
    have hsplit : bs = codeBits lens s ++ bs.drop (len lens s) := by
      rw [← htake, List.take_append_drop]
    have hle : len lens s ≤ bs.length := by
      rw [← hlen s, ← htake, List.length_take]
      exact Nat.min_le_right _ _
    have hs15 : len lens s ≤ 15 := by
      have hs := lt_length_of_len_ne_zero hne
      rw [len_eq_getElem hs]
      exact h15 _ (List.getElem_mem hs)
    rw [hsplit] at hat
    obtain ⟨c', hret, hat'⟩ := run_decode ht h288 (hkraft.coded hne hs15) hs15 o c _ hat
    exact ⟨c', hret, hle, hat'⟩

/-- The code with lengths 1, 2 and 2, on the bits 1 0 of the byte `0x01`. -/
theorem decode_exact_demo : ∃ huff, buildHuffman [1, 2, 2] 3 .zero = .ok huff ∧
    ∃ c', decode huff (.new [0x01#8]) = .ok (1, c') := by
  obtain ⟨huff, hbuild, hexact⟩ := decode_exact [1, 2, 2] (by decide) (by decide) (by decide)
  obtain ⟨c', hret, -⟩ := (hexact _ _ _ (at_new [0x01#8]) 1 2).mpr ⟨by decide, by decide, by decide⟩
  exact ⟨huff, hbuild, c', hret⟩

end CappuccinOS.Gzip
