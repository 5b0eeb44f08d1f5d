import CappuccinOS.Gzip.Reader
import CappuccinOS.Lib.Canonical

/-!
# Huffman tables

`build_huffman` turns code lengths into a table and `decode` reads a symbol with it.

1. `buildHuffman_spec`: the table counts the codes of each length and lists the symbols sorted
   by length (`TableFor`). The loop that places the symbols keeps, for each length, the next free
   place; the places of different symbols differ (`Canonical.slot_ne_of_lt`).
2. `run_decode`: on the canonical code of a symbol, `decode` returns the symbol and stops behind
   it. After `i` bits of the code, `offs` is the number read so far, less the codes up to length
   `i` that it has passed.
-/

namespace CappuccinOS.Gzip

open Canonical

/-- The table of the code with lengths `lens`. -/
structure TableFor (h : Huff) (lens : List ℕ) : Prop where
  counts : ∀ k ≤ 15, h.counts k = count lens k
  symbols : ∀ s, len lens s ≠ 0 → h.symbols (slot lens s) = s

/-! ## `build_huffman` -/

theorem countLengths_eq (l : List ℕ) (counts : ℕ → ℕ) (h : ∀ x ∈ l, x ≤ 15) :
    countLengths l counts = .ok fun k => counts k + l.count k := by
  induction l generalizing counts with
  | nil => simp [countLengths]
  | cons x l ih =>
    rw [countLengths, if_pos (h x List.mem_cons_self),
      ih _ fun y hy => h y (List.mem_cons_of_mem x hy)]
    congr 1
    funext k
    rw [List.count_cons]
    by_cases hk : k = x
    · subst hk; simp; omega
    · have hxk : ¬ x = k := fun he => hk he.symm
      simp [hk, hxk]

theorem sumOffsets_eq (lens : List ℕ) (i : ℕ) :
    (sumOffsets (count lens) i).2 = base lens i ∧
      ∀ k < i, (sumOffsets (count lens) i).1 k = base lens k := by
  induction i with
  | zero => exact ⟨rfl, fun k hk => absurd hk (Nat.not_lt_zero k)⟩
  | succ i ih =>
    obtain ⟨hcount, hoffs⟩ := ih
    simp only [sumOffsets]
    refine ⟨by rw [hcount, base], fun k hk => ?_⟩
    by_cases he : k = i
    · rw [he, Function.update_self, hcount]
    · rw [Function.update_of_ne he, hoffs k (by omega)]

/-- `counts` after the lengths are counted: length zero is not kept. -/
theorem update_count (lens : List ℕ) :
    Function.update (fun k => 0 + lens.count k) 0 0 = count lens := by
  funext k
  by_cases hk : k = 0 <;> simp [hk, count]

/-- What the placing loop has done when it comes to symbol `i`. -/
structure Placed (lens : List ℕ) (i : ℕ) (symbols offsets : ℕ → ℕ) : Prop where
  offsets : ∀ k, k ≠ 0 → k ≤ 15 → offsets k = base lens k + (lens.take i).count k
  symbols : ∀ s < i, len lens s ≠ 0 → symbols (slot lens s) = s

variable {lens : List ℕ} {symbols offsets : ℕ → ℕ}

theorem count_take_succ {i : ℕ} (hi : i < lens.length) (k : ℕ) :
    (lens.take (i + 1)).count k = (lens.take i).count k + if len lens i = k then 1 else 0 := by
  rw [List.take_add_one, List.count_append, List.getElem?_eq_getElem hi, len_eq_getElem hi]
  simp [List.count_singleton]

/-- Before the loop, the offsets are where the lengths begin. -/
theorem Placed.start (lens : List ℕ) (symbols : ℕ → ℕ) :
    Placed lens 0 symbols (sumOffsets (count lens) 16).1 := by
  refine ⟨fun k _ hk => ?_, fun s hs => absurd hs (Nat.not_lt_zero s)⟩
  rw [(sumOffsets_eq _ 16).2 k (by omega), List.take_zero, List.count_nil, Nat.add_zero]

theorem Placed.skip {i : ℕ} (h : Placed lens i symbols offsets) (hi : i < lens.length)
    (h0 : len lens i = 0) : Placed lens (i + 1) symbols offsets := by
  refine ⟨fun k hk hk15 => ?_, fun s hs hne => ?_⟩
  · rw [count_take_succ hi, if_neg (by omega), h.offsets k hk hk15, Nat.add_zero]
  · rcases Nat.lt_succ_iff_lt_or_eq.mp hs with hlt | rfl
    · exact h.symbols s hlt hne
    · exact absurd h0 hne

theorem Placed.offsets_eq_slot {i : ℕ} (h : Placed lens i symbols offsets)
    (h0 : len lens i ≠ 0) (h15 : len lens i ≤ 15) : offsets (len lens i) = slot lens i := by
  rw [h.offsets _ h0 h15, slot, rank]

theorem Placed.place {i : ℕ} (h : Placed lens i symbols offsets) (hi : i < lens.length)
    (h0 : len lens i ≠ 0) (h15 : len lens i ≤ 15) :
    Placed lens (i + 1) (Function.update symbols (offsets (len lens i)) i)
      (Function.update offsets (len lens i) (offsets (len lens i) + 1)) := by
  refine ⟨fun k hk hk15 => ?_, fun s hs hne => ?_⟩
  · rw [count_take_succ hi]
    by_cases he : k = len lens i
    · rw [he, Function.update_self, if_pos rfl, h.offsets _ h0 h15, Nat.add_assoc]
    · rw [Function.update_of_ne he, if_neg (Ne.symm he), h.offsets k hk hk15, Nat.add_zero]
  · rw [h.offsets_eq_slot h0 h15]
    rcases Nat.lt_succ_iff_lt_or_eq.mp hs with hlt | rfl
    · rw [Function.update_of_ne (slot_ne_of_lt hlt hne h0), h.symbols s hlt hne]
    · rw [Function.update_self]

theorem getElem?_eq_len {lengths : List ℕ} {size : ℕ} (hlens : lens = lengths.take size) {i : ℕ}
    (hi : i < lens.length) : lengths[i]? = some (len lens i) := by
  have hlt : i < lengths.length := by
    rw [hlens, List.length_take] at hi
    omega
  rw [len_eq_getElem hi, List.getElem?_eq_getElem hlt]
  simp [hlens]

theorem placeSymbols_spec {lengths : List ℕ} {size : ℕ} (h15 : ∀ l ∈ lens, l ≤ 15)
    (hlens : lens = lengths.take size) (hsize : size ≤ lengths.length) (h288 : size ≤ 288)
    (n i : ℕ) (hn : i + n = size) (h : Placed lens i symbols offsets) :
    ∃ symbols', placeSymbols lengths size n i symbols offsets = .ok symbols' ∧
      ∀ s, len lens s ≠ 0 → symbols' (slot lens s) = s := by
  have hlen : lens.length = size := by rw [hlens, List.length_take, Nat.min_eq_left hsize]
  induction n generalizing i symbols offsets with
  | zero =>
    refine ⟨symbols, rfl, fun s hne => h.symbols s ?_ hne⟩
    have := lt_length_of_len_ne_zero hne
    omega
  | succ n ih =>
    have hi : i < lens.length := by omega
    have hle := len_le_of_forall h15 i
    simp only [placeSymbols, getElem?_eq_len hlens hi]
    by_cases h0 : len lens i = 0
    · rw [if_neg (by simp [h0])]
      exact ih (i + 1) (by omega) (h.skip hi h0)
    · have hslot : offsets (len lens i) < 288 := by
        rw [h.offsets_eq_slot h0 hle]
        exact lt_of_lt_of_le (slot_lt h0) (by omega)
      rw [if_pos h0, if_pos hslot]
      exact ih (i + 1) (by omega) (h.place hi h0 hle)

theorem buildHuffman_spec (lengths : List ℕ) (size : ℕ) (out : Huff)
    (h15 : ∀ l ∈ lengths.take size, l ≤ 15) (hsize : size ≤ lengths.length) (h288 : size ≤ 288) :
    ∃ h, buildHuffman lengths size out = .ok h ∧ TableFor h (lengths.take size) := by
  obtain ⟨symbols, hplace, hsym⟩ :=
    placeSymbols_spec h15 rfl hsize h288 size 0 (by omega) (Placed.start _ out.symbols)
  refine ⟨⟨count (lengths.take size), symbols⟩, ?_, fun k _ => rfl, hsym⟩
  unfold buildHuffman
  rw [if_pos h288, countLengths_eq _ _ h15]
  simp only [bind, Except.bind, pure, Except.pure, update_count, hplace]

/-! ## `decode` -/

variable {h : Huff} {s : ℕ}

theorem div_two_pow_eq (n w : ℕ) :
    n / 2 ^ w = 2 * (n / 2 ^ (w + 1)) + (n.testBit w).toNat := by
  have hbit : (n.testBit w).toNat = n / 2 ^ w % 2 := by
    rw [← toNat_testBit_zero, Nat.testBit_div_two_pow, Nat.zero_add]
  rw [hbit, pow_succ, ← Nat.div_div_eq_div_mul]
  omega

theorem offs_step {offs i w : ℕ} (hi1 : 1 ≤ i)
    (hoffs : offs + (first lens (i - 1) + count lens (i - 1)) = code lens s / 2 ^ (w + 1)) :
    2 * offs + ((code lens s).testBit w).toNat + first lens i = code lens s / 2 ^ w := by
  obtain ⟨j, rfl⟩ : ∃ j, i = j + 1 := ⟨i - 1, by omega⟩
  rw [div_two_pow_eq, ← hoffs, Nat.add_sub_cancel, first]
  ring

/-- The loop of `decode` in front of the last `w + 1` bits of a code. -/
theorem run_decodeFrom (ht : TableFor h lens) (h0 : len lens s ≠ 0) (h15 : len lens s ≤ 15)
    (o : List Byte) (w i turns offs : ℕ) (hi : i + w = len lens s) (hi1 : 1 ≤ i)
    (hturns : w < turns)
    (hoffs : offs + (first lens (i - 1) + count lens (i - 1)) = code lens s / 2 ^ (w + 1)) :
    Run (decodeFrom h turns i (base lens i) offs) (bitsBE (code lens s) (w + 1)) o
      (slot lens s) o := by
  induction w generalizing i turns offs with
  | zero =>
    obtain ⟨turns, rfl⟩ : ∃ t, turns = t + 1 := ⟨turns - 1, by omega⟩
    have hstep := offs_step hi1 hoffs
    rw [pow_zero, Nat.div_one] at hstep
    have hrank : 2 * offs + ((code lens s).testBit 0).toNat = rank lens s := by
      have hcode : code lens s = first lens i + rank lens s := by rw [code, ← hi]; rfl
      omega
    have hlt : rank lens s < h.counts i := by
      rw [ht.counts i (by omega), show i = len lens s from hi]
      exact rank_lt h0
    refine (run_getBit _ o).bind ((run_ensure (by omega) o).bind_nil ?_)
    rw [hrank, if_pos hlt, slot, ← hi]
    exact Run.pure _ o
  | succ w ih =>
    obtain ⟨turns, rfl⟩ : ∃ t, turns = t + 1 := ⟨turns - 1, by omega⟩
    have hstep := offs_step hi1 hoffs
    have hpass := first_add_count_le_prefix (show i < len lens s by omega)
    rw [show len lens s - i = w + 1 by omega, ← hstep] at hpass
    have hcount := ht.counts i (by omega)
    refine (run_getBit _ o).bind ((run_ensure (by omega) o).bind_nil ?_)
    rw [if_neg (by omega), hcount]
    refine ih (i + 1) turns _ (by omega) (by omega) (by omega) ?_
    rw [Nat.add_sub_cancel]
    omega

theorem run_decode (ht : TableFor h lens) (h288 : lens.length ≤ 288) (hc : Coded lens s)
    (h15 : len lens s ≤ 15) (o : List Byte) : Run (decode h) (codeBits lens s) o s o := by
  obtain ⟨h0, hlt⟩ := hc
  obtain ⟨w, hw⟩ : ∃ w, len lens s = w + 1 := ⟨len lens s - 1, by omega⟩
  have hslot : slot lens s < 288 := lt_of_lt_of_le (slot_lt h0) h288
  have hstart : 0 + (first lens (1 - 1) + count lens (1 - 1)) = code lens s / 2 ^ (w + 1) := by
    rw [← hw, Nat.div_eq_of_lt hlt]
    rfl
  have hloop := run_decodeFrom ht h0 h15 o w 1 16 0 (by omega) le_rfl (by omega) hstart
  rw [← hw] at hloop
  unfold decode
  rw [← List.append_nil (codeBits lens s)]
  refine hloop.bind ((run_ensure hslot o).bind_nil ?_)
  rw [ht.symbols s h0]
  exact Run.pure s o

end CappuccinOS.Gzip
