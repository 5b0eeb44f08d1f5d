import CappuccinOS.Gzip.Decode

/-!
# Tables of invalid codes

`build_huffman` accepts lengths that break Kraft's inequality: a code may have more codes of a
length than fit, or leave some out. What its table is then good for is said about the log of its
writes, in which each entry is a slot of `symbols` and the symbol written to it.

1. `placeLog` and `buildLog` are the log; it lists what the loop is about to write, whether the
   array has that slot or not.
2. `placeLog_eq`: the symbols that have a length are written in their order, each to its slot of the
   sorted list (`Canonical.slot`). This takes only that the offsets start at the numbers of shorter
   codes.
3. `buildHuffman_iff`: which lengths are accepted.
4. `tables_safe`: no slot is written twice, none lies outside the array, and what `decode` reads is
   a slot that was written, for a symbol of the length read.
-/

namespace CappuccinOS.Gzip

open Canonical

/-! ## The log of the writes -/

/-- The writes of the placing loop, from symbol `i` on. -/
def placeLog (lengths : List ℕ) : ℕ → ℕ → (ℕ → ℕ) → List (ℕ × ℕ)
  | 0, _, _ => []
  | n + 1, i, offsets =>
    match lengths[i]? with
    | none => []
    | some l =>
      if l ≠ 0 then
        (offsets l, i) :: placeLog lengths n (i + 1) (Function.update offsets l (offsets l + 1))
      else placeLog lengths n (i + 1) offsets

/-- The writes of `build_huffman` to `symbols`. -/
def buildLog (lengths : List ℕ) (size : ℕ) : Except Fault (List (ℕ × ℕ)) := do
  let counts ← countLengths (lengths.take size) fun _ => 0
  let counts := Function.update counts 0 0
  pure (placeLog lengths size 0 (sumOffsets counts 16).1)

/-- The array after these writes. -/
def replay (log : List (ℕ × ℕ)) (symbols : ℕ → ℕ) : ℕ → ℕ :=
  log.foldl (fun symbols w => Function.update symbols w.1 w.2) symbols

/-- The writes of a table for the lengths `lens`, from symbol `i` on. -/
def slotLog (lens : List ℕ) (n i : ℕ) : List (ℕ × ℕ) :=
  ((List.range' i n).filter fun s => len lens s ≠ 0).map fun s => (slot lens s, s)

variable {lens : List ℕ} {symbols offsets : ℕ → ℕ}

theorem slotLog_succ (n i : ℕ) :
    slotLog lens (n + 1) i =
      if len lens i ≠ 0 then (slot lens i, i) :: slotLog lens n (i + 1)
      else slotLog lens n (i + 1) := by
  unfold slotLog
  rw [List.range'_succ, List.filter_cons]
  by_cases h : len lens i = 0 <;> simp [h]

theorem mem_slotLog {n i : ℕ} {w : ℕ × ℕ} (h : w ∈ slotLog lens n i) :
    w.1 = slot lens w.2 ∧ len lens w.2 ≠ 0 := by
  obtain ⟨s, hs, rfl⟩ := List.mem_map.mp h
  exact ⟨rfl, of_decide_eq_true (List.mem_filter.mp hs).2⟩

theorem slot_mem_slotLog {s : ℕ} (h : len lens s ≠ 0) :
    (slot lens s, s) ∈ slotLog lens lens.length 0 := by
  have hs := lt_length_of_len_ne_zero h
  refine List.mem_map.mpr ⟨s, List.mem_filter.mpr ⟨?_, decide_eq_true h⟩, rfl⟩
  rw [List.mem_range'_1]
  omega

theorem nodup_slotLog (n i : ℕ) : ((slotLog lens n i).map Prod.fst).Nodup := by
  unfold slotLog
  rw [List.map_map]
  refine List.Nodup.map_on ?_ ((List.nodup_range' ..).filter _)
  intro s hs t ht heq
  have hs0 : len lens s ≠ 0 := of_decide_eq_true (List.mem_filter.mp hs).2
  have ht0 : len lens t ≠ 0 := of_decide_eq_true (List.mem_filter.mp ht).2
  rcases Nat.lt_trichotomy s t with h | h | h
  · exact absurd heq (slot_ne_of_lt h hs0 ht0)
  · exact h
  · exact absurd heq.symm (slot_ne_of_lt h ht0 hs0)

/-! ## What the loop writes -/

section Place

variable {lengths : List ℕ} {size : ℕ}

/-- Every write goes to the slot of its symbol, and the loop does what its log says. -/
theorem placeLog_eq (h15 : ∀ l ∈ lens, l ≤ 15) (hlens : lens = lengths.take size)
    (h288 : lens.length ≤ 288) (n i : ℕ) (hn : i + n = lens.length)
    (h : Placed lens i symbols offsets) :
    placeLog lengths n i offsets = slotLog lens n i ∧
      placeSymbols lengths size n i symbols offsets = .ok (replay (slotLog lens n i) symbols) := by
  induction n generalizing i symbols offsets with
  | zero => exact ⟨rfl, rfl⟩
  | succ n ih =>
    have hi : i < lens.length := by omega
    have hget := getElem?_eq_len hlens hi
    rw [slotLog_succ]
    simp only [placeLog, placeSymbols, hget]
    by_cases h0 : len lens i = 0
    · rw [if_neg (not_not.mpr h0), if_neg (not_not.mpr h0), if_neg (not_not.mpr h0)]
      exact ih (i + 1) (by omega) (h.skip hi h0)
    · have hle := len_le_of_forall h15 i
      obtain ⟨hlog, hplace⟩ := ih (i + 1) (by omega) (h.place hi h0 hle)
      have hslot := h.offsets_eq_slot h0 hle
      have hlt : offsets (len lens i) < 288 := by
        rw [hslot]
        exact lt_of_lt_of_le (slot_lt h0) h288
      rw [if_pos h0, if_pos h0, if_pos h0, if_pos hlt, hlog, hplace, hslot]
      exact ⟨rfl, rfl⟩

end Place

/-! ## Which lengths are accepted -/

theorem le_of_countLengths {l : List ℕ} {counts counts' : ℕ → ℕ}
    (h : countLengths l counts = .ok counts') : ∀ x ∈ l, x ≤ 15 := by
  induction l generalizing counts with
  | nil => simp
  | cons x l ih =>
    rw [countLengths] at h
    split_ifs at h with hx
    intro y hy
    obtain rfl | hy := List.mem_cons.mp hy
    · exact hx
    · exact ih h y hy

theorem le_of_placeSymbols {lengths : List ℕ} {size n i : ℕ} {symbols' : ℕ → ℕ}
    (h : placeSymbols lengths size n i symbols offsets = .ok symbols') :
    n = 0 ∨ i + n ≤ lengths.length := by
  induction n generalizing i symbols offsets with
  | zero => exact .inl rfl
  | succ n ih =>
    right
    rw [placeSymbols] at h
    split at h
    · cases h
    · rename_i l hl
      obtain ⟨hi, -⟩ := List.getElem?_eq_some_iff.mp hl
      have hrest : n = 0 ∨ i + 1 + n ≤ lengths.length := by
        split_ifs at h
        · exact ih h
        · exact ih h
      omega

theorem buildHuffman_inv {lengths : List ℕ} {size : ℕ} {out huff : Huff}
    (h : buildHuffman lengths size out = .ok huff) :
    size ≤ 288 ∧ size ≤ lengths.length ∧ ∀ l ∈ lengths.take size, l ≤ 15 := by
  unfold buildHuffman at h
  dsimp only at h
  split_ifs at h with h288
  · obtain ⟨counts, hcount, h⟩ := bind_eq_ok.mp h
    obtain ⟨symbols, hplace, -⟩ := bind_eq_ok.mp h
    have hlen := le_of_placeSymbols hplace
    exact ⟨h288, by omega, le_of_countLengths hcount⟩
  · cases h

/-- A vector of lengths is accepted when it is long enough, none of its lengths is above 15, and
the table has room. Kraft's inequality is not asked for. -/
theorem buildHuffman_iff (lengths : List ℕ) (size : ℕ) (out : Huff) :
    (∃ huff, buildHuffman lengths size out = .ok huff) ↔
      size ≤ 288 ∧ size ≤ lengths.length ∧ ∀ l ∈ lengths.take size, l ≤ 15 := by
  constructor
  · rintro ⟨huff, h⟩
    exact buildHuffman_inv h
  · rintro ⟨h288, hsize, h15⟩
    obtain ⟨huff, hbuild, -⟩ := buildHuffman_spec lengths size out h15 hsize h288
    exact ⟨huff, hbuild⟩

/-! ## The table -/

section Table

variable {lengths : List ℕ} {size : ℕ} {out huff : Huff}

theorem buildHuffman_eq_replay (out : Huff) (h288 : size ≤ 288) (hsize : size ≤ lengths.length)
    (h15 : ∀ l ∈ lengths.take size, l ≤ 15) :
    buildLog lengths size = .ok (slotLog (lengths.take size) size 0) ∧
      buildHuffman lengths size out = .ok ⟨count (lengths.take size),
        replay (slotLog (lengths.take size) size 0) out.symbols⟩ := by
  have hlen : (lengths.take size).length = size := by rw [List.length_take, min_eq_left hsize]
  obtain ⟨hlog, hplace⟩ :=
    placeLog_eq h15 rfl (by omega) size 0 (by omega) (Placed.start _ out.symbols)
  constructor
  · unfold buildLog
    rw [countLengths_eq _ _ h15]
    simp only [bind, Except.bind, pure, Except.pure, update_count, hlog]
  · unfold buildHuffman
    rw [if_pos h288, countLengths_eq _ _ h15]
    simp only [bind, Except.bind, pure, Except.pure, update_count, hplace]

/-- Where the loop of `decode` stops there is a symbol of the length read. -/
theorem decodeFrom_slot {c c' : InflateContext} {bs : List Bool} {o : List Byte}
    (ht : TableFor huff lens) (hat : At c bs o) {n : ℕ}
    (hret : decodeFrom huff 16 1 0 0 c = .ok (n, c')) :
    ∃ s, len lens s ≠ 0 ∧ n = slot lens s := by
  have hbase : base lens (0 + 1) = 0 := rfl
  have hzero : 0 + (first lens 0 + count lens 0) = 0 := rfl
  obtain ⟨xs, bs', k, r, -, -, -, hne, hr, hslot, -⟩ :=
    decodeFrom_inv ht hzero hat (by rw [hbase]; exact hret)
  obtain ⟨s, hlen, hrank⟩ := exists_rank hne hr
  exact ⟨s, by rwa [hlen], by rw [hslot, slot, hlen, hrank]⟩

end Table

/-- **Tables are safe, valid or not.** Lengths are accepted whatever code they describe. The writes
for accepted ones stay inside `symbols` and never meet, and on every bit stream `decode` stops at a
slot that was written: its range check does not fail, and a symbol that it returns after `k` bits is
one of the table and has length `k`. -/
theorem tables_safe (lengths : List ℕ) (size : ℕ) (out : Huff) :
    ((∃ huff, buildHuffman lengths size out = .ok huff) ↔
      size ≤ 288 ∧ size ≤ lengths.length ∧ ∀ l ∈ lengths.take size, l ≤ 15) ∧
    ∀ huff, buildHuffman lengths size out = .ok huff →
      ∃ log, buildLog lengths size = .ok log ∧ huff.symbols = replay log out.symbols ∧
        (log.map Prod.fst).Nodup ∧ (∀ w ∈ log, w.1 < 288) ∧
        ∀ c bs o, At c bs o →
          (∀ n c', decodeFrom huff 16 1 0 0 c = .ok (n, c') → n < 288 ∧ n ∈ log.map Prod.fst) ∧
          ∀ s c', decode huff c = .ok (s, c') →
            ∃ k, k ≤ bs.length ∧ At c' (bs.drop k) o ∧ s < size ∧ lengths[s]? = some k := by
  refine ⟨buildHuffman_iff lengths size out, fun huff hbuild => ?_⟩
  obtain ⟨h288, hsize, h15⟩ := buildHuffman_inv hbuild
  have hlen : (lengths.take size).length = size := by rw [List.length_take, min_eq_left hsize]
  obtain ⟨hlog, heq⟩ := buildHuffman_eq_replay out h288 hsize h15
  obtain ⟨huff', hbuild', ht⟩ := buildHuffman_spec lengths size out h15 hsize h288
  obtain rfl := Except.ok.inj (hbuild.symm.trans hbuild')
  obtain rfl := Except.ok.inj (hbuild.symm.trans heq)
  refine ⟨_, hlog, rfl, nodup_slotLog size 0, ?_, ?_⟩
  · intro w hw
    obtain ⟨hw1, hw0⟩ := mem_slotLog hw
    have := slot_lt hw0
    omega
  · intro c bs o hat
    constructor
    · intro n c' hret
      obtain ⟨s, hs, rfl⟩ := decodeFrom_slot ht hat hret
      have hmem := slot_mem_slotLog hs
      rw [hlen] at hmem
      exact ⟨by have := slot_lt hs; omega, List.mem_map_of_mem hmem⟩
    · intro s c' hret
      obtain ⟨⟨hs, -⟩, bs', rfl, hat'⟩ := decode_inv ht hat hret
      have hslen := lt_length_of_len_ne_zero hs
      have hcode : (codeBits (lengths.take size) s).length = len (lengths.take size) s :=
        length_bitsBE _ _
      refine ⟨len (lengths.take size) s, ?_, ?_, by omega, getElem?_eq_len rfl hslen⟩
      · rw [List.length_append, hcode]
        omega
      · rw [← hcode, List.drop_left]
        exact hat'

/-- An over-subscribed code: three symbols of length 1, all of which are written. -/
example : buildLog [1, 1, 1] 3 = .ok [(0, 0), (1, 1), (2, 2)] := by rfl

end CappuccinOS.Gzip
