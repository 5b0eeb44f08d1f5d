import CappuccinOS.Lib.Bits

/-!
# Canonical prefix codes

A vector of code lengths determines a canonical code: shorter codes come first, codes of one
length are consecutive numbers in symbol order, and length 0 means no code. `first k` is the
first code of length `k` and `base k` the number of codes shorter than `k`.

A decoder that knows only the number of codes of each length reads bits into a number and stops
at the first length `k` at which the number is below `first k + count k`. Under Kraft's
inequality this is where the code of a symbol ends and not before (`first_add_count_le_prefix`,
`code_lt`), so the position of the symbol in the list of symbols sorted by length is
`base k + rank`.
-/

namespace CappuccinOS.Canonical

variable (lens : List ℕ)

/-- The number of codes of length `k`. -/
def count (k : ℕ) : ℕ := if k = 0 then 0 else lens.count k

/-- The first code of length `k`. -/
def first : ℕ → ℕ
  | 0 => 0
  | k + 1 => 2 * (first k + count lens k)

/-- The number of codes shorter than `k`. -/
def base : ℕ → ℕ
  | 0 => 0
  | k + 1 => base k + count lens k

/-- The length of the code of symbol `s`; 0 when it has none. -/
def len (s : ℕ) : ℕ := lens.getD s 0

/-- The number of symbols before `s` with a code of the same length. -/
def rank (s : ℕ) : ℕ := (lens.take s).count (len lens s)

/-- The canonical code of symbol `s`. -/
def code (s : ℕ) : ℕ := first lens (len lens s) + rank lens s

/-- The code of `s` as it is sent: most significant bit first. -/
def codeBits (s : ℕ) : List Bool := bitsBE (code lens s) (len lens s)

/-- The share of the code space of width `m` that a code of length `l` takes. -/
def weight (m l : ℕ) : ℕ := if l = 0 then 0 else 2 ^ (m - l)

/-- Kraft's inequality for lengths up to `m`. -/
def Kraft (m : ℕ) : Prop := (lens.map (weight m)).sum ≤ 2 ^ m

instance (m : ℕ) : Decidable (Kraft lens m) := inferInstanceAs (Decidable (_ ≤ _))

/-! ## Kraft -/

/-- The share of the codes of length at most `k`. -/
def partialWeight (m k : ℕ) : ℕ := (lens.map fun l => if l ≤ k then weight m l else 0).sum

theorem partialWeight_zero (m : ℕ) : partialWeight lens m 0 = 0 := by
  unfold partialWeight
  rw [List.sum_eq_zero]
  intro x hx
  obtain ⟨l, -, rfl⟩ := List.mem_map.mp hx
  by_cases h : l = 0 <;> simp [h, weight]

theorem partialWeight_succ (m k : ℕ) :
    partialWeight lens m (k + 1) =
      partialWeight lens m k + lens.count (k + 1) * 2 ^ (m - (k + 1)) := by
  unfold partialWeight
  induction lens with
  | nil => simp
  | cons l lens ih =>
    rw [List.map_cons, List.sum_cons, ih, List.map_cons, List.sum_cons, List.count_cons]
    rcases Nat.lt_trichotomy l (k + 1) with h | rfl | h
    · rw [if_pos (by omega), if_pos (by omega), if_neg (by simp; omega)]
      ring
    · rw [if_pos le_rfl, if_neg (by omega), if_pos (by simp), weight, if_neg (by omega), add_mul,
        one_mul]
      omega
    · rw [if_neg (by omega), if_neg (by omega), if_neg (by simp; omega)]
      ring

theorem partialWeight_le (m k : ℕ) : partialWeight lens m k ≤ (lens.map (weight m)).sum := by
  unfold partialWeight
  refine List.sum_le_sum fun l _ => ?_
  split_ifs <;> omega

/-- The codes up to length `k` fill the code space from the bottom. -/
theorem first_add_count_mul {m k : ℕ} (hk : k ≤ m) :
    (first lens k + count lens k) * 2 ^ (m - k) = partialWeight lens m k := by
  induction k with
  | zero => rw [partialWeight_zero]; simp [first, count]
  | succ k ih =>
    have hpow : 2 ^ (m - k) = 2 * 2 ^ (m - (k + 1)) := by
      rw [show m - k = m - (k + 1) + 1 by omega, pow_succ, mul_comm]
    have ih := ih (by omega)
    rw [hpow] at ih
    have hcount : count lens (k + 1) = lens.count (k + 1) := if_neg (by omega)
    rw [partialWeight_succ, ← ih, first, hcount]
    ring

/-- Under Kraft's inequality the codes of length `k` fit into `k` bits. -/
theorem first_add_count_le {m k : ℕ} (h : Kraft lens m) (hk : k ≤ m) :
    first lens k + count lens k ≤ 2 ^ k := by
  have h1 := first_add_count_mul lens hk
  have h2 := (partialWeight_le lens m k).trans h
  have h3 : 2 ^ m = 2 ^ k * 2 ^ (m - k) := by rw [← pow_add, Nat.add_sub_cancel' hk]
  rw [← h1, h3] at h2
  exact Nat.le_of_mul_le_mul_right h2 (Nat.two_pow_pos _)

/-! ## Codes -/

variable {lens}

theorem len_eq_getElem {s : ℕ} (h : s < lens.length) : len lens s = lens[s] := by
  rw [len, List.getD_eq_getElem _ _ h]

theorem lt_length_of_len_ne_zero {s : ℕ} (h : len lens s ≠ 0) : s < lens.length := by
  by_contra hle
  exact h (by rw [len, List.getD_eq_default _ _ (by omega)])

theorem len_le_of_forall {lens : List ℕ} {m : ℕ} (h : ∀ l ∈ lens, l ≤ m) (s : ℕ) :
    len lens s ≤ m := by
  by_cases hs : s < lens.length
  · rw [len_eq_getElem hs]
    exact h _ (List.getElem_mem hs)
  · rw [len, List.getD_eq_default _ _ (by omega)]
    exact Nat.zero_le m

theorem codeBits_eq {s w v : ℕ} (hlen : len lens s = w)
    (hcode : first lens w + (lens.take s).count w = v) : codeBits lens s = bitsBE v w := by
  rw [codeBits, code, rank, hlen, hcode]

theorem rank_lt {s : ℕ} (h : len lens s ≠ 0) : rank lens s < count lens (len lens s) := by
  have hs := lt_length_of_len_ne_zero h
  have hsplit : lens.count (len lens s) =
      (lens.take s).count (len lens s) + (lens.drop s).count (len lens s) := by
    rw [← List.count_append, List.take_append_drop]
  rw [count, if_neg h, rank, hsplit]
  have hmem : len lens s ∈ lens.drop s := by
    rw [List.drop_eq_getElem_cons hs, len_eq_getElem hs]
    exact List.mem_cons_self
  have := List.count_pos_iff.mpr hmem
  omega

theorem code_lt {s : ℕ} (h : len lens s ≠ 0) :
    code lens s < first lens (len lens s) + count lens (len lens s) :=
  Nat.add_lt_add_left (rank_lt h) _

/-- The first code of a longer length lies above all shorter codes. -/
theorem first_mono {i k : ℕ} (h : i < k) :
    (first lens i + count lens i) * 2 ^ (k - i) ≤ first lens k := by
  induction k with
  | zero => omega
  | succ k ih =>
    rcases Nat.lt_succ_iff_lt_or_eq.mp h with hlt | rfl
    · have := ih hlt
      rw [show k + 1 - i = k - i + 1 by omega, pow_succ, ← mul_assoc, first]
      omega
    · rw [show i + 1 - i = 1 by omega, first]
      omega

/-- A proper prefix of a code is above all codes of the prefix's length. -/
theorem first_add_count_le_prefix {s i : ℕ} (h : i < len lens s) :
    first lens i + count lens i ≤ code lens s / 2 ^ (len lens s - i) := by
  rw [Nat.le_div_iff_mul_le (Nat.two_pow_pos _)]
  exact (first_mono h).trans (Nat.le_add_right _ _)

/-- Symbol `s` has a code that can be sent. With lengths that break Kraft's inequality some codes
do not fit into their lengths. -/
def Coded (lens : List ℕ) (s : ℕ) : Prop := len lens s ≠ 0 ∧ code lens s < 2 ^ len lens s

instance (s : ℕ) : Decidable (Coded lens s) := inferInstanceAs (Decidable (_ ∧ _))

theorem Kraft.coded {m s : ℕ} (hk : Kraft lens m) (h : len lens s ≠ 0) (hm : len lens s ≤ m) :
    Coded lens s :=
  ⟨h, lt_of_lt_of_le (code_lt h) (first_add_count_le lens hk hm)⟩

theorem Coded.codeBits_ne_nil {s : ℕ} (h : Coded lens s) : codeBits lens s ≠ [] := by
  intro hnil
  have hlen := congrArg List.length hnil
  rw [codeBits, length_bitsBE, List.length_nil] at hlen
  exact h.1 hlen

theorem exists_rank {k r : ℕ} (hk : k ≠ 0) (hr : r < count lens k) :
    ∃ s, len lens s = k ∧ rank lens s = r := by
  have hfind : ∀ (l : List ℕ) (r : ℕ), r < l.count k →
      ∃ s, ∃ h : s < l.length, l[s] = k ∧ (l.take s).count k = r := by
    intro l
    induction l with
    | nil => intro r hr; simp at hr
    | cons x l ih =>
      intro r hr
      by_cases hx : x = k
      · cases r with
        | zero => exact ⟨0, by simp, hx, rfl⟩
        | succ r =>
          rw [hx, List.count_cons_self] at hr
          obtain ⟨s, hs, hget, hcount⟩ := ih r (by omega)
          exact ⟨s + 1, by simpa using hs, by simpa using hget, by simp [hx, hcount]⟩
      · rw [List.count_cons_of_ne hx] at hr
        obtain ⟨s, hs, hget, hcount⟩ := ih r hr
        exact ⟨s + 1, by simpa using hs, by simpa using hget, by simp [hx, hcount]⟩
  rw [count, if_neg hk] at hr
  obtain ⟨s, hs, hget, hcount⟩ := hfind lens r hr
  have hlen : len lens s = k := (len_eq_getElem hs).trans hget
  exact ⟨s, hlen, by rw [rank, hlen, hcount]⟩

/-! ## The sorted list of symbols -/

theorem base_mono {i k : ℕ} (h : i < k) : base lens i + count lens i ≤ base lens k := by
  induction k with
  | zero => omega
  | succ k ih =>
    rcases Nat.lt_succ_iff_lt_or_eq.mp h with hlt | rfl
    · exact (ih hlt).trans (Nat.le_add_right _ _)
    · exact le_rfl

/-- The place of symbol `s` among all symbols sorted by length. -/
def slot (lens : List ℕ) (s : ℕ) : ℕ := base lens (len lens s) + rank lens s

theorem base_eq_countP (k : ℕ) :
    base lens k = lens.countP fun l => decide (l ≠ 0 ∧ l < k) := by
  induction k with
  | zero => simp [base]
  | succ k ih =>
    rw [base, ih, count]
    clear ih
    induction lens with
    | nil => simp
    | cons l lens ih =>
      rw [List.countP_cons, List.countP_cons, List.count_cons, ← ih]
      by_cases hk : k = 0
      · subst hk; simp
      · by_cases hl : l = k
        · subst hl; simp [hk]; omega
        · have hiff : l < k + 1 ↔ l < k := by omega
          simp only [hiff, beq_iff_eq, if_neg hl, if_neg hk]
          omega

theorem base_le_length (k : ℕ) : base lens k ≤ lens.length := by
  rw [base_eq_countP]
  exact List.countP_le_length

theorem slot_lt {s : ℕ} (h : len lens s ≠ 0) : slot lens s < lens.length := by
  have h1 := rank_lt h
  have h2 : base lens (len lens s + 1) ≤ lens.length := base_le_length _
  rw [base] at h2
  unfold slot
  omega

theorem rank_lt_of_lt {s t : ℕ} (hst : s < t) (hs : len lens s ≠ 0)
    (he : len lens s = len lens t) : rank lens s < rank lens t := by
  have hlt := lt_length_of_len_ne_zero hs
  have hsplit : lens.take t = lens.take s ++ (lens.drop s).take (t - s) := by
    conv_lhs => rw [show t = s + (t - s) by omega, List.take_add]
  rw [rank, rank, ← he, hsplit, List.count_append]
  have hmem : len lens s ∈ (lens.drop s).take (t - s) := by
    rw [List.drop_eq_getElem_cons hlt, show t - s = (t - s - 1) + 1 by omega, List.take_succ_cons,
      len_eq_getElem hlt]
    exact List.mem_cons_self
  have := List.count_pos_iff.mpr hmem
  omega

theorem slot_ne_of_lt {s t : ℕ} (hst : s < t) (hs : len lens s ≠ 0) (ht : len lens t ≠ 0) :
    slot lens s ≠ slot lens t := by
  unfold slot
  have h1 := rank_lt hs
  have h2 := rank_lt ht
  rcases Nat.lt_trichotomy (len lens s) (len lens t) with h | h | h
  · have := @base_mono lens _ _ h; omega
  · have := rank_lt_of_lt hst hs h; rw [h]; omega
  · have := @base_mono lens _ _ h; omega

end CappuccinOS.Canonical
