import CappuccinOS.Lib.Text

/-!
# Hexadecimal text

The standard library's `from_str_radix` for base 16, and the text that it reads back: a number with
a fixed count of digits, each in upper or in lower case (`fromStrRadix_hexText`), and bytes with two
digits each (`mapM_chunks_hexBytes`).
-/

namespace CappuccinOS

/-- `char::to_digit(16)`. -/
def toDigit (c : Char) : Option ℕ :=
  let n := c.toNat
  if 48 ≤ n ∧ n ≤ 57 then some (n - 48)
  else if 65 ≤ n ∧ n ≤ 70 then some (n - 55)
  else if 97 ≤ n ∧ n ≤ 102 then some (n - 87)
  else none

/-- The digits of `from_str_radix` on the `w`-bit unsigned type, read on from `acc`. -/
def parseDigits (w : ℕ) (acc : ℕ) : List Char → Option ℕ
  | [] => some acc
  | c :: cs =>
    match toDigit c with
    | none => none
    | some d => if acc * 16 + d < 2 ^ w then parseDigits w (acc * 16 + d) cs else none

/-- `from_str_radix(s, 16)` on the `w`-bit unsigned type. -/
def fromStrRadix (w : ℕ) (s : List Char) : Option ℕ :=
  match s with
  | [] => none
  | ['+'] => none
  | ['-'] => none
  | '+' :: digits => parseDigits w 0 digits
  | digits => parseDigits w 0 digits

/-- `chunks(2)`. -/
def chunksTwo {α : Type} : List α → List (List α)
  | [] => []
  | [a] => [[a]]
  | a :: b :: rest => [a, b] :: chunksTwo rest

/-- `str::trim`. -/
def trim (s : List Char) : List Char := trimEnd (s.dropWhile isWhitespace)

/-! ## Writing -/

/-- A digit in upper or in lower case. -/
def hexChar (upper : Bool) (d : ℕ) : Char :=
  if upper then (Nat.digitChar d).toUpper else Nat.digitChar d

/-- The `n` low digits of a number; `upper` says which of them are in upper case. -/
def hexText (upper : ℕ → Bool) : ℕ → ℕ → List Char
  | 0, _ => []
  | n + 1, v => hexText upper n (v / 16) ++ [hexChar (upper n) (v % 16)]

/-- The digits of bytes, two for each. -/
def hexBytes (upper : ℕ → Bool) : List Byte → List Char
  | [] => []
  | b :: bs => hexText upper 2 b.toNat ++ hexBytes (fun i => upper (i + 2)) bs

theorem toDigit_hexChar (upper : Bool) {d : ℕ} (h : d < 16) :
    toDigit (hexChar upper d) = some d := by
  interval_cases d <;> cases upper <;> rfl

section Digits

variable {c : Char} {d : ℕ}

theorem ne_minus_of_toDigit (h : toDigit c = some d) : c ≠ '-' := by
  rintro rfl
  cases h

theorem ne_plus_of_toDigit (h : toDigit c = some d) : c ≠ '+' := by
  rintro rfl
  cases h

theorem not_whitespace_of_toDigit (h : toDigit c = some d) : isWhitespace c = false := by
  have hrange : 48 ≤ c.toNat ∧ c.toNat ≤ 102 := by
    unfold toDigit at h
    dsimp only at h
    split_ifs at h <;> omega
  unfold isWhitespace
  rw [decide_eq_false_iff_not]
  omega

end Digits

/-- All characters of a text are digits. -/
def AllDigits (s : List Char) : Prop := ∀ c ∈ s, ∃ d, toDigit c = some d

namespace AllDigits

variable {s t : List Char}

theorem append (hs : AllDigits s) (ht : AllDigits t) : AllDigits (s ++ t) := by
  intro c hc
  rcases List.mem_append.mp hc with hc | hc
  · exact hs c hc
  · exact ht c hc

theorem minus_not_mem (h : AllDigits s) : '-' ∉ s := by
  intro hmem
  obtain ⟨d, hd⟩ := h _ hmem
  exact ne_minus_of_toDigit hd rfl

theorem not_whitespace (h : AllDigits s) : ∀ c ∈ s, isWhitespace c = false := by
  intro c hc
  obtain ⟨d, hd⟩ := h c hc
  exact not_whitespace_of_toDigit hd

theorem fromStrRadix_eq (h : AllDigits s) (hne : s ≠ []) (w : ℕ) :
    fromStrRadix w s = parseDigits w 0 s := by
  cases s with
  | nil => exact absurd rfl hne
  | cons c cs =>
    obtain ⟨d, hd⟩ := h c List.mem_cons_self
    have hplus := ne_plus_of_toDigit hd
    have hminus := ne_minus_of_toDigit hd
    unfold fromStrRadix
    split
    · contradiction
    · simp_all
    · simp_all
    · simp_all
    · rfl

end AllDigits

theorem length_hexText (upper : ℕ → Bool) (n v : ℕ) : (hexText upper n v).length = n := by
  induction n generalizing v with
  | zero => rfl
  | succ n ih => rw [hexText, List.length_append, ih, List.length_singleton]

theorem allDigits_hexText (upper : ℕ → Bool) (n v : ℕ) : AllDigits (hexText upper n v) := by
  induction n generalizing v with
  | zero => exact fun c hc => absurd hc List.not_mem_nil
  | succ n ih =>
    apply (ih (v / 16)).append
    intro c hc
    rw [List.mem_singleton.mp hc]
    exact ⟨_, toDigit_hexChar _ (Nat.mod_lt _ (by norm_num))⟩

theorem allDigits_hexBytes (upper : ℕ → Bool) (bs : List Byte) : AllDigits (hexBytes upper bs) := by
  induction bs generalizing upper with
  | nil => exact fun c hc => absurd hc List.not_mem_nil
  | cons b bs ih => exact (allDigits_hexText upper 2 b.toNat).append (ih _)

/-! ## Reading back -/

theorem parseDigits_append {w acc : ℕ} (s t : List Char) :
    parseDigits w acc (s ++ t) = parseDigits w acc s >>= fun v => parseDigits w v t := by
  induction s generalizing acc with
  | nil => rfl
  | cons c s ih =>
    rw [List.cons_append, parseDigits, parseDigits]
    cases toDigit c with
    | none => rfl
    | some d =>
      dsimp only
      split_ifs
      · exact ih
      · rfl

theorem parseDigits_hexText (upper : ℕ → Bool) {w n v : ℕ} (hv : v < 16 ^ n) (hw : v < 2 ^ w) :
    parseDigits w 0 (hexText upper n v) = some v := by
  induction n generalizing v with
  | zero =>
    obtain rfl : v = 0 := by omega
    rfl
  | succ n ih =>
    have hsplit : v / 16 * 16 + v % 16 = v := Nat.div_add_mod' v 16
    have hhigh : v / 16 < 16 ^ n := Nat.div_lt_of_lt_mul (by rwa [Nat.mul_comm, ← Nat.pow_succ])
    rw [hexText, parseDigits_append, ih hhigh (by omega)]
    show parseDigits w (v / 16) [hexChar (upper n) (v % 16)] = some v
    rw [parseDigits, toDigit_hexChar _ (Nat.mod_lt _ (by norm_num))]
    dsimp only
    rw [hsplit, if_pos hw]
    rfl

theorem fromStrRadix_hexText (upper : ℕ → Bool) {w n v : ℕ} (hn : n ≠ 0) (hv : v < 16 ^ n)
    (hw : v < 2 ^ w) : fromStrRadix w (hexText upper n v) = some v := by
  have hne : hexText upper n v ≠ [] := by
    rw [← List.length_pos_iff_ne_nil, length_hexText]
    omega
  rw [(allDigits_hexText upper n v).fromStrRadix_eq hne, parseDigits_hexText upper hv hw]

theorem mapM_chunks_hexBytes (upper : ℕ → Bool) (bs : List Byte) :
    (chunksTwo (hexBytes upper bs)).mapM (fromStrRadix 8) = some (bs.map BitVec.toNat) := by
  induction bs generalizing upper with
  | nil => rfl
  | cons b bs ih =>
    have hb : fromStrRadix 8 (hexText upper 2 b.toNat) = some b.toNat :=
      fromStrRadix_hexText upper (by norm_num) b.isLt b.isLt
    have hchunks : chunksTwo (hexBytes upper (b :: bs)) =
        hexText upper 2 b.toNat :: chunksTwo (hexBytes (fun i => upper (i + 2)) bs) := rfl
    rw [hchunks, List.mapM_cons, hb, ih]
    rfl

theorem chunksTwo_hexBytes_append (upper : ℕ → Bool) (bs : List Byte) (t : List Char) :
    chunksTwo (hexBytes upper bs ++ t) = chunksTwo (hexBytes upper bs) ++ chunksTwo t := by
  induction bs generalizing upper with
  | nil => rfl
  | cons b bs ih => exact congrArg (hexText upper 2 b.toNat :: ·) (ih fun i => upper (i + 2))

theorem trim_append_spaces {s : List Char} (h : ∀ c ∈ s, isWhitespace c = false) (n : ℕ) :
    trim (s ++ List.replicate n ' ') = s := by
  have hspaces : ∀ t, trimEnd (t ++ List.replicate n ' ') = trimEnd t := by
    intro t
    induction n with
    | zero => rw [List.replicate_zero, List.append_nil]
    | succ n ih =>
      rw [List.replicate_succ', ← List.append_assoc]
      exact (List.rdropWhile_concat_pos _ _ _ rfl).trans ih
  cases s with
  | nil =>
    have hdrop : (List.replicate n ' ').dropWhile isWhitespace = [] :=
      List.dropWhile_eq_nil_iff.mpr fun c hc => by rw [List.eq_of_mem_replicate hc]; rfl
    rw [List.nil_append, trim, hdrop]
    rfl
  | cons c s =>
    rw [trim, List.cons_append, List.dropWhile_cons, h c List.mem_cons_self, if_neg (by simp),
      ← List.cons_append, hspaces]
    apply List.rdropWhile_eq_self_iff.mpr
    intro hne
    rw [h _ (List.getLast_mem hne)]
    exact Bool.false_ne_true

end CappuccinOS
