import Mathlib

/-!
# 64-bit words under the two build profiles

A Rust `usize` is a natural number below `2 ^ 64`. What `+` and `-` do at the border depends on
the cargo profile: `dev` stops with a panic, `release` wraps. `Profile.add` and `Profile.sub`
are these two operations; a computation that returns under `dev` returns the same value under
`release` (`add_release_of_dev`, `sub_release_of_dev`), so a run of the `dev` profile that
returns is a run in which no machine operation leaves the 64-bit range.
-/

namespace CappuccinOS

/-- Why a computation stopped. -/
inductive Panic
  | assertion
  | overflow
  | bounds
  | unwrap
  deriving DecidableEq, Repr

/-- The cargo profile: overflow checks on (`dev`) or off (`release`). -/
inductive Profile
  | dev
  | release
  deriving DecidableEq, Repr

/-- The number of values of a machine word. -/
abbrev wordSize : ℕ := 2 ^ 64

/-- `assert!`. -/
def check (c : Prop) [Decidable c] : Except Panic Unit :=
  if c then .ok () else .error .assertion

@[simp] theorem check_eq_ok {c : Prop} [Decidable c] {u : Unit} : check c = .ok u ↔ c := by
  unfold check; split_ifs with h <;> simp [h]

theorem bind_eq_ok {ε α β : Type} {x : Except ε α} {f : α → Except ε β} {r : β} :
    x >>= f = .ok r ↔ ∃ a, x = .ok a ∧ f a = .ok r := by
  cases x with
  | error e => simp [bind, Except.bind]
  | ok a => simp [bind, Except.bind]

theorem bind_ne_error {ε α β : Type} {e : ε} {x : Except ε α} {f : α → Except ε β}
    (hx : x ≠ .error e) (hf : ∀ a, f a ≠ .error e) : x >>= f ≠ .error e := by
  cases x with
  | error e' => exact fun h => hx (by cases h; rfl)
  | ok a => exact hf a

theorem map_eq_ok {ε α β : Type} {x : Except ε α} {f : α → β} {r : β} :
    x.map f = .ok r ↔ ∃ a, x = .ok a ∧ f a = r := by
  cases x with
  | error e => simp [Except.map]
  | ok a => simp [Except.map]

theorem pure_eq_ok {ε α : Type} {a r : α} : (pure a : Except ε α) = .ok r ↔ a = r := by
  simp [pure, Except.pure]

namespace Profile

/-- `a + b` on `usize`. -/
def add (p : Profile) (a b : ℕ) : Except Panic ℕ :=
  if a + b < wordSize then .ok (a + b)
  else match p with
    | dev => .error .overflow
    | release => .ok ((a + b) % wordSize)

/-- `a - b` on `usize`. -/
def sub (p : Profile) (a b : ℕ) : Except Panic ℕ :=
  if b ≤ a then .ok (a - b)
  else match p with
    | dev => .error .overflow
    | release => .ok ((a + wordSize - b) % wordSize)

theorem add_dev_eq_ok {a b c : ℕ} : dev.add a b = .ok c ↔ c = a + b ∧ a + b < wordSize := by
  unfold add
  split_ifs with h
  · simp [h, eq_comm]
  · simp [h]

theorem sub_dev_eq_ok {a b c : ℕ} : dev.sub a b = .ok c ↔ c = a - b ∧ b ≤ a := by
  unfold sub
  split_ifs with h
  · simp [h, eq_comm]
  · simp [h]

theorem add_of_lt (p : Profile) {a b : ℕ} (h : a + b < wordSize) : p.add a b = .ok (a + b) :=
  if_pos h

theorem sub_of_le (p : Profile) {a b : ℕ} (h : b ≤ a) : p.sub a b = .ok (a - b) := if_pos h

theorem add_release_of_dev {a b c : ℕ} (h : dev.add a b = .ok c) : release.add a b = .ok c := by
  obtain ⟨rfl, hlt⟩ := add_dev_eq_ok.mp h
  exact add_of_lt release hlt

theorem sub_release_of_dev {a b c : ℕ} (h : dev.sub a b = .ok c) : release.sub a b = .ok c := by
  obtain ⟨rfl, hle⟩ := sub_dev_eq_ok.mp h
  exact sub_of_le release hle

theorem sub_dev_of_lt {a b : ℕ} (h : a < b) : dev.sub a b = .error .overflow :=
  if_neg (Nat.not_le.mpr h)

theorem sub_release_of_lt {a b : ℕ} (h : a < b) :
    release.sub a b = .ok ((a + wordSize - b) % wordSize) := if_neg (Nat.not_le.mpr h)

theorem add_release_of_le {a b : ℕ} (h : wordSize ≤ a + b) :
    release.add a b = .ok ((a + b) % wordSize) := if_neg (Nat.not_lt.mpr h)

theorem add_release (a b : ℕ) : release.add a b = .ok ((a + b) % wordSize) := by
  unfold add
  split_ifs with h
  · rw [Nat.mod_eq_of_lt h]
  · rfl

/-- A difference that wraps around is still undone by the addition. -/
theorem sub_then_add_release {a b : ℕ} (h : a < b) (hword : b < wordSize) :
    ∃ n, release.sub a b = .ok n ∧ release.add b n = .ok a := by
  have hsize : a + wordSize - b < wordSize := by omega
  have hwrap : b + (a + wordSize - b) = a + wordSize := by omega
  refine ⟨a + wordSize - b, ?_, ?_⟩
  · rw [sub_release_of_lt h, Nat.mod_eq_of_lt hsize]
  · rw [add_release_of_le (by omega), hwrap, Nat.add_mod_right, Nat.mod_eq_of_lt (by omega)]

/-- The result `n` of an addition or a multiplication on the `w`-bit unsigned type. -/
def fit (p : Profile) (w n : ℕ) : Except Panic ℕ :=
  if n < 2 ^ w then .ok n
  else match p with
    | dev => .error .overflow
    | release => .ok (n % 2 ^ w)

/-- `a - b` on the `w`-bit unsigned type. -/
def subFit (p : Profile) (w a b : ℕ) : Except Panic ℕ :=
  if b ≤ a then .ok (a - b)
  else match p with
    | dev => .error .overflow
    | release => .ok ((a + 2 ^ w - b) % 2 ^ w)

theorem fit_of_lt (p : Profile) {w n : ℕ} (h : n < 2 ^ w) : p.fit w n = .ok n := if_pos h

theorem fit_release (w n : ℕ) : release.fit w n = .ok (n % 2 ^ w) := by
  unfold fit
  split_ifs with h
  · rw [Nat.mod_eq_of_lt h]
  · rfl

/-- When an operation on the `w`-bit type returns, and what. -/
theorem fit_eq_ok {p : Profile} {w n r : ℕ} :
    p.fit w n = .ok r ↔ (p = .dev → n < 2 ^ w) ∧ r = n % 2 ^ w := by
  unfold fit
  split_ifs with h
  · rw [Nat.mod_eq_of_lt h, Except.ok.injEq]
    exact ⟨fun hr => ⟨fun _ => h, hr.symm⟩, fun hr => hr.2.symm⟩
  · cases p with
    | dev => exact ⟨nofun, fun hr => absurd (hr.1 rfl) h⟩
    | release => exact ⟨fun hr => ⟨nofun, (Except.ok.inj hr).symm⟩, fun hr => by rw [hr.2]⟩

/-- An addition that returns gives the sum modulo the word size, under both profiles. -/
theorem eq_mod_of_add {p : Profile} {a b c : ℕ} (h : p.add a b = .ok c) :
    c = (a + b) % wordSize := by
  unfold add at h
  split_ifs at h with hlt
  · rw [Nat.mod_eq_of_lt hlt]
    exact (Except.ok.inj h).symm
  · cases p with
    | dev => cases h
    | release => exact (Except.ok.inj h).symm

end Profile

/-! ## One computation under both profiles -/

/-- `x` is what a computation does under `dev` and `y` what it does under `release`: the same,
unless `dev` stops at an overflow. -/
def Agrees {α : Type} (x y : Except Panic α) : Prop := x = .error .overflow ∨ y = x

namespace Agrees

variable {α β : Type} {x y : Except Panic α}

theorem refl (x : Except Panic α) : Agrees x x := .inr rfl

theorem bind (h : Agrees x y) {f g : α → Except Panic β} (hf : ∀ a, Agrees (f a) (g a)) :
    Agrees (x >>= f) (y >>= g) := by
  rcases h with rfl | rfl
  · exact .inl rfl
  · cases y with
    | error e => exact .refl _
    | ok a => exact hf a

theorem ite {c : Prop} [Decidable c] {x' y' : Except Panic α} (h : Agrees x y)
    (h' : Agrees x' y') : Agrees (if c then x else x') (if c then y else y') := by
  split_ifs
  · exact h
  · exact h'

/-- What the computation does under `release`, when no overflow stops it under `dev`. -/
theorem eq_of_ne (h : Agrees x y) (hx : x ≠ .error .overflow) : y = x := h.resolve_left hx

theorem add (a b : ℕ) : Agrees (Profile.dev.add a b) (Profile.release.add a b) := by
  by_cases h : a + b < wordSize
  · rw [Profile.add_of_lt .dev h, Profile.add_of_lt .release h]
    exact .refl _
  · exact .inl (if_neg h)

theorem sub (a b : ℕ) : Agrees (Profile.dev.sub a b) (Profile.release.sub a b) := by
  by_cases h : b ≤ a
  · rw [Profile.sub_of_le .dev h, Profile.sub_of_le .release h]
    exact .refl _
  · exact .inl (if_neg h)

end Agrees

/-! ## Masks -/

/-- The bitwise complement of a word. -/
def wordNot (a : ℕ) : ℕ := wordSize - 1 - a

/-- Masking with the complement of `2 ^ k - 1` rounds down to a multiple of `2 ^ k`. -/
theorem and_wordNot_two_pow {n k : ℕ} (hn : n < wordSize) (hk : k ≤ 64) :
    n &&& wordNot (2 ^ k - 1) = n / 2 ^ k * 2 ^ k := by
  have hmask : wordNot (2 ^ k - 1) = 2 ^ k * (2 ^ (64 - k) - 1) := by
    have h64 : wordSize = 2 ^ k * 2 ^ (64 - k) := by
      rw [← pow_add, Nat.add_sub_cancel' hk]
    have hpos : 0 < 2 ^ k := Nat.two_pow_pos k
    unfold wordNot
    rw [Nat.mul_sub, mul_one, ← h64]
    omega
  rw [hmask, mul_comm (n / 2 ^ k)]
  apply Nat.eq_of_testBit_eq
  intro i
  rw [Nat.testBit_and, Nat.testBit_two_pow_mul, Nat.testBit_two_pow_mul, Nat.testBit_div_two_pow,
    Nat.testBit_two_pow_sub_one]
  by_cases hik : k ≤ i
  · by_cases hi : i < 64
    · simp [hik, show i - k < 64 - k by omega]
    · have : n.testBit i = false :=
        Nat.testBit_lt_two_pow (lt_of_lt_of_le hn (Nat.pow_le_pow_right (by norm_num) (by omega)))
      simp [hik, this]
  · simp [hik]

/-- A mask of `c` ones above `a` zeros keeps the field of width `c` at `a`. -/
theorem and_field (n a c : ℕ) : n &&& 2 ^ a * (2 ^ c - 1) = 2 ^ a * (n / 2 ^ a % 2 ^ c) := by
  apply Nat.eq_of_testBit_eq
  intro i
  rw [Nat.testBit_and, Nat.testBit_two_pow_mul, Nat.testBit_two_pow_mul,
    Nat.testBit_two_pow_sub_one,
    Nat.testBit_mod_two_pow, Nat.testBit_div_two_pow]
  by_cases hai : a ≤ i
  · rw [Nat.sub_add_cancel hai]
    simp [hai, Bool.and_comm]
  · simp [hai]

/-- All bits of `x` lie in the mask `m`. -/
def SubMask (x m : ℕ) : Prop := x &&& m = x

instance (x m : ℕ) : Decidable (SubMask x m) := inferInstanceAs (Decidable (_ = _))

namespace SubMask

variable {x m k : ℕ}

theorem and_eq (h : SubMask x m) (hk : SubMask m k) : x &&& k = x := by
  rw [← h, Nat.and_assoc, hk]

theorem and_eq_zero (h : SubMask x m) (hk : m &&& k = 0) : x &&& k = 0 := by
  rw [← h, Nat.and_assoc, hk, Nat.and_zero]

end SubMask

end CappuccinOS
