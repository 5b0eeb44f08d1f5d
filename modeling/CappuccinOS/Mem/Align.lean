import CappuccinOS.Lib.Word

/-!
# Rounding addresses (`mem/mod.rs`)

`align_up` and `align_down` round an address to a multiple of a power of two with a mask. Under
the `dev` profile, where `val + align` must stay below `2 ^ 64`, `alignUp` is rounding up
(`alignUp_dev`): its result is the first multiple of `align` at or after `val`.
-/

namespace CappuccinOS

def pageSize : ℕ := 4096

/-- `align_up`: `(val + align - 1) & !(align - 1)`. -/
def alignUp (p : Profile) (val align : ℕ) : Except Panic ℕ := do
  check align.isPowerOfTwo
  let sum ← p.add val align
  let last ← p.sub sum 1
  let mask ← p.sub align 1
  pure (last &&& wordNot mask)

/-- `align_down`: `val & !(align - 1)`. -/
def alignDown (p : Profile) (val align : ℕ) : Except Panic ℕ := do
  check align.isPowerOfTwo
  let mask ← p.sub align 1
  pure (val &&& wordNot mask)

/-- Rounding up to a multiple of `a`: at least the value, and less than `a` above it. -/
theorem roundUp_bounds (n : ℕ) {a : ℕ} (ha : 0 < a) :
    n ≤ (n + a - 1) / a * a ∧ (n + a - 1) / a * a < n + a := by
  have hdiv := Nat.div_add_mod (n + a - 1) a
  have hmod := Nat.mod_lt (n + a - 1) ha
  rw [mul_comm] at hdiv
  omega

theorem alignUp_dev_eq_ok {val align r : ℕ} (h : alignUp .dev val align = .ok r) :
    align.isPowerOfTwo ∧ val + align < wordSize ∧ r = (val + align - 1) / align * align := by
  unfold alignUp at h
  simp only [bind_eq_ok, check_eq_ok, exists_const, Profile.add_dev_eq_ok, Profile.sub_dev_eq_ok,
    pure_eq_ok] at h
  obtain ⟨hpow, _, ⟨rfl, hlt⟩, _, ⟨rfl, _⟩, _, ⟨rfl, _⟩, rfl⟩ := h
  refine ⟨hpow, hlt, ?_⟩
  obtain ⟨k, rfl⟩ := hpow
  have hk : k ≤ 64 := by
    by_contra hk
    have : wordSize ≤ 2 ^ k := Nat.pow_le_pow_right (by norm_num) (by omega)
    omega
  exact and_wordNot_two_pow (by omega) hk

/-- What a returning `align_up` of the `dev` profile computes. -/
theorem alignUp_dev {val align r : ℕ} (h : alignUp .dev val align = .ok r) :
    val ≤ r ∧ r < val + align ∧ align ∣ r := by
  obtain ⟨hpow, -, rfl⟩ := alignUp_dev_eq_ok h
  obtain ⟨hle, hlt⟩ := roundUp_bounds val (Nat.pos_of_isPowerOfTwo hpow)
  exact ⟨hle, hlt, Dvd.intro_left _ rfl⟩

/-- `align_up` of the `dev` profile returns unless `val + align` leaves the word. -/
theorem alignUp_dev_of_lt {val align : ℕ} (hpow : align.isPowerOfTwo)
    (hlt : val + align < wordSize) :
    alignUp .dev val align = .ok ((val + align - 1) / align * align) := by
  have hpos : 0 < align := Nat.pos_of_isPowerOfTwo hpow
  have hok : ∃ r, alignUp .dev val align = .ok r := by
    unfold alignUp
    simp only [bind_eq_ok, check_eq_ok, exists_const, Profile.add_dev_eq_ok,
      Profile.sub_dev_eq_ok, pure_eq_ok]
    exact ⟨_, hpow, _, ⟨rfl, hlt⟩, _, ⟨rfl, by omega⟩, _, ⟨rfl, hpos⟩, rfl⟩
  obtain ⟨r, hr⟩ := hok
  rw [hr, (alignUp_dev_eq_ok hr).2.2]

/-- The round-up is the only multiple of `align` in reach. -/
theorem roundUp_unique {val align r : ℕ} (hpos : 0 < align) (hdvd : align ∣ r) (hle : val ≤ r)
    (hlt : r < val + align) : (val + align - 1) / align * align = r := by
  obtain ⟨hle', hlt'⟩ := roundUp_bounds val hpos
  obtain ⟨c, rfl⟩ := hdvd
  rw [mul_comm] at hle' hlt' ⊢
  have h1 : (val + align - 1) / align < c + 1 :=
    Nat.lt_of_mul_lt_mul_left (a := align) (by rw [mul_add, mul_one]; omega)
  have h2 : c < (val + align - 1) / align + 1 :=
    Nat.lt_of_mul_lt_mul_left (a := align) (by rw [mul_add, mul_one]; omega)
  rw [show (val + align - 1) / align = c by omega]

theorem alignUp_dev_of_dvd {val align : ℕ} (hpow : align.isPowerOfTwo) (hdvd : align ∣ val)
    (hlt : val + align < wordSize) : alignUp .dev val align = .ok val := by
  have hpos : 0 < align := Nat.pos_of_isPowerOfTwo hpow
  rw [alignUp_dev_of_lt hpow hlt, roundUp_unique hpos hdvd le_rfl (by omega)]

/-- The `dev` check of `align_up(ptr, align) == ptr` is divisibility. -/
theorem alignUp_dev_eq_self {val align : ℕ} (h : alignUp .dev val align = .ok val) :
    align ∣ val := (alignUp_dev h).2.2

theorem alignUp_release_of_dev {val align r : ℕ} (h : alignUp .dev val align = .ok r) :
    alignUp .release val align = .ok r := by
  unfold alignUp at h ⊢
  simp only [bind_eq_ok, check_eq_ok, exists_const] at h ⊢
  obtain ⟨hpow, s, hs, l, hl, m, hm, hr⟩ := h
  exact ⟨hpow, s, Profile.add_release_of_dev hs, l, Profile.sub_release_of_dev hl, m,
    Profile.sub_release_of_dev hm, hr⟩

/-- Away from the end of the word `align_up` rounds up under both profiles. -/
theorem alignUp_of_lt (p : Profile) {val align : ℕ} (hpow : align.isPowerOfTwo)
    (hlt : val + align < wordSize) :
    alignUp p val align = .ok ((val + align - 1) / align * align) := by
  cases p with
  | dev => exact alignUp_dev_of_lt hpow hlt
  | release => exact alignUp_release_of_dev (alignUp_dev_of_lt hpow hlt)

theorem alignDown_of_lt (p : Profile) {val k : ℕ} (hval : val < wordSize) (hk : k ≤ 64) :
    alignDown p val (2 ^ k) = .ok (val / 2 ^ k * 2 ^ k) := by
  have hpow : (2 ^ k).isPowerOfTwo := ⟨k, rfl⟩
  have hmask : p.sub (2 ^ k) 1 = .ok (2 ^ k - 1) := p.sub_of_le (Nat.one_le_two_pow)
  unfold alignDown
  rw [check, if_pos hpow, hmask, ← and_wordNot_two_pow hval hk]
  rfl

end CappuccinOS
