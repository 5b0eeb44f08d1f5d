import CappuccinOS.Paging.Map

/-!
# The hardware walk

`walk` is what the processor makes of the tables in four-level mode: it follows four indices of
nine bits each, stops at an entry that is not present or that has the page-size bit, and collects
the rights on the way (writable and user pages need the bit at every level, no-execute at one).
The result is a `Leaf`: the physical address, the flags, and the size of the page.

The second half looks at single entries: what the source's constructors put into an entry is what
its own accessors and the processor read back.
-/

namespace CappuccinOS.Paging

/-- The flags a caller may choose: bits 1 to 6, 8 to 11 and 63. -/
def callerFlags : ℕ := 0x8000000000000F7E

/-- The address field of an entry, as the processor reads it: bits 12 to 51. -/
def frameMask : ℕ := 0x000FFFFFFFFFF000

/-- The rights that every level has to grant. -/
def grantFlags : ℕ := ptFlagWrite ||| ptFlagUser

/-- A translation. -/
@[ext]
structure Leaf where
  phys : ℕ
  flags : ℕ
  size : ℕ
  deriving DecidableEq, Repr

/-- What a leaf entry at `level` (0 for the last) says about `v`, when the tables above it allow
the rights in `allow` and forbid those in `forbid`. -/
def leafAt (v level e allow forbid : ℕ) : Leaf where
  phys := (e &&& frameMask) / 2 ^ (12 + 9 * level) * 2 ^ (12 + 9 * level) + v % 2 ^ (12 + 9 * level)
  flags := e &&& callerFlags &&& (allow ||| wordNot grantFlags) ||| forbid
  size := 2 ^ (12 + 9 * level)

/-- The walk of `v` through the last `levels` levels, from directory `dir` on. -/
def walkFrom (st : State) (v : ℕ) : ℕ → ℕ → ℕ → ℕ → Option Leaf
  | 0, _, _, _ => none
  | level + 1, dir, allow, forbid =>
    match st.mem dir with
    | none => none
    | some t =>
      let e := t (v / 2 ^ (12 + 9 * level) % 512)
      if ¬ e.testBit 0 then none
      else if level = 0 then some (leafAt v 0 e allow forbid)
      else if e.testBit 7 then
        -- the top level has no leaves, the bit is reserved there
        if level ≤ 2 then some (leafAt v level e allow forbid) else none
      else
        walkFrom st v level (e &&& frameMask) (allow &&& e) (forbid ||| e &&& ptFlagNx)

/-- The translation of `v` by the directory `root`. -/
def walk (st : State) (root v : ℕ) : Option Leaf :=
  walkFrom st v 4 root grantFlags 0

/-- The indices the walk of `v` uses. -/
def pathOf (v : ℕ) : List ℕ :=
  [v / 2 ^ 39 % 512, v / 2 ^ 30 % 512, v / 2 ^ 21 % 512, v / 2 ^ 12 % 512]

theorem tableIndex_eq (v s : ℕ) : tableIndex v s = v / 2 ^ s % 512 := by
  have hmask : 0x1ff <<< s = 2 ^ s * (2 ^ 9 - 1) := by
    rw [Nat.shiftLeft_eq, mul_comm]
    rfl
  unfold tableIndex
  rw [hmask, and_field, Nat.shiftRight_eq_div_pow, Nat.mul_div_cancel_left _ (Nat.two_pow_pos s)]
  rfl

/-! ## Entries -/

theorem and_valid_large (e : ℕ) : e &&& (ptFlagValid ||| ptFlagLarge) =
    (e.testBit 0).toNat * 2 ^ 0 ||| (e.testBit 7).toNat * 2 ^ 7 := by
  rw [Nat.and_or_distrib_left, ← Nat.and_two_pow, ← Nat.and_two_pow]
  rfl

theorem isTable_iff {e : ℕ} : isTable e ↔ e.testBit 0 = true ∧ e.testBit 7 = false := by
  unfold isTable
  rw [and_valid_large]
  cases e.testBit 0 <;> cases e.testBit 7 <;> decide

theorem isLarge_iff {e : ℕ} : isLarge e ↔ e.testBit 0 = true ∧ e.testBit 7 = true := by
  unfold isLarge
  rw [and_valid_large]
  cases e.testBit 0 <;> cases e.testBit 7 <;> decide

theorem isLarge.not_isTable {e : ℕ} (h : isLarge e) : ¬ isTable e := by
  intro h'
  rw [isTable_iff, (isLarge_iff.mp h).2] at h'
  cases h'.2

/-- The address of a frame: page-aligned and below `2 ^ 48`. -/
def FrameAddr (a : ℕ) : Prop := a % 4096 = 0 ∧ a < 2 ^ 48

theorem FrameAddr.subMask {a : ℕ} (h : FrameAddr a) : SubMask a ptPaddrMask := by
  have hmask : ptPaddrMask = 2 ^ 12 * (2 ^ 36 - 1) := by decide
  obtain ⟨h1, h2⟩ := h
  unfold SubMask
  rw [hmask, and_field]
  omega

section Disjoint

/-! An entry made of an address and of flags outside the address field. -/

variable {a f : ℕ} (ha : FrameAddr a) (hf : f &&& frameMask = 0)

include ha hf

theorem and_frameMask_or : (a ||| f) &&& frameMask = a := by
  rw [Nat.and_or_distrib_right, hf, Nat.or_zero]
  exact ha.subMask.and_eq (by decide)

theorem addr_or : addr (a ||| f) = a := by
  have hpaddr : f &&& ptPaddrMask = 0 := by
    have hsub : SubMask ptPaddrMask frameMask := by decide
    rw [← hsub, Nat.and_comm ptPaddrMask, ← Nat.and_assoc, hf, Nat.zero_and]
  unfold addr
  rw [Nat.and_or_distrib_right, hpaddr, Nat.or_zero]
  exact ha.subMask

omit hf in
theorem and_or_of_disjoint {m : ℕ} (hm : ptPaddrMask &&& m = 0) : (a ||| f) &&& m = f &&& m := by
  rw [Nat.and_or_distrib_right, ha.subMask.and_eq_zero hm, Nat.zero_or]

omit hf in
theorem testBit_or_of_lt {i : ℕ} (hi : i < 12) : (a ||| f).testBit i = f.testBit i := by
  have hbit : a.testBit i = false := by
    obtain ⟨h, -⟩ := ha
    have hmod : a % 2 ^ 12 = 0 := by omega
    have := Nat.testBit_mod_two_pow a 12 i
    rw [hmod, Nat.zero_testBit] at this
    simpa [hi] using this.symm
  rw [Nat.testBit_or, hbit, Bool.false_or]

end Disjoint

/-! ### Table entries -/

/-- The entry for the table at `g`. -/
def tableEntry (g : ℕ) : ℕ := newEntry g ptTableFlags

variable {g : ℕ} (hg : FrameAddr g)

include hg

theorem isTable_tableEntry : isTable (tableEntry g) := by
  rw [isTable_iff, tableEntry, newEntry, testBit_or_of_lt hg (by norm_num),
    testBit_or_of_lt hg (by norm_num)]
  decide

theorem not_isLarge_tableEntry : ¬ isLarge (tableEntry g) := fun h =>
  h.not_isTable (isTable_tableEntry hg)

theorem addr_tableEntry : addr (tableEntry g) = g := addr_or hg (by decide)

theorem walkFrom_table {st : State} {v level dir : ℕ} {t : ℕ → ℕ} (hmem : st.mem dir = some t)
    (hentry : t (v / 2 ^ (12 + 9 * (level + 1)) % 512) = tableEntry g) :
    walkFrom st v (level + 2) dir grantFlags 0 = walkFrom st v (level + 1) g grantFlags 0 := by
  obtain ⟨h0, h7⟩ := isTable_iff.mp (isTable_tableEntry hg)
  have hframe : tableEntry g &&& frameMask = g := and_frameMask_or hg (by decide)
  have hallow : grantFlags &&& tableEntry g = grantFlags := by
    rw [Nat.and_comm, tableEntry, newEntry, and_or_of_disjoint hg (by decide)]
    decide
  have hforbid : tableEntry g &&& ptFlagNx = 0 := by
    rw [tableEntry, newEntry, and_or_of_disjoint hg (by decide)]
    decide
  rw [walkFrom, hmem]
  simp only [hentry, h0, h7, hframe, hallow, hforbid]
  simp

omit hg in
theorem walkFrom_absent {st : State} {v level dir allow forbid : ℕ} {t : ℕ → ℕ}
    (hmem : st.mem dir = some t) (hentry : (t (v / 2 ^ (12 + 9 * level) % 512)).testBit 0 = false) :
    walkFrom st v (level + 1) dir allow forbid = none := by
  rw [walkFrom, hmem]
  simp [hentry]

omit hg in
theorem walkFrom_large {st : State} {v level dir allow forbid : ℕ} {t : ℕ → ℕ}
    (hmem : st.mem dir = some t) (hlarge : isLarge (t (v / 2 ^ (12 + 9 * level) % 512)))
    (h1 : 1 ≤ level) (h2 : level ≤ 2) :
    walkFrom st v (level + 1) dir allow forbid =
      some (leafAt v level (t (v / 2 ^ (12 + 9 * level) % 512)) allow forbid) := by
  obtain ⟨h0, h7⟩ := isLarge_iff.mp hlarge
  rw [walkFrom, hmem]
  simp only [h0, h7]
  simp [show level ≠ 0 by omega, h2]

omit hg in
theorem walkFrom_last {st : State} {v dir allow forbid : ℕ} {t : ℕ → ℕ}
    (hmem : st.mem dir = some t) (h0 : (t (v / 2 ^ 12 % 512)).testBit 0 = true) :
    walkFrom st v 1 dir allow forbid =
      some (leafAt v 0 (t (v / 2 ^ 12 % 512)) allow forbid) := by
  rw [walkFrom, hmem]
  simp only [Nat.mul_zero, Nat.add_zero, h0, not_true_eq_false, if_false, if_true]

/-! ### Leaf entries -/

omit hg

section Leaf

variable {phys flags : ℕ} (hp : FrameAddr phys) (hf : SubMask flags callerFlags)

include hp hf

/-- What the processor reads from an entry that carries the caller's flags and, for a large page,
the page-size bit. -/
theorem leafAt_entry {v level extra : ℕ} (hextra : SubMask extra (ptFlagValid ||| ptFlagLarge))
    (halign : phys % 2 ^ (12 + 9 * level) = 0) :
    leafAt v level (phys ||| (flags ||| extra)) grantFlags 0 =
      ⟨phys + v % 2 ^ (12 + 9 * level), flags, 2 ^ (12 + 9 * level)⟩ := by
  have hflags : (flags ||| extra) &&& frameMask = 0 := by
    rw [Nat.and_or_distrib_right, hf.and_eq_zero (by decide), hextra.and_eq_zero (by decide)]
    rfl
  have hfull : grantFlags ||| wordNot grantFlags = 2 ^ 64 - 1 := by decide
  have hcaller : (phys ||| (flags ||| extra)) &&& callerFlags = flags := by
    rw [and_or_of_disjoint hp (by decide), Nat.and_or_distrib_right, hf,
      hextra.and_eq_zero (by decide), Nat.or_zero]
  unfold leafAt
  rw [and_frameMask_or hp hflags, hcaller, hfull, hf.and_eq (by decide), Nat.or_zero,
    Nat.div_mul_cancel (Nat.dvd_of_mod_eq_zero halign)]

end Leaf

end CappuccinOS.Paging
