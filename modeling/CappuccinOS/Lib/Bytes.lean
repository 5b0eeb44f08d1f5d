import CappuccinOS.Lib.Word
import CappuccinOS.Lib.Bits

/-!
# Byte strings and the calls that read them

What the file system drivers and the decompressor share: how a call ends (`Fault`), Rust's range
index (`slice`), the bytes of a flat store (`window`) and little-endian numbers (`leNat`).
-/

namespace CappuccinOS

/-- How a call ends other than with a value. `fuel` marks a loop that was given fewer turns
than it takes. -/
inductive Fault
  | err
  | panic (why : Panic)
  | divideByZero
  | fuel
  deriving DecidableEq, Repr

/-- Machine arithmetic inside such a call. -/
def arith {α : Type} (x : Except Panic α) : Except Fault α := x.mapError .panic

@[simp] theorem arith_ok {α : Type} (a : α) : arith (.ok a) = .ok a := rfl

@[simp] theorem arith_error {α : Type} (e : Panic) :
    arith (.error e : Except Panic α) = .error (.panic e) := rfl

theorem arith_eq_ok {α : Type} {x : Except Panic α} {a : α} : arith x = .ok a ↔ x = .ok a := by
  cases x with
  | error e => simp
  | ok b => simp

/-- `Result::expect` and `Result::unwrap`: `Err(())` becomes a panic. -/
def expect {α : Type} : Except Fault α → Except Fault α
  | .error .err => .error (.panic .unwrap)
  | x => x

theorem expect_eq_ok {α : Type} {x : Except Fault α} {a : α} : expect x = .ok a ↔ x = .ok a := by
  unfold expect
  split <;> simp

theorem expect_ne_err {α : Type} (x : Except Fault α) : expect x ≠ .error .err := by
  rcases x with f | a
  · cases f <;> exact nofun
  · exact nofun

theorem arith_ne_fuel {α : Type} (x : Except Panic α) : arith x ≠ .error .fuel := by
  cases x <;> simp

theorem arith_ne_err {α : Type} (x : Except Panic α) : arith x ≠ .error .err := by
  cases x <;> simp

theorem bind_ne_fuel {α β : Type} {x : Except Fault α} {f : α → Except Fault β}
    (hx : x ≠ .error .fuel) (hf : ∀ a, f a ≠ .error .fuel) : x >>= f ≠ .error .fuel :=
  bind_ne_error hx hf

/-! ## Slices -/

section Slice

variable {α : Type}

/-- `l[a..b]`. -/
def slice (l : List α) (a b : ℕ) : Except Fault (List α) :=
  if a ≤ b ∧ b ≤ l.length then .ok ((l.drop a).take (b - a)) else .error (.panic .bounds)

theorem slice_of_le {l : List α} {a b : ℕ} (hab : a ≤ b) (hb : b ≤ l.length) :
    slice l a b = .ok ((l.drop a).take (b - a)) := if_pos ⟨hab, hb⟩

theorem slice_of_not {l : List α} {a b : ℕ} (h : ¬ (a ≤ b ∧ b ≤ l.length)) :
    slice l a b = .error (.panic .bounds) := if_neg h

theorem slice_ne_fuel (l : List α) (a b : ℕ) : slice l a b ≠ .error .fuel := by
  unfold slice
  split_ifs <;> simp

theorem slice_ne_err (l : List α) (a b : ℕ) : slice l a b ≠ .error .err := by
  unfold slice
  split_ifs <;> simp

/-- The `n` entries of a flat store from `a` on. -/
def window (f : ℕ → α) (a n : ℕ) : List α := (List.range' a n).map f

@[simp] theorem length_window (f : ℕ → α) (a n : ℕ) : (window f a n).length = n := by
  simp [window]

theorem drop_window (f : ℕ → α) (a n i : ℕ) :
    (window f a n).drop i = window f (a + i) (n - i) := by
  simp [window, ← List.map_drop, List.drop_range']

theorem take_window (f : ℕ → α) {a n i : ℕ} (h : i ≤ n) :
    (window f a n).take i = window f a i := by
  rw [window, ← List.map_take, List.take_range'_of_length_ge h, window]

theorem slice_window (f : ℕ → α) {a n i m : ℕ} (h : i + m ≤ n) :
    slice (window f a n) i (i + m) = .ok (window f (a + i) m) := by
  rw [slice_of_le (Nat.le_add_right i m) (by simpa using h), drop_window,
    take_window f (by omega), Nat.add_sub_cancel_left]

theorem window_append (f : ℕ → α) (a m n : ℕ) :
    window f a m ++ window f (a + m) n = window f a (m + n) := by
  unfold window
  rw [← List.map_append, List.range'_append_1]

theorem length_flatten_blocks {blocks : List (List α)} {size : ℕ}
    (h : ∀ b ∈ blocks, b.length = size) : blocks.flatten.length = blocks.length * size := by
  rw [List.length_flatten, List.map_congr_left h]
  simp

theorem flatten_drop {blocks : List (List α)} {size : ℕ} (h : ∀ b ∈ blocks, b.length = size)
    (n : ℕ) : (blocks.drop n).flatten = blocks.flatten.drop (n * size) := by
  induction n generalizing blocks with
  | zero => simp
  | succ n ih =>
    cases blocks with
    | nil => simp
    | cons b bs =>
      have hb : b.length = size := h b (by simp)
      rw [List.drop_succ_cons, ih fun b hb => h b (List.mem_cons_of_mem _ hb), List.flatten_cons,
        Nat.succ_mul, Nat.add_comm, ← hb, List.drop_length_add_append]

theorem getElem?_flatten {blocks : List (List α)} {size i j : ℕ} {block : List α}
    (h : ∀ b ∈ blocks, b.length = size) (hi : blocks[i]? = some block) (hj : j < size) :
    blocks.flatten[i * size + j]? = block[j]? := by
  obtain ⟨hlt, rfl⟩ := List.getElem?_eq_some_iff.mp hi
  have hlen : blocks[i].length = size := h _ (List.getElem_mem hlt)
  rw [← List.getElem?_drop, ← flatten_drop h i, List.drop_eq_getElem_cons hlt, List.flatten_cons,
    List.getElem?_append_left (by omega)]

theorem mapM_eq_ok {β : Type} {f : α → Except Fault β} {l : List α} {r : List β} :
    l.mapM f = .ok r ↔ List.Forall₂ (fun a b => f a = .ok b) l r := by
  induction l generalizing r with
  | nil => simp [pure, Except.pure, eq_comm]
  | cons a l ih =>
    rw [List.mapM_cons, bind_eq_ok]
    constructor
    · rintro ⟨b, hb, h⟩
      obtain ⟨bs, hbs, h⟩ := bind_eq_ok.mp h
      cases h
      exact .cons hb (ih.mp hbs)
    · rintro (_ | ⟨hb, hbs⟩)
      exact ⟨_, hb, bind_eq_ok.mpr ⟨_, ih.mpr hbs, rfl⟩⟩

theorem exists_of_mapM {β : Type} {f : α → Except Fault β} {l : List α} {r : List β} {a : α}
    (h : l.mapM f = .ok r) (ha : a ∈ l) : ∃ b, f a = .ok b := by
  induction l generalizing r with
  | nil => cases ha
  | cons x l ih =>
    obtain _ | ⟨hb, hbs⟩ := mapM_eq_ok.mp h
    obtain rfl | ha := List.mem_cons.mp ha
    · exact ⟨_, hb⟩
    · exact ih (mapM_eq_ok.mpr hbs) ha

end Slice

/-! ## Little-endian numbers -/

/-- `from_le_bytes`. -/
def leNat : List Byte → ℕ
  | [] => 0
  | b :: bs => b.toNat + 256 * leNat bs

theorem leNat_lt (bs : List Byte) : leNat bs < 256 ^ bs.length := by
  induction bs with
  | nil => exact Nat.one_pos
  | cons b bs ih =>
    have hb : b.toNat < 256 := b.isLt
    rw [leNat, List.length_cons, pow_succ]
    omega

theorem leNat_window_lt (f : ℕ → Byte) (a n : ℕ) : leNat (window f a n) < 256 ^ n := by
  have := leNat_lt (window f a n)
  rwa [length_window] at this

theorem leNat_take_lt (bs : List Byte) (n : ℕ) : leNat (bs.take n) < 256 ^ n :=
  lt_of_lt_of_le (leNat_lt _) (Nat.pow_le_pow_right (by norm_num) (List.length_take_le ..))

theorem leNat_inj {s t : List Byte} (hlen : s.length = t.length) (h : leNat s = leNat t) :
    s = t := by
  induction s generalizing t with
  | nil => exact (List.eq_nil_of_length_eq_zero hlen.symm).symm
  | cons b s ih =>
    cases t with
    | nil => cases hlen
    | cons b' t =>
      rw [leNat, leNat] at h
      have hb := b.isLt
      have hb' := b'.isLt
      rw [ih (Nat.succ.inj hlen) (by omega),
        BitVec.eq_of_toNat_eq (show b.toNat = b'.toNat by omega)]

/-- `to_le_bytes` of a number of `n` bytes. -/
def leBytes : ℕ → ℕ → List Byte
  | 0, _ => []
  | n + 1, v => BitVec.ofNat 8 v :: leBytes n (v / 256)

@[simp] theorem length_leBytes (n v : ℕ) : (leBytes n v).length = n := by
  induction n generalizing v with
  | zero => rfl
  | succ n ih => rw [leBytes, List.length_cons, ih]

theorem leNat_leBytes (n v : ℕ) : leNat (leBytes n v) = v % 256 ^ n := by
  induction n generalizing v with
  | zero => rw [pow_zero, Nat.mod_one]; rfl
  | succ n ih =>
    rw [leBytes, leNat, ih, BitVec.toNat_ofNat, pow_succ 256, mul_comm (256 ^ n), Nat.mod_mul]

/-! ## Strings -/

/-- `core::str::from_utf8(..).is_ok()`. -/
def isUtf8 (bytes : List Byte) : Bool :=
  (ByteArray.mk (bytes.map UInt8.ofBitVec).toArray).validateUTF8

end CappuccinOS
