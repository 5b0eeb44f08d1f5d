import CappuccinOS.Lib.Bits

/-!
# Scan codes (`drivers/keyboard.rs`)

The keyboard sends the prefix `0xE0` before the scan code of an extended key. `parse_key` keeps
the prefix in the flag `EXTENDED_KEY`, which it turns over at every prefix and never clears, so
the flag is the parity of all prefixes so far (`extendedAfter_eq`). A byte is decoded by what
stands right before it exactly as long as the two agree (`prefixLocal_iff`).
-/

namespace CappuccinOS.Keyboard

structure Key where
  pressed : Bool
  name : String
  character : Option Char
  deriving DecidableEq, Repr

/-- The arms of the match that look at `EXTENDED_KEY`: the name when it is set. None of these keys
has a character. -/
def extendedName : ℕ → Option String
  | 0x1D => some "RCtrl"
  | 0x47 => some "Home"
  | 0x48 => some "CurUp"
  | 0x49 => some "PgUp"
  | 0x4B => some "CurLeft"
  | 0x4D => some "CurRight"
  | 0x4F => some "End"
  | 0x50 => some "CurDown"
  | 0x51 => some "PgDn"
  | 0x52 => some "Insert"
  | 0x53 => some "Del"
  | _ => none

/-- The name and character of a scan code when `EXTENDED_KEY` is not looked at or not set. -/
def plainKey : ℕ → Option (String × Option Char)
  | 0x01 => some ("Esc", some (Char.ofNat 0x1B))
  | 0x02 => some ("1", some '1')
  | 0x03 => some ("2", some '2')
  | 0x04 => some ("3", some '3')
  | 0x05 => some ("4", some '4')
  | 0x06 => some ("5", some '5')
  | 0x07 => some ("6", some '6')
  | 0x08 => some ("7", some '7')
  | 0x09 => some ("8", some '8')
  | 0x0A => some ("9", some '9')
  | 0x0B => some ("0", some '0')
  | 0x0C => some ("-", some '-')
  | 0x0D => some ("=", some '=')
  | 0x0E => some ("Backspace", some (Char.ofNat 0x08))
  | 0x0F => some ("Tab", some (Char.ofNat 0x09))
  | 0x10 => some ("q", some 'q')
  | 0x11 => some ("w", some 'w')
  | 0x12 => some ("e", some 'e')
  | 0x13 => some ("r", some 'r')
  | 0x14 => some ("t", some 't')
  | 0x15 => some ("y", some 'y')
  | 0x16 => some ("u", some 'u')
  | 0x17 => some ("i", some 'i')
  | 0x18 => some ("o", some 'o')
  | 0x19 => some ("p", some 'p')
  | 0x1A => some ("[", some '[')
  | 0x1B => some ("]", some ']')
  | 0x1C => some ("Enter", some (Char.ofNat 0x0A))
  | 0x1D => some ("LCtrl", none)
  | 0x1E => some ("a", some 'a')
  | 0x1F => some ("s", some 's')
  | 0x20 => some ("d", some 'd')
  | 0x21 => some ("f", some 'f')
  | 0x22 => some ("g", some 'g')
  | 0x23 => some ("h", some 'h')
  | 0x24 => some ("j", some 'j')
  | 0x25 => some ("k", some 'k')
  | 0x26 => some ("l", some 'l')
  | 0x27 => some (";", some ';')
  | 0x28 => some ("'", some (Char.ofNat 0x27))
  | 0x29 => some ("`", some (Char.ofNat 0x60))
  | 0x2A => some ("LShift", none)
  | 0x2B => some ("\\", some (Char.ofNat 0x5C))
  | 0x2C => some ("z", some 'z')
  | 0x2D => some ("x", some 'x')
  | 0x2E => some ("c", some 'c')
  | 0x2F => some ("v", some 'v')
  | 0x30 => some ("b", some 'b')
  | 0x31 => some ("n", some 'n')
  | 0x32 => some ("m", some 'm')
  | 0x33 => some (",", some ',')
  | 0x34 => some (".", some '.')
  | 0x35 => some ("/", some '/')
  | 0x36 => some ("RShift", none)
  | 0x37 => some ("*", some '*')
  | 0x38 => some ("Alt", none)
  | 0x39 => some (" ", some ' ')
  | 0x3A => some ("CapsLock", none)
  | 0x3B => some ("F1", none)
  | 0x3C => some ("F2", none)
  | 0x3D => some ("F3", none)
  | 0x3E => some ("F4", none)
  | 0x3F => some ("F5", none)
  | 0x40 => some ("F6", none)
  | 0x41 => some ("F7", none)
  | 0x42 => some ("F8", none)
  | 0x43 => some ("F9", none)
  | 0x44 => some ("F10", none)
  | 0x45 => some ("NumLock", none)
  | 0x46 => some ("ScrLock", none)
  | 0x47 => some ("Keypad 7", some '7')
  | 0x48 => some ("Keypad 8", some '8')
  | 0x49 => some ("Keypad 9", some '9')
  | 0x4A => some ("-", some '-')
  | 0x4B => some ("Keypad 4", some '4')
  | 0x4C => some ("Keypad 5", some '5')
  | 0x4D => some ("Keypad 6", some '6')
  | 0x4E => some ("+", some '+')
  | 0x4F => some ("Keypad 1", some '1')
  | 0x50 => some ("Keypad 2", some '2')
  | 0x51 => some ("Keypad 3", some '3')
  | 0x52 => some ("Keypad 0", some '0')
  | 0x53 => some ("Keypad .", some '.')
  | 0x57 => some ("F11", none)
  | 0x58 => some ("F12", none)
  | _ => none

/-- `parse_key`: the key reported, and `EXTENDED_KEY` after the call. -/
def parseKey (extended : Bool) (scancode : Byte) : Option Key × Bool :=
  if scancode = 0xE0#8 then
    (none, !extended)
  else
    let pressed := scancode &&& 0x80#8 == 0x0#8
    let code := (scancode &&& ~~~(1#8 <<< 7)).toNat
    match if extended then extendedName code else none with
    | some name => (some ⟨pressed, name, none⟩, extended)
    | none => ((plainKey code).map fun k => ⟨pressed, k.1, k.2⟩, extended)

/-- What `parse_key` reports for each byte of a stream, from the flag's value on. -/
def reports (extended : Bool) : List Byte → List (Option Key)
  | [] => []
  | b :: rest => (parseKey extended b).1 :: reports (parseKey extended b).2 rest

/-- The flag after a stream, from its initial value `false`. -/
def extendedAfter (l : List Byte) : Bool :=
  l.foldl (fun extended b => (parseKey extended b).2) false

/-- The scan codes with a meaning of their own behind the prefix. -/
def twoMeanings : List ℕ :=
  [0x1D, 0x47, 0x48, 0x49, 0x4B, 0x4D, 0x4F, 0x50, 0x51, 0x52, 0x53]

/-- The byte, a press or a release, has two meanings. -/
def TwoMeanings (b : Byte) : Prop := (b &&& ~~~(1#8 <<< 7)).toNat ∈ twoMeanings

instance (b : Byte) : Decidable (TwoMeanings b) := inferInstanceAs (Decidable (_ ∈ _))

/-- The byte at `i` stands right behind a prefix. -/
def Prefixed (l : List Byte) (i : ℕ) : Prop := 0 < i ∧ l[i - 1]? = some 0xE0#8

instance (l : List Byte) (i : ℕ) : Decidable (Prefixed l i) := inferInstanceAs (Decidable (_ ∧ _))

/-- Every byte but the prefix is reported with the meaning that the byte right before it gives
it: the extended one behind `0xE0`, the plain one elsewhere. -/
def PrefixLocal (l : List Byte) : Prop :=
  ∀ i b, l[i]? = some b → b ≠ 0xE0#8 →
    (reports false l)[i]? = some (parseKey (decide (Prefixed l i)) b).1

/-! ## The flag -/

theorem parseKey_flag (extended : Bool) (b : Byte) :
    (parseKey extended b).2 = if b = 0xE0#8 then !extended else extended := by
  unfold parseKey
  by_cases hb : b = 0xE0#8
  · rw [if_pos hb, if_pos hb]
  · rw [if_neg hb, if_neg hb]
    simp only
    split <;> rfl

theorem extendedAfter_eq (l : List Byte) :
    extendedAfter l = decide (l.count 0xE0#8 % 2 = 1) := by
  induction l using List.reverseRecOn with
  | nil => rfl
  | append_singleton l b ih =>
    unfold extendedAfter at ih ⊢
    rw [List.foldl_concat, ih, parseKey_flag, List.count_append, List.count_singleton]
    by_cases hb : b = 0xE0#8
    · rw [if_pos hb, hb]
      have : (decide ((l.count 0xE0#8 + 1) % 2 = 1)) = !decide (l.count 0xE0#8 % 2 = 1) := by
        rw [← decide_not]
        congr 1
        apply propext
        omega
      simpa using this.symm
    · rw [if_neg hb, if_neg (by simpa using hb), Nat.add_zero]

theorem reports_getElem? (l : List Byte) (i : ℕ) (b : Byte) (extended : Bool)
    (hb : l[i]? = some b) :
    (reports extended l)[i]? = some
      (parseKey ((l.take i).foldl (fun e b => (parseKey e b).2) extended) b).1 := by
  induction l generalizing i extended with
  | nil => cases hb
  | cons a rest ih =>
    cases i with
    | zero =>
      cases hb
      rfl
    | succ i =>
      rw [List.getElem?_cons_succ] at hb
      exact ih i _ hb

/-! ## The two meanings -/

theorem extendedName_isSome_iff (n : ℕ) : (extendedName n).isSome ↔ n ∈ twoMeanings := by
  unfold extendedName twoMeanings
  split <;> simp_all

/-- An extended name is not the plain meaning of its scan code. -/
theorem plainKey_ne_extended {n : ℕ} {name : String} (h : extendedName n = some name) :
    plainKey n ≠ some (name, none) := by
  unfold extendedName at h
  split at h <;> cases h <;> decide

theorem parseKey_true_eq_iff {b : Byte} (hb : b ≠ 0xE0#8) :
    (parseKey true b).1 = (parseKey false b).1 ↔ ¬ TwoMeanings b := by
  unfold TwoMeanings
  rw [← extendedName_isSome_iff]
  unfold parseKey
  simp only [if_neg hb]
  match h : extendedName (b &&& ~~~(1#8 <<< 7)).toNat with
  | none => simp
  | some name =>
    have hne := plainKey_ne_extended h
    simp only [if_true, Bool.false_eq_true, if_false, Option.isSome_some, not_true, iff_false]
    intro heq
    obtain ⟨k, hk, hkey⟩ := Option.map_eq_some_iff.mp heq.symm
    obtain ⟨-, hname, hchar⟩ := Key.mk.inj hkey
    refine hne ?_
    rw [hk, ← hname, ← hchar]

/-- Two values of the flag give the same report unless they differ on a byte with two meanings. -/
theorem parseKey_eq_iff {b : Byte} (hb : b ≠ 0xE0#8) (e e' : Bool) :
    (parseKey e b).1 = (parseKey e' b).1 ↔ (TwoMeanings b → e = e') := by
  have htrue := parseKey_true_eq_iff hb
  cases e <;> cases e'
  · simp
  · rw [eq_comm, htrue]
    simp
  · rw [htrue]
    simp
  · simp

/-- **When decoding is prefix-local.** For every stream: exactly when, at every byte with two
meanings, the number of prefixes before it is odd if and only if the last byte before it is one. -/
theorem prefixLocal_iff (l : List Byte) :
    PrefixLocal l ↔ ∀ i b, l[i]? = some b → TwoMeanings b →
      ((l.take i).count 0xE0#8 % 2 = 1 ↔ Prefixed l i) := by
  have hne : ∀ b : Byte, TwoMeanings b → b ≠ 0xE0#8 := by
    rintro b hb rfl
    exact absurd hb (by decide)
  have hreport : ∀ i b, l[i]? = some b → b ≠ 0xE0#8 →
      ((reports false l)[i]? = some (parseKey (decide (Prefixed l i)) b).1 ↔
        (TwoMeanings b → ((l.take i).count 0xE0#8 % 2 = 1 ↔ Prefixed l i))) := by
    intro i b hb hbe
    have hflag := extendedAfter_eq (l.take i)
    unfold extendedAfter at hflag
    rw [reports_getElem? l i b false hb, hflag, Option.some.injEq, parseKey_eq_iff hbe,
      decide_eq_decide]
  constructor
  · intro h i b hb htwo
    exact (hreport i b hb (hne b htwo)).mp (h i b hb (hne b htwo)) htwo
  · intro h i b hb hbe
    exact (hreport i b hb hbe).mpr (h i b hb)

/-- Pressing and releasing the left arrow: the prefix of the release turns the flag off again, and
the release is reported as that of the keypad's 4. -/
theorem not_prefixLocal_arrow :
    ¬ PrefixLocal [0xE0#8, 0x4B#8, 0xE0#8, 0xCB#8] ∧
      (reports false [0xE0#8, 0x4B#8, 0xE0#8, 0xCB#8])[3]? =
        some (some ⟨false, "Keypad 4", some '4'⟩) := by
  have hreport : (reports false [0xE0#8, 0x4B#8, 0xE0#8, 0xCB#8])[3]? =
      some (some ⟨false, "Keypad 4", some '4'⟩) := rfl
  refine ⟨fun h => ?_, hreport⟩
  have hlocal := h 3 0xCB#8 rfl (by decide)
  rw [hreport] at hlocal
  have hext : (parseKey (decide (Prefixed [0xE0#8, 0x4B#8, 0xE0#8, 0xCB#8] 3)) 0xCB#8).1 =
      some ⟨false, "CurLeft", none⟩ := rfl
  rw [hext] at hlocal
  simp at hlocal

end CappuccinOS.Keyboard
