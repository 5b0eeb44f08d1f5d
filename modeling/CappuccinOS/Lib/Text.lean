import CappuccinOS.Lib.Bytes
import Mathlib.Data.List.DropRight

/-!
# Text

The standard library's strings, as lists of characters: from UTF-8 and from UTF-16, without white
space at the end, and in upper case.

1. `fromUtf8`, and what it gives for ASCII;
2. `fromUtf16` and `toUtf16`: `fromUtf16_eq_some`, one is the inverse of the other;
3. `trimEnd`;
4. `CaseTable`: `to_uppercase` goes by a table of the Unicode standard, of which only the part for
   ASCII is written out;
5. `lines` and `splitnTwo`: `lines_flatMap`, a text of lines is split into them.
-/

namespace CappuccinOS

/-! ## UTF-8 -/

/-- `core::str::from_utf8`. -/
def fromUtf8 (bytes : List Byte) : Option (List Char) :=
  (ByteArray.mk (bytes.map UInt8.ofBitVec).toArray).utf8Decode?.map Array.toList

/-- The bytes of a text. -/
def toUtf8 (s : List Char) : List Byte := (s.flatMap String.utf8EncodeChar).map UInt8.toBitVec

theorem fromUtf8_toUtf8 (s : List Char) : fromUtf8 (toUtf8 s) = some s := by
  have hbytes : (toUtf8 s).map UInt8.ofBitVec = s.flatMap String.utf8EncodeChar := by
    rw [toUtf8, List.map_map]
    exact List.map_id _
  have harray : ByteArray.mk ((toUtf8 s).map UInt8.ofBitVec).toArray = s.utf8Encode := by
    rw [hbytes, List.utf8Encode]
    exact ByteArray.ext List.data_toByteArray.symm
  rw [fromUtf8, harray, List.utf8Decode?_utf8Encode, Option.map_some, List.toList_toArray]

/-- The character with the code of a byte. -/
def asciiChar (b : Byte) : Char := Char.ofNat b.toNat

theorem toNat_ofNat {n : ℕ} (h : n.isValidChar) : (Char.ofNat n).toNat = n := by
  rw [Char.ofNat, dif_pos h]
  rfl

theorem utf8EncodeChar_asciiChar {b : Byte} (h : b.toNat < 128) :
    String.utf8EncodeChar (asciiChar b) = [UInt8.ofBitVec b] := by
  have hnat : (asciiChar b).toNat = b.toNat := toNat_ofNat (.inl (by omega))
  have hsize : (asciiChar b).utf8Size = 1 := by
    rw [Char.utf8Size_eq_one_iff, UInt32.le_iff_toNat_le]
    show (asciiChar b).toNat ≤ 127
    omega
  rw [String.utf8EncodeChar_eq_singleton hsize]
  congr 1
  apply UInt8.toNat_inj.mp
  show (asciiChar b).toNat % 256 = b.toNat
  omega

theorem fromUtf8_ascii {bytes : List Byte} (h : ∀ b ∈ bytes, b.toNat < 128) :
    fromUtf8 bytes = some (bytes.map asciiChar) := by
  have hencode : (bytes.map asciiChar).flatMap String.utf8EncodeChar =
      bytes.map UInt8.ofBitVec := by
    rw [List.flatMap_map]
    induction bytes with
    | nil => rfl
    | cons b bytes ih =>
      rw [List.flatMap_cons, utf8EncodeChar_asciiChar (h b List.mem_cons_self),
        ih fun b hb => h b (List.mem_cons_of_mem _ hb), List.map_cons, List.singleton_append]
  have harray : ByteArray.mk (bytes.map UInt8.ofBitVec).toArray =
      (bytes.map asciiChar).utf8Encode := by
    rw [List.utf8Encode, hencode]
    exact ByteArray.ext List.data_toByteArray.symm
  rw [fromUtf8, harray, List.utf8Decode?_utf8Encode, Option.map_some, List.toList_toArray]

/-! ## UTF-16 -/

/-- The units of a character: itself, or a pair of surrogates. -/
def utf16Units (c : Char) : List ℕ :=
  if c.toNat < 0x10000 then [c.toNat]
  else [0xD800 + (c.toNat - 0x10000) / 0x400, 0xDC00 + (c.toNat - 0x10000) % 0x400]

/-- A string in UTF-16. -/
def toUtf16 (s : List Char) : List ℕ := s.flatMap utf16Units

/-- `String::from_utf16`: a surrogate outside a pair is an error. -/
def fromUtf16 : List ℕ → Option (List Char)
  | [] => some []
  | u :: rest =>
    if u < 0xD800 ∨ 0xE000 ≤ u then (fromUtf16 rest).map (Char.ofNat u :: ·)
    else if u < 0xDC00 then
      match rest with
      | [] => none
      | v :: rest =>
        if 0xDC00 ≤ v ∧ v < 0xE000 then
          (fromUtf16 rest).map (Char.ofNat (0x10000 + (u - 0xD800) * 0x400 + (v - 0xDC00)) :: ·)
        else
          none
    else
      none

theorem fromUtf16_append (c : Char) (rest : List ℕ) :
    fromUtf16 (utf16Units c ++ rest) = (fromUtf16 rest).map (c :: ·) := by
  have hvalid : c.toNat.isValidChar := c.valid
  unfold utf16Units
  split_ifs with h
  · rw [List.singleton_append, fromUtf16.eq_def]
    simp only
    rw [if_pos (by omega), Char.ofNat_toNat]
  · have hcode : 0x10000 + (0xD800 + (c.toNat - 0x10000) / 0x400 - 0xD800) * 0x400 +
        (0xDC00 + (c.toNat - 0x10000) % 0x400 - 0xDC00) = c.toNat := by omega
    rw [List.cons_append, List.singleton_append, fromUtf16.eq_def]
    simp only
    rw [if_neg (by omega), if_pos (by omega), if_pos (by omega), hcode, Char.ofNat_toNat]

theorem fromUtf16_toUtf16 (s : List Char) : fromUtf16 (toUtf16 s) = some s := by
  induction s with
  | nil => rfl
  | cons c s ih => rw [toUtf16, List.flatMap_cons, fromUtf16_append, ← toUtf16, ih, Option.map_some]

theorem toUtf16_of_fromUtf16 {units : List ℕ} {s : List Char} (hunits : ∀ u ∈ units, u < 0x10000)
    (h : fromUtf16 units = some s) : toUtf16 s = units := by
  fun_induction fromUtf16 units generalizing s with
  | case1 =>
    cases h
    rfl
  | case2 u rest hscalar ih =>
    obtain ⟨t, ht, rfl⟩ := Option.map_eq_some_iff.mp h
    have hu := hunits u List.mem_cons_self
    have hnat : (Char.ofNat u).toNat = u := toNat_ofNat (by unfold Nat.isValidChar; omega)
    have hone : utf16Units (Char.ofNat u) = [u] := by
      rw [utf16Units, hnat, if_pos hu]
    rw [toUtf16, List.flatMap_cons, hone, ← toUtf16,
      ih (fun u hu => hunits u (List.mem_cons_of_mem _ hu)) ht, List.singleton_append]
  | case4 u hscalar hhigh v rest hlow ih =>
    obtain ⟨t, ht, rfl⟩ := Option.map_eq_some_iff.mp h
    have hnat := @toNat_ofNat (0x10000 + (u - 0xD800) * 0x400 + (v - 0xDC00))
      (by unfold Nat.isValidChar; omega)
    have hpair : utf16Units (Char.ofNat (0x10000 + (u - 0xD800) * 0x400 + (v - 0xDC00))) =
        [u, v] := by
      have hu : 0xD800 + (0x10000 + (u - 0xD800) * 0x400 + (v - 0xDC00) - 0x10000) / 0x400 = u := by
        omega
      have hv : 0xDC00 + (0x10000 + (u - 0xD800) * 0x400 + (v - 0xDC00) - 0x10000) % 0x400 = v := by
        omega
      rw [utf16Units, hnat, if_neg (by omega), hu, hv]
    have hrest : ∀ w ∈ rest, w < 0x10000 := fun w hw =>
      hunits w (List.mem_cons_of_mem _ (List.mem_cons_of_mem _ hw))
    rw [toUtf16, List.flatMap_cons, hpair, ← toUtf16, ih hrest ht]
    rfl
  | _ => cases h

theorem fromUtf16_eq_some {units : List ℕ} {s : List Char} (hunits : ∀ u ∈ units, u < 0x10000) :
    fromUtf16 units = some s ↔ units = toUtf16 s := by
  constructor
  · exact fun h => (toUtf16_of_fromUtf16 hunits h).symm
  · rintro rfl
    exact fromUtf16_toUtf16 s

/-! ## White space and case -/

/-- `char::is_whitespace`: the property `White_Space`. -/
def isWhitespace (c : Char) : Bool :=
  let n := c.toNat
  (0x09 ≤ n ∧ n ≤ 0x0D) ∨ n = 0x20 ∨ n = 0x85 ∨ n = 0xA0 ∨ n = 0x1680 ∨ (0x2000 ≤ n ∧ n ≤ 0x200A) ∨
    n = 0x2028 ∨ n = 0x2029 ∨ n = 0x202F ∨ n = 0x205F ∨ n = 0x3000

/-- `str::trim_end`. -/
def trimEnd (s : List Char) : List Char := s.rdropWhile isWhitespace

/-- The upper-case mapping of the Unicode standard, which may give several characters for one. -/
structure CaseTable where
  upper : Char → List Char
  upper_ascii : ∀ c : Char, c.toNat < 128 → upper c = [c.toUpper]

/-- `str::to_uppercase`. -/
def CaseTable.toUppercase (t : CaseTable) (s : List Char) : List Char := s.flatMap t.upper

/-- The table that leaves all but ASCII as it is. -/
def CaseTable.ascii : CaseTable := ⟨fun c => [c.toUpper], fun _ _ => rfl⟩

theorem CaseTable.toUppercase_ascii (t : CaseTable) {s : List Char} (h : ∀ c ∈ s, c.toNat < 128) :
    t.toUppercase s = s.map Char.toUpper := by
  induction s with
  | nil => rfl
  | cons c s ih =>
    rw [toUppercase, List.flatMap_cons, t.upper_ascii c (h c List.mem_cons_self), ← toUppercase,
      ih fun c hc => h c (List.mem_cons_of_mem _ hc), List.map_cons, List.singleton_append]

/-! ## Lines -/

/-- `split_inclusive('\n')`. -/
def splitInclusive : List Char → List (List Char)
  | [] => []
  | c :: cs =>
    if c = '\n' then [c] :: splitInclusive cs
    else
      match splitInclusive cs with
      | [] => [[c]]
      | l :: ls => (c :: l) :: ls

/-- A line without its terminator: a carriage return goes with the line feed behind it only. -/
def stripTerminator (l : List Char) : List Char :=
  if l.getLast? = some '\n' then
    if l.dropLast.getLast? = some '\r' then l.dropLast.dropLast else l.dropLast
  else l

/-- `str::lines`. -/
def lines (s : List Char) : List (List Char) := (splitInclusive s).map stripTerminator

/-- `splitn(2, sep)`. -/
def splitnTwo (sep : Char) (s : List Char) : List (List Char) :=
  match s.dropWhile (· ≠ sep) with
  | [] => [s]
  | _ :: rest => [s.takeWhile (· ≠ sep), rest]

theorem splitInclusive_append {l rest : List Char} (h : '\n' ∉ l) :
    splitInclusive (l ++ '\n' :: rest) = (l ++ ['\n']) :: splitInclusive rest := by
  induction l with
  | nil => rw [List.nil_append, splitInclusive, if_pos rfl, List.nil_append]
  | cons c l ih =>
    have hc : c ≠ '\n' := fun hc => h (hc ▸ List.mem_cons_self)
    rw [List.cons_append, splitInclusive, if_neg hc, ih fun hl => h (List.mem_cons_of_mem _ hl)]
    rfl

theorem stripTerminator_append {l : List Char} (h : l.getLast? ≠ some '\r') :
    stripTerminator (l ++ ['\n']) = l := by
  rw [stripTerminator, List.getLast?_concat, if_pos rfl, List.dropLast_concat, if_neg h]

/-- Lines that contain no terminator are the lines of the text that they make up. -/
theorem lines_flatMap {ls : List (List Char)} (h : ∀ l ∈ ls, '\n' ∉ l ∧ l.getLast? ≠ some '\r') :
    lines (ls.flatMap (· ++ ['\n'])) = ls := by
  induction ls with
  | nil => rfl
  | cons l ls ih =>
    obtain ⟨hfeed, hreturn⟩ := h l List.mem_cons_self
    have ih := ih fun l hl => h l (List.mem_cons_of_mem _ hl)
    rw [List.flatMap_cons, List.append_assoc, List.singleton_append, lines,
      splitInclusive_append hfeed, List.map_cons, stripTerminator_append hreturn]
    exact congrArg (l :: ·) ih

/-- The first part of a text with a separator ends at the first one. -/
theorem splitnTwo_append {sep : Char} {a b : List Char} (h : sep ∉ a) :
    splitnTwo sep (a ++ sep :: b) = [a, b] := by
  have hall : ∀ c ∈ a, decide (c ≠ sep) = true := fun c hc =>
    decide_eq_true fun hcs => h (hcs ▸ hc)
  have hdrop : (a ++ sep :: b).dropWhile (· ≠ sep) = sep :: b := by
    rw [List.dropWhile_append_of_pos hall, List.dropWhile_cons_of_neg (by simp)]
  have htake : (a ++ sep :: b).takeWhile (· ≠ sep) = a := by
    rw [List.takeWhile_append_of_pos hall, List.takeWhile_cons_of_neg (by simp), List.append_nil]
  unfold splitnTwo
  rw [hdrop, htake]

end CappuccinOS
