import CappuccinOS.Lib.Hex

/-!
# GUIDs (`libs/uuid.rs`)

A GUID is made from 16 bytes, the first three fields of it little-endian, and compared with a text
by reading the text: five parts between minus signs, three of them numbers and the other two a row
of bytes. `eqStr_guidText`: on the text of a GUID, with its digits in either case and any number of
spaces behind it, the comparison is equality of the bytes.
-/

namespace CappuccinOS.Storage

structure Uuid where
  a : UInt32
  b : UInt16
  c : UInt16
  d : List.Vector Byte 8
  deriving DecidableEq

namespace Uuid

/-- `value[i..i + n]`. -/
def bytesAt {m : ℕ} (value : List.Vector Byte m) (i n : ℕ) : List Byte :=
  (value.toList.drop i).take n

theorem length_bytesAt {m : ℕ} (value : List.Vector Byte m) {i n : ℕ} (h : i + n ≤ m) :
    (bytesAt value i n).length = n := by
  rw [bytesAt, List.length_take, List.length_drop, List.Vector.toList_length]
  omega

theorem bytesAt_append {m : ℕ} (value : List.Vector Byte m) (i k n : ℕ) :
    bytesAt value i k ++ bytesAt value (i + k) n = bytesAt value i (k + n) := by
  rw [bytesAt, bytesAt, bytesAt, List.take_add, List.drop_drop]

/-- `From<[u8; 16]> for Uuid`. -/
def fromBytes (value : List.Vector Byte 16) : Uuid where
  a := .ofNat (leNat (bytesAt value 0 4))
  b := .ofNat (leNat (bytesAt value 4 2))
  c := .ofNat (leNat (bytesAt value 6 2))
  d := ⟨bytesAt value 8 8, length_bytesAt value (by omega)⟩

/-- `<&[T]>::try_into` for an array. -/
def tryInto {α : Type} (n : ℕ) (l : List α) : Option (List.Vector α n) :=
  if h : l.length = n then some ⟨l, h⟩ else none

/-- The `Uuid` that `PartialEq<&str>` reads off a text. -/
def ofStr (other : List Char) : Option Uuid :=
  match other.splitOn '-' with
  | [part0, part1, part2, part3, part4] => do
    let a ← fromStrRadix 32 part0
    let b ← fromStrRadix 16 part1
    let c ← fromStrRadix 16 part2
    let d ← (chunksTwo (trim (part3 ++ part4))).mapM (fromStrRadix 8)
    let d ← tryInto 8 (d.map (BitVec.ofNat 8))
    return ⟨.ofNat a, .ofNat b, .ofNat c, d⟩
  | _ => none

/-- `PartialEq<&str> for Uuid`. -/
def eqStr (u : Uuid) (other : List Char) : Bool := ofStr other = some u

end Uuid

/-! ## The text of a GUID -/

/-- The zero-padded text of a GUID; `upper` says for each field which of its digits are in upper
case. -/
def guidText (upper : ℕ → ℕ → Bool) (value : List.Vector Byte 16) : List Char :=
  hexText (upper 0) 8 (leNat (Uuid.bytesAt value 0 4)) ++ '-' ::
    (hexText (upper 1) 4 (leNat (Uuid.bytesAt value 4 2)) ++ '-' ::
      (hexText (upper 2) 4 (leNat (Uuid.bytesAt value 6 2)) ++ '-' ::
        (hexBytes (upper 3) (Uuid.bytesAt value 8 2) ++ '-' ::
          hexBytes (upper 4) (Uuid.bytesAt value 10 6))))

/-- The first part is the text in front of the first minus sign. -/
theorem splitOn_minus {s : List Char} (h : AllDigits s) (t : List Char) :
    (s ++ '-' :: t).splitOn '-' = s :: t.splitOn '-' :=
  List.splitOn_append_cons_self_of_not_mem h.minus_not_mem t

namespace Uuid

variable (upper : ℕ → ℕ → Bool) (value : List.Vector Byte 16) (spaces : ℕ)

/-- The parts of a GUID's text; the spaces stay with the last one. -/
theorem splitOn_guidText :
    (guidText upper value ++ List.replicate spaces ' ').splitOn '-' =
      [hexText (upper 0) 8 (leNat (bytesAt value 0 4)),
        hexText (upper 1) 4 (leNat (bytesAt value 4 2)),
        hexText (upper 2) 4 (leNat (bytesAt value 6 2)),
        hexBytes (upper 3) (bytesAt value 8 2),
        hexBytes (upper 4) (bytesAt value 10 6) ++ List.replicate spaces ' '] := by
  have hlast : '-' ∉ hexBytes (upper 4) (bytesAt value 10 6) ++ List.replicate spaces ' ' := by
    rw [List.mem_append]
    rintro (hmem | hmem)
    · exact (allDigits_hexBytes _ _).minus_not_mem hmem
    · exact absurd (List.eq_of_mem_replicate hmem) (by decide)
  unfold guidText
  rw [List.append_assoc, List.cons_append, splitOn_minus (allDigits_hexText _ _ _),
    List.append_assoc,
    List.cons_append, splitOn_minus (allDigits_hexText _ _ _), List.append_assoc, List.cons_append,
    splitOn_minus (allDigits_hexText _ _ _), List.append_assoc, List.cons_append,
    splitOn_minus (allDigits_hexBytes _ _), List.splitOn_eq_singleton hlast]

theorem leNat_bytesAt_lt {i n : ℕ} (h : i + n ≤ 16) : leNat (bytesAt value i n) < 256 ^ n := by
  have hlt := leNat_lt (bytesAt value i n)
  rwa [length_bytesAt value h] at hlt

/-- The bytes of a field are the value that its digits show. -/
theorem fromStrRadix_field (f : ℕ → Bool) (i n : ℕ) {w : ℕ} (h : i + n ≤ 16) (hn : n ≠ 0)
    (hw : 8 * n = w) :
    fromStrRadix w (hexText f (2 * n) (leNat (bytesAt value i n))) =
      some (leNat (bytesAt value i n)) := by
  have hlt := leNat_bytesAt_lt value h
  refine fromStrRadix_hexText f (by omega) ?_ ?_
  · rwa [pow_mul]
  · rwa [← hw, pow_mul]

theorem chunks_tail :
    (chunksTwo (trim (hexBytes (upper 3) (bytesAt value 8 2) ++
      (hexBytes (upper 4) (bytesAt value 10 6) ++ List.replicate spaces ' ')))).mapM
        (fromStrRadix 8) = some ((bytesAt value 8 8).map BitVec.toNat) := by
  have hdigits := (allDigits_hexBytes (upper 3) (bytesAt value 8 2)).append
    (allDigits_hexBytes (upper 4) (bytesAt value 10 6))
  have hjoin : bytesAt value 8 2 ++ bytesAt value 10 6 = bytesAt value 8 8 :=
    bytesAt_append value 8 2 6
  rw [← List.append_assoc, trim_append_spaces hdigits.not_whitespace, chunksTwo_hexBytes_append,
    List.mapM_append, mapM_chunks_hexBytes, mapM_chunks_hexBytes, ← hjoin, List.map_append]
  rfl

theorem ofStr_guidText :
    ofStr (guidText upper value ++ List.replicate spaces ' ') = some (fromBytes value) := by
  have ha : fromStrRadix 32 (hexText (upper 0) 8 (leNat (bytesAt value 0 4))) = _ :=
    fromStrRadix_field value (upper 0) 0 4 (by omega) (by omega) rfl
  have hb : fromStrRadix 16 (hexText (upper 1) 4 (leNat (bytesAt value 4 2))) = _ :=
    fromStrRadix_field value (upper 1) 4 2 (by omega) (by omega) rfl
  have hc : fromStrRadix 16 (hexText (upper 2) 4 (leNat (bytesAt value 6 2))) = _ :=
    fromStrRadix_field value (upper 2) 6 2 (by omega) (by omega) rfl
  have hd : ((bytesAt value 8 8).map BitVec.toNat).map (BitVec.ofNat 8) = bytesAt value 8 8 := by
    rw [List.map_map]
    refine (List.map_congr_left fun b _ => ?_).trans (List.map_id _)
    exact BitVec.ofNat_toNat 8 b
  have harray : tryInto 8 (bytesAt value 8 8) =
      some ⟨bytesAt value 8 8, length_bytesAt value (by omega)⟩ :=
    dif_pos (length_bytesAt value (by omega))
  rw [ofStr, splitOn_guidText]
  dsimp only
  rw [ha, hb, hc, chunks_tail]
  dsimp only [bind, Option.bind]
  rw [hd, harray]
  rfl

theorem toList_eq_fields : value.toList =
    bytesAt value 0 4 ++ (bytesAt value 4 2 ++ (bytesAt value 6 2 ++ bytesAt value 8 8)) := by
  rw [bytesAt_append value 6 2 8, bytesAt_append value 4 2 10, bytesAt_append value 0 4 12, bytesAt,
    List.drop_zero, List.take_of_length_le value.toList_length.le]

theorem bytesAt_eq_of_leNat {a b : List.Vector Byte 16} {i n : ℕ} (h : i + n ≤ 16)
    (heq : leNat (bytesAt a i n) = leNat (bytesAt b i n)) : bytesAt a i n = bytesAt b i n :=
  leNat_inj (by rw [length_bytesAt a h, length_bytesAt b h]) heq

theorem fromBytes_injective : Function.Injective fromBytes := by
  intro a b h
  injection h with h0 h1 h2 h3
  have h0 := congrArg UInt32.toNat h0
  have h1 := congrArg UInt16.toNat h1
  have h2 := congrArg UInt16.toNat h2
  have h3 : bytesAt a 8 8 = bytesAt b 8 8 := Subtype.mk.inj h3
  rw [UInt32.toNat_ofNat_of_lt' (leNat_bytesAt_lt a (by omega)),
    UInt32.toNat_ofNat_of_lt' (leNat_bytesAt_lt b (by omega))] at h0
  rw [UInt16.toNat_ofNat_of_lt' (leNat_bytesAt_lt a (by omega)),
    UInt16.toNat_ofNat_of_lt' (leNat_bytesAt_lt b (by omega))] at h1 h2
  apply List.Vector.toList_injective
  rw [toList_eq_fields a, toList_eq_fields b, bytesAt_eq_of_leNat (by omega) h0,
    bytesAt_eq_of_leNat (by omega) h1, bytesAt_eq_of_leNat (by omega) h2, h3]

/-- **GUID text comparison is exact.** -/
theorem eqStr_guidText (a b : List.Vector Byte 16) (upper : ℕ → ℕ → Bool) (spaces : ℕ) :
    (fromBytes a).eqStr (guidText upper b ++ List.replicate spaces ' ') = true ↔ a = b := by
  rw [eqStr, ofStr_guidText, decide_eq_true_iff, Option.some.injEq]
  constructor
  · exact fun h => (fromBytes_injective h).symm
  · rintro rfl
    rfl

end Uuid

end CappuccinOS.Storage
