import CappuccinOS.Lib.Bytes

/-!
# Records of little-endian fields

A record in a flat store is a sequence of numbers, each of a fixed width, with nothing between
them. `pack` are its bytes, given the width and the value of every field, and `unpack` reads the
fields of given widths back.

1. `unpack_pack`: packed values come back, when they fit their widths.
2. `pack_unpack`: what was unpacked packs to the bytes it was read from.
-/

namespace CappuccinOS.Record

/-- The bytes of fields, given as widths and values. -/
def pack (fields : List (ℕ × ℕ)) : List Byte := fields.flatMap fun f => leBytes f.1 f.2

/-- Every value fits the width of its field. -/
def Fits (fields : List (ℕ × ℕ)) : Prop := ∀ f ∈ fields, f.2 < 256 ^ f.1

instance (fields : List (ℕ × ℕ)) : Decidable (Fits fields) := by
  unfold Fits
  infer_instance

/-- The fields of these widths, from byte `offset` on. -/
def unpack : List ℕ → ℕ → List Byte → List (ℕ × ℕ)
  | [], _, _ => []
  | w :: ws, offset, bytes =>
    (w, leNat ((bytes.drop offset).take w)) :: unpack ws (offset + w) bytes

@[simp] theorem length_pack (fields : List (ℕ × ℕ)) :
    (pack fields).length = (fields.map Prod.fst).sum := by
  induction fields with
  | nil => rfl
  | cons f fields ih =>
    rw [pack, List.flatMap_cons, List.length_append, length_leBytes, List.map_cons, List.sum_cons]
    exact congrArg (f.1 + ·) ih

/-- Packed fields come back, whatever stands before and behind them. -/
theorem unpack_pack {fields : List (ℕ × ℕ)} (hfits : Fits fields) (before rest : List Byte) :
    unpack (fields.map Prod.fst) before.length (before ++ (pack fields ++ rest)) = fields := by
  induction fields generalizing before with
  | nil => rfl
  | cons f fields ih =>
    obtain ⟨w, v⟩ := f
    obtain ⟨hv, hfits⟩ := List.forall_mem_cons.mp hfits
    have hpack : pack ((w, v) :: fields) ++ rest = leBytes w v ++ (pack fields ++ rest) :=
      List.append_assoc _ _ _
    have hhead : leNat (((before ++ (leBytes w v ++ (pack fields ++ rest))).drop
        before.length).take w) = v := by
      rw [List.drop_left' rfl, List.take_left' (length_leBytes w v), leNat_leBytes,
        Nat.mod_eq_of_lt hv]
    have hrest := ih hfits (before ++ leBytes w v)
    rw [List.length_append, length_leBytes, List.append_assoc] at hrest
    rw [hpack, List.map_cons, unpack, hhead, hrest]

/-- The bytes of a number that was read are those it was read from. -/
theorem leBytes_leNat (bytes : List Byte) : leBytes bytes.length (leNat bytes) = bytes := by
  refine leNat_inj (length_leBytes _ _) ?_
  rw [leNat_leBytes, Nat.mod_eq_of_lt (leNat_lt bytes)]

/-- Fields that were read pack to the bytes they were read from. -/
theorem pack_unpack {widths : List ℕ} {offset : ℕ} {bytes : List Byte}
    (h : offset + widths.sum ≤ bytes.length) :
    pack (unpack widths offset bytes) = (bytes.drop offset).take widths.sum := by
  induction widths generalizing offset with
  | nil => rw [List.sum_nil, List.take_zero]; rfl
  | cons w ws ih =>
    rw [List.sum_cons] at h ⊢
    have hw : ((bytes.drop offset).take w).length = w := by
      rw [List.length_take, List.length_drop]
      omega
    have hhead := leBytes_leNat ((bytes.drop offset).take w)
    rw [hw] at hhead
    have hpack : pack (unpack (w :: ws) offset bytes) =
        leBytes w (leNat ((bytes.drop offset).take w)) ++ pack (unpack ws (offset + w) bytes) := rfl
    rw [hpack, hhead, ih (by omega), List.take_add, List.drop_drop]

theorem fits_unpack (widths : List ℕ) (offset : ℕ) (bytes : List Byte) :
    Fits (unpack widths offset bytes) := by
  induction widths generalizing offset with
  | nil => exact nofun
  | cons w ws ih =>
    refine List.forall_mem_cons.mpr ⟨?_, ih (offset + w)⟩
    refine lt_of_lt_of_le (leNat_lt _) (Nat.pow_le_pow_right (by norm_num) ?_)
    exact List.length_take_le _ _

end CappuccinOS.Record
