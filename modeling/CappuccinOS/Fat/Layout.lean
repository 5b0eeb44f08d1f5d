import CappuccinOS.Fat.Table

/-!
# The layout of the file allocation table on disk

`FatType.layout` writes a list of entries in the standard layout: FAT12 entries packed two to three
bytes, FAT16 and FAT32 entries little-endian. Entry `n` of a FAT12 table is the twelve bits from bit
`12 n` on (`bits12_pack12`); `get_next_cluster` takes those from bit `16 n` on. So it decodes FAT16
and FAT32 tables, and a FAT12 entry only where the two fields hold the same bits (`decodes_iff`),
as they do for entry 0.
-/

namespace CappuccinOS.Fat

open Storage

/-! ## Entries in bytes -/

/-- Twelve-bit entries, two to three bytes. -/
def pack12 : List ℕ → List Byte
  | [] => []
  | [a] => [BitVec.ofNat 8 a, BitVec.ofNat 8 (a / 256)]
  | a :: b :: rest =>
    BitVec.ofNat 8 a :: BitVec.ofNat 8 (a / 256 + b * 16) :: BitVec.ofNat 8 (b / 16) :: pack12 rest

/-- The twelve bits from a bit on that lie in two bytes. -/
def bits12 (f : ℕ → Byte) (bit : ℕ) : ℕ :=
  leNat (window f (bit / 8) 2) / 2 ^ (bit % 8) % 2 ^ 12

namespace FatType

/-- The bits of an entry on disk. -/
def width : FatType → ℕ
  | fat12 => 12
  | fat16 => 16
  | fat32 _ => 32

/-- The standard layout of a table. -/
def layout (t : FatType) (entries : List ℕ) : List Byte :=
  match t with
  | fat12 => pack12 entries
  | fat16 => entries.flatMap (leBytes 2)
  | fat32 _ => entries.flatMap (leBytes 4)

/-- The value of an entry: of a FAT32 entry 28 bits count. -/
def value : FatType → ℕ → ℕ
  | fat32 _, entry => entry % 2 ^ 28
  | _, entry => entry

end FatType

theorem leNat_window_two (f : ℕ → Byte) (a : ℕ) :
    leNat (window f a 2) = (f a).toNat + 256 * (f (a + 1)).toNat := by
  simp [window, List.range', leNat]

theorem window_cons_iff {f : ℕ → Byte} {a : ℕ} {b : Byte} {l : List Byte} :
    window f a (b :: l).length = b :: l ↔ f a = b ∧ window f (a + 1) l.length = l := by
  simp [window, List.range'_succ]

theorem bits12_even (f : ℕ → Byte) (o : ℕ) :
    bits12 f (8 * o) = ((f o).toNat + 256 * (f (o + 1)).toNat) % 2 ^ 12 := by
  unfold bits12
  rw [Nat.mul_div_cancel_left o (by norm_num), Nat.mul_mod_right, leNat_window_two, pow_zero,
    Nat.div_one]

theorem bits12_odd (f : ℕ → Byte) (o : ℕ) :
    bits12 f (8 * o + 12) = ((f (o + 1)).toNat + 256 * (f (o + 2)).toNat) / 16 % 2 ^ 12 := by
  unfold bits12
  rw [show (8 * o + 12) / 8 = o + 1 by omega, show (8 * o + 12) % 8 = 4 by omega,
    leNat_window_two]
  rfl

/-- Entry `n` of a packed table is at bit `12 n`. -/
theorem bits12_pack12 {f : ℕ → Byte} {o : ℕ} {entries : List ℕ}
    (hbound : ∀ e ∈ entries, e < 2 ^ 12)
    (h : window f o (pack12 entries).length = pack12 entries) {n : ℕ} (hn : n < entries.length) :
    bits12 f (8 * o + 12 * n) = entries[n] := by
  induction entries using pack12.induct generalizing o n with
  | case1 => simp at hn
  | case2 a =>
    obtain rfl : n = 0 := by simpa using hn
    have ha : a < 2 ^ 12 := hbound a (by simp)
    rw [pack12, window_cons_iff, window_cons_iff] at h
    obtain ⟨h0, h1, -⟩ := h
    rw [Nat.mul_zero, Nat.add_zero, bits12_even, h0, h1, BitVec.toNat_ofNat, BitVec.toNat_ofNat,
      List.getElem_cons_zero]
    omega
  | case3 a b rest ih =>
    have ha : a < 2 ^ 12 := hbound a (by simp)
    have hb : b < 2 ^ 12 := hbound b (by simp)
    rw [pack12, window_cons_iff, window_cons_iff, window_cons_iff] at h
    obtain ⟨h0, h1, h2, h⟩ := h
    match n with
    | 0 =>
      rw [Nat.mul_zero, Nat.add_zero, bits12_even, h0, h1, BitVec.toNat_ofNat, BitVec.toNat_ofNat,
        List.getElem_cons_zero]
      omega
    | 1 =>
      rw [Nat.mul_one, bits12_odd, h1, h2, BitVec.toNat_ofNat, BitVec.toNat_ofNat,
        List.getElem_cons_succ, List.getElem_cons_zero]
      omega
    | n + 2 =>
      have hrest := ih (fun e he => hbound e (by simp [he])) h (by simpa using hn)
      rw [show 8 * o + 12 * (n + 2) = 8 * (o + 1 + 1 + 1) + 12 * n by omega, hrest,
        List.getElem_cons_succ, List.getElem_cons_succ]

theorem length_flatMap_leBytes (k : ℕ) (entries : List ℕ) :
    (entries.flatMap (leBytes k)).length = entries.length * k := by
  have hblocks : ∀ b ∈ entries.map (leBytes k), b.length = k := by simp
  rw [List.flatMap_def, length_flatten_blocks hblocks, List.length_map]

theorem leNat_window_flatMap {f : ℕ → Byte} {k : ℕ} {entries : List ℕ}
    (h : window f 0 (entries.flatMap (leBytes k)).length = entries.flatMap (leBytes k)) {n : ℕ}
    (hn : n < entries.length) : leNat (window f (n * k) k) = entries[n] % 256 ^ k := by
  have hblocks : ∀ b ∈ entries.map (leBytes k), b.length = k := by simp
  have hfit : n * k + k ≤ entries.length * k := by
    rw [← Nat.succ_mul]
    exact Nat.mul_le_mul_right k hn
  have hwin : ((window f 0 (entries.length * k)).drop (n * k)).take k = leBytes k entries[n] := by
    rw [← length_flatMap_leBytes, h, List.flatMap_def, ← flatten_drop hblocks, ← List.map_drop,
      List.drop_eq_getElem_cons hn, List.map_cons, List.flatten_cons,
      List.take_left' (length_leBytes k _)]
  rw [drop_window, take_window f (by omega), Nat.zero_add] at hwin
  rw [hwin, leNat_leBytes]

/-! ## Tables on disk -/

section Decoding

variable {p : Profile} {fs fs₁ fs₂ : FatFs} {entries : List ℕ} {n : ℕ} {bytes : List Byte}

/-- The table of the volume starts with these entries, in the standard layout. -/
structure Written (fs : FatFs) (entries : List ℕ) : Prop where
  bound : ∀ e ∈ entries, e < 2 ^ fs.fatType.width
  fits : (fs.fatType.layout entries).length ≤ 512 * fs.sectorsPerFat
  bytes : window fs.fatByte 0 (fs.fatType.layout entries).length = fs.fatType.layout entries

theorem FatType.layout_eq {t : FatType} (ht : t ≠ .fat12) (entries : List ℕ) :
    t.layout entries = entries.flatMap (leBytes t.entrySize) := by
  cases t with
  | fat12 => exact absurd rfl ht
  | fat16 => rfl
  | fat32 ebpb => rfl

theorem length_le_layout (t : FatType) (entries : List ℕ) :
    entries.length ≤ (t.layout entries).length := by
  by_cases ht : t = .fat12
  · subst ht
    unfold FatType.layout
    induction entries using pack12.induct with
    | case1 => simp
    | case2 a => simp [pack12]
    | case3 a b rest ih => simp only [pack12, List.length_cons] at ih ⊢; omega
  · rw [FatType.layout_eq ht, length_flatMap_leBytes]
    rcases FatFs.entrySize_cases t with h | h <;> rw [h] <;> omega

namespace Written

theorem inTable (hw : Written fs entries) (hn : n < entries.length) (ht : fs.fatType ≠ .fat12) :
    fs.InTable n := by
  have hfits := hw.fits
  rw [FatType.layout_eq ht, length_flatMap_leBytes] at hfits
  have hmul := Nat.mul_le_mul_right fs.fatType.entrySize hn
  rw [Nat.succ_mul] at hmul
  exact hmul.trans hfits

theorem masked_rawEntry (hw : Written fs entries) (hn : n < entries.length)
    (ht : fs.fatType ≠ .fat12) :
    fs.rawEntry n &&& fs.fatType.mask = fs.fatType.value entries[n] := by
  have hbytes := hw.bytes
  have hbound := hw.bound _ (List.getElem_mem hn)
  rw [FatType.layout_eq ht] at hbytes
  unfold FatFs.rawEntry
  rw [leNat_window_flatMap hbytes hn]
  cases h : fs.fatType with
  | fat12 => exact absurd h ht
  | fat16 =>
    rw [h] at hbound
    simp only [FatType.entrySize, FatType.mask, FatType.value, FatType.width] at hbound ⊢
    rw [show 0xFFFF = 2 ^ 16 - 1 from rfl, Nat.and_two_pow_sub_one_eq_mod]
    omega
  | fat32 ebpb =>
    simp only [FatType.entrySize, FatType.mask, FatType.value]
    rw [show 0x0FFFFFFF = 2 ^ 28 - 1 from rfl, Nat.and_two_pow_sub_one_eq_mod]
    omega

/-- Both modes find the twelve bits at bit `16 n` of a FAT12 table. -/
theorem masked_rawEntry_fat12 (ht : fs.fatType = .fat12) :
    fs.rawEntry n &&& fs.fatType.mask = bits12 fs.fatByte (16 * n) := by
  unfold FatFs.rawEntry
  rw [ht]
  simp only [FatType.entrySize, FatType.mask]
  rw [show 0x0FFF = 2 ^ 12 - 1 from rfl, Nat.and_two_pow_sub_one_eq_mod,
    show 16 * n = 8 * (n * 2) by omega, bits12_even, leNat_window_two]

/-- The entry of a FAT12 table is the twelve bits at bit `12 n`. -/
theorem value_fat12 (hw : Written fs entries) (hn : n < entries.length)
    (ht : fs.fatType = .fat12) : fs.fatType.value entries[n] = bits12 fs.fatByte (12 * n) := by
  have hbytes := hw.bytes
  have hbound := hw.bound
  rw [ht] at hbytes hbound ⊢
  have h := bits12_pack12 hbound hbytes hn
  rw [Nat.mul_zero, Nat.zero_add] at h
  exact h.symm

end Written

/-- The table of a volume is decoded at `n`: both modes of `get_next_cluster` give entry `n`. -/
def Decodes (p : Profile) (fs₁ fs₂ : FatFs) (n value : ℕ) : Prop :=
  fs₁.getNextCluster p ⟨true⟩ n = .ok value ∧ fs₂.getNextCluster p ⟨false⟩ n = .ok value

theorem decodes_iff_rawEntry {v : ℕ} (h₁ : fs.mount p ⟨true⟩ = .ok fs₁)
    (h₂ : fs.mount p ⟨false⟩ = .ok fs₂) (hsmall : n * fs.fatType.entrySize < 2 ^ 63)
    (hread : fs.partition.read p (fs.fatStart + n * fs.fatType.entrySize / 512) 2 = .ok bytes) :
    Decodes p fs₁ fs₂ n v ↔ fs.InTable n ∧ fs.rawEntry n &&& fs.fatType.mask = v := by
  have hmem : fs₁.getNextCluster p ⟨true⟩ n = _ := FatFs.nextInMem_eq h₁
  have hdisk := FatFs.nextOnDisk_eq hsmall hread
  obtain rfl := Except.ok.inj h₂
  replace hdisk : FatFs.getNextCluster p ⟨false⟩ { fs with fat := none } n = _ := hdisk
  unfold Decodes
  rw [hmem, hdisk]
  split_ifs with hin
  · simp [hin]
  · simp [hin]

/-- Entries of FAT16 and FAT32 tables are decoded; entry `n` of a FAT12 table is if the table in
memory has a slot for it and the bits at `16 n` are those at `12 n`. -/
theorem decodes_iff (hw : Written fs entries) (hn : n < entries.length)
    (h₁ : fs.mount p ⟨true⟩ = .ok fs₁) (h₂ : fs.mount p ⟨false⟩ = .ok fs₂)
    (hread : fs.partition.read p (fs.fatStart + n * fs.fatType.entrySize / 512) 2 = .ok bytes) :
    Decodes p fs₁ fs₂ n (fs.fatType.value entries[n]) ↔
      (fs.fatType = .fat12 →
        fs.InTable n ∧ bits12 fs.fatByte (16 * n) = bits12 fs.fatByte (12 * n)) := by
  have hlen := (length_le_layout fs.fatType entries).trans hw.fits
  have hspf := fs.sectorsPerFat_lt
  have hsmall : n * fs.fatType.entrySize < 2 ^ 63 := by
    rcases FatFs.entrySize_cases fs.fatType with h | h <;> rw [h] <;> omega
  rw [decodes_iff_rawEntry h₁ h₂ hsmall hread]
  by_cases ht : fs.fatType = .fat12
  · rw [Written.masked_rawEntry_fat12 ht, hw.value_fat12 hn ht]
    exact ⟨fun h _ => h, fun h => h ht⟩
  · rw [hw.masked_rawEntry hn ht]
    exact ⟨fun _ h => absurd h ht, fun _ => ⟨hw.inTable hn ht, rfl⟩⟩

end Decoding

/-- Entry 2 of a FAT16 table. -/
theorem decodes_fat16_entry :
    ∃ fs₁, (tableVolume .fat16
        (FatType.fat16.layout [0xFFF0, 0xFFFF, 3, 0xFFFF])).mount .dev ⟨true⟩ = .ok fs₁ ∧
      Decodes .dev fs₁
        (tableVolume .fat16 (FatType.fat16.layout [0xFFF0, 0xFFFF, 3, 0xFFFF])) 2 3 := by
  obtain ⟨fs₁, hmount⟩ :=
    @exists_mount_tableVolume .fat16 (FatType.fat16.layout [0xFFF0, 0xFFFF, 3, 0xFFFF]) rfl
  have hw : Written (tableVolume .fat16 (FatType.fat16.layout [0xFFF0, 0xFFFF, 3, 0xFFFF]))
      [0xFFF0, 0xFFFF, 3, 0xFFFF] := ⟨by decide, by decide, by decide⟩
  exact ⟨fs₁, hmount, (decodes_iff hw (n := 2) (by decide) hmount rfl
    (tableVolume_read _ _ (by decide))).mpr (by simp [tableVolume])⟩

/-- A FAT12 table with the chain of clusters 2 and 3. -/
def packedTable : List Byte := pack12 [0xFF0, 0xFFF, 3, 0xFFF]

theorem packedTable_written : Written (tableVolume .fat12 packedTable) [0xFF0, 0xFFF, 3, 0xFFF] :=
  ⟨by decide, by decide, by decide⟩

/-- Entry 2 of this table is 3, but both modes give `0xFF0`. -/
theorem fat12_entry_misread :
    Written (tableVolume .fat12 packedTable) [0xFF0, 0xFFF, 3, 0xFFF] ∧
      ∃ fs₁, (tableVolume .fat12 packedTable).mount .dev ⟨true⟩ = .ok fs₁ ∧
        Decodes .dev fs₁ (tableVolume .fat12 packedTable) 2 0xFF0 ∧
        ¬ Decodes .dev fs₁ (tableVolume .fat12 packedTable) 2
          (FatType.fat12.value ([0xFF0, 0xFFF, 3, 0xFFF].getD 2 0)) := by
  obtain ⟨fs₁, hmount⟩ := @exists_mount_tableVolume .fat12 packedTable rfl
  have hdecodes (v : ℕ) := @decodes_iff_rawEntry .dev _ fs₁ _ 2 _ v hmount rfl (by decide)
    (tableVolume_read .fat12 packedTable (by decide))
  refine ⟨packedTable_written, fs₁, hmount, ?_, ?_⟩
  · exact (hdecodes 0xFF0).mpr (by decide)
  · exact fun h => absurd ((hdecodes _).mp h) (by decide)

end CappuccinOS.Fat
