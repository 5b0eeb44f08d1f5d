import CappuccinOS.Lib.Record
import CappuccinOS.Squashfs.File

/-!
# The superblock (`drivers/fs/initramfs/superblock.rs`)

The first 96 bytes of an image: nineteen little-endian fields with nothing between them.
`SquashfsSuperblock::new` reads all of them and then checks the magic number, the version and the
size of a block, the last in five ways.

1. `SquashfsSuperblock`, `new` and `features`;
2. `encode`, the bytes of a superblock by the format, as a packed record;
3. `superblock_exact`: which images are accepted, rejected and panicked on, with every field as it
   stands in the bytes. Of the five checks two say it all (`checks_iff`).
-/

namespace CappuccinOS.Squashfs

inductive SquashfsCompressionType
  | gzip
  | lzma
  | lzo
  | xz
  | lz4
  | zstd
  deriving DecidableEq, Repr

def SquashfsCompressionType.from : ℕ → Except Fault SquashfsCompressionType
  | 1 => .ok .gzip
  | 2 => .ok .lzma
  | 3 => .ok .lzo
  | 4 => .ok .xz
  | 5 => .ok .lz4
  | 6 => .ok .zstd
  | _ => .error (.panic .assertion)

namespace SquashfsCompressionType

/-- The discriminant. -/
def toNat : SquashfsCompressionType → ℕ
  | gzip => 1
  | lzma => 2
  | lzo => 3
  | xz => 4
  | lz4 => 5
  | zstd => 6

theorem from_eq_ok {n : ℕ} {c : SquashfsCompressionType} :
    SquashfsCompressionType.from n = .ok c ↔ n = c.toNat := by
  constructor
  · intro h
    unfold SquashfsCompressionType.from at h
    split at h <;> first | (obtain rfl := Except.ok.inj h; rfl) | cases h
  · rintro rfl
    cases c <;> rfl

theorem from_cases (n : ℕ) : (∃ c, SquashfsCompressionType.from n = .ok c) ∨
    ∃ q, SquashfsCompressionType.from n = .error (.panic q) := by
  unfold SquashfsCompressionType.from
  split <;> simp

end SquashfsCompressionType

structure SquashfsFeatures where
  uncompressedInodes : Bool
  uncompressedDataBlocks : Bool
  reserved : Bool
  uncompressedFragments : Bool
  unusedFragments : Bool
  fragmentsAlwaysPresent : Bool
  deduplicatedData : Bool
  nfsTablePresent : Bool
  uncompressedXattrs : Bool
  noXattrs : Bool
  compressorOptionsPresent : Bool
  uncompressedIdTable : Bool
  deriving DecidableEq, Repr

structure SquashfsSuperblock where
  magic : ℕ
  inodeCount : ℕ
  modTime : ℕ
  blockSize : ℕ
  fragCount : ℕ
  compressor : SquashfsCompressionType
  blockLog : ℕ
  flags : ℕ
  idCount : ℕ
  verMajor : ℕ
  verMinor : ℕ
  rootInode : ℕ
  bytesUsed : ℕ
  idTable : ℕ
  xattrTable : ℕ
  inodeTable : ℕ
  dirTable : ℕ
  fragTable : ℕ
  exportTable : ℕ
  deriving DecidableEq, Repr

namespace SquashfsSuperblock

/-- The checks of `SquashfsSuperblock::new`, in their order. -/
def check (superblock : SquashfsSuperblock) : Except Fault SquashfsSuperblock :=
  if superblock.magic ≠ 0x73717368 then .error .err
  else if superblock.verMajor ≠ 4 ∨ superblock.verMinor ≠ 0 then .error .err
  else if superblock.blockSize > 1048576 then .error .err
  else if superblock.blockLog > 20 then .error .err
  else if superblock.blockSize ≠ 1 <<< superblock.blockLog then .error .err
  else if superblock.blockSize = 0 then .error .err
  else if (superblock.blockSize - 1) &&& superblock.blockSize ≠ 0 then .error .err
  else .ok superblock

def new (bytes : List Byte) : Except Fault SquashfsSuperblock := do
  let magic ← leAt bytes 0 4
  let inodeCount ← leAt bytes 4 4
  let modTime ← leAt bytes 8 4
  let blockSize ← leAt bytes 12 4
  let fragCount ← leAt bytes 16 4
  let compressor ← leAt bytes 20 2
  let compressor ← SquashfsCompressionType.from compressor
  let blockLog ← leAt bytes 22 2
  let flags ← leAt bytes 24 2
  let idCount ← leAt bytes 26 2
  let verMajor ← leAt bytes 28 2
  let verMinor ← leAt bytes 30 2
  let rootInode ← leAt bytes 32 8
  let bytesUsed ← leAt bytes 40 8
  let idTable ← leAt bytes 48 8
  let xattrTable ← leAt bytes 56 8
  let inodeTable ← leAt bytes 64 8
  let dirTable ← leAt bytes 72 8
  let fragTable ← leAt bytes 80 8
  let exportTable ← leAt bytes 88 8
  check { magic, inodeCount, modTime, blockSize, fragCount, compressor, blockLog, flags, idCount,
          verMajor, verMinor, rootInode, bytesUsed, idTable, xattrTable, inodeTable, dirTable,
          fragTable, exportTable }

def features (superblock : SquashfsSuperblock) : SquashfsFeatures where
  uncompressedInodes := superblock.flags &&& 0x0001 ≠ 0
  uncompressedDataBlocks := superblock.flags &&& 0x0002 ≠ 0
  reserved := superblock.flags &&& 0x0004 ≠ 0
  uncompressedFragments := superblock.flags &&& 0x0008 ≠ 0
  unusedFragments := superblock.flags &&& 0x0010 ≠ 0
  fragmentsAlwaysPresent := superblock.flags &&& 0x0020 ≠ 0
  deduplicatedData := superblock.flags &&& 0x0040 ≠ 0
  nfsTablePresent := superblock.flags &&& 0x0080 ≠ 0
  uncompressedXattrs := superblock.flags &&& 0x0100 ≠ 0
  noXattrs := superblock.flags &&& 0x0200 ≠ 0
  compressorOptionsPresent := superblock.flags &&& 0x0400 ≠ 0
  uncompressedIdTable := superblock.flags &&& 0x0800 ≠ 0

/-! ## The format -/

variable (s : SquashfsSuperblock)

/-- The widths of the fields. -/
def widths : List ℕ := [4, 4, 4, 4, 4, 2, 2, 2, 2, 2, 2, 8, 8, 8, 8, 8, 8, 8, 8]

/-- The fields in the order of the image. -/
def fields : List (ℕ × ℕ) :=
  [(4, s.magic), (4, s.inodeCount), (4, s.modTime), (4, s.blockSize), (4, s.fragCount),
    (2, s.compressor.toNat), (2, s.blockLog), (2, s.flags), (2, s.idCount), (2, s.verMajor),
    (2, s.verMinor), (8, s.rootInode), (8, s.bytesUsed), (8, s.idTable), (8, s.xattrTable),
    (8, s.inodeTable), (8, s.dirTable), (8, s.fragTable), (8, s.exportTable)]

def encode : List Byte := Record.pack s.fields

/-- What a superblock of SquashFS 4.0 says of itself. -/
structure Valid : Prop where
  magic : s.magic = 0x73717368
  verMajor : s.verMajor = 4
  verMinor : s.verMinor = 0
  blockLog : s.blockLog ≤ 20
  blockSize : s.blockSize = 2 ^ s.blockLog

theorem eq_of_fields {s t : SquashfsSuperblock} (h : s.fields = t.fields)
    (hc : s.compressor = t.compressor) : s = t := by
  cases s
  cases t
  simp only [fields, List.cons.injEq, Prod.mk.injEq, true_and] at h
  simp_all

theorem length_encode : s.encode.length = superblockSize := by
  simp [encode, fields]

/-! ## The checks -/

theorem reject_eq_ok {α : Type} {P : Prop} [Decidable P] {x : Except Fault α} {a : α} :
    (if P then .error .err else x) = .ok a ↔ ¬ P ∧ x = .ok a := by
  by_cases h : P
  · simp [h]
  · simp [h]

/-- The checks of the block size behind the first two add nothing. -/
theorem checks_iff : s.check = .ok s ↔ s.Valid := by
  unfold check
  simp only [reject_eq_ok]
  constructor
  · rintro ⟨hmagic, hver, -, hlog, hsize, -, -, -⟩
    rw [not_or, not_not, not_not] at hver
    exact ⟨not_not.mp hmagic, hver.1, hver.2, by omega,
      by rw [not_not.mp hsize, Nat.one_shiftLeft]⟩
  · rintro ⟨hmagic, hmajor, hminor, hlog, hsize⟩
    have hle : 2 ^ s.blockLog ≤ 2 ^ 20 := Nat.pow_le_pow_right (by norm_num) hlog
    have hpos : 0 < 2 ^ s.blockLog := by positivity
    have hpow : (2 ^ s.blockLog - 1) &&& 2 ^ s.blockLog = 0 := by
      rw [Nat.and_comm, Nat.and_two_pow_sub_one_eq_mod, Nat.mod_self]
    rw [hsize, Nat.one_shiftLeft, hpow]
    exact ⟨not_not.mpr hmagic, by omega, by omega, by omega, not_not.mpr rfl, by omega,
      not_not.mpr rfl, trivial⟩

theorem check_cases : s.check = .ok s ∨ s.check = .error .err := by
  unfold check
  repeat' (first | exact .inl rfl | exact .inr rfl | split)

/-! ## Reading the fields -/

theorem leAt_cases (bytes : List Byte) (offset size : ℕ) :
    (∃ v, leAt bytes offset size = .ok v) ∨ ∃ q, leAt bytes offset size = .error (.panic q) := by
  unfold leAt slice
  split_ifs
  · exact .inl ⟨_, rfl⟩
  · exact .inr ⟨_, rfl⟩

theorem panics_bind {α β : Type} {x : Except Fault α} {f : α → Except Fault β}
    (hx : (∃ a, x = .ok a) ∨ ∃ q, x = .error (.panic q)) (hf : ∀ a, ∃ q, f a = .error (.panic q)) :
    ∃ q, x >>= f = .error (.panic q) := by
  obtain ⟨a, rfl⟩ | ⟨q, rfl⟩ := hx
  · exact hf a
  · exact ⟨q, rfl⟩

/-- The superblock that stands in the bytes, when they give its compression type. -/
def ofBytes (bytes : List Byte) (compressor : SquashfsCompressionType) : SquashfsSuperblock :=
  let field (offset size : ℕ) := leNat ((bytes.drop offset).take size)
  { magic := field 0 4, inodeCount := field 4 4, modTime := field 8 4, blockSize := field 12 4
    fragCount := field 16 4, compressor := compressor, blockLog := field 22 2, flags := field 24 2
    idCount := field 26 2, verMajor := field 28 2, verMinor := field 30 2, rootInode := field 32 8
    bytesUsed := field 40 8, idTable := field 48 8, xattrTable := field 56 8
    inodeTable := field 64 8, dirTable := field 72 8, fragTable := field 80 8
    exportTable := field 88 8 }

/-- All that can go wrong before the checks is a short image or an unknown compression type. -/
theorem new_eq {bytes : List Byte} (h : superblockSize ≤ bytes.length) :
    new bytes = (SquashfsCompressionType.from (leNat ((bytes.drop 20).take 2))) >>= fun c =>
      (ofBytes bytes c).check := by
  have hfield : ∀ offset size, offset + size ≤ 96 →
      leAt bytes offset size = .ok (leNat ((bytes.drop offset).take size)) := fun offset size hle =>
    leAt_of_le (hle.trans h)
  unfold new
  simp (disch := decide) only [hfield, bind, Except.bind]
  rfl

/-- In a short image the last field is missing at the latest. -/
theorem new_short {bytes : List Byte} (h : bytes.length < superblockSize) :
    ∃ q, new bytes = .error (.panic q) := by
  unfold new
  iterate 6 refine panics_bind (leAt_cases _ _ _) fun _ => ?_
  refine panics_bind (SquashfsCompressionType.from_cases _) fun _ => ?_
  iterate 12 refine panics_bind (leAt_cases _ _ _) fun _ => ?_
  have hlt : bytes.length < 96 := h
  unfold leAt
  rw [slice_of_not (by omega)]
  exact ⟨.bounds, rfl⟩

theorem fields_ofBytes {bytes : List Byte} {c : SquashfsCompressionType}
    (hc : leNat ((bytes.drop 20).take 2) = c.toNat) :
    (ofBytes bytes c).fields = Record.unpack widths 0 bytes := by
  unfold ofBytes fields widths Record.unpack
  rw [← hc]
  rfl

theorem encode_ofBytes {bytes : List Byte} {c : SquashfsCompressionType}
    (h : superblockSize ≤ bytes.length) (hc : leNat ((bytes.drop 20).take 2) = c.toNat) :
    (ofBytes bytes c).encode = bytes.take superblockSize := by
  have hsum : widths.sum = superblockSize := by decide
  rw [encode, fields_ofBytes hc, Record.pack_unpack (by rw [hsum]; omega), hsum, List.drop_zero]

theorem fits_ofBytes {bytes : List Byte} {c : SquashfsCompressionType}
    (hc : leNat ((bytes.drop 20).take 2) = c.toNat) : Record.Fits (ofBytes bytes c).fields := by
  rw [fields_ofBytes hc]
  exact Record.fits_unpack _ _ _

theorem unpack_encode (hfits : Record.Fits s.fields) (rest : List Byte) :
    Record.unpack widths 0 (s.encode ++ rest) = s.fields := Record.unpack_pack hfits [] rest

/-- The length of the image, where `Squashfs::new` reads it. -/
theorem bytesUsed_encode (hfits : Record.Fits s.fields) (rest : List Byte) :
    leNat (((s.encode ++ rest).drop 40).take 8) = s.bytesUsed := by
  have hnth := congrArg (fun l => l[12]?) (s.unpack_encode hfits rest)
  exact (Prod.mk.inj (Option.some.inj hnth)).2

theorem ofBytes_encode (hfits : Record.Fits s.fields) (rest : List Byte) :
    leNat (((s.encode ++ rest).drop 20).take 2) = s.compressor.toNat ∧
      ofBytes (s.encode ++ rest) s.compressor = s := by
  have hunpack := s.unpack_encode hfits rest
  have hcompressor : leNat (((s.encode ++ rest).drop 20).take 2) = s.compressor.toNat := by
    have hnth := congrArg (fun l => l[5]?) hunpack
    exact (Prod.mk.inj (Option.some.inj hnth)).2
  have hfields := (fields_ofBytes hcompressor).trans hunpack
  exact ⟨hcompressor, eq_of_fields hfields rfl⟩

section Exact

variable {s} {bytes : List Byte}

/-- Whatever is not a panic comes out of the checks on the superblock that stands in the bytes. -/
theorem new_eq_iff {r : Except Fault SquashfsSuperblock} (hr : ∀ q, r ≠ .error (.panic q)) :
    new bytes = r ↔ ∃ s : SquashfsSuperblock, Record.Fits s.fields ∧ s.encode <+: bytes ∧
      s.check = r := by
  constructor
  · intro h
    have hlen : superblockSize ≤ bytes.length := by
      by_contra hshort
      obtain ⟨q, hq⟩ := new_short (not_le.mp hshort)
      exact hr q (h.symm.trans hq)
    rw [new_eq hlen] at h
    rcases SquashfsCompressionType.from_cases (leNat ((bytes.drop 20).take 2))
      with ⟨c, hc⟩ | ⟨q, hq⟩
    · rw [hc] at h
      have hnat := SquashfsCompressionType.from_eq_ok.mp hc
      exact ⟨ofBytes bytes c, fits_ofBytes hnat,
        by rw [encode_ofBytes hlen hnat]; exact List.take_prefix _ _, h⟩
    · rw [hq] at h
      exact absurd h.symm (hr q)
  · rintro ⟨s, hfits, ⟨rest, rfl⟩, hcheck⟩
    obtain ⟨hc, hs⟩ := s.ofBytes_encode hfits rest
    rw [new_eq (by rw [List.length_append, length_encode]; omega),
      SquashfsCompressionType.from_eq_ok.mpr hc]
    exact (congrArg check hs).trans hcheck

/-- A superblock is returned exactly when it is valid and its encoding starts the image. -/
theorem new_ok_iff : new bytes = .ok s ↔ Record.Fits s.fields ∧ s.Valid ∧ s.encode <+: bytes := by
  rw [new_eq_iff (by simp)]
  constructor
  · rintro ⟨t, hfits, hprefix, hcheck⟩
    obtain hok | herr := t.check_cases
    · obtain rfl := Except.ok.inj (hok.symm.trans hcheck)
      exact ⟨hfits, t.checks_iff.mp hok, hprefix⟩
    · cases herr.symm.trans hcheck
  · rintro ⟨hfits, hvalid, hprefix⟩
    exact ⟨s, hfits, hprefix, s.checks_iff.mpr hvalid⟩

/-- An image is rejected exactly when a superblock that is not valid starts it. -/
theorem new_err_iff : new bytes = .error .err ↔
    ∃ s : SquashfsSuperblock, Record.Fits s.fields ∧ ¬ s.Valid ∧ s.encode <+: bytes := by
  rw [new_eq_iff (by simp)]
  refine exists_congr fun t => ?_
  have hvalid := t.checks_iff
  obtain hok | herr := t.check_cases
  · simp [hok, hvalid.mp hok]
  · have hnot : ¬ t.Valid := fun h => by cases herr.symm.trans (hvalid.mpr h)
    simp [herr, hnot]

/-- What is left is an image that no superblock starts, for its length or its compression type. -/
theorem new_panic_iff : (∃ q, new bytes = .error (.panic q)) ↔
    ¬ ∃ s : SquashfsSuperblock, Record.Fits s.fields ∧ s.encode <+: bytes := by
  constructor
  · rintro ⟨q, hq⟩ ⟨s, hfits, hprefix⟩
    have hcheck : ∀ q, s.check ≠ .error (.panic q) := by
      obtain h | h := s.check_cases <;> rw [h] <;> simp
    have hnew := (new_eq_iff hcheck).mpr ⟨s, hfits, hprefix, rfl⟩
    exact hcheck q (hnew.symm.trans hq)
  · intro hno
    by_cases hlen : superblockSize ≤ bytes.length
    · rw [new_eq hlen]
      rcases SquashfsCompressionType.from_cases (leNat ((bytes.drop 20).take 2))
        with ⟨c, hc⟩ | ⟨q, hq⟩
      · have hnat := SquashfsCompressionType.from_eq_ok.mp hc
        exact absurd ⟨ofBytes bytes c, fits_ofBytes hnat,
          by rw [encode_ofBytes hlen hnat]; exact List.take_prefix _ _⟩ hno
      · rw [hq]
        exact ⟨q, rfl⟩
    · exact new_short (not_le.mp hlen)

end Exact

end SquashfsSuperblock

/-- An image is accepted, rejected or panicked on by what stands in its first 96 bytes: a valid
superblock, which comes back with every field, an invalid one, or none at all. -/
theorem superblock_exact (bytes : List Byte) :
    (∀ s, SquashfsSuperblock.new bytes = .ok s ↔
      Record.Fits s.fields ∧ s.Valid ∧ s.encode <+: bytes) ∧
    (SquashfsSuperblock.new bytes = .error .err ↔
      ∃ s : SquashfsSuperblock, Record.Fits s.fields ∧ ¬ s.Valid ∧ s.encode <+: bytes) ∧
    ((∃ q, SquashfsSuperblock.new bytes = .error (.panic q)) ↔
      ¬ ∃ s : SquashfsSuperblock, Record.Fits s.fields ∧ s.encode <+: bytes) :=
  ⟨fun _ => SquashfsSuperblock.new_ok_iff, SquashfsSuperblock.new_err_iff,
    SquashfsSuperblock.new_panic_iff⟩

end CappuccinOS.Squashfs
