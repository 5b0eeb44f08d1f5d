import CappuccinOS.Squashfs.File
import CappuccinOS.Gzip.Inflate

/-!
# Corrupt fragments

`get_decompressed_table` hands on the stored bytes when they cannot be decompressed. This is how a
lookup table that is not compressed at all gets through; it is also what happens to the data of a
file whose fragment is damaged.

1. `gzip`: the decompressor of an image, from the model of `uncompress_data`;
2. `read_ne_err`: `Inode::read` has no way to say `Err`;
3. `corrupt_not_reported`: the stored bytes are the answer to every read that they are long enough
   for.
-/

namespace CappuccinOS.Squashfs

/-- `uncompress_data`, as the decompressor of an image. -/
def gzip (p : Profile) : Decompressor := Gzip.uncompressData p

/-- A file in a fragment that is marked compressed and cannot be decompressed. -/
structure Corrupt (D : Decompressor) (img : Image) (file : BasicFileInode) extends
    FragmentEntry D img file.fragIdx where
  fragIdx_ne : file.fragIdx ≠ 0xFFFFFFFF
  compressed : size < 2 ^ 24
  corrupt : D (img.bytes start size) = .error .err
  fileSize_pos : 0 < file.fileSize

/-- Every read inside the file says `Err`. -/
def Reports (p : Profile) (D : Decompressor) (img : Image) (file : BasicFileInode) : Prop :=
  ∀ offset count, offset < file.fileSize → offset + count ≤ file.fileSize →
    file.read p D img count offset = .error .err

/-- `Inode::read` gets to the fragment of the file: the index of the fragment is 0, and the index of
the fragment table is not taken for a stream. -/
def Located (D : Decompressor) (img : Image) (file : BasicFileInode) : Prop :=
  file.fragIdx = 0 ∧
    (img.uncompressedFragments = true ∨ ∀ table ∈ img.fragmentTable, D table = .error .err)

section NeErr

variable {p : Profile} {D : Decompressor} {img : Image} {file : BasicFileInode}

theorem leAt_ne_err (bytes : List Byte) (offset size : ℕ) : leAt bytes offset size ≠ .error .err :=
  bind_ne_error (slice_ne_err _ _ _) fun field => by simp

theorem getDecompressedTable_ne_err (table : List Byte) (isCompressed : Option Bool) :
    getDecompressedTable D table isCompressed ≠ .error .err := by
  unfold getDecompressedTable
  refine bind_ne_error (leAt_ne_err _ _ _) fun header => ?_
  generalize (if isCompressed.isNone then table.drop 2 else table) = bytes
  by_cases hcompressed : isCompressed.getD (header &&& 0x8000 == 0)
  · simp only [hcompressed, if_true]
    split
    · simp
    · assumption
  · simp [hcompressed]

theorem fragmentData_ne_err (p : Profile) (D : Decompressor) (img : Image) (file : BasicFileInode) :
    fragmentData p D img file ≠ .error .err := by
  unfold fragmentData
  split
  · simp
  · refine bind_ne_error (getDecompressedTable_ne_err _ _) fun fragmentTable => ?_
    refine bind_ne_error (arith_ne_err _) fun stop => ?_
    refine bind_ne_error (slice_ne_err _ _ _) fun pointer => ?_
    refine bind_ne_error (arith_ne_err _) fun fragmentPointer => ?_
    refine bind_ne_error (getDecompressedTable_ne_err _ _) fun fragmentBlock => ?_
    refine bind_ne_error (leAt_ne_err _ _ _) fun fragmentStart => ?_
    refine bind_ne_error (leAt_ne_err _ _ _) fun fragmentSize => ?_
    exact bind_ne_error (arith_ne_err _) fun address => getDecompressedTable_ne_err _ _

theorem read_ne_err (p : Profile) (D : Decompressor) (img : Image) (file : BasicFileInode)
    (count offset : ℕ) : file.read p D img count offset ≠ .error .err := by
  unfold BasicFileInode.read
  refine bind_ne_error ?_ fun table => ?_
  · split_ifs
    · exact getDecompressedTable_ne_err _ _
    · exact fragmentData_ne_err p D img file
  · exact bind_ne_error (arith_ne_err _) fun blockOffset =>
      bind_ne_error (arith_ne_err _) fun stop => slice_ne_err _ _ _

end NeErr

section Corrupt

variable {p : Profile} {D : Decompressor} {img : Image} {file : BasicFileInode}

/-- The stored bytes of a corrupt fragment are taken for its data. -/
theorem Corrupt.fragmentData (f : Corrupt D img file) (h : Located D img file)
    (hsize : 2 ≤ f.size) :
    Squashfs.fragmentData p D img file = .ok (img.bytes f.start f.size) := by
  obtain ⟨hidx, hindex⟩ := h
  obtain ⟨entry, hstart, hsizeEq⟩ : ∃ entry : FragmentEntry D img 0, entry.start = f.start ∧
      entry.size = f.size := hidx ▸ ⟨f.toFragmentEntry, rfl, rfl⟩
  have hlt := f.compressed
  have hflag : (f.size &&& 1 <<< 24 == 0) = true := by
    rw [and_flag]
    exact decide_eq_true (by omega)
  rw [entry.fragmentData hidx hindex, hstart, hsizeEq, and_mask (by omega), Nat.mod_eq_of_lt hlt,
    hflag]
  exact getDecompressedTable_of_err (by simpa [Image.bytes] using hsize) f.corrupt

/-- No read of a file in a corrupt fragment says so. Once `Inode::read` gets to the fragment, a read
is answered with the stored bytes, as far as they go. -/
theorem corrupt_not_reported (f : Corrupt D img file) :
    ¬ Reports p D img file ∧
      (∀ offset count, file.read p D img count offset ≠ .error .err) ∧
      (Located D img file → 2 ≤ f.size → ∀ offset count,
        file.blockOffset + offset + count < wordSize →
        file.read p D img count offset =
          slice (img.bytes f.start f.size) (file.blockOffset + offset)
            (file.blockOffset + offset + count)) := by
  refine ⟨fun h => ?_, fun offset count => read_ne_err p D img file count offset, ?_⟩
  · exact read_ne_err p D img file 0 0 (h 0 0 f.fileSize_pos (Nat.zero_le _))
  · intro hlocated hsize offset count hword
    have hfirst : file.blockOffset + offset < wordSize := by omega
    unfold BasicFileInode.read
    rw [if_neg f.fragIdx_ne, f.fragmentData hlocated hsize]
    simp only [bind, Except.bind, p.add_of_lt hfirst, p.add_of_lt hword, arith_ok]

end Corrupt

/-! ## An image with a damaged fragment -/

/-- The entry of the one fragment: six bytes at 96, marked compressed. -/
def damagedEntry : MetaBlock (gzip .release) :=
  storedBlock _ (leBytes 8 96 ++ leBytes 8 6) (by decide) (by decide)

/-- The fragment, which has no zlib header, its entry at 200 and the index of the table at 240. -/
def damagedImage : Image where
  start := 0
  memory a :=
    if a < 200 then [0x61, 0x62, 0x63, 0x64, 0x65, 0x66].getD (a - 96) 0
    else if a < 240 then damagedEntry.encode.data.getD (a - 200) 0
    else (leBytes 8 200).getD (a - 240) 0
  inodeTable := 102
  fragTable := some (240, 248)
  uncompressedDataBlocks := false
  uncompressedFragments := true

/-- A file of two bytes, in fragment 0. -/
def damagedFile : BasicFileInode := ⟨⟨.basicFile, 0, 1⟩, 0, 0, 1, 2⟩

def damaged : Corrupt (gzip .release) damagedImage damagedFile where
  table := (240, 248)
  pointer := 200
  block := damagedEntry
  start := 96
  size := 6
  table_eq := rfl
  table_le := by decide
  pointer_eq := by decide
  pointer_lt := by decide
  block_eq := by decide
  start_eq := rfl
  start_lt := by decide
  size_eq := rfl
  fragIdx_ne := by decide
  compressed := by decide
  corrupt := rfl
  fileSize_pos := by decide

/-- The reads of that file, from the general result. -/
theorem damaged_not_reported :
    ¬ Reports .release (gzip .release) damagedImage damagedFile ∧
      damagedFile.read .release (gzip .release) damagedImage 2 0 = .ok [0x62, 0x63] := by
  obtain ⟨hreports, -, hread⟩ := @corrupt_not_reported .release _ _ _ damaged
  refine ⟨hreports, ?_⟩
  rw [hread ⟨rfl, .inl rfl⟩ (by decide) 0 2 (by decide)]
  rfl

/-- The stream is refused, and its bytes are read as those of the file. -/
theorem damaged_reads_stream :
    gzip .release (damagedImage.bytes damaged.start damaged.size) = .error .err ∧
      damagedFile.read .release (gzip .release) damagedImage 2 0 = .ok [0x62, 0x63] ∧
      ¬ Reports .release (gzip .release) damagedImage damagedFile := by
  have hread : damagedFile.read .release (gzip .release) damagedImage 2 0 = .ok [0x62, 0x63] := rfl
  refine ⟨rfl, hread, ?_⟩
  intro h
  cases hread.symm.trans (h 0 2 (by decide) (by decide))

end CappuccinOS.Squashfs
