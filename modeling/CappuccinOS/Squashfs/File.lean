import CappuccinOS.Squashfs.Inode

/-!
# Reading a file (`Inode::read`)

The content of a file is in data blocks, one after the other from `block_start` on, and its tail may
be in a fragment that it shares with other files. `Inode::read` looks at one of the two: for a file
without a fragment it takes the data area of the whole image for the content, for a file with one it
reads the fragment.

1. `get_decompressed_table` and `Inode::read`;
2. `Fragment` and `File`: where the format puts the parts of a file;
3. `reads_of_served`: the kinds of files that are read right, which are the empty ones, the files in
   fragment 0 and the file at the start of the data area;
4. `twoFragments`: an image whose second fragment is out of reach.
-/

namespace CappuccinOS.Squashfs

/-! ## The code -/

/-- `Squashfs`, as far as a read uses it. The fragment table runs from one offset to another. -/
structure Image where
  start : ℕ
  memory : ℕ → Byte
  inodeTable : ℕ
  fragTable : Option (ℕ × ℕ)
  uncompressedDataBlocks : Bool
  uncompressedFragments : Bool

/-- The size of the superblock. -/
abbrev superblockSize : ℕ := 96

namespace Image

variable (img : Image)

/-- `n` bytes of the image. -/
def bytes (offset n : ℕ) : List Byte := window img.memory (img.start + offset) n

/-- The field `data_table`. -/
def dataTable : List Byte := img.bytes superblockSize (img.inodeTable - superblockSize)

/-- The field `fragment_table`. -/
def fragmentTable : Option (List Byte) :=
  img.fragTable.map fun table => img.bytes table.1 (table.2 - table.1)

end Image

/-- `get_decompressed_table`; `none` is a metadata block, whose header has the flag. -/
def getDecompressedTable (D : Decompressor) (table : List Byte) (isCompressed : Option Bool) :
    Except Fault (List Byte) := do
  let header ← leAt table 0 2
  let tableIsCompressed := isCompressed.getD (header &&& 0x8000 == 0)
  let bytes := if isCompressed.isNone then table.drop 2 else table
  if tableIsCompressed then
    match D bytes with
    | .error .err => .ok bytes
    | result => result
  else
    .ok bytes

/-- The fragment of a file, as `Inode::read` looks for it. -/
def fragmentData (p : Profile) (D : Decompressor) (img : Image) (file : BasicFileInode) :
    Except Fault (List Byte) :=
  match img.fragmentTable with
  | none => .error (.panic .unwrap)
  | some table => do
    let fragmentTable ← getDecompressedTable D table (some !img.uncompressedFragments)
    let stop ← arith (p.fit 32 (file.fragIdx + 8))
    let pointer ← slice fragmentTable file.fragIdx stop
    let fragmentPointer ← arith (p.add img.start (leNat pointer))
    let fragmentBlockSize := (leNat (window img.memory fragmentPointer 2) &&& 0x7FFF) + 2
    let fragmentBlock ← getDecompressedTable D (window img.memory fragmentPointer fragmentBlockSize)
      none
    let fragmentStart ← leAt fragmentBlock 0 8
    let fragmentSize ← leAt fragmentBlock 8 4
    let address ← arith (p.add img.start fragmentStart)
    getDecompressedTable D (window img.memory address (fragmentSize &&& 0xFEFFFFFF))
      (some (fragmentSize &&& 1 <<< 24 == 0))

/-- `Inode::read` of a file. -/
def BasicFileInode.read (p : Profile) (D : Decompressor) (img : Image) (file : BasicFileInode)
    (count offset : ℕ) : Except Fault (List Byte) := do
  let dataTable ← (if file.fragIdx = 0xFFFFFFFF then
    getDecompressedTable D img.dataTable (some !img.uncompressedDataBlocks)
  else
    fragmentData p D img file)
  let blockOffset ← arith (p.add file.blockOffset offset)
  let stop ← arith (p.add blockOffset count)
  slice dataTable blockOffset stop

/-! ## The format -/

/-- The stored bytes at an offset of the image hold `data`; bit 24 of the size marks bytes that are
not compressed. -/
structure StoredAt (D : Decompressor) (img : Image) (offset size : ℕ)
    (data : List Byte) : Prop where
  size_lt : size < 2 ^ 25
  decodes : (if size < 2 ^ 24 then D (img.bytes offset size)
    else .ok (img.bytes offset (size - 2 ^ 24))) = .ok data

/-- Fragment `i` of the image: its entry is number `i % 512` of metadata block `i / 512`. -/
structure Fragment (D : Decompressor) (img : Image) (i : ℕ) where
  table : ℕ × ℕ
  pointer : ℕ
  block : MetaBlock D
  start : ℕ
  size : ℕ
  data : List Byte
  table_eq : img.fragTable = some table
  table_le : 8 * (i / 512) + 8 ≤ table.2 - table.1
  pointer_eq : leNat (img.bytes (table.1 + 8 * (i / 512)) 8) = pointer
  pointer_lt : img.start + pointer < wordSize
  block_eq : img.bytes pointer block.encode.data.length = block.encode.data
  start_eq : leAt block.payload (16 * (i % 512)) 8 = .ok start
  start_lt : img.start + start < wordSize
  size_eq : leAt block.payload (16 * (i % 512) + 8) 4 = .ok size
  data_eq : StoredAt D img start size data

/-- The entry of fragment `i`, whatever the bytes of the fragment are. -/
structure FragmentEntry (D : Decompressor) (img : Image) (i : ℕ) where
  table : ℕ × ℕ
  pointer : ℕ
  block : MetaBlock D
  start : ℕ
  size : ℕ
  table_eq : img.fragTable = some table
  table_le : 8 * (i / 512) + 8 ≤ table.2 - table.1
  pointer_eq : leNat (img.bytes (table.1 + 8 * (i / 512)) 8) = pointer
  pointer_lt : img.start + pointer < wordSize
  block_eq : img.bytes pointer block.encode.data.length = block.encode.data
  start_eq : leAt block.payload (16 * (i % 512)) 8 = .ok start
  start_lt : img.start + start < wordSize
  size_eq : leAt block.payload (16 * (i % 512) + 8) 4 = .ok size

/-- The entry of a fragment. -/
def Fragment.entry {D : Decompressor} {img : Image} {i : ℕ} (f : Fragment D img i) :
    FragmentEntry D img i :=
  { f with }

/-- Data blocks one after the other; a size of 0 stands for a block of zeros. -/
inductive DataBlocks (D : Decompressor) (img : Image) (blockSize : ℕ) :
    ℕ → List ℕ → List (List Byte) → Prop
  | nil (offset : ℕ) : DataBlocks D img blockSize offset [] []
  | sparse {offset : ℕ} {sizes : List ℕ} {blocks : List (List Byte)} :
      DataBlocks D img blockSize offset sizes blocks →
      DataBlocks D img blockSize offset (0 :: sizes) (List.replicate blockSize 0 :: blocks)
  | stored {offset size : ℕ} {data : List Byte} {sizes : List ℕ} {blocks : List (List Byte)} :
      size ≠ 0 → StoredAt D img offset size data →
      DataBlocks D img blockSize (offset + size % 2 ^ 24) sizes blocks →
      DataBlocks D img blockSize offset (size :: sizes) (data :: blocks)

/-- The part of its fragment that belongs to a file. -/
def tailOf {D : Decompressor} {img : Image} {i : ℕ} (offset size : ℕ) :
    Option (Fragment D img i) → List Byte
  | none => []
  | some f => (f.data.drop offset).take size

/-- The number of data blocks of a file, with a fragment and without. -/
def blockCount (blockSize fileSize : ℕ) (hasFragment : Bool) : ℕ :=
  if hasFragment then fileSize / blockSize else (fileSize + blockSize - 1) / blockSize

/-- A basic file of the image: its data blocks, and the fragment with its tail. -/
structure File (D : Decompressor) (img : Image) (blockSize : ℕ) (file : BasicFileInode) where
  sizes : List ℕ
  blocks : List (List Byte)
  fragment : Option (Fragment D img file.fragIdx)
  content : List Byte
  dataBlocks : DataBlocks D img blockSize file.blockStart sizes blocks
  fragment_none : fragment = none ↔ file.fragIdx = 0xFFFFFFFF
  fragment_le : ∀ f ∈ fragment, file.blockOffset + file.fileSize % blockSize ≤ f.data.length
  content_eq : content = blocks.flatten ++
    tailOf file.blockOffset (file.fileSize % blockSize) fragment
  content_length : content.length = file.fileSize
  sizes_length : sizes.length = blockCount blockSize file.fileSize fragment.isSome
  blockOffset_none : fragment = none → file.blockOffset = 0
  blockOffset_lt : file.blockOffset < 2 ^ 32
  fileSize_lt : file.fileSize < 2 ^ 32
  dataEnd_le : fragment = none →
    file.blockStart + (sizes.map (· % 2 ^ 24)).sum ≤ img.inodeTable

/-- Every part of the file is read as it is. -/
def Reads (p : Profile) (D : Decompressor) (img : Image) (file : BasicFileInode)
    (content : List Byte) : Prop :=
  ∀ offset count, offset < file.fileSize → offset + count ≤ file.fileSize →
    file.read p D img count offset = .ok ((content.drop offset).take count)

/-! ## Tables -/

section Tables

variable {D : Decompressor} {table data : List Byte}

theorem leAt_of_le {offset size : ℕ} (h : offset + size ≤ table.length) :
    leAt table offset size = .ok (leNat ((table.drop offset).take size)) := by
  unfold leAt
  rw [slice_of_le (Nat.le_add_right _ _) h, Nat.add_sub_cancel_left]
  rfl

theorem getDecompressedTable_plain (h : 2 ≤ table.length) :
    getDecompressedTable D table (some false) = .ok table := by
  unfold getDecompressedTable
  rw [leAt_of_le (by omega)]
  rfl

theorem getDecompressedTable_of_ok (h : 2 ≤ table.length) (hD : D table = .ok data) :
    getDecompressedTable D table (some true) = .ok data := by
  unfold getDecompressedTable
  rw [leAt_of_le (by omega)]
  simp [bind, Except.bind, hD]

theorem getDecompressedTable_of_err (h : 2 ≤ table.length) (hD : D table = .error .err) :
    getDecompressedTable D table (some true) = .ok table := by
  unfold getDecompressedTable
  rw [leAt_of_le (by omega)]
  simp [bind, Except.bind, hD]

theorem getDecompressedTable_encode (b : MetaBlock D) :
    getDecompressedTable D b.encode.data none = .ok b.payload := by
  have hdec := b.decodes
  have hdrop : b.encode.data.drop 2 = b.stored := List.drop_left' (length_leBytes 2 _)
  have hflag : (leNat (b.encode.data.take 2) &&& 0x8000 == 0) = b.compressed := by
    rw [Bool.eq_iff_iff]
    exact b.isCompressed_encode
  unfold getDecompressedTable
  rw [leAt_of_le (by rw [b.length_encode]; exact Nat.le_add_left _ _)]
  simp only [bind, Except.bind, List.drop_zero, Option.getD_none, Option.isNone_none, if_true,
    hdrop, hflag]
  by_cases h : b.compressed
  · rw [if_pos h] at hdec
    simp [h, hdec]
  · rw [if_neg h] at hdec
    simpa [h] using hdec

end Tables

/-! ## Sizes with a flag -/

theorem and_flag (size : ℕ) : (size &&& 1 <<< 24 == 0) = decide (size / 2 ^ 24 % 2 = 0) := by
  have h : size &&& 1 <<< 24 = 2 ^ 24 * (size / 2 ^ 24 % 2 ^ 1) := and_field size 24 1
  rw [h, Bool.eq_iff_iff, beq_iff_eq, decide_eq_true_iff]
  omega

theorem and_mask {size : ℕ} (h : size < 2 ^ 25) : size &&& 0xFEFFFFFF = size % 2 ^ 24 := by
  have hlow : size &&& (2 ^ 25 - 1) = size := by
    rw [Nat.and_two_pow_sub_one_eq_mod, Nat.mod_eq_of_lt h]
  calc size &&& 0xFEFFFFFF = size &&& ((2 ^ 25 - 1) &&& 0xFEFFFFFF) := by rw [← Nat.and_assoc, hlow]
    _ = size &&& (2 ^ 24 - 1) := congrArg (size &&& ·) (by decide)
    _ = size % 2 ^ 24 := Nat.and_two_pow_sub_one_eq_mod _ _

/-- The bytes of a block or a fragment, by the size with the flag. -/
theorem StoredAt.getDecompressedTable {D : Decompressor} {img : Image} {offset size : ℕ}
    {data : List Byte} (h : StoredAt D img offset size data) (hsize : 2 ≤ size % 2 ^ 24) :
    getDecompressedTable D (img.bytes offset (size &&& 0xFEFFFFFF))
      (some (size &&& 1 <<< 24 == 0)) = .ok data := by
  have hlt := h.size_lt
  have hdec := h.decodes
  rw [and_mask hlt, and_flag]
  split_ifs at hdec with hflag
  · rw [Nat.mod_eq_of_lt hflag] at hsize ⊢
    have hbit : decide (size / 2 ^ 24 % 2 = 0) = true := decide_eq_true (by omega)
    rw [hbit]
    exact getDecompressedTable_of_ok (by simpa [Image.bytes] using hsize) hdec
  · have hbit : decide (size / 2 ^ 24 % 2 = 0) = false := decide_eq_false (by omega)
    have hmod : size % 2 ^ 24 = size - 2 ^ 24 := by omega
    rw [hmod] at hsize ⊢
    rw [hbit, getDecompressedTable_plain (by simpa [Image.bytes] using hsize)]
    exact hdec

/-! ## Files that are read -/

section Read

variable {p : Profile} {D : Decompressor} {img : Image} {blockSize : ℕ} {file : BasicFileInode}

theorem FragmentEntry.fragmentData (f : FragmentEntry D img 0) (hidx : file.fragIdx = 0)
    (hindex : img.uncompressedFragments = true ∨
      ∀ table ∈ img.fragmentTable, D table = .error .err) :
    fragmentData p D img file = getDecompressedTable D
      (img.bytes f.start (f.size &&& 0xFEFFFFFF)) (some (f.size &&& 1 <<< 24 == 0)) := by
  have htable : img.fragmentTable = some (img.bytes f.table.1 (f.table.2 - f.table.1)) := by
    rw [Image.fragmentTable, f.table_eq]
    rfl
  have hle : 8 ≤ f.table.2 - f.table.1 := f.table_le
  have hraw : getDecompressedTable D (img.bytes f.table.1 (f.table.2 - f.table.1))
      (some !img.uncompressedFragments) = .ok (img.bytes f.table.1 (f.table.2 - f.table.1)) := by
    have hlong : 2 ≤ (img.bytes f.table.1 (f.table.2 - f.table.1)).length := by
      simp only [Image.bytes, length_window]
      omega
    cases hflag : img.uncompressedFragments with
    | true => exact getDecompressedTable_plain hlong
    | false =>
      have herr := hindex.resolve_left (by rw [hflag]; decide)
      exact getDecompressedTable_of_err hlong (herr _ htable)
  have hpointer : slice (img.bytes f.table.1 (f.table.2 - f.table.1)) 0 8 =
      .ok (img.bytes f.table.1 8) := by
    have hslice := slice_window img.memory (a := img.start + f.table.1) (i := 0) (m := 8)
      (show 0 + 8 ≤ f.table.2 - f.table.1 by omega)
    exact hslice
  have hnum : leNat (img.bytes f.table.1 8) = f.pointer := f.pointer_eq
  -- the metadata block at the pointer
  have hblock : window img.memory (img.start + f.pointer) f.block.encode.data.length =
      f.block.encode.data := f.block_eq
  have hlen := f.block.length_encode
  have hheader : leNat (window img.memory (img.start + f.pointer) 2) &&& 0x7FFF =
      f.block.stored.length := by
    rw [← take_window img.memory (show 2 ≤ f.block.encode.data.length by
      rw [hlen]; exact Nat.le_add_left _ _), hblock]
    exact f.block.len_encode
  have hstart : leAt f.block.payload 0 8 = .ok f.start := f.start_eq
  have hsizeField : leAt f.block.payload 8 4 = .ok f.size := f.size_eq
  unfold Squashfs.fragmentData
  rw [htable]
  simp only [hraw, hidx, bind, Except.bind]
  rw [p.fit_of_lt (by norm_num)]
  simp only [arith_ok, hpointer, hnum, p.add_of_lt f.pointer_lt, hheader, Nat.zero_add]
  rw [← show f.block.encode.data.length = f.block.stored.length + 2 from hlen, hblock,
    getDecompressedTable_encode]
  simp only [hstart, hsizeField, p.add_of_lt f.start_lt, arith_ok]
  rfl

theorem Fragment.fragmentData (f : Fragment D img 0) (hidx : file.fragIdx = 0)
    (hindex : img.uncompressedFragments = true ∨
      ∀ table ∈ img.fragmentTable, D table = .error .err)
    (hsize : 2 ≤ f.size % 2 ^ 24) : fragmentData p D img file = .ok f.data :=
  (f.entry.fragmentData hidx hindex).trans (f.data_eq.getDecompressedTable hsize)

/-- What `Inode::read` takes the file from is `table`, and there it has the content of the file. -/
structure TakenFrom (p : Profile) (f : File D img blockSize file) (table : List Byte) : Prop where
  table_eq : (if file.fragIdx = 0xFFFFFFFF then
      getDecompressedTable D img.dataTable (some !img.uncompressedDataBlocks)
    else fragmentData p D img file) = .ok table
  content_eq : f.content = (table.drop file.blockOffset).take file.fileSize
  le_length : file.blockOffset + file.fileSize ≤ table.length

/-- A read is a slice of the table that the file is taken from. -/
theorem TakenFrom.read {f : File D img blockSize file} {table : List Byte} {count offset : ℕ}
    (h : TakenFrom p f table) (hle : offset + count ≤ file.fileSize) :
    file.read p D img count offset = .ok ((f.content.drop offset).take count) := by
  have hoffset := f.blockOffset_lt
  have hsize := f.fileSize_lt
  have hlength := h.le_length
  have hfirst : file.blockOffset + offset < wordSize := by
    unfold wordSize
    omega
  have hstop : file.blockOffset + offset + count < wordSize := by
    unfold wordSize
    omega
  unfold BasicFileInode.read
  rw [h.table_eq]
  simp only [bind, Except.bind, p.add_of_lt hfirst, p.add_of_lt hstop, arith_ok]
  rw [slice_of_le (by omega) (by omega), h.content_eq, List.drop_take, List.drop_drop,
    List.take_take, Nat.add_sub_cancel_left, Nat.min_eq_left (by omega)]

theorem DataBlocks.flatten_eq {offset : ℕ} {sizes : List ℕ} {blocks : List (List Byte)}
    (h : DataBlocks D img blockSize offset sizes blocks) (hplain : ∀ s ∈ sizes, 2 ^ 24 ≤ s) :
    blocks.flatten = img.bytes offset (sizes.map (· % 2 ^ 24)).sum := by
  induction h with
  | nil => rfl
  | sparse h ih => exact absurd (hplain 0 List.mem_cons_self) (by norm_num)
  | @stored offset size data sizes blocks hne hdata h ih =>
    have hlow := hplain size List.mem_cons_self
    have hlt := hdata.size_lt
    have hdec := hdata.decodes
    rw [if_neg (by omega), show size - 2 ^ 24 = size % 2 ^ 24 by omega] at hdec
    rw [List.flatten_cons, ih fun s hs => hplain s (List.mem_cons_of_mem _ hs),
      ← Except.ok.inj hdec, List.map_cons, List.sum_cons]
    unfold Image.bytes window
    rw [← List.map_append, ← Nat.add_assoc, List.range'_append_1]

/-- The files that are read right. -/
inductive File.Served (f : File D img blockSize file) : Prop
  /-- A file without a byte. -/
  | empty : file.fileSize = 0 → Served f
  /-- A file in fragment 0, when the index of the fragment table is not taken for a stream. -/
  | fragment (frag : Fragment D img file.fragIdx) :
      f.fragment = some frag → file.fragIdx = 0 → f.sizes = [] →
      (img.uncompressedFragments = true ∨ ∀ table ∈ img.fragmentTable, D table = .error .err) →
      2 ≤ frag.size % 2 ^ 24 → Served f
  /-- The first file, when its blocks are plain and the data area is not taken for a stream. -/
  | plain : f.fragment = none → file.blockStart = superblockSize →
      (img.uncompressedDataBlocks = true ∨ D img.dataTable = .error .err) →
      (∀ s ∈ f.sizes, 2 ^ 24 ≤ s) → superblockSize + 2 ≤ img.inodeTable → Served f
  /-- The first file when it has one block, and the stream ends where the block does. -/
  | first (size : ℕ) : f.fragment = none → file.blockStart = superblockSize →
      img.uncompressedDataBlocks = false → f.sizes = [size] → size ≠ 0 → size < 2 ^ 24 →
      D img.dataTable = D (img.bytes superblockSize size) →
      superblockSize + 2 ≤ img.inodeTable → Served f

theorem DataBlocks.eq_nil {offset : ℕ} {blocks : List (List Byte)}
    (h : DataBlocks D img blockSize offset [] blocks) : blocks = [] := by
  cases h
  rfl

theorem DataBlocks.eq_singleton {offset size : ℕ} {blocks : List (List Byte)}
    (h : DataBlocks D img blockSize offset [size] blocks) (hne : size ≠ 0) :
    ∃ data, blocks = [data] ∧ StoredAt D img offset size data := by
  cases h with
  | sparse h => exact absurd rfl hne
  | @stored _ _ data _ _ _ hdata h =>
    obtain rfl := h.eq_nil
    exact ⟨data, rfl, hdata⟩

theorem File.content_fragment (f : File D img blockSize file) {frag : Fragment D img file.fragIdx}
    (hfrag : f.fragment = some frag) (hsizes : f.sizes = []) :
    f.content = (frag.data.drop file.blockOffset).take file.fileSize ∧
      file.blockOffset + file.fileSize ≤ frag.data.length := by
  have hdata := f.dataBlocks
  rw [hsizes] at hdata
  have hcontent := f.content_eq
  rw [hdata.eq_nil, hfrag, List.flatten_nil, List.nil_append, tailOf] at hcontent
  have hlength := f.content_length
  have hle := f.fragment_le frag hfrag
  rw [hcontent, List.length_take, List.length_drop] at hlength
  have hsize : file.fileSize % blockSize = file.fileSize := by omega
  rw [hsize] at hcontent hle
  exact ⟨hcontent, hle⟩

theorem File.content_blocks (f : File D img blockSize file) (hfrag : f.fragment = none) :
    f.content = f.blocks.flatten := by
  have hcontent := f.content_eq
  rw [hfrag, tailOf, List.append_nil] at hcontent
  exact hcontent

theorem File.takenFrom_fragment (f : File D img blockSize file)
    {frag : Fragment D img file.fragIdx} (hfrag : f.fragment = some frag) (hidx : file.fragIdx = 0)
    (hsizes : f.sizes = [])
    (hindex : img.uncompressedFragments = true ∨
      ∀ table ∈ img.fragmentTable, D table = .error .err)
    (hstored : 2 ≤ frag.size % 2 ^ 24) : TakenFrom p f frag.data := by
  obtain ⟨hcontent, hle⟩ := f.content_fragment hfrag hsizes
  refine ⟨?_, hcontent, hle⟩
  have hdata : fragmentData p D img file = .ok frag.data := by
    obtain ⟨frag₀, hdata₀, hsize₀⟩ : ∃ frag₀ : Fragment D img 0, frag₀.data = frag.data ∧
        frag₀.size = frag.size := hidx ▸ ⟨frag, rfl, rfl⟩
    rw [← hdata₀]
    exact frag₀.fragmentData hidx hindex (by rw [hsize₀]; exact hstored)
  rw [if_neg (by rw [hidx]; norm_num), hdata]

theorem Image.length_dataTable (img : Image) :
    img.dataTable.length = img.inodeTable - superblockSize := by
  simp [Image.dataTable, Image.bytes]

theorem File.takenFrom_plain (f : File D img blockSize file) (hfrag : f.fragment = none)
    (hstart : file.blockStart = superblockSize)
    (hflag : img.uncompressedDataBlocks = true ∨ D img.dataTable = .error .err)
    (hplain : ∀ s ∈ f.sizes, 2 ^ 24 ≤ s) (htable : superblockSize + 2 ≤ img.inodeTable) :
    TakenFrom p f img.dataTable := by
  have hcontent := f.content_blocks hfrag
  have hblocks := f.dataBlocks.flatten_eq hplain
  have hend := f.dataEnd_le hfrag
  have hlength := f.content_length
  have hzero := f.blockOffset_none hfrag
  rw [hcontent, hblocks] at hlength
  simp only [Image.bytes, length_window] at hlength
  rw [hstart, hlength] at hend
  have hlong := img.length_dataTable
  refine ⟨?_, ?_, by omega⟩
  · rw [if_pos (f.fragment_none.mp hfrag)]
    cases hblocks : img.uncompressedDataBlocks with
    | true => exact getDecompressedTable_plain (by omega)
    | false =>
      have herr := hflag.resolve_left (by rw [hblocks]; decide)
      exact getDecompressedTable_of_err (by omega) herr
  · rw [hcontent, hblocks, hstart, hlength, hzero, List.drop_zero]
    exact (take_window img.memory (by omega)).symm

theorem File.takenFrom_first (f : File D img blockSize file) {size : ℕ} (hfrag : f.fragment = none)
    (hstart : file.blockStart = superblockSize) (hflag : img.uncompressedDataBlocks = false)
    (hsizes : f.sizes = [size]) (hne : size ≠ 0) (hlt : size < 2 ^ 24)
    (hstream : D img.dataTable = D (img.bytes superblockSize size))
    (htable : superblockSize + 2 ≤ img.inodeTable) : TakenFrom p f f.content := by
  have hzero := f.blockOffset_none hfrag
  have hlength := f.content_length
  have hblocks := f.dataBlocks
  rw [hsizes, hstart] at hblocks
  obtain ⟨data, hdata, hblock⟩ := hblocks.eq_singleton hne
  have hdec := hblock.decodes
  rw [if_pos hlt, ← hstream] at hdec
  have hcontent : f.content = data := by
    rw [f.content_blocks hfrag, hdata, List.flatten_cons, List.flatten_nil, List.append_nil]
  refine ⟨?_, ?_, by omega⟩
  · rw [if_pos (f.fragment_none.mp hfrag), hflag, hcontent]
    exact getDecompressedTable_of_ok (by rw [img.length_dataTable]; omega) hdec
  · rw [hzero, List.drop_zero, List.take_of_length_le hlength.le]

/-- A part of a file that is served. -/
theorem File.Served.read {f : File D img blockSize file} (h : f.Served) {count offset : ℕ}
    (hoffset : offset < file.fileSize) (hle : offset + count ≤ file.fileSize) :
    file.read p D img count offset = .ok ((f.content.drop offset).take count) := by
  obtain ⟨table, htaken⟩ : ∃ table, TakenFrom p f table := by
    cases h with
    | empty hsize => exact absurd hsize (Nat.ne_zero_of_lt hoffset)
    | fragment frag hfrag hidx hsizes hindex hstored =>
      exact ⟨_, f.takenFrom_fragment hfrag hidx hsizes hindex hstored⟩
    | plain hfrag hstart hflag hplain htable =>
      exact ⟨_, f.takenFrom_plain hfrag hstart hflag hplain htable⟩
    | first size hfrag hstart hflag hsizes hne hlt hstream htable =>
      exact ⟨_, f.takenFrom_first hfrag hstart hflag hsizes hne hlt hstream htable⟩
  exact htaken.read hle

/-- The files that are served are read right. -/
theorem reads_of_served (f : File D img blockSize file) (h : f.Served) :
    Reads p D img file f.content :=
  fun _ _ hoffset hle => h.read hoffset hle

end Read

/-! ## An image with two fragments -/

/-- The two entries of the fragment table; both fragments are stored as they are. -/
def twoEntries : MetaBlock fun _ => .error .err :=
  storedBlock _ (leBytes 8 96 ++ leBytes 8 0x1000002 ++ leBytes 8 98 ++ leBytes 8 0x1000002)
    (by decide) (by decide)

/-- The fragments at byte 96, their entries at 200, the index of the table at 240. -/
def twoFragments : Image where
  start := 0
  memory a :=
    if a < 200 then [0x61, 0x61, 0x62, 0x62].getD (a - 96) 0
    else if a < 240 then twoEntries.encode.data.getD (a - 200) 0
    else (leBytes 8 200).getD (a - 240) 0
  inodeTable := 100
  fragTable := some (240, 248)
  uncompressedDataBlocks := true
  uncompressedFragments := true

/-- A file of two bytes, in fragment `i`. -/
def twoFile (i : ℕ) : BasicFileInode := ⟨⟨.basicFile, 0, 1⟩, 0, i, 0, 2⟩

/-- Fragment `i`, where both the entry and the bytes are those of the format. -/
def twoFragment (i start : ℕ) (data : List Byte) (hi : i / 512 = 0)
    (hstart : leAt twoEntries.payload (16 * (i % 512)) 8 = .ok start)
    (hsize : leAt twoEntries.payload (16 * (i % 512) + 8) 4 = .ok 0x1000002)
    (hlt : start < wordSize) (hdata : twoFragments.bytes start 2 = data) :
    Fragment (fun _ => .error .err) twoFragments i where
  table := (240, 248)
  pointer := 200
  block := twoEntries
  start := start
  size := 0x1000002
  data := data
  table_eq := rfl
  table_le := by
    rw [hi]
    decide
  pointer_eq := by
    rw [hi]
    decide
  pointer_lt := by decide
  block_eq := by decide
  start_eq := hstart
  start_lt := by
    rw [show twoFragments.start = 0 from rfl, Nat.zero_add]
    exact hlt
  size_eq := hsize
  data_eq := ⟨by decide, congrArg Except.ok hdata⟩

/-- The file of two bytes, all of it in its fragment. -/
def File.ofFragment {i : ℕ} (f : Fragment (fun _ => .error .err) twoFragments i)
    (hi : i ≠ 0xFFFFFFFF) (hlen : f.data.length = 2) :
    File (fun _ => .error .err) twoFragments 131072 (twoFile i) where
  sizes := []
  blocks := []
  fragment := some f
  content := f.data
  dataBlocks := .nil _
  fragment_none := iff_of_false (Option.some_ne_none f) hi
  fragment_le := by
    intro g hg
    obtain rfl := Option.some.inj hg
    exact hlen.ge
  content_eq := (List.take_of_length_le hlen.le).symm
  content_length := hlen
  sizes_length := show 0 = 2 / 131072 by norm_num
  blockOffset_none := fun h => absurd h (Option.some_ne_none f)
  blockOffset_lt := show 0 < 2 ^ 32 by norm_num
  fileSize_lt := show 2 < 2 ^ 32 by norm_num
  dataEnd_le := fun h => absurd h (Option.some_ne_none f)

def firstFragment : Fragment (fun _ => .error .err) twoFragments 0 :=
  twoFragment 0 96 [0x61, 0x61] rfl rfl rfl (by decide) rfl

def twoFirst : File (fun _ => .error .err) twoFragments 131072 (twoFile 0) :=
  .ofFragment firstFragment (by decide) rfl

def twoSecond : File (fun _ => .error .err) twoFragments 131072 (twoFile 1) :=
  .ofFragment (twoFragment 1 98 [0x62, 0x62] rfl rfl rfl (by decide) rfl) (by decide) rfl

/-- The file in fragment 0 is read. -/
theorem reads_twoFirst :
    Reads .release (fun _ => .error .err) twoFragments (twoFile 0) [0x61, 0x61] :=
  reads_of_served twoFirst (.fragment firstFragment rfl rfl rfl (.inl rfl) (by decide))

/-- The file in fragment 1 is not: its index is taken for a byte offset into the table. -/
theorem not_reads_twoSecond :
    ¬ Reads .release (fun _ => .error .err) twoFragments (twoFile 1) twoSecond.content := by
  intro h
  have hread := h 0 2 (by decide) (by decide)
  have hpanic : (twoFile 1).read .release (fun _ => .error .err) twoFragments 2 0 =
      .error (.panic .bounds) := rfl
  rw [hpanic] at hread
  cases hread

end CappuccinOS.Squashfs
