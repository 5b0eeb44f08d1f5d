import CappuccinOS.Squashfs.Directory
import CappuccinOS.Squashfs.Split
import CappuccinOS.Squashfs.Superblock

/-!
# Opening an image (`Squashfs::new`)

The superblock says where the tables of an image start; a table is taken to end where the next one
starts. The inode table and the directory table are sequences of metadata blocks. The other four
are found through an index, and their metadata blocks stand in front of it, so that what
`Squashfs::new` takes for one table ends with the metadata blocks of the next.

1. `Squashfs` and `Squashfs::new`;
2. `new_lossless`: whatever is opened, the superblock and the tables put together are the image;
3. `Archive`, an image by the format, and `opened_archive`: its tables come back.
-/

namespace CappuccinOS

/-! ## The code -/

open Squashfs in
/-- `Squashfs`, less the decompressor. -/
structure Squashfs where
  superblock : SquashfsSuperblock
  start : ℕ
  dataTable : List Byte
  inodeTable : List Chunk
  directoryTable : List Chunk
  fragmentTable : Option (List Byte)
  exportTable : Option (List Byte)
  idTable : List Byte
  xattrTable : Option (List Byte)

namespace Squashfs

inductive Table
  | inode
  | dir
  | frag
  | exports
  | id
  | xattr
  deriving DecidableEq, Repr

/-- `u64::MAX` in place of an offset: there is no such table. -/
abbrev noTable : ℕ := 2 ^ 64 - 1

/-- The tables of an image and the offsets at which they start. -/
def SquashfsSuperblock.tables (superblock : SquashfsSuperblock) : List (Table × ℕ) :=
  [(.inode, superblock.inodeTable), (.dir, superblock.dirTable)] ++
    (if superblock.fragTable ≠ noTable then [(.frag, superblock.fragTable)] else []) ++
    (if superblock.exportTable ≠ noTable then [(.exports, superblock.exportTable)] else []) ++
    [(.id, superblock.idTable)] ++
    (if superblock.xattrTable ≠ noTable then [(.xattr, superblock.xattrTable)] else [])

/-- The variables that the loop of `Squashfs::new` fills. -/
structure Filled where
  inodeTable : Option (List Chunk)
  directoryTable : Option (List Chunk)
  fragmentTable : Option (List Byte)
  exportTable : Option (List Byte)
  idTable : List Byte
  xattrTable : Option (List Byte)

/-- Nothing is filled. -/
def Filled.init : Filled := ⟨none, none, none, none, [], none⟩

/-- A turn of the loop, from the bytes of the table on. -/
def Filled.store (filled : Filled) (wholeTable : List Byte) : Table → Except Fault Filled
  | .inode => do
    let reader ← ChunkReader.new wholeTable
    .ok { filled with inodeTable := some reader }
  | .dir => do
    let reader ← ChunkReader.new wholeTable
    .ok { filled with directoryTable := some reader }
  | .frag => .ok { filled with fragmentTable := some wholeTable }
  | .exports => .ok { filled with exportTable := some wholeTable }
  | .id => .ok { filled with idTable := wholeTable }
  | .xattr => .ok { filled with xattrTable := some wholeTable }

/-- Where a table ends, by the tables behind it. -/
def tableEnd (squashfsData : List Byte) : List (Table × ℕ) → ℕ
  | [] => squashfsData.length
  | (_, next) :: _ => next

/-- The loop of `Squashfs::new`. -/
def fill (squashfsData : List Byte) : List (Table × ℕ) → Filled → Except Fault Filled
  | [], filled => .ok filled
  | (table, offset) :: tables, filled => do
    let wholeTable ← slice squashfsData offset (tableEnd squashfsData tables)
    let filled ← filled.store wholeTable table
    fill squashfsData tables filled

def new (memory : ℕ → Byte) (ptr : ℕ) : Except Fault Squashfs := do
  let length := leNat (window memory (ptr + 40) 8)
  let squashfsData := window memory ptr length
  let superblock ← SquashfsSuperblock.new squashfsData
  if superblock.compressor ≠ .gzip then .error (.panic .assertion)
  else do
    let dataTable ← slice squashfsData superblockSize superblock.inodeTable
    let filled ← fill squashfsData superblock.tables .init
    -- the first two tables are always there, so that `assume_init` is right
    match filled.inodeTable, filled.directoryTable with
    | some inodeTable, some directoryTable =>
      .ok { superblock := superblock, start := ptr, dataTable := dataTable, inodeTable := inodeTable
            directoryTable := directoryTable, fragmentTable := filled.fragmentTable
            exportTable := filled.exportTable, idTable := filled.idTable
            xattrTable := filled.xattrTable }
    | _, _ => .error (.panic .unwrap)

/-! ## Nothing is lost -/

/-- The place of a table among the six. -/
def Table.rank : Table → ℕ
  | .inode => 0
  | .dir => 1
  | .frag => 2
  | .exports => 3
  | .id => 4
  | .xattr => 5

/-- The bytes of the blocks of a reader. -/
def chunkBytes (chunks : List Chunk) : List Byte := (chunks.map Chunk.data).flatten

namespace Filled

/-- What has been filled, put together. -/
def bytes (filled : Filled) : List Byte :=
  (filled.inodeTable.map chunkBytes).getD [] ++ ((filled.directoryTable.map chunkBytes).getD [] ++
    (filled.fragmentTable.getD [] ++ (filled.exportTable.getD [] ++ (filled.idTable ++
      filled.xattrTable.getD []))))

/-- The tables from the `k`-th on have not been filled. -/
structure EmptyFrom (k : ℕ) (filled : Filled) : Prop where
  inode : k ≤ 0 → filled.inodeTable = none
  dir : k ≤ 1 → filled.directoryTable = none
  frag : k ≤ 2 → filled.fragmentTable = none
  exports : k ≤ 3 → filled.exportTable = none
  id : k ≤ 4 → filled.idTable = []
  xattr : k ≤ 5 → filled.xattrTable = none

theorem EmptyFrom.mono {filled : Filled} {k m : ℕ} (h : filled.EmptyFrom k) (hkm : k ≤ m) :
    filled.EmptyFrom m :=
  ⟨fun hm => h.inode (by omega), fun hm => h.dir (by omega), fun hm => h.frag (by omega),
    fun hm => h.exports (by omega), fun hm => h.id (by omega), fun hm => h.xattr (by omega)⟩

theorem emptyFrom_init : init.EmptyFrom 0 :=
  ⟨fun _ => rfl, fun _ => rfl, fun _ => rfl, fun _ => rfl, fun _ => rfl, fun _ => rfl⟩

/-- A table that is stored in its turn goes behind what there is. -/
theorem bytes_store {filled filled' : Filled} {wholeTable : List Byte} {table : Table}
    (hempty : filled.EmptyFrom table.rank) (h : filled.store wholeTable table = .ok filled') :
    filled'.bytes = filled.bytes ++ wholeTable ∧ filled'.EmptyFrom (table.rank + 1) := by
  obtain ⟨hinode, hdir, hfrag, hexports, hid, hxattr⟩ := hempty
  cases table
  case inode | dir =>
    obtain ⟨chunks, hnew, h⟩ := bind_eq_ok.mp h
    obtain rfl := Except.ok.inj h
    have hbytes : chunkBytes chunks = wholeTable := flatten_of_new hnew
    simp only [Table.rank] at *
    exact ⟨by simp_all [bytes], by constructor <;> simp_all⟩
  case frag | exports | id | xattr =>
    obtain rfl := Except.ok.inj h
    simp only [Table.rank] at *
    exact ⟨by simp_all [bytes], by constructor <;> simp_all⟩

end Filled

/-- Tables in their order, each behind those before. -/
def Ordered (k : ℕ) : List (Table × ℕ) → Prop
  | [] => True
  | (table, _) :: tables => k ≤ table.rank ∧ Ordered (table.rank + 1) tables

theorem ordered_tables (superblock : SquashfsSuperblock) : Ordered 0 superblock.tables := by
  unfold SquashfsSuperblock.tables
  split_ifs <;> simp [Ordered, Table.rank]

/-- What the loop fills, it takes from the image without a gap. -/
theorem bytes_fill {squashfsData : List Byte} {tables : List (Table × ℕ)} {filled filled' : Filled}
    {k : ℕ} (hordered : Ordered k tables) (hempty : filled.EmptyFrom k)
    (h : fill squashfsData tables filled = .ok filled') :
    filled'.bytes = filled.bytes ++ squashfsData.drop (tableEnd squashfsData tables) := by
  induction tables generalizing filled k with
  | nil =>
    obtain rfl := Except.ok.inj h
    rw [tableEnd, List.drop_length, List.append_nil]
  | cons entry tables ih =>
    obtain ⟨table, offset⟩ := entry
    obtain ⟨hk, hordered⟩ := hordered
    rw [fill] at h
    obtain ⟨wholeTable, hslice, hturn⟩ := bind_eq_ok.mp h
    obtain ⟨stored, hstore, hrest⟩ := bind_eq_ok.mp hturn
    obtain ⟨hbytes, hempty'⟩ := Filled.bytes_store (hempty.mono hk) hstore
    unfold slice at hslice
    split_ifs at hslice with hrange
    obtain rfl := Except.ok.inj hslice
    have hsplit := List.take_append_drop (tableEnd squashfsData tables - offset)
      (squashfsData.drop offset)
    rw [List.drop_drop, Nat.add_sub_cancel' hrange.1] at hsplit
    rw [ih hordered hempty' hrest, hbytes, List.append_assoc, hsplit]
    rfl

/-- What `Squashfs` holds of the tables, put together. -/
def bytes (fs : Squashfs) : List Byte :=
  fs.dataTable ++ (chunkBytes fs.inodeTable ++ (chunkBytes fs.directoryTable ++
    (fs.fragmentTable.getD [] ++ (fs.exportTable.getD [] ++ (fs.idTable ++
      fs.xattrTable.getD [])))))

/-- The length that is read first is that of the superblock. -/
theorem length_eq {memory : ℕ → Byte} {ptr n : ℕ} {superblock : SquashfsSuperblock}
    {rest : List Byte}
    (hfits : Record.Fits superblock.fields)
    (h : superblock.encode ++ rest = window memory ptr n) :
    leNat (window memory (ptr + 40) 8) = superblock.bytesUsed := by
  have hlong := congrArg List.length h
  rw [List.length_append, SquashfsSuperblock.length_encode, length_window] at hlong
  have hle : 8 ≤ n - 40 := by
    rw [← hlong, superblockSize]
    omega
  have hread := superblock.bytesUsed_encode hfits rest
  rwa [h, drop_window, take_window memory hle] at hread

/-- Whatever image is opened: its superblock is valid, and superblock and tables put together are
the image, as long as the image says of itself. -/
theorem opened_lossless {memory : ℕ → Byte} {ptr : ℕ} {fs : Squashfs}
    (h : Squashfs.new memory ptr = .ok fs) :
    fs.start = ptr ∧ fs.superblock.Valid ∧ fs.superblock.compressor = .gzip ∧
      window memory ptr fs.superblock.bytesUsed = fs.superblock.encode ++ fs.bytes := by
  unfold Squashfs.new at h
  obtain ⟨superblock, hsuper, h⟩ := bind_eq_ok.mp h
  obtain ⟨hfits, hvalid, rest, hrest⟩ := SquashfsSuperblock.new_ok_iff.mp hsuper
  clear hsuper
  split_ifs at h with hgzip
  obtain ⟨dataTable, hdata, h⟩ := bind_eq_ok.mp h
  obtain ⟨filled, hfill, h⟩ := bind_eq_ok.mp h
  have hbytes := bytes_fill (ordered_tables superblock) Filled.emptyFrom_init hfill
  clear hfill
  rw [length_eq hfits hrest] at hrest hdata hbytes
  -- the data table ends where the first table starts
  have hend : tableEnd (window memory ptr superblock.bytesUsed) superblock.tables =
      superblock.inodeTable := rfl
  have hinit : Filled.init.bytes = [] := rfl
  rw [hend, hinit, List.nil_append] at hbytes
  unfold slice at hdata
  split_ifs at hdata with hrange
  obtain rfl := Except.ok.inj hdata
  have hsplit := List.take_append_drop (superblock.inodeTable - superblockSize)
    ((window memory ptr superblock.bytesUsed).drop superblockSize)
  rw [List.drop_drop, Nat.add_sub_cancel' hrange.1, ← hbytes] at hsplit
  have hbehind : (window memory ptr superblock.bytesUsed).drop superblockSize = rest := by
    rw [← hrest, List.drop_left' superblock.length_encode]
  rcases hinode : filled.inodeTable with - | inodeTable
  · rw [hinode] at h; cases h
  rcases hdir : filled.directoryTable with - | directoryTable
  · rw [hinode, hdir] at h; cases h
  rw [hinode, hdir] at h
  obtain rfl := Except.ok.inj h
  refine ⟨rfl, hvalid, not_not.mp hgzip, ?_⟩
  rw [Filled.bytes, hinode, hdir, Option.map_some, Option.map_some, Option.getD_some,
    Option.getD_some] at hsplit
  exact hrest.symm.trans (congrArg (superblock.encode ++ ·) (hbehind.symm.trans hsplit.symm))

/-! ## Tables behind their blocks -/

/-- A table of the image: what stands in front of its offset, and what from there on is its own. -/
structure Segment where
  table : Table
  gap : List Byte
  body : List Byte

def Segment.bytes (s : Segment) : List Byte := s.gap ++ s.body

/-- The offsets of tables that follow each other from byte `start` on. -/
def offsets : ℕ → List Segment → List (Table × ℕ)
  | _, [] => []
  | start, s :: segments =>
    (s.table, start + s.gap.length) :: offsets (start + s.bytes.length) segments

/-- What stands between the offset of a table and the next one. -/
def regions : List Segment → List (Table × List Byte)
  | [] => []
  | s :: segments => (s.table, s.body ++ (segments.head?.map Segment.gap).getD []) ::
    regions segments

/-- The turns of the loop, from the bytes of the tables on. -/
def storeAll : List (Table × List Byte) → Filled → Except Fault Filled
  | [], filled => .ok filled
  | (table, wholeTable) :: tables, filled => do
    let filled ← filled.store wholeTable table
    storeAll tables filled

theorem tableEnd_offsets (before : List Byte) (s : Segment) (segments : List Segment) :
    tableEnd (before ++ (s :: segments).flatMap Segment.bytes)
        (offsets (before ++ s.bytes).length segments) =
      (before ++ s.bytes).length + ((segments.head?.map Segment.gap).getD []).length := by
  cases segments with
  | nil => simp [offsets, tableEnd]
  | cons t segments => rfl

theorem fill_offsets (before : List Byte) (segments : List Segment) (filled : Filled) :
    fill (before ++ segments.flatMap Segment.bytes) (offsets before.length segments) filled =
      storeAll (regions segments) filled := by
  induction segments generalizing before filled with
  | nil => rfl
  | cons s segments ih =>
    have hbytes : before ++ (s :: segments).flatMap Segment.bytes =
        (before ++ s.bytes) ++ segments.flatMap Segment.bytes := by simp
    have hlength : before.length + s.bytes.length = (before ++ s.bytes).length :=
      List.length_append.symm
    have hgap : ((segments.head?.map Segment.gap).getD []) <+: segments.flatMap Segment.bytes := by
      cases segments with
      | nil => exact List.nil_prefix
      | cons t segments => exact ⟨t.body ++ segments.flatMap Segment.bytes, by simp [Segment.bytes]⟩
    obtain ⟨rest, hrest⟩ := hgap
    have hslice : slice (before ++ (s :: segments).flatMap Segment.bytes)
        (before.length + s.gap.length)
        (tableEnd (before ++ (s :: segments).flatMap Segment.bytes)
          (offsets (before.length + s.bytes.length) segments)) =
        .ok (s.body ++ (segments.head?.map Segment.gap).getD []) := by
      rw [hlength, tableEnd_offsets, hbytes, ← hrest]
      have hsplit : before ++ s.bytes ++ ((segments.head?.map Segment.gap).getD [] ++ rest) =
          (before ++ s.gap) ++ ((s.body ++ (segments.head?.map Segment.gap).getD []) ++ rest) := by
        simp [Segment.bytes]
      rw [hsplit, slice_of_le (by simp [Segment.bytes]; omega) (by simp [Segment.bytes]; omega),
        List.drop_left' List.length_append, List.take_left' (by simp [Segment.bytes]; omega)]
    rw [offsets, fill, hslice, regions, storeAll]
    simp only [bind, Except.bind]
    cases filled.store (s.body ++ (segments.head?.map Segment.gap).getD []) s.table with
    | error e => rfl
    | ok stored =>
      simp only
      rw [hbytes, hlength]
      exact ih _ stored

/-! ## Archives -/

/-- A table that is found through an index: its metadata blocks, and behind them the index, which
the superblock points at. -/
structure LookupTable (D : Decompressor) where
  blocks : List (MetaBlock D)
  index : List Byte

def LookupTable.segment {D : Decompressor} (t : LookupTable D) (table : Table) : Segment :=
  ⟨table, encode t.blocks, t.index⟩

/-- What an image of SquashFS 4.0 holds, in its order; some of the tables may be missing. -/
structure Contents (D : Decompressor) where
  inodeCount : UInt32
  modTime : UInt32
  fragCount : UInt32
  blockLog : Fin 21
  flags : UInt16
  idCount : UInt16
  rootInode : UInt64
  data : List Byte
  inodes : List (MetaBlock D)
  dirs : List (MetaBlock D)
  frags : Option (LookupTable D)
  exports : Option (LookupTable D)
  ids : LookupTable D
  xattrs : Option (LookupTable D)

namespace Contents

variable {D : Decompressor} (a : Contents D)

/-- The tables that are found through an index. -/
def lookups : List Segment :=
  (a.frags.map (·.segment .frag)).toList ++ ((a.exports.map (·.segment .exports)).toList ++
    (a.ids.segment .id :: (a.xattrs.map (·.segment .xattr)).toList))

def segments : List Segment :=
  ⟨.inode, a.data, encode a.inodes⟩ :: ⟨.dir, [], encode a.dirs⟩ :: a.lookups

/-- Where a table starts. -/
def offset (table : Table) : ℕ := ((offsets superblockSize a.segments).lookup table).getD noTable

/-- The length of the image. -/
def size : ℕ := superblockSize + (a.segments.flatMap Segment.bytes).length

def superblock : SquashfsSuperblock where
  magic := 0x73717368
  inodeCount := a.inodeCount.toNat
  modTime := a.modTime.toNat
  blockSize := 2 ^ (a.blockLog : ℕ)
  fragCount := a.fragCount.toNat
  compressor := .gzip
  blockLog := a.blockLog
  flags := a.flags.toNat
  idCount := a.idCount.toNat
  verMajor := 4
  verMinor := 0
  rootInode := a.rootInode.toNat
  bytesUsed := a.size
  idTable := a.offset .id
  xattrTable := a.offset .xattr
  inodeTable := a.offset .inode
  dirTable := a.offset .dir
  fragTable := a.offset .frag
  exportTable := a.offset .exports

/-- The bytes of the image. -/
def bytes : List Byte := a.superblock.encode ++ a.segments.flatMap Segment.bytes

/-- The metadata blocks in front of the next index, by the table they are behind. -/
def blocksBehind : Table → List (MetaBlock D)
  | .dir => ((a.frags.or a.exports).getD a.ids).blocks
  | .frag => (a.exports.getD a.ids).blocks
  | .exports => a.ids.blocks
  | .id => (a.xattrs.map LookupTable.blocks).getD []
  | _ => []

/-- What `Squashfs::new` is to make of the image. -/
def mounted (ptr : ℕ) : Squashfs where
  superblock := a.superblock
  start := ptr
  dataTable := a.data
  inodeTable := fresh a.inodes
  directoryTable := fresh (a.dirs ++ a.blocksBehind .dir)
  fragmentTable := a.frags.map fun t => t.index ++ encode (a.blocksBehind .frag)
  exportTable := a.exports.map fun t => t.index ++ encode (a.blocksBehind .exports)
  idTable := a.ids.index ++ encode (a.blocksBehind .id)
  xattrTable := a.xattrs.map LookupTable.index

end Contents

/-- An image that Rust can hold in a slice. -/
structure Archive (D : Decompressor) extends Contents D where
  size_lt : toContents.size < 2 ^ 63

theorem encode_append {D : Decompressor} (blocks blocks' : List (MetaBlock D)) :
    encode (blocks ++ blocks') = encode blocks ++ encode blocks' := List.flatMap_append

namespace Contents

variable {D : Decompressor} (a : Contents D)

theorem storeAll_regions : ∃ filled, storeAll (regions a.segments) .init = .ok filled ∧
    filled.inodeTable = some (fresh a.inodes) ∧
    filled.directoryTable = some (fresh (a.dirs ++ a.blocksBehind .dir)) ∧
    filled.fragmentTable = (a.frags.map fun t => t.index ++ encode (a.blocksBehind .frag)) ∧
    filled.exportTable = (a.exports.map fun t => t.index ++ encode (a.blocksBehind .exports)) ∧
    filled.idTable = a.ids.index ++ encode (a.blocksBehind .id) ∧
    filled.xattrTable = a.xattrs.map LookupTable.index := by
  have hinodes := new_encode a.inodes
  have hdirs := new_encode (a.dirs ++ a.blocksBehind .dir)
  have hnil : encode ([] : List (MetaBlock D)) = [] := rfl
  rw [encode_append] at hdirs
  -- each of the three tables may be missing
  rcases hf : a.frags with - | f <;> rcases he : a.exports with - | e <;>
    rcases hx : a.xattrs with - | x <;>
    simp [blocksBehind, hf, he] at hdirs <;>
    simp [segments, lookups, regions, storeAll, Filled.store, LookupTable.segment, blocksBehind, hf,
      he, hx, bind, Except.bind, hinodes, hdirs, hnil, Filled.init]

theorem le_of_mem_offsets {start : ℕ} {segments : List Segment} {entry : Table × ℕ}
    (h : entry ∈ offsets start segments) :
    start ≤ entry.2 ∧ entry.2 ≤ start + (segments.flatMap Segment.bytes).length := by
  induction segments generalizing start with
  | nil => cases h
  | cons s segments ih =>
    have hbytes : s.bytes.length = s.gap.length + s.body.length := List.length_append
    rw [List.flatMap_cons, List.length_append, hbytes]
    rcases List.mem_cons.mp h with rfl | hmem
    · exact ⟨Nat.le_add_right _ _, by simp only; omega⟩
    · obtain ⟨hle, hge⟩ := ih hmem
      omega

theorem offset_le (h : a.size < 2 ^ 63) (table : Table) : a.offset table ≤ noTable := by
  unfold offset
  rcases hlookup : (offsets superblockSize a.segments).lookup table with - | o
  · exact le_rfl
  · obtain ⟨before, after, heq, -⟩ := List.lookup_eq_some_iff.mp hlookup
    have hmem : (table, o) ∈ offsets superblockSize a.segments := by rw [heq]; simp
    obtain ⟨-, hle⟩ := le_of_mem_offsets hmem
    unfold size at h
    unfold noTable
    rw [Option.getD_some]
    omega

theorem tables_superblock (h : a.size < 2 ^ 63) :
    a.superblock.tables = offsets superblockSize a.segments := by
  have hne : ∀ entry ∈ offsets superblockSize a.segments, entry.2 ≠ noTable := by
    intro entry hentry
    obtain ⟨-, hle⟩ := le_of_mem_offsets hentry
    unfold size at h
    unfold noTable
    omega
  clear h
  unfold SquashfsSuperblock.tables
  simp only [superblock]
  unfold offset
  rcases hf : a.frags with - | f <;> rcases he : a.exports with - | e <;>
    rcases hx : a.xattrs with - | x <;>
    simp_all [segments, lookups, LookupTable.segment, offsets, List.lookup, beq_eq_decide]

theorem fits_superblock (h : a.size < 2 ^ 63) : Record.Fits a.superblock.fields := by
  have hlog : 2 ^ (a.blockLog : ℕ) ≤ 2 ^ 20 :=
    Nat.pow_le_pow_right (by norm_num) (Nat.le_of_lt_succ a.blockLog.isLt)
  have hoffset : ∀ table, a.offset table < 256 ^ 8 := fun table =>
    lt_of_le_of_lt (a.offset_le h table) (by norm_num)
  have hlog' := a.blockLog.isLt
  have hshort : ∀ v : UInt16, v.toNat < 256 ^ 2 := fun v => v.toNat_lt
  have hword : ∀ v : UInt32, v.toNat < 256 ^ 4 := fun v => v.toNat_lt
  have hlong : ∀ v : UInt64, v.toNat < 256 ^ 8 := fun v => v.toNat_lt
  have hsize : a.size < 256 ^ 8 := h.trans (by norm_num)
  unfold Record.Fits
  simp only [SquashfsSuperblock.fields, superblock, List.forall_mem_cons]
  exact ⟨by norm_num, hword _, hword _, lt_of_le_of_lt hlog (by norm_num), hword _,
    by norm_num [SquashfsCompressionType.toNat], by omega, hshort _, hshort _, by norm_num,
    by norm_num, hlong _, hsize, hoffset _, hoffset _, hoffset _, hoffset _, hoffset _, hoffset _,
    by simp⟩

theorem valid_superblock : a.superblock.Valid :=
  ⟨rfl, rfl, rfl, Nat.le_of_lt_succ a.blockLog.isLt, rfl⟩

theorem length_bytes : a.bytes.length = a.size := by
  rw [bytes, List.length_append, SquashfsSuperblock.length_encode]
  rfl

end Contents

/-- An image that was laid out by the format is opened, and its tables come back. -/
theorem opened_archive {D : Decompressor} (a : Archive D) {memory : ℕ → Byte} {ptr : ℕ}
    (hmem : window memory ptr a.bytes.length = a.bytes) :
    Squashfs.new memory ptr = .ok (a.mounted ptr) := by
  have hfits := a.fits_superblock a.size_lt
  have hlength : leNat (window memory (ptr + 40) 8) = a.size := length_eq hfits hmem.symm
  have hsuper : SquashfsSuperblock.new a.bytes = .ok a.superblock :=
    SquashfsSuperblock.new_ok_iff.mpr ⟨hfits, a.valid_superblock, List.prefix_append _ _⟩
  have hdata : slice a.bytes superblockSize a.superblock.inodeTable = .ok a.data := by
    have hstart : a.superblock.inodeTable = superblockSize + a.data.length := rfl
    have hhead : a.bytes = a.superblock.encode ++
        (a.data ++ (encode a.inodes ++ (a.segments.drop 1).flatMap Segment.bytes)) := by
      simp [Contents.bytes, Contents.segments, Segment.bytes]
    rw [hstart, hhead, slice_of_le (Nat.le_add_right _ _)
        (by simp [SquashfsSuperblock.length_encode]),
      List.drop_left' (SquashfsSuperblock.length_encode _), Nat.add_sub_cancel_left,
      List.take_left' rfl]
  have hfill := fill_offsets a.superblock.encode a.segments .init
  obtain ⟨filled, hstore, hinodes, hdirs, hfrags, hexports, hids, hxattrs⟩ := a.storeAll_regions
  rw [SquashfsSuperblock.length_encode, ← a.tables_superblock a.size_lt, hstore] at hfill
  have hgzip : a.superblock.compressor = .gzip := rfl
  unfold Squashfs.new
  simp only [hlength, ← a.length_bytes, hmem, hsuper, bind, Except.bind, hdata, hgzip, ne_eq,
    not_true_eq_false, if_false]
  rw [Contents.bytes, hfill]
  simp only [hinodes, hdirs, hfrags, hexports, hids, hxattrs]
  rfl

/-- Opening loses nothing of any image, and finds the tables of every image laid out by the format,
each with the metadata blocks in front of the next index behind it. -/
theorem open_exact (memory : ℕ → Byte) (ptr : ℕ) :
    (∀ fs, Squashfs.new memory ptr = .ok fs →
      fs.start = ptr ∧ fs.superblock.Valid ∧ fs.superblock.compressor = .gzip ∧
        window memory ptr fs.superblock.bytesUsed = fs.superblock.encode ++ fs.bytes) ∧
    ∀ (D : Decompressor) (a : Archive D), window memory ptr a.bytes.length = a.bytes →
      Squashfs.new memory ptr = .ok (a.mounted ptr) :=
  ⟨fun _ => opened_lossless, fun _ a => opened_archive a⟩

/-! ## An image -/

/-- A memory with these bytes from `ptr` on. -/
def loadedAt (bytes : List Byte) (ptr : ℕ) (address : ℕ) : Byte := bytes.getD (address - ptr) 0

theorem window_loadedAt (bytes : List Byte) (ptr : ℕ) :
    window (loadedAt bytes ptr) ptr bytes.length = bytes := by
  apply List.ext_getElem
  · exact length_window _ _ _
  · intro i hi hi'
    simp [window, loadedAt, hi']

/-- The inode of a file with two bytes in one data block, and then that of its directory. -/
def oneInodes : List Byte :=
  leBytes 2 2 ++ List.replicate 10 0 ++ leBytes 4 2 ++ leBytes 4 96 ++ leBytes 4 0xFFFFFFFF ++
    leBytes 4 0 ++ leBytes 4 2 ++ leBytes 4 (2 ^ 24 + 2) ++
  (leBytes 2 1 ++ List.replicate 10 0 ++ leBytes 4 1 ++ leBytes 4 0 ++ leBytes 4 2 ++
    leBytes 2 24 ++ leBytes 2 0 ++ leBytes 4 1)

/-- An image with the file `a`, no fragments, and an export table. -/
def oneArchive : Archive fun _ => .error .err where
  inodeCount := 2
  modTime := 0
  fragCount := 0
  blockLog := 17
  flags := 0x2
  idCount := 1
  rootInode := 36
  data := [0x68, 0x69]
  inodes := [storedBlock _ oneInodes (by decide) (by decide)]
  dirs := [oneDirectoryBlock]
  frags := none
  exports := some
    ⟨[storedBlock _ (List.replicate 16 0) (by decide) (by decide)], List.replicate 8 0⟩
  ids := ⟨[storedBlock _ [0, 0, 0, 0] (by decide) (by decide)], List.replicate 8 0⟩
  xattrs := none
  size_lt := by decide +kernel

theorem open_exact_one :
    Squashfs.new (loadedAt oneArchive.bytes 0x1000) 0x1000 = .ok (oneArchive.mounted 0x1000) ∧
      (oneArchive.mounted 0x1000).directoryTable.length = 2 ∧
      window (loadedAt oneArchive.bytes 0x1000) 0x1000 oneArchive.size =
        oneArchive.superblock.encode ++ (oneArchive.mounted 0x1000).bytes :=
  have hopen := (open_exact (loadedAt oneArchive.bytes 0x1000) 0x1000).2 _ oneArchive
    (window_loadedAt _ _)
  ⟨hopen, rfl, ((open_exact _ _).1 _ hopen).2.2.2⟩

end Squashfs

end CappuccinOS
