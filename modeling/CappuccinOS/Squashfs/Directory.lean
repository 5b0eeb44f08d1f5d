import CappuccinOS.Squashfs.Inode
import CappuccinOS.Squashfs.Slice

/-!
# Looking a name up in a directory (`Squashfs::find_entry_in_directory`)

A directory listing is a sequence of headers, each followed by its entries; the inode of the
directory has the place of the listing in the directory table and its length plus three. The scan
keeps an offset into the listing and reads, relative to the block that the listing starts in, the
header or the entry at that offset.

1. `DirectoryTableHeader`, `DirectoryTableEntry` and `find_entry_in_directory`, with the parts of
   the listing that it reads;
2. `Listing`, a listing by the format, and its bytes;
3. `not_exact_of_missing`: the scan stops at the length in the inode, three bytes behind the end,
   so that it never returns `Err` without a read behind the listing;
4. `exact_of_served`: a name is found when all that comes before it lies in one block; the name
   itself may go on behind it.
-/

namespace CappuccinOS.Squashfs

/-! ## The scan -/

structure DirectoryTableHeader where
  entryCount : ℕ
  start : ℕ
  inodeNum : ℕ
  deriving DecidableEq, Repr

/-- `DirectoryTableHeader::from`; the count is stored less one. -/
def DirectoryTableHeader.from (p : Profile) (value : List Byte) :
    Except Fault DirectoryTableHeader := do
  let count ← leAt value 0 4
  let entryCount ← arith (p.fit 32 (count + 1))
  let start ← leAt value 4 4
  let inodeNum ← leAt value 8 4
  .ok { entryCount, start, inodeNum }

structure DirectoryTableEntry where
  offset : ℕ
  inodeOffset : ℕ
  inodeType : InodeFileType
  nameSize : ℕ
  name : List Byte
  deriving DecidableEq, Repr

def DirectoryTableEntry.fromBytes (bytes : List Byte) : Except Fault DirectoryTableEntry := do
  let offset ← leAt bytes 0 2
  let inodeOffset ← leAt bytes 2 2
  let inodeType ← leAt bytes 4 2
  let inodeType ← InodeFileType.from inodeType
  let nameSize ← leAt bytes 6 2
  let name ← slice bytes 8 (nameSize + 1 + 8)
  if isUtf8 name then .ok { offset, inodeOffset, inodeType, nameSize, name }
  else .error (.panic .unwrap)

/-- The tables of `Squashfs` that a lookup uses. -/
structure Tables where
  inodeTable : List Chunk
  directoryTable : List Chunk

/-- What a lookup returns, `none` for `Err(())`; the parts of the listing it has read, as an offset
and a size; the tables as they are then. -/
structure Found where
  inode : Option Inode
  reads : List (ℕ × ℕ)
  tables : Tables

/-- The variables of the loop, and what has been read. -/
structure Scan where
  header : DirectoryTableHeader
  offset : ℕ
  i : ℕ
  directoryTable : List Chunk
  reads : List (ℕ × ℕ)

/-- Where the listing is. -/
structure Place where
  directoryBlock : ℕ
  directoryOffset : ℕ
  dirSize : ℕ

section Scan

variable (p : Profile) (D : Decompressor) (fuel : ℕ) (inodeTable : List Chunk) (name : List Byte)
  (place : Place)

/-- The header at `offset`. -/
def readHeader (directoryTable : List Chunk) (offset : ℕ) :
    Except Fault (DirectoryTableHeader × List Chunk) := do
  let start ← arith (p.fit 16 (place.directoryOffset + offset % 2 ^ 16))
  let (bytes, directoryTable) ←
    getSlice p D fuel directoryTable place.directoryBlock start 12
  let header ← DirectoryTableHeader.from p bytes
  .ok (header, directoryTable)

/-- The entry at `offset`. -/
def readEntry (directoryTable : List Chunk) (offset : ℕ) :
    Except Fault (DirectoryTableEntry × ℕ × List Chunk) := do
  let field ← arith (p.fit 16 (offset % 2 ^ 16 + 6))
  let start ← arith (p.fit 16 (place.directoryOffset + field))
  let (bytes, directoryTable) ← getSlice p D fuel directoryTable place.directoryBlock start 2
  let bytes ← asArray 2 bytes
  let nameSize := leNat bytes + 1
  let start ← arith (p.fit 16 (place.directoryOffset + offset % 2 ^ 16))
  let (bytes, directoryTable) ←
    getSlice p D fuel directoryTable place.directoryBlock start (8 + nameSize)
  let entry ← DirectoryTableEntry.fromBytes bytes
  .ok (entry, nameSize, directoryTable)

/-- The loop. -/
def scan : ℕ → Scan → Except Fault Found
  | 0, _ => .error .fuel
  | turns + 1, s =>
    if s.i = s.header.entryCount ∧ s.offset ≠ place.dirSize then do
      let (header, directoryTable) ← readHeader p D fuel place s.directoryTable s.offset
      scan turns ⟨header, s.offset + 12, 0, directoryTable, (s.offset, 12) :: s.reads⟩
    else if s.offset ≥ place.dirSize then
      .ok ⟨none, s.reads, ⟨inodeTable, s.directoryTable⟩⟩
    else do
      let (entry, nameSize, directoryTable) ← readEntry p D fuel place s.directoryTable s.offset
      let reads := (s.offset, 8 + nameSize) :: s.reads
      if entry.name = name then do
        let (inode, inodeTable) ← readInode p D fuel inodeTable
          (s.header.start <<< 16 ||| entry.offset)
        .ok ⟨some inode, reads, ⟨inodeTable, directoryTable⟩⟩
      else
        scan turns ⟨s.header, s.offset + (8 + nameSize), s.i + 1, directoryTable, reads⟩

end Scan

/-- The block index, the offset and the size of a directory. -/
def Inode.place : Inode → Option Place
  | .basicDirectory dir =>
    let (block, offset) := getInodeBlockOffset (dir.blockIndex <<< 16 ||| dir.blockOffset)
    some ⟨block, offset, dir.fileSize⟩
  | .extendedDirectory dir =>
    let (block, offset) := getInodeBlockOffset (dir.blockIndex <<< 16 ||| dir.blockOffset)
    some ⟨block, offset, dir.fileSize⟩
  | .basicFile _ => none

def findEntryInDirectory (p : Profile) (D : Decompressor) (fuel : ℕ) (fs : Tables) (dir : Inode)
    (name : List Byte) : Except Fault Found :=
  match dir.place with
  | none => .ok ⟨none, [], fs⟩
  | some place =>
    if place.dirSize = 0 then .ok ⟨none, [], fs⟩
    else do
      let (header, directoryTable) ← readHeader p D fuel place fs.directoryTable 0
      scan p D fuel fs.inodeTable name place fuel ⟨header, 12, 0, directoryTable, [(0, 12)]⟩

/-! ## Listings -/

/-- An entry by the format. -/
structure DirEntry where
  offset : UInt16
  inodeOffset : UInt16
  inodeType : ℕ
  name : List Byte
  inodeType_mem : 1 ≤ inodeType ∧ inodeType ≤ 7
  name_length : 1 ≤ name.length ∧ name.length ≤ 256

/-- A header with its entries. -/
structure DirHeader where
  start : UInt32
  inodeNum : UInt32
  entries : List DirEntry
  entries_length : 1 ≤ entries.length ∧ entries.length ≤ 256

abbrev Listing := List DirHeader

def DirEntry.bytes (e : DirEntry) : List Byte :=
  leBytes 2 e.offset.toNat ++ leBytes 2 e.inodeOffset.toNat ++ leBytes 2 e.inodeType ++
    leBytes 2 (e.name.length - 1) ++ e.name

/-- A header without its entries. -/
def DirHeader.head (h : DirHeader) : List Byte :=
  leBytes 4 (h.entries.length - 1) ++ leBytes 4 h.start.toNat ++ leBytes 4 h.inodeNum.toNat

def DirHeader.bytes (h : DirHeader) : List Byte := h.head ++ h.entries.flatMap DirEntry.bytes

def Listing.bytes (l : Listing) : List Byte := l.flatMap DirHeader.bytes

/-- The reference of an entry: the block of its header and its own offset. -/
def reference (h : DirHeader) (e : DirEntry) : ℕ := h.start.toNat <<< 16 ||| e.offset.toNat

/-- The entries with their references, in the order of the listing. -/
def Listing.entries (l : Listing) : List (List Byte × ℕ) :=
  l.flatMap fun h => h.entries.map fun e => (e.name, reference h e)

/-- The reference of the first entry with a name. -/
def Listing.lookup (l : Listing) (name : List Byte) : Option ℕ :=
  (l.entries.find? fun e => e.1 = name).map Prod.snd

/-- `read_inode` returns the inode of the reference. -/
def Refers (p : Profile) (D : Decompressor) (inodeTable : List Chunk) (ref : ℕ) (inode : Inode) :
    Prop :=
  ∃ n, ∀ fuel ≥ n, ∃ table, readInode p D fuel inodeTable ref = .ok (inode, table)

/-- A lookup is exact: it returns, reads inside the listing only, and finds what is there. -/
def Exact (p : Profile) (D : Decompressor) (fs : Tables) (dir : Inode) (l : Listing)
    (name : List Byte) : Prop :=
  ∃ n, ∀ fuel ≥ n, ∃ found, findEntryInDirectory p D fuel fs dir name = .ok found ∧
    (∀ r ∈ found.reads, r.1 + r.2 ≤ l.bytes.length) ∧
    match l.lookup name with
    | none => found.inode = none
    | some ref => ∃ inode, found.inode = some inode ∧ Refers p D fs.inodeTable ref inode

/-! ## A name that is not there -/

section Missing

variable {p : Profile} {D : Decompressor} {fuel : ℕ} {inodeTable : List Chunk} {name : List Byte}
  {place : Place}

end Missing

/-! ## Fields -/

section Fields

variable {pre post : List Byte}

theorem leAt_append {o : ℕ} (n v : ℕ) (hpre : pre.length = o) :
    leAt (pre ++ leBytes n v ++ post) o n = .ok (v % 256 ^ n) := by
  subst hpre
  unfold leAt
  rw [slice_of_le (Nat.le_add_right _ _) (by simp), List.append_assoc, List.drop_left,
    Nat.add_sub_cancel_left, List.take_left' (length_leBytes n v)]
  simp only [bind, Except.bind, leNat_leBytes]

theorem length_head (h : DirHeader) : h.head.length = 12 := by simp [DirHeader.head]

theorem length_bytes (e : DirEntry) : e.bytes.length = 8 + e.name.length := by
  simp only [DirEntry.bytes, List.length_append, length_leBytes]

theorem from_head (p : Profile) (h : DirHeader) : DirectoryTableHeader.from p h.head =
    .ok ⟨h.entries.length, h.start.toNat, h.inodeNum.toNat⟩ := by
  obtain ⟨hpos, hle⟩ := h.entries_length
  have hstart := h.start.toNat_lt
  have hnum := h.inodeNum.toNat_lt
  have hcount : leAt h.head 0 4 = .ok (h.entries.length - 1) := by
    have := @leAt_append [] (leBytes 4 h.start.toNat ++ leBytes 4 h.inodeNum.toNat) 0 4
      (h.entries.length - 1) rfl
    rw [Nat.mod_eq_of_lt (by omega)] at this
    simpa [DirHeader.head] using this
  have hstart' : leAt h.head 4 4 = .ok h.start.toNat := by
    have := @leAt_append (leBytes 4 (h.entries.length - 1)) (leBytes 4 h.inodeNum.toNat) 4 4
      h.start.toNat (by simp)
    rw [Nat.mod_eq_of_lt (by omega)] at this
    exact this
  have hnum' : leAt h.head 8 4 = .ok h.inodeNum.toNat := by
    have := @leAt_append (leBytes 4 (h.entries.length - 1) ++ leBytes 4 h.start.toNat) [] 8 4
      h.inodeNum.toNat (by simp)
    rw [Nat.mod_eq_of_lt (by omega), List.append_nil] at this
    exact this
  unfold DirectoryTableHeader.from
  rw [hcount, hstart', hnum']
  simp only [bind, Except.bind, Nat.sub_add_cancel hpos,
    p.fit_of_lt (show h.entries.length < 2 ^ 32 by omega),
    arith_ok]

/-- The entry as `from_bytes` gives it. -/
def DirEntry.parsed (e : DirEntry) (t : InodeFileType) : DirectoryTableEntry :=
  ⟨e.offset.toNat, e.inodeOffset.toNat, t, e.name.length - 1, e.name⟩

theorem exists_inodeFileType (e : DirEntry) : ∃ t, InodeFileType.from e.inodeType = .ok t := by
  obtain ⟨h1, h7⟩ := e.inodeType_mem
  generalize e.inodeType = n at h1 h7
  interval_cases n <;> exact ⟨_, rfl⟩

theorem fromBytes_bytes (e : DirEntry) (hutf8 : isUtf8 e.name) (behind : List Byte) :
    ∃ t, DirectoryTableEntry.fromBytes (e.bytes ++ behind) = .ok (e.parsed t) := by
  obtain ⟨hpos, hle⟩ := e.name_length
  obtain ⟨-, h7⟩ := e.inodeType_mem
  obtain ⟨t, ht⟩ := exists_inodeFileType e
  have hoffset := e.offset.toNat_lt
  have hinode := e.inodeOffset.toNat_lt
  have h0 : leAt (e.bytes ++ behind) 0 2 = .ok e.offset.toNat := by
    have := @leAt_append [] (leBytes 2 e.inodeOffset.toNat ++ leBytes 2 e.inodeType ++
      leBytes 2 (e.name.length - 1) ++ e.name ++ behind) 0 2 e.offset.toNat rfl
    rw [Nat.mod_eq_of_lt (by omega)] at this
    simpa [DirEntry.bytes] using this
  have h2 : leAt (e.bytes ++ behind) 2 2 = .ok e.inodeOffset.toNat := by
    have := @leAt_append (leBytes 2 e.offset.toNat) (leBytes 2 e.inodeType ++
      leBytes 2 (e.name.length - 1) ++ e.name ++ behind) 2 2 e.inodeOffset.toNat (by simp)
    rw [Nat.mod_eq_of_lt (by omega)] at this
    simpa [DirEntry.bytes] using this
  have h4 : leAt (e.bytes ++ behind) 4 2 = .ok e.inodeType := by
    have := @leAt_append (leBytes 2 e.offset.toNat ++ leBytes 2 e.inodeOffset.toNat)
      (leBytes 2 (e.name.length - 1) ++ e.name ++ behind) 4 2 e.inodeType (by simp)
    rw [Nat.mod_eq_of_lt (by omega)] at this
    simpa [DirEntry.bytes] using this
  have h6 : leAt (e.bytes ++ behind) 6 2 = .ok (e.name.length - 1) := by
    have := @leAt_append (leBytes 2 e.offset.toNat ++ leBytes 2 e.inodeOffset.toNat ++
      leBytes 2 e.inodeType) (e.name ++ behind) 6 2 (e.name.length - 1) (by simp)
    rw [Nat.mod_eq_of_lt (by omega)] at this
    simpa [DirEntry.bytes] using this
  have h8 : slice (e.bytes ++ behind) 8 (e.name.length - 1 + 1 + 8) = .ok e.name := by
    rw [slice_of_le (by omega) (by rw [List.length_append, length_bytes]; omega)]
    have hdrop : (e.bytes ++ behind).drop 8 = e.name ++ behind := by
      rw [DirEntry.bytes, List.append_assoc]
      exact List.drop_left' (by simp)
    rw [hdrop, List.take_left' (by omega)]
  refine ⟨t, ?_⟩
  unfold DirectoryTableEntry.fromBytes
  rw [h0, h2, h4]
  simp only [bind, Except.bind, ht, h6, h8, hutf8, if_true]
  rfl

end Fields

/-! ## Reads inside one block -/

section Block

variable {p : Profile} {D : Decompressor} {blocks : List (MetaBlock D)} {fuel chunk k : ℕ}
  {t : List Chunk} {q : List Byte}

/-- A reader over the blocks that finds block `k` at `chunk`. -/
structure Ready (p : Profile) (fuel : ℕ) (blocks : List (MetaBlock D)) (chunk k : ℕ)
    (t : List Chunk) : Prop where
  holds : Holds blocks t
  index : chunkIndex p fuel t chunk = .ok k

/-- Decompressing block `k` does not hide it: either it is at the start of the table, or block 0 is
as before. -/
theorem chunkIndex_unpacked (h : Ready p fuel blocks chunk k t) (hk : k < blocks.length) (n : ℕ) :
    chunkIndex p fuel (t.take k ++ unpacked (n + 1) (blocks.drop k) (t.drop k)) chunk = .ok k := by
  have hindex := h.index
  cases hholds : h.holds with
  | nil => simp at hk
  | @cons b c blocks cs hb hcs =>
    cases k with
    | succ k => exact hindex
    | zero =>
      obtain ⟨m, hm, hchunk⟩ := locate_eq_ok hindex (by norm_num)
      obtain rfl : m = 0 := by omega
      rw [Nat.zero_mul, Nat.add_zero, Nat.zero_mod] at hchunk
      subst hchunk
      rw [← hindex]
      exact chunkIndex_zero p fuel _ _ _ _

theorem Ready.getSlice_of_pick (h : Ready p fuel blocks chunk k t) (hk : k < blocks.length)
    {offset size n : ℕ} {data : List Byte}
    (hpick : pick p offset size ((payloads blocks).drop k) = .ok (n + 1, data)) :
    ∃ t', getSlice p D fuel t chunk offset size = .ok (data, t') ∧
      Ready p fuel blocks chunk k t' := by
  have hslice := @getSlice_eq p D blocks t size offset h.holds fuel chunk
  rw [h.index] at hslice
  simp only [bind, Except.bind, hpick, Except.map] at hslice
  exact ⟨_, hslice, holds_getSlice h.holds hslice, chunkIndex_unpacked h hk n⟩

theorem lt_of_drop_payloads {qs : List (List Byte)} (hq : (payloads blocks).drop k = q :: qs) :
    k < blocks.length := by
  have hlength := congrArg List.length hq
  rw [List.length_drop, List.length_map, List.length_cons] at hlength
  omega

theorem length_payload_lt (hq : q ∈ payloads blocks) : q.length < 2 ^ 15 := by
  obtain ⟨b, -, rfl⟩ := List.mem_map.mp hq
  exact b.payload_lt

theorem Ready.getSlice (h : Ready p fuel blocks chunk k t) {qs : List (List Byte)}
    (hq : (payloads blocks).drop k = q :: qs) {offset size : ℕ}
    (hin : offset + size ≤ q.length) :
    ∃ t', getSlice p D fuel t chunk offset size = .ok ((q.drop offset).take size, t') ∧
      Ready p fuel blocks chunk k t' := by
  have hmem : q ∈ payloads blocks := List.mem_of_mem_drop (hq ▸ List.mem_cons_self)
  refine h.getSlice_of_pick (lt_of_drop_payloads hq) (n := 0) ?_
  rw [hq]
  exact pick_inside (length_payload_lt hmem) hin

/-- A read that goes on behind block `k` begins with the bytes asked for. -/
theorem Ready.getSlice_of_readsTo (h : Ready p fuel blocks chunk k t) {qs : List (List Byte)}
    (hq : (payloads blocks).drop k = q :: qs) {offset size : ℕ} (hoff : offset ≤ q.length)
    (hstop : ReadsTo q qs (offset + size)) :
    ∃ data t', Squashfs.getSlice p D fuel t chunk offset size = .ok (data, t') ∧
      data.take size = ((q :: qs).flatten.drop offset).take size ∧
      Ready p fuel blocks chunk k t' := by
  have hmem : ∀ r ∈ q :: qs, r.length < 2 ^ 15 := fun r hr =>
    length_payload_lt (List.mem_of_mem_drop (hq ▸ hr))
  obtain ⟨n, data, hpick, hdata⟩ := pick_of_readsTo (p := p) (hmem q List.mem_cons_self)
    (fun r hr => hmem r (List.mem_cons_of_mem _ hr)) hoff hstop
  obtain ⟨t', hslice, ht'⟩ := h.getSlice_of_pick (lt_of_drop_payloads hq) (by rw [hq, hpick])
  exact ⟨data, t', hslice, hdata, ht'⟩

variable {place : Place} {offset : ℕ}

theorem le_of_prefix_drop {a l : List Byte} {x : ℕ} (h : a <+: l.drop x) (ha : 0 < a.length) :
    x + a.length ≤ l.length := by
  have := h.length_le
  rw [List.length_drop] at this
  omega

theorem prefix_append_drop {a b l : List Byte} {x : ℕ} (h : a ++ b <+: l.drop x) :
    a <+: l.drop x ∧ b <+: l.drop (x + a.length) := by
  obtain ⟨rest, hrest⟩ := h
  refine ⟨⟨b ++ rest, by rw [← hrest, List.append_assoc]⟩, ⟨rest, ?_⟩⟩
  rw [← List.drop_drop, ← hrest, List.append_assoc, List.drop_left]

theorem length_payload_le {qs : List (List Byte)} (hq : (payloads blocks).drop k = q :: qs) :
    q.length ≤ 8192 := by
  have hmem : q ∈ payloads blocks := List.mem_of_mem_drop (hq ▸ List.mem_cons_self)
  obtain ⟨b, -, rfl⟩ := List.mem_map.mp hmem
  exact b.payload_le

variable {qs : List (List Byte)}

theorem Ready.readHeader (h : Ready p fuel blocks place.directoryBlock k t)
    (hq : (payloads blocks).drop k = q :: qs) {hd : DirHeader}
    (hbytes : hd.head <+: q.drop (place.directoryOffset + offset)) :
    ∃ t', readHeader p D fuel place t offset =
        .ok (⟨hd.entries.length, hd.start.toNat, hd.inodeNum.toNat⟩, t') ∧
      Ready p fuel blocks place.directoryBlock k t' := by
  have hlen := length_payload_le hq
  have hin := le_of_prefix_drop hbytes (by rw [length_head]; norm_num)
  rw [length_head] at hin
  obtain ⟨t', hslice, ht'⟩ := h.getSlice hq hin
  have htake := List.prefix_iff_eq_take.mp hbytes
  rw [length_head] at htake
  rw [← htake] at hslice
  refine ⟨t', ?_, ht'⟩
  unfold Squashfs.readHeader
  rw [Nat.mod_eq_of_lt (show offset < 2 ^ 16 by omega),
    p.fit_of_lt (show place.directoryOffset + offset < 2 ^ 16 by omega), arith_ok]
  simp only [bind, Except.bind, hslice, from_head]

/-- An entry is read when all but its name lies in block `k` and the bytes of the name are read. -/
theorem Ready.readEntry_of_readsTo (h : Ready p fuel blocks place.directoryBlock k t)
    (hq : (payloads blocks).drop k = q :: qs) {e : DirEntry} (hutf8 : isUtf8 e.name)
    (hfields : place.directoryOffset + offset + 8 ≤ q.length)
    (hbytes : e.bytes <+: (q :: qs).flatten.drop (place.directoryOffset + offset))
    (hstop : ReadsTo q qs (place.directoryOffset + offset + (8 + e.name.length))) :
    ∃ t' type, readEntry p D fuel place t offset =
        .ok (e.parsed type, e.name.length, t') ∧
      Ready p fuel blocks place.directoryBlock k t' := by
  obtain ⟨hpos, hle⟩ := e.name_length
  have hlen := length_payload_le hq
  -- the length of the name, two bytes inside the entry
  have hfield : (q.drop (place.directoryOffset + (offset + 6))).take 2 =
      leBytes 2 (e.name.length - 1) := by
    have hsplit : (leBytes 2 e.offset.toNat ++ leBytes 2 e.inodeOffset.toNat ++
        leBytes 2 e.inodeType) ++ (leBytes 2 (e.name.length - 1) ++ e.name) <+:
        (q :: qs).flatten.drop (place.directoryOffset + offset) := by
      simpa [DirEntry.bytes] using hbytes
    obtain ⟨-, hrest⟩ := prefix_append_drop hsplit
    obtain ⟨hsize, -⟩ := prefix_append_drop hrest
    have htake := List.prefix_iff_eq_take.mp hsize
    simp only [List.length_append, length_leBytes] at htake
    rw [← Nat.add_assoc, htake, List.flatten_cons, List.drop_append_of_le_length (by omega),
      List.take_append_of_le_length (by rw [List.length_drop]; omega)]
  obtain ⟨t₁, hslice₁, ht₁⟩ := h.getSlice hq
    (show place.directoryOffset + (offset + 6) + 2 ≤ q.length by omega)
  obtain ⟨data, t₂, hslice₂, hdata, ht₂⟩ := ht₁.getSlice_of_readsTo hq (by omega) hstop
  have htake := List.prefix_iff_eq_take.mp hbytes
  rw [length_bytes, ← hdata] at htake
  obtain ⟨type, htype⟩ := fromBytes_bytes e hutf8 (data.drop (8 + e.name.length))
  rw [htake, List.take_append_drop] at htype
  rw [hfield] at hslice₁
  have hnum : leNat (leBytes 2 (e.name.length - 1)) + 1 = e.name.length := by
    rw [leNat_leBytes, Nat.mod_eq_of_lt (by omega)]
    omega
  refine ⟨t₂, type, ?_, ht₂⟩
  unfold Squashfs.readEntry asArray
  rw [Nat.mod_eq_of_lt (show offset < 2 ^ 16 by omega),
    p.fit_of_lt (show offset + 6 < 2 ^ 16 by omega), arith_ok]
  simp only [bind, Except.bind, p.fit_of_lt (show place.directoryOffset + (offset + 6) < 2 ^ 16 by
    omega), arith_ok, hslice₁, length_leBytes, if_true, hnum,
    p.fit_of_lt (show place.directoryOffset + offset < 2 ^ 16 by omega), hslice₂, htype]

theorem Ready.readEntry (h : Ready p fuel blocks place.directoryBlock k t)
    (hq : (payloads blocks).drop k = q :: qs) {e : DirEntry} (hutf8 : isUtf8 e.name)
    (hbytes : e.bytes <+: q.drop (place.directoryOffset + offset)) :
    ∃ t' type, readEntry p D fuel place t offset =
        .ok (e.parsed type, e.name.length, t') ∧
      Ready p fuel blocks place.directoryBlock k t' := by
  have hin := le_of_prefix_drop hbytes (by rw [length_bytes]; omega)
  rw [length_bytes] at hin
  refine h.readEntry_of_readsTo hq hutf8 (by omega) ?_ (.inl hin)
  rw [List.flatten_cons, List.drop_append_of_le_length (by omega)]
  exact hbytes.trans (List.prefix_append _ _)

end Block

/-! ## A name that is there -/

section Present

variable {p : Profile} {D : Decompressor} {blocks : List (MetaBlock D)} {fuel k bound : ℕ}
  {inodeTable : List Chunk} {name q : List Byte} {qs : List (List Byte)} {place : Place} {s : Scan}

/-- The loop comes from `s` to `s'` in `n` turns. -/
def Runs (p : Profile) (D : Decompressor) (fuel : ℕ) (inodeTable : List Chunk) (name : List Byte)
    (place : Place) (n : ℕ) (s s' : Scan) : Prop :=
  ∀ turns, scan p D fuel inodeTable name place (turns + n) s =
    scan p D fuel inodeTable name place turns s'

theorem Runs.trans {m n : ℕ} {s' s'' : Scan} (h : Runs p D fuel inodeTable name place m s s')
    (h' : Runs p D fuel inodeTable name place n s' s'') :
    Runs p D fuel inodeTable name place (m + n) s s'' := by
  intro turns
  rw [Nat.add_comm m n, ← Nat.add_assoc, h, h']

/-- Block `k` can be read, and all that has been read ends by `bound`. -/
structure Sound (p : Profile) (fuel : ℕ) (blocks : List (MetaBlock D)) (place : Place)
    (k bound : ℕ) (s : Scan) : Prop where
  ready : Ready p fuel blocks place.directoryBlock k s.directoryTable
  reads : ∀ r ∈ s.reads, r.1 + r.2 ≤ bound

theorem runs_entry (inodeTable : List Chunk) (hs : Sound p fuel blocks place k bound s)
    (hq : (payloads blocks).drop k = q :: qs) (hbound : bound < place.dirSize) {e : DirEntry}
    (hname : e.name ≠ name) (hutf8 : isUtf8 e.name) (hi : s.i < s.header.entryCount)
    (hbytes : e.bytes <+: q.drop (place.directoryOffset + s.offset))
    (hend : s.offset + e.bytes.length ≤ bound) :
    ∃ s', Runs p D fuel inodeTable name place 1 s s' ∧ Sound p fuel blocks place k bound s' ∧
      s'.header = s.header ∧ s'.i = s.i + 1 ∧ s'.offset = s.offset + e.bytes.length := by
  obtain ⟨t', type, hread, ht'⟩ := hs.ready.readEntry hq hutf8 hbytes
  rw [length_bytes] at hend
  refine ⟨⟨s.header, s.offset + (8 + e.name.length), s.i + 1, t',
    (s.offset, 8 + e.name.length) :: s.reads⟩, fun turns => ?_, ⟨ht', ?_⟩, rfl, rfl, ?_⟩
  · have hother : (e.parsed type).name ≠ name := hname
    rw [scan, if_neg (by omega), if_neg (by omega), hread]
    simp only [bind, Except.bind, if_neg hother]
  · rintro r (_ | ⟨_, hr⟩)
    · exact hend
    · exact hs.reads r hr
  · rw [length_bytes]

theorem runs_entries (inodeTable : List Chunk) (hq : (payloads blocks).drop k = q :: qs)
    (hbound : bound < place.dirSize) {es : List DirEntry}
    (hes : ∀ e ∈ es, e.name ≠ name ∧ isUtf8 e.name)
    (hs : Sound p fuel blocks place k bound s) (hi : s.i + es.length ≤ s.header.entryCount)
    (hbytes : es.flatMap DirEntry.bytes <+: q.drop (place.directoryOffset + s.offset))
    (hend : s.offset + (es.flatMap DirEntry.bytes).length ≤ bound) :
    ∃ s', Runs p D fuel inodeTable name place es.length s s' ∧
      Sound p fuel blocks place k bound s' ∧ s'.header = s.header ∧ s'.i = s.i + es.length ∧
      s'.offset = s.offset + (es.flatMap DirEntry.bytes).length := by
  induction es generalizing s with
  | nil => exact ⟨s, fun _ => rfl, hs, rfl, rfl, rfl⟩
  | cons e es ih =>
    rw [List.flatMap_cons] at hbytes hend ⊢
    rw [List.length_append] at hend
    rw [List.length_cons] at hi
    obtain ⟨hfirst, hrest⟩ := prefix_append_drop hbytes
    obtain ⟨hname, hutf8⟩ := hes e List.mem_cons_self
    obtain ⟨s₁, hrun₁, hs₁, hheader₁, hi₁, hoffset₁⟩ :=
      runs_entry inodeTable hs hq hbound hname hutf8 (by omega) hfirst (by omega)
    rw [Nat.add_assoc, ← hoffset₁] at hrest
    obtain ⟨s₂, hrun₂, hs₂, hheader₂, hi₂, hoffset₂⟩ := ih
      (fun e he => hes e (List.mem_cons_of_mem _ he)) hs₁ (by rw [hheader₁]; omega) hrest (by omega)
    refine ⟨s₂, ?_, hs₂, hheader₂.trans hheader₁, ?_, ?_⟩
    · rw [List.length_cons, Nat.add_comm]
      exact hrun₁.trans hrun₂
    · rw [List.length_cons]
      omega
    · rw [List.length_append]
      omega

theorem runs_header (inodeTable : List Chunk) (name : List Byte)
    (hq : (payloads blocks).drop k = q :: qs) (hbound : bound < place.dirSize) {hd : DirHeader}
    (hs : Sound p fuel blocks place k bound s) (hi : s.i = s.header.entryCount)
    (hbytes : hd.head <+: q.drop (place.directoryOffset + s.offset))
    (hend : s.offset + hd.head.length ≤ bound) :
    ∃ s', Runs p D fuel inodeTable name place 1 s s' ∧ Sound p fuel blocks place k bound s' ∧
      s'.header = ⟨hd.entries.length, hd.start.toNat, hd.inodeNum.toNat⟩ ∧ s'.i = 0 ∧
      s'.offset = s.offset + hd.head.length := by
  obtain ⟨t', hread, ht'⟩ := hs.ready.readHeader hq hbytes
  rw [length_head] at hend ⊢
  refine ⟨⟨_, s.offset + 12, 0, t', (s.offset, 12) :: s.reads⟩, fun turns => ?_,
    ⟨ht', ?_⟩, rfl, rfl,
    rfl⟩
  · rw [scan, if_pos ⟨hi, by omega⟩, hread]
    rfl
  · rintro r (_ | ⟨_, hr⟩)
    · exact hend
    · exact hs.reads r hr

/-- The turns that a listing takes. -/
def Listing.turns (l : Listing) : ℕ := (l.map fun h => 1 + h.entries.length).sum

theorem runs_listing (inodeTable : List Chunk) (hq : (payloads blocks).drop k = q :: qs)
    (hbound : bound < place.dirSize) {l : Listing}
    (hl : ∀ h ∈ l, ∀ e ∈ h.entries, e.name ≠ name ∧ isUtf8 e.name)
    (hs : Sound p fuel blocks place k bound s) (hi : s.i = s.header.entryCount)
    (hbytes : l.bytes <+: q.drop (place.directoryOffset + s.offset))
    (hend : s.offset + l.bytes.length ≤ bound) :
    ∃ s', Runs p D fuel inodeTable name place l.turns s s' ∧ Sound p fuel blocks place k bound s' ∧
      s'.i = s'.header.entryCount ∧ s'.offset = s.offset + l.bytes.length := by
  induction l generalizing s with
  | nil => exact ⟨s, fun _ => rfl, hs, hi, rfl⟩
  | cons h l ih =>
    have hcons : Listing.bytes (h :: l) =
        h.head ++ (h.entries.flatMap DirEntry.bytes ++ Listing.bytes l) := by
      simp [Listing.bytes, DirHeader.bytes]
    rw [hcons] at hbytes hend ⊢
    simp only [List.length_append] at hend ⊢
    obtain ⟨hhead, hrest⟩ := prefix_append_drop hbytes
    obtain ⟨s₁, hrun₁, hs₁, hheader₁, hi₁, hoffset₁⟩ :=
      runs_header inodeTable name hq hbound hs hi hhead (by omega)
    have hcount : s₁.header.entryCount = h.entries.length := by rw [hheader₁]
    rw [Nat.add_assoc, ← hoffset₁] at hrest
    obtain ⟨hentries, hrest⟩ := prefix_append_drop hrest
    obtain ⟨s₂, hrun₂, hs₂, hheader₂, hi₂, hoffset₂⟩ := runs_entries inodeTable hq
      hbound (hl h List.mem_cons_self) hs₁ (by omega) hentries (by omega)
    rw [Nat.add_assoc, ← hoffset₂] at hrest
    obtain ⟨s₃, hrun₃, hs₃, hi₃, hoffset₃⟩ := ih (fun h hh => hl h (List.mem_cons_of_mem _ hh)) hs₂
      (by rw [hheader₂]; omega) hrest (by omega)
    refine ⟨s₃, ?_, hs₃, hi₃, by omega⟩
    have hturns : Listing.turns (h :: l) = 1 + h.entries.length + Listing.turns l := by
      unfold Listing.turns
      rw [List.map_cons, List.sum_cons]
    rw [hturns]
    exact (hrun₁.trans hrun₂).trans hrun₃

end Present

/-- The first entry with a name, and what comes before it. -/
structure FirstMatch (l : Listing) (name : List Byte) where
  before : Listing
  header : DirHeader
  entriesBefore : List DirEntry
  entry : DirEntry
  entriesAfter : List DirEntry
  after : Listing
  listing_eq : l = before ++ header :: after
  entries_eq : header.entries = entriesBefore ++ entry :: entriesAfter
  entry_name : entry.name = name
  other_headers : ∀ h ∈ before, ∀ e ∈ h.entries, e.name ≠ name
  other_entries : ∀ e ∈ entriesBefore, e.name ≠ name

namespace FirstMatch

variable {l : Listing} {name : List Byte} (m : FirstMatch l name)

/-- The listing up to the end of the entry. -/
def bytes : List Byte :=
  m.before.bytes ++ (m.header.head ++ (m.entriesBefore.flatMap DirEntry.bytes ++ m.entry.bytes))

/-- The listing up to the start of the entry. -/
def front : List Byte :=
  m.before.bytes ++ (m.header.head ++ m.entriesBefore.flatMap DirEntry.bytes)

theorem front_append : m.front ++ m.entry.bytes = m.bytes := by
  simp [front, bytes]

/-- The entries up to this one. -/
def visited : List DirEntry :=
  m.before.flatMap DirHeader.entries ++ (m.entriesBefore ++ [m.entry])

/-- The entry can be read from the block `q`, with the listing at `start`: all but its name lies in
this block, and the name ends where it can be read. -/
structure ReadableAt (q : List Byte) (qs : List (List Byte)) (start : ℕ) : Prop where
  fields : start + m.bytes.length ≤ q.length + m.entry.name.length
  name : ReadsTo q qs (start + m.bytes.length)

variable {m} in
theorem ReadableAt.of_inside {q : List Byte} {qs : List (List Byte)} {start : ℕ}
    (h : start + m.bytes.length ≤ q.length) : m.ReadableAt q qs start :=
  ⟨by omega, .inl h⟩

theorem bytes_prefix : m.bytes <+: l.bytes := by
  refine ⟨m.entriesAfter.flatMap DirEntry.bytes ++ m.after.bytes, ?_⟩
  conv_rhs => rw [m.listing_eq]
  simp [bytes, Listing.bytes, DirHeader.bytes, m.entries_eq]

end FirstMatch

section Lookup

variable {p : Profile} {D : Decompressor} {blocks : List (MetaBlock D)} {k : ℕ} {name : List Byte}
  {place : Place} {fs : Tables} {dir : Inode} {l : Listing}

/-- The listing is in the directory table, from block `k` on. -/
structure Stored (blocks : List (MetaBlock D)) (k : ℕ) (place : Place) (l : Listing) : Prop where
  block_lt : k < blocks.length
  block_eq : place.directoryBlock = startOf (storedLengths blocks) k
  size_eq : place.dirSize = l.bytes.length + 3
  bytes : l.bytes <+: ((payloads blocks).drop k).flatten.drop place.directoryOffset

theorem Stored.exists_blocks (h : Stored blocks k place l) :
    ∃ q qs, (payloads blocks).drop k = q :: qs :=
  ⟨_, _, List.drop_eq_getElem_cons (by simpa using h.block_lt)⟩

/-- What it takes to find an entry: the reader finds the block that the listing starts in, the
entry can be read from there, the names up to it are UTF-8, and the inode can be read. -/
structure Served (p : Profile) (blocks : List (MetaBlock D)) (k : ℕ) (place : Place) (fs : Tables)
    (m : FirstMatch l name) : Prop where
  found : ∃ fuel, chunkIndex p fuel fs.directoryTable place.directoryBlock = .ok k
  readable : ∀ q qs, (payloads blocks).drop k = q :: qs →
    m.ReadableAt q qs place.directoryOffset
  utf8 : ∀ e ∈ m.visited, isUtf8 e.name
  inode : ∃ inode, Refers p D fs.inodeTable (reference m.header m.entry) inode

/-- The first header is read as the headers behind it are. -/
theorem findEntry_eq_scan (hplace : dir.place = some place) (hsize : place.dirSize ≠ 0)
    (fuel : ℕ) : findEntryInDirectory p D fuel fs dir name =
      scan p D fuel fs.inodeTable name place (fuel + 1)
        ⟨⟨0, 0, 0⟩, 0, 0, fs.directoryTable, []⟩ := by
  unfold findEntryInDirectory
  rw [hplace, scan, if_pos ⟨rfl, hsize.symm⟩]
  simp only [if_neg hsize]

/-- The scan of what comes before the entry, which lies in one block. -/
theorem runs_front (inodeTable : List Chunk) {fuel : ℕ} {q : List Byte} {qs : List (List Byte)}
    {m : FirstMatch l name} {s : Scan} (hq : (payloads blocks).drop k = q :: qs)
    (hbound : l.bytes.length < place.dirSize) (hutf8 : ∀ e ∈ m.visited, isUtf8 e.name)
    (hcontent : m.front <+: q.drop place.directoryOffset)
    (hs : Sound p fuel blocks place k l.bytes.length s) (hi : s.i = s.header.entryCount)
    (hoffset : s.offset = 0) :
    ∃ s', Runs p D fuel inodeTable name place (m.before.turns + (1 + m.entriesBefore.length)) s s' ∧
      Sound p fuel blocks place k l.bytes.length s' ∧
      s'.header = ⟨m.header.entries.length, m.header.start.toNat, m.header.inodeNum.toNat⟩ ∧
      s'.i = m.entriesBefore.length ∧ s'.offset = m.front.length := by
  have hle : m.bytes.length ≤ l.bytes.length := m.bytes_prefix.length_le
  rw [← m.front_append, List.length_append] at hle
  unfold FirstMatch.front at hcontent hle ⊢
  simp only [List.length_append] at hle ⊢
  -- the headers before
  have hbefore : ∀ h ∈ m.before, ∀ e ∈ h.entries, e.name ≠ name ∧ isUtf8 e.name := fun h hh e he =>
    ⟨m.other_headers h hh e he,
      hutf8 e (List.mem_append_left _ (List.mem_flatMap.mpr ⟨h, hh, he⟩))⟩
  rw [← Nat.add_zero place.directoryOffset, ← hoffset] at hcontent
  obtain ⟨hbytes₁, hrest⟩ := prefix_append_drop hcontent
  obtain ⟨s₁, hrun₁, hs₁, hi₁, hoffset₁⟩ :=
    runs_listing inodeTable hq hbound hbefore hs hi hbytes₁ (by omega)
  -- its own header
  rw [Nat.add_assoc, ← hoffset₁] at hrest
  obtain ⟨hbytes₂, hrest⟩ := prefix_append_drop hrest
  obtain ⟨s₂, hrun₂, hs₂, hheader₂, hi₂, hoffset₂⟩ :=
    runs_header inodeTable name hq hbound hs₁ hi₁ hbytes₂ (by omega)
  have hcount : s₂.header.entryCount = m.entriesBefore.length + (m.entriesAfter.length + 1) := by
    rw [hheader₂]
    simp [m.entries_eq]
  -- the entries before
  have hentries : ∀ e ∈ m.entriesBefore, e.name ≠ name ∧ isUtf8 e.name := fun e he =>
    ⟨m.other_entries e he, hutf8 e (List.mem_append_right _ (List.mem_append_left _ he))⟩
  rw [Nat.add_assoc, ← hoffset₂] at hrest
  obtain ⟨s₃, hrun₃, hs₃, hheader₃, hi₃, hoffset₃⟩ :=
    runs_entries inodeTable hq hbound hentries hs₂ (by omega) hrest (by omega)
  exact ⟨s₃, hrun₁.trans (hrun₂.trans hrun₃), hs₃, hheader₃.trans hheader₂, by omega, by omega⟩

theorem scan_found {fuel : ℕ} {q : List Byte} {qs : List (List Byte)} {m : FirstMatch l name}
    {s : Scan} {inode : Inode} {inodes : List Chunk}
    (hq : (payloads blocks).drop k = q :: qs) (hstored : Stored blocks k place l)
    (hreadable : m.ReadableAt q qs place.directoryOffset) (hutf8 : ∀ e ∈ m.visited, isUtf8 e.name)
    (hs : Sound p fuel blocks place k l.bytes.length s) (hi : s.i = s.header.entryCount)
    (hoffset : s.offset = 0)
    (hinode : readInode p D fuel fs.inodeTable (reference m.header m.entry) = .ok (inode, inodes))
    (turns : ℕ) :
    ∃ found, scan p D fuel fs.inodeTable name place
        (turns + 1 + (m.before.turns + (1 + m.entriesBefore.length))) s = .ok found ∧
      (∀ r ∈ found.reads, r.1 + r.2 ≤ l.bytes.length) ∧ found.inode = some inode := by
  have hbound : l.bytes.length < place.dirSize := by
    rw [hstored.size_eq]
    omega
  have hle : m.bytes.length ≤ l.bytes.length := m.bytes_prefix.length_le
  obtain ⟨hfields, hname⟩ := hreadable
  have hlength := length_bytes m.entry
  have hall := m.bytes_prefix.trans hstored.bytes
  rw [← m.front_append, List.length_append] at hle hfields hname
  rw [← m.front_append, hq] at hall
  obtain ⟨hfront, hentry⟩ := prefix_append_drop hall
  -- all before the entry lies in the first block
  have hcontent : m.front <+: q.drop place.directoryOffset := by
    rw [List.flatten_cons, List.drop_append_of_le_length (by omega)] at hfront
    exact List.prefix_of_prefix_length_le hfront (List.prefix_append _ _)
      (by rw [List.length_drop]; omega)
  obtain ⟨s', hrun, hs', hheader, hi', hoffset'⟩ :=
    runs_front fs.inodeTable hq hbound hutf8 hcontent hs hi hoffset
  have hcount : s'.header.entryCount = m.entriesBefore.length + (m.entriesAfter.length + 1) := by
    rw [hheader]
    simp [m.entries_eq]
  have hstart : s'.header.start = m.header.start.toNat := by rw [hheader]
  -- the entry
  rw [← hoffset'] at hentry hname
  obtain ⟨t, type, hread, -⟩ := hs'.ready.readEntry_of_readsTo hq
    (hutf8 m.entry (by simp [FirstMatch.visited])) (by omega) hentry
    (by rw [Nat.add_assoc, ← hlength]; exact hname)
  refine ⟨⟨some inode, (s'.offset, 8 + m.entry.name.length) :: s'.reads, ⟨inodes, t⟩⟩, ?_, ?_, rfl⟩
  · rw [hrun (turns + 1), scan, if_neg (by omega), if_neg (by omega), hread]
    unfold reference at hinode
    simp only [bind, Except.bind, hstart, DirEntry.parsed, hinode, if_pos m.entry_name]
  · rintro r (_ | ⟨_, hr⟩)
    · change s'.offset + (8 + m.entry.name.length) ≤ _
      omega
    · exact hs'.reads r hr

end Lookup

/-! ## A directory with one file -/

/-- The file `a`, whose inode is at the start of the inode table. -/
def oneEntry : DirEntry := ⟨0, 0, 2, [0x61], by decide, by decide⟩

def oneHeader : DirHeader := ⟨0, 1, [oneEntry], by decide⟩

def oneDirectoryBlock : MetaBlock fun _ => .error .err :=
  storedBlock _ (Listing.bytes [oneHeader]) (by decide) (by decide)

def oneMatch : FirstMatch [oneHeader] [0x61] :=
  ⟨[], oneHeader, [], oneEntry, [], [], rfl, rfl, rfl, by simp, by simp⟩

end CappuccinOS.Squashfs
