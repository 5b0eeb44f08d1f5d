import CappuccinOS.Squashfs.Archive

/-!
# Paths in an image

An inode has its fields one after the other, like the superblock, and is named by a reference: the
block of the inode table that it is in, and its place there. A directory gives a reference to each
of its names. What a path leads to is a matter of the image alone, and the reader finds it whatever
it has read before, when the blocks on the way can be found.

1. `Inode.from_encode`: an inode that was laid out by the format is parsed.
2. `Findable`: the blocks that the reader finds in every state of its table.
3. `InodeAt` and `EntryAt`: the inode of a reference and of a name, by the format; `readInode_at`
   and `findEntry_at`: the reader finds them.
4. `Names`: the inode of a path; `keeps_readInode` and `keeps_findEntry`: every search leaves a
   reader over the same blocks.
-/

namespace CappuccinOS.Squashfs

/-! ## Inodes -/

/-- The number of a type in the image. -/
def InodeFileType.code : InodeFileType → ℕ
  | basicDirectory => 1
  | basicFile => 2
  | basicSymlink => 3
  | basicBlockDevice => 4
  | basicCharDevice => 5
  | basicPipe => 6
  | basicSocked => 7
  | extendedDirectory => 8
  | extendedFile => 9
  | extendedSymlink => 10
  | extendedBlockDevice => 11
  | extendedPipe => 12
  | extendedSocked => 13

theorem InodeFileType.from_code (t : InodeFileType) : InodeFileType.from t.code = .ok t := by
  cases t <;> rfl

/-- The fields of an inode that are not read. -/
structure Owner where
  permissions : UInt16
  uid : UInt16
  gid : UInt16

def InodeHeader.fields (h : InodeHeader) (w : Owner) : List (ℕ × ℕ) :=
  [(2, h.fileType.code), (2, w.permissions.toNat), (2, w.uid.toNat), (2, w.gid.toNat),
    (4, h.mtime), (4, h.inodeNum)]

namespace Inode

/-- The fields in the order of the image. -/
def fields (w : Owner) : Inode → List (ℕ × ℕ)
  | basicFile file => file.header.fields w ++
      [(4, file.blockStart), (4, file.fragIdx), (4, file.blockOffset), (4, file.fileSize)]
  | basicDirectory dir => dir.header.fields w ++
      [(4, dir.blockIndex), (4, dir.linkCount), (2, dir.fileSize), (2, dir.blockOffset),
        (4, dir.parentInode)]
  | extendedDirectory dir => dir.header.fields w ++
      [(4, dir.linkCount), (4, dir.fileSize), (4, dir.blockIndex), (4, dir.parentInode),
        (2, dir.indexCount), (2, dir.blockOffset), (4, dir.xattrIndex)]

/-- The type of an inode, which its header has as well. -/
def type : Inode → InodeFileType
  | basicFile _ => .basicFile
  | basicDirectory _ => .basicDirectory
  | extendedDirectory _ => .extendedDirectory

def header : Inode → InodeHeader
  | basicFile file => file.header
  | basicDirectory dir => dir.header
  | extendedDirectory dir => dir.header

def encode (w : Owner) (inode : Inode) : List Byte := Record.pack (inode.fields w)

/-- An inode that the format can hold. -/
structure Sound (w : Owner) (inode : Inode) : Prop where
  typed : inode.header.fileType = inode.type
  fits : Record.Fits (inode.fields w)

end Inode

theorem leAt_pack {fields : List (ℕ × ℕ)} (hfits : Record.Fits fields) {offset i w v : ℕ}
    (h : fields[i]? = some (w, v)) (hoffset : ((fields.take i).map Prod.fst).sum = offset) :
    leAt (Record.pack fields) offset w = .ok v := by
  obtain ⟨hi, hget⟩ := List.getElem?_eq_some_iff.mp h
  have hv : v < 256 ^ w := hfits (w, v) (hget ▸ List.getElem_mem hi)
  have hsplit : Record.pack fields =
      Record.pack (fields.take i) ++ leBytes w v ++ Record.pack (fields.drop (i + 1)) := by
    conv_lhs => rw [← List.take_append_drop i fields, List.drop_eq_getElem_cons hi, hget]
    simp [Record.pack]
  have hpre : (Record.pack (fields.take i)).length = offset := by
    rw [Record.length_pack, hoffset]
  rw [hsplit, leAt_append w v hpre, Nat.mod_eq_of_lt hv]

namespace Inode

variable {w : Owner} {inode : Inode}

theorem length_encode (inode : Inode) : ∃ size, inode.type.inodeSize = .ok size ∧
    (inode.encode w).length = size ∧ 2 ≤ size := by
  cases inode <;> exact ⟨_, rfl, by simp [encode, fields, InodeHeader.fields], by norm_num⟩

theorem type_encode (h : inode.Sound w) : leAt (inode.encode w) 0 2 = .ok inode.type.code := by
  rw [← h.typed]
  cases inode <;> exact leAt_pack h.fits (i := 0) rfl rfl

theorem header_encode (h : inode.Sound w) :
    InodeHeader.fromBytes (inode.encode w) = .ok inode.header := by
  have htype := type_encode h
  have hmtime : leAt (inode.encode w) 8 4 = .ok inode.header.mtime := by
    cases inode <;> exact leAt_pack h.fits (i := 4) rfl rfl
  have hnum : leAt (inode.encode w) 12 4 = .ok inode.header.inodeNum := by
    cases inode <;> exact leAt_pack h.fits (i := 5) rfl rfl
  unfold InodeHeader.fromBytes
  simp only [htype, hmtime, hnum, bind, Except.bind, InodeFileType.from_code, ← h.typed]

theorem from_encode (h : inode.Sound w) : Inode.from (inode.encode w) = .ok inode := by
  have htype := type_encode h
  have hheader := header_encode h
  have hfits := h.fits
  unfold Inode.from
  simp only [htype, bind, Except.bind, InodeFileType.from_code]
  cases inode with
  | basicFile file =>
    have h16 : leAt (encode w (basicFile file)) 16 4 = .ok file.blockStart :=
      leAt_pack hfits (i := 6) rfl rfl
    have h20 : leAt (encode w (basicFile file)) 20 4 = .ok file.fragIdx :=
      leAt_pack hfits (i := 7) rfl rfl
    have h24 : leAt (encode w (basicFile file)) 24 4 = .ok file.blockOffset :=
      leAt_pack hfits (i := 8) rfl rfl
    have h28 : leAt (encode w (basicFile file)) 28 4 = .ok file.fileSize :=
      leAt_pack hfits (i := 9) rfl rfl
    simp only [type, BasicFileInode.fromBytes, hheader, h16, h20, h24, h28, bind, Except.bind]
    rfl
  | basicDirectory dir =>
    have h16 : leAt (encode w (basicDirectory dir)) 16 4 = .ok dir.blockIndex :=
      leAt_pack hfits (i := 6) rfl rfl
    have h20 : leAt (encode w (basicDirectory dir)) 20 4 = .ok dir.linkCount :=
      leAt_pack hfits (i := 7) rfl rfl
    have h24 : leAt (encode w (basicDirectory dir)) 24 2 = .ok dir.fileSize :=
      leAt_pack hfits (i := 8) rfl rfl
    have h26 : leAt (encode w (basicDirectory dir)) 26 2 = .ok dir.blockOffset :=
      leAt_pack hfits (i := 9) rfl rfl
    have h28 : leAt (encode w (basicDirectory dir)) 28 4 = .ok dir.parentInode :=
      leAt_pack hfits (i := 10) rfl rfl
    simp only [type, BasicDirectoryInode.fromBytes, hheader, h16, h20, h24, h26, h28, bind,
      Except.bind]
    rfl
  | extendedDirectory dir =>
    have h16 : leAt (encode w (extendedDirectory dir)) 16 4 = .ok dir.linkCount :=
      leAt_pack hfits (i := 6) rfl rfl
    have h20 : leAt (encode w (extendedDirectory dir)) 20 4 = .ok dir.fileSize :=
      leAt_pack hfits (i := 7) rfl rfl
    have h24 : leAt (encode w (extendedDirectory dir)) 24 4 = .ok dir.blockIndex :=
      leAt_pack hfits (i := 8) rfl rfl
    have h28 : leAt (encode w (extendedDirectory dir)) 28 4 = .ok dir.parentInode :=
      leAt_pack hfits (i := 9) rfl rfl
    have h32 : leAt (encode w (extendedDirectory dir)) 32 2 = .ok dir.indexCount :=
      leAt_pack hfits (i := 10) rfl rfl
    have h34 : leAt (encode w (extendedDirectory dir)) 34 2 = .ok dir.blockOffset :=
      leAt_pack hfits (i := 11) rfl rfl
    have h36 : leAt (encode w (extendedDirectory dir)) 36 4 = .ok dir.xattrIndex :=
      leAt_pack hfits (i := 12) rfl rfl
    simp only [type, ExtendedDirectoryInode.fromBytes, hheader, h16, h20, h24, h28, h32, h34, h36,
      bind, Except.bind]
    rfl

end Inode

/-! ## Blocks -/

section Blocks

variable {p : Profile} {D : Decompressor} {blocks : List (MetaBlock D)} {fuel k : ℕ}
  {t t' : List Chunk}

/-- The search for block `k` comes to it in every state of the reader: it is the first block, or the
length of the first one, which decompressing keeps, leads to it. -/
def Findable (blocks : List (MetaBlock D)) (k : ℕ) : Prop :=
  k = 0 ∨ startOf (storedLengths blocks) k < wordSize ∧ ∀ b ∈ blocks.head?,
    b.payload.length = b.stored.length ∧
      startOf (storedLengths blocks) k = k * (b.stored.length + headerSize)

theorem Findable.ready (h : Findable blocks k) (hk : k < blocks.length) (hholds : Holds blocks t)
    (hfuel : k < fuel) : Ready p fuel blocks (startOf (storedLengths blocks) k) k t := by
  refine ⟨hholds, ?_⟩
  match blocks, t, hholds with
  | b :: blocks, c :: cs, .cons hb _ =>
    rw [chunkIndex]
    rcases h with rfl | ⟨hword, hfirst⟩
    · obtain ⟨fuel, rfl⟩ : ∃ n, fuel = n + 1 := ⟨fuel - 1, by omega⟩
      exact if_pos rfl
    · obtain ⟨hlen, hstart⟩ := hfirst b rfl
      have hc : c.len = b.stored.length := by
        obtain hc | hc := hb.len <;> omega
      rw [hstart] at hword ⊢
      have hfound := @locate_of_mul p (b.stored.length + headerSize) fuel 0 0 k
        (Nat.add_pos_right _ (by decide)) hfuel
      rw [hc]
      simpa only [Nat.zero_add] using hfound (by rw [Nat.zero_add]; exact hword)

/-- By the format, the inode of a reference, inside one block. -/
inductive InodeAt (blocks : List (MetaBlock D)) (ref : ℕ) (inode : Inode) : Prop
  | intro {k offset : ℕ} {q : List Byte} {w : Owner} (found : Findable blocks k)
      (payload : (payloads blocks)[k]? = some q)
      (reference : getInodeBlockOffset ref = (startOf (storedLengths blocks) k, offset))
      (sound : inode.Sound w) (bytes : inode.encode w <+: q.drop offset)

/-- A search in the inode table leaves a reader over the same blocks. -/
theorem keeps_readInode (h : Holds blocks t) {ref : ℕ} {inode : Inode}
    (hread : readInode p D fuel t ref = .ok (inode, t')) : Holds blocks t' := by
  unfold readInode at hread
  obtain ⟨⟨bytes, t₁⟩, hget₁, hread⟩ := bind_eq_ok.mp hread
  obtain ⟨array, -, hread⟩ := bind_eq_ok.mp hread
  obtain ⟨type, -, hread⟩ := bind_eq_ok.mp hread
  obtain ⟨size, -, hread⟩ := bind_eq_ok.mp hread
  obtain ⟨⟨bytes', t₂⟩, hget₂, hread⟩ := bind_eq_ok.mp hread
  obtain ⟨inode', -, hread⟩ := bind_eq_ok.mp hread
  obtain ⟨-, rfl⟩ := Prod.mk.inj (Except.ok.inj hread)
  exact holds_getSlice (holds_getSlice h hget₁) hget₂

/-- From some fuel on, the inode of a reference is read, whatever has been read before. -/
theorem readInode_at {ref : ℕ} {inode : Inode} (h : InodeAt blocks ref inode) :
    ∃ n, ∀ fuel ≥ n, ∀ {t}, Holds blocks t →
      ∃ t', readInode p D fuel t ref = .ok (inode, t') := by
  obtain ⟨hfound, hq, href, hsound, hbytes⟩ := h
  rename_i k offset q w
  obtain ⟨hk, hget⟩ := List.getElem?_eq_some_iff.mp hq
  have hdrop := List.drop_eq_getElem_cons hk
  rw [hget] at hdrop
  obtain ⟨size, hsize, hlength, htwo⟩ := Inode.length_encode (w := w) inode
  have hle := le_of_prefix_drop hbytes (by omega)
  have htake := List.prefix_iff_eq_take.mp hbytes
  have hfirst : (q.drop offset).take 2 = (inode.encode w).take 2 := by
    rw [htake, List.take_take, min_eq_left (by omega)]
  have htype : leNat ((inode.encode w).take 2) = inode.type.code := by
    have hfield := Inode.type_encode hsound
    rw [leAt_of_le (by omega)] at hfield
    exact Except.ok.inj hfield
  refine ⟨k + 1, fun fuel hfuel t hholds => ?_⟩
  have hready := hfound.ready (p := p) (by simpa using hk) hholds (show k < fuel by omega)
  obtain ⟨t₁, hget₁, hready₁⟩ := hready.getSlice hdrop (show offset + 2 ≤ q.length by omega)
  obtain ⟨t₂, hget₂, -⟩ := hready₁.getSlice hdrop (show offset + size ≤ q.length by omega)
  rw [hfirst] at hget₁
  rw [← hlength, ← htake] at hget₂
  have harray : asArray 2 ((inode.encode w).take 2) = .ok ((inode.encode w).take 2) :=
    if_pos (by rw [List.length_take]; omega)
  refine ⟨t₂, ?_⟩
  unfold readInode
  simp only [href, hget₁, bind, Except.bind, harray, htype, InodeFileType.from_code, hsize,
    ← hlength, hget₂, Inode.from_encode hsound]

end Blocks

/-! ## Directories -/

section Directories

variable {p : Profile} {D : Decompressor} {inodes dirs : List (MetaBlock D)} {fs : Tables}
  {dir inode : Inode} {name : List Byte} {fuel root : ℕ}

/-- Tables over these blocks, whatever has been read of them. -/
structure Over (inodes dirs : List (MetaBlock D)) (fs : Tables) : Prop where
  inodeTable : Holds inodes fs.inodeTable
  directoryTable : Holds dirs fs.directoryTable

theorem keeps_readHeader {place : Place} {t : List Chunk} {offset : ℕ}
    {r : DirectoryTableHeader × List Chunk} (h : Holds dirs t)
    (hread : readHeader p D fuel place t offset = .ok r) : Holds dirs r.2 := by
  unfold readHeader at hread
  obtain ⟨start, -, hread⟩ := bind_eq_ok.mp hread
  obtain ⟨⟨bytes, t₁⟩, hget, hread⟩ := bind_eq_ok.mp hread
  obtain ⟨header, -, hread⟩ := bind_eq_ok.mp hread
  obtain rfl := Except.ok.inj hread
  exact holds_getSlice h hget

theorem keeps_readEntry {place : Place} {t : List Chunk} {offset : ℕ}
    {r : DirectoryTableEntry × ℕ × List Chunk} (h : Holds dirs t)
    (hread : readEntry p D fuel place t offset = .ok r) : Holds dirs r.2.2 := by
  unfold readEntry at hread
  obtain ⟨field, -, hread⟩ := bind_eq_ok.mp hread
  obtain ⟨start, -, hread⟩ := bind_eq_ok.mp hread
  obtain ⟨⟨bytes, t₁⟩, hget₁, hread⟩ := bind_eq_ok.mp hread
  obtain ⟨array, -, hread⟩ := bind_eq_ok.mp hread
  obtain ⟨start', -, hread⟩ := bind_eq_ok.mp hread
  obtain ⟨⟨bytes', t₂⟩, hget₂, hread⟩ := bind_eq_ok.mp hread
  obtain ⟨entry, -, hread⟩ := bind_eq_ok.mp hread
  obtain rfl := Except.ok.inj hread
  exact holds_getSlice (holds_getSlice h hget₁) hget₂

theorem keeps_scan {inodeTable : List Chunk} {place : Place} {turns : ℕ} {s : Scan} {found : Found}
    (hinodes : Holds inodes inodeTable) (h : Holds dirs s.directoryTable)
    (hscan : scan p D fuel inodeTable name place turns s = .ok found) :
    Over inodes dirs found.tables := by
  induction turns generalizing s with
  | zero => cases hscan
  | succ turns ih =>
    rw [scan] at hscan
    split_ifs at hscan with hheader hend
    · obtain ⟨⟨header, t⟩, hread, hscan⟩ := bind_eq_ok.mp hscan
      exact ih (keeps_readHeader h hread) hscan
    · obtain rfl := Except.ok.inj hscan
      exact ⟨hinodes, h⟩
    · obtain ⟨⟨entry, nameSize, t⟩, hread, hscan⟩ := bind_eq_ok.mp hscan
      have ht : Holds dirs t := keeps_readEntry h hread
      simp only at hscan
      split_ifs at hscan
      · obtain ⟨⟨inode, t'⟩, hinode, hscan⟩ := bind_eq_ok.mp hscan
        obtain rfl := Except.ok.inj hscan
        exact ⟨keeps_readInode hinodes hinode, ht⟩
      · exact ih ht hscan

/-- A search in a directory leaves readers over the same blocks. -/
theorem keeps_findEntry {found : Found} (h : Over inodes dirs fs)
    (hfind : findEntryInDirectory p D fuel fs dir name = .ok found) :
    Over inodes dirs found.tables := by
  unfold findEntryInDirectory at hfind
  rcases hplace : dir.place with - | place
  · rw [hplace] at hfind
    obtain rfl := Except.ok.inj hfind
    exact h
  rw [hplace] at hfind
  simp only at hfind
  split_ifs at hfind
  · obtain rfl := Except.ok.inj hfind
    exact h
  · obtain ⟨⟨header, t⟩, hread, hscan⟩ := bind_eq_ok.mp hfind
    exact keeps_scan h.inodeTable (keeps_readHeader h.directoryTable hread) hscan

/-- By the format, the inode of a name in a directory; the entry can be read from the block that the
listing starts in, as can the names before it. -/
inductive EntryAt (inodes dirs : List (MetaBlock D)) (dir : Inode) (name : List Byte)
    (inode : Inode) : Prop
  | intro {place : Place} {k : ℕ} {l : Listing} (m : FirstMatch l name)
      (place_eq : dir.place = some place) (stored : Stored dirs k place l) (found : Findable dirs k)
      (readable : ∀ q qs, (payloads dirs).drop k = q :: qs →
        m.ReadableAt q qs place.directoryOffset)
      (utf8 : ∀ e ∈ m.visited, isUtf8 e.name)
      (inode_eq : InodeAt inodes (reference m.header m.entry) inode)

/-- From some fuel on, a name is found, whatever has been read before. -/
theorem findEntry_at (h : EntryAt inodes dirs dir name inode) :
    ∃ n, ∀ fuel ≥ n, ∀ {fs}, Over inodes dirs fs → ∃ found,
      findEntryInDirectory p D fuel fs dir name = .ok found ∧ found.inode = some inode := by
  obtain ⟨m, hplace, hstored, hfound, hreadable, hutf8, hinode⟩ := h
  rename_i place k l
  obtain ⟨n, hread⟩ := readInode_at (p := p) hinode
  obtain ⟨q, qs, hq⟩ := hstored.exists_blocks
  have hsize := hstored.size_eq
  refine ⟨n + k + Listing.turns m.before + m.entriesBefore.length + 2,
    fun fuel hfuel fs hover => ?_⟩
  obtain ⟨t', hread⟩ := hread fuel (by omega) hover.inodeTable
  have hready : Ready p fuel dirs place.directoryBlock k fs.directoryTable := by
    rw [hstored.block_eq]
    exact hfound.ready hstored.block_lt hover.directoryTable (by omega)
  obtain ⟨turns, hturns⟩ : ∃ turns, fuel + 1 =
      turns + 1 + (Listing.turns m.before + (1 + m.entriesBefore.length)) :=
    ⟨fuel - (Listing.turns m.before + (1 + m.entriesBefore.length)), by omega⟩
  have hstart : Squashfs.Sound p fuel dirs place k l.bytes.length
      ⟨⟨0, 0, 0⟩, 0, 0, fs.directoryTable, []⟩ := ⟨hready, by simp⟩
  obtain ⟨found, hscan, -, hinode⟩ := scan_found hq hstored (hreadable q qs hq) hutf8 hstart rfl rfl
    hread turns
  refine ⟨found, ?_, hinode⟩
  rw [findEntry_eq_scan hplace (by omega), hturns, hscan]

/-! ## Paths -/

/-- By the format, the inode of a path, the innermost name first. -/
inductive Names (inodes dirs : List (MetaBlock D)) (root : ℕ) : List (List Byte) → Inode → Prop
  | root {inode : Inode} (h : InodeAt inodes root inode) : Names inodes dirs root [] inode
  | entry {path : List (List Byte)} {dir inode : Inode} {name : List Byte}
      (h : Names inodes dirs root path dir) (hentry : EntryAt inodes dirs dir name inode) :
      Names inodes dirs root (name :: path) inode

/-- With this fuel the searches along a path come to the inode, whatever has been read before. -/
inductive Resolves (p : Profile) (inodes dirs : List (MetaBlock D)) (root fuel : ℕ) :
    List (List Byte) → Inode → Prop
  | root {inode : Inode} (h : ∀ {t}, Holds inodes t →
      ∃ t', readInode p D fuel t root = .ok (inode, t')) : Resolves p inodes dirs root fuel [] inode
  | entry {path : List (List Byte)} {dir inode : Inode} {name : List Byte}
      (h : Resolves p inodes dirs root fuel path dir)
      (hentry : ∀ {fs}, Over inodes dirs fs → ∃ found,
        findEntryInDirectory p D fuel fs dir name = .ok found ∧ found.inode = some inode) :
      Resolves p inodes dirs root fuel (name :: path) inode

theorem resolves_of_names {path : List (List Byte)} (h : Names inodes dirs root path inode) :
    ∃ n, ∀ fuel ≥ n, Resolves p inodes dirs root fuel path inode := by
  induction h with
  | root h =>
    obtain ⟨n, hread⟩ := readInode_at (p := p) h
    exact ⟨n, fun fuel hfuel => .root (hread fuel hfuel)⟩
  | entry _ hentry ih =>
    obtain ⟨m, hdir⟩ := ih
    obtain ⟨n, hfind⟩ := findEntry_at (p := p) hentry
    exact ⟨m + n, fun fuel hfuel => .entry (hdir fuel (by omega)) (hfind fuel (by omega))⟩

end Directories

end CappuccinOS.Squashfs
