import CappuccinOS.Squashfs.Walk
import CappuccinOS.Vfs.Content

/-!
# The initramfs

The kernel mounts the image that the boot loader has put into memory at the root, opens paths in it
and reads the files. The bytes of the image do not change.

1. `Squashfs.image`: what a read uses of an open image, and `image_tables`: these are the fields of
   `Squashfs`.
2. `VNode::read` and `File::read_all` on an inode; `readAll_served`: a file that the format and
   `Inode::read` agree on is read whole.
3. `imageContent`: the paths of an image are the content of its volume.
4. `initramfs_serves`: from the image in memory to the bytes of a file, over every run that leaves
   the way to it clear.
-/

namespace CappuccinOS.Squashfs

/-! ## Reading -/

/-- The tables behind the fragment table begin here. -/
def SquashfsSuperblock.fragEnd (superblock : SquashfsSuperblock) : ℕ :=
  if superblock.exportTable ≠ noTable then superblock.exportTable else superblock.idTable

/-- What `Inode::read` uses of an open image. -/
def image (fs : Squashfs) (memory : ℕ → Byte) : Image where
  start := fs.start
  memory := memory
  inodeTable := fs.superblock.inodeTable
  fragTable :=
    if fs.superblock.fragTable ≠ noTable then some (fs.superblock.fragTable, fs.superblock.fragEnd)
    else none
  uncompressedDataBlocks := fs.superblock.features.uncompressedDataBlocks
  uncompressedFragments := fs.superblock.features.uncompressedFragments

def Inode.len : Inode → Except Fault ℕ
  | .basicFile file => .ok file.fileSize
  | _ => .error (.panic .assertion)

section Calls

variable (p : Profile) (D : Decompressor) (img : Image)

def Inode.read (inode : Inode) (count offset : ℕ) : Except Fault (List Byte) :=
  match inode with
  | .basicFile file => file.read p D img count offset
  | _ => .error (.panic .assertion)

def vnodeRead (inode : Inode) (count offset : ℕ) : Except Fault (List Byte) := do
  let len ← inode.len
  if offset ≥ len ∨ count > len then .error .err
  else do
    let stop ← arith (p.add count offset)
    if stop > len then .error .err
    else inode.read p D img count offset

/-- `File::read_all` of an open file. -/
def readAll (inode : Inode) (offset : ℕ) : Except Fault (List Byte) := do
  let len ← inode.len
  let count ← arith (p.sub len offset)
  vnodeRead p D img inode count offset

end Calls

section Read

variable {p : Profile} {D : Decompressor} {img : Image} {blockSize : ℕ} {file : BasicFileInode}

/-- What `VNode::read` answers for a file that is read right: its content, inside the file. -/
theorem vnodeRead_served (f : File D img blockSize file) (h : f.Served) (count offset : ℕ) :
    vnodeRead p D img (.basicFile file) count offset =
      if offset < file.fileSize ∧ offset + count ≤ file.fileSize then
        .ok ((f.content.drop offset).take count)
      else .error .err := by
  have hsize := f.fileSize_lt
  unfold vnodeRead
  simp only [Inode.len, bind, Except.bind]
  by_cases hrange : offset ≥ file.fileSize ∨ count > file.fileSize
  · rw [if_pos hrange, if_neg (by omega)]
  · rw [if_neg hrange, Profile.add_of_lt p (by unfold wordSize; omega), arith_ok]
    simp only []
    by_cases hstop : count + offset > file.fileSize
    · rw [if_pos hstop, if_neg (by omega)]
    · rw [if_neg hstop, if_pos (by omega)]
      exact h.read (by omega) (by omega)

theorem readAll_served (f : File D img blockSize file) (h : f.Served) {offset : ℕ}
    (hoffset : offset < file.fileSize) :
    readAll p D img (.basicFile file) offset = .ok (f.content.drop offset) := by
  unfold readAll
  simp only [Inode.len, bind, Except.bind]
  rw [Profile.sub_of_le p hoffset.le, arith_ok]
  simp only []
  rw [vnodeRead_served f h, if_pos (by omega),
    List.take_of_length_le (by rw [List.length_drop, f.content_length])]

end Read

/-! ## The tables of an image -/

theorem slice_window_eq {f : ℕ → Byte} {a n i j : ℕ} {bytes : List Byte}
    (h : slice (window f a n) i j = .ok bytes) : bytes = window f (a + i) (j - i) := by
  unfold slice at h
  split_ifs at h with hle
  obtain ⟨hij, hj⟩ := hle
  rw [length_window] at hj
  rw [← Except.ok.inj h, drop_window, take_window f (by omega)]

theorem Filled.store_fragmentTable {filled filled' : Filled} {wholeTable : List Byte}
    {table : Table} (h : filled.store wholeTable table = .ok filled') (hne : table ≠ .frag) :
    filled'.fragmentTable = filled.fragmentTable := by
  cases table with
  | frag => exact absurd rfl hne
  | inode =>
    obtain ⟨reader, -, h⟩ := bind_eq_ok.mp h
    obtain rfl := Except.ok.inj h
    rfl
  | dir =>
    obtain ⟨reader, -, h⟩ := bind_eq_ok.mp h
    obtain rfl := Except.ok.inj h
    rfl
  | exports | id | xattr =>
    obtain rfl := Except.ok.inj h
    rfl

theorem fill_fragmentTable {data : List Byte} {tables : List (Table × ℕ)} {filled filled' : Filled}
    (h : fill data tables filled = .ok filled') (hnone : ∀ entry ∈ tables, entry.1 ≠ .frag) :
    filled'.fragmentTable = filled.fragmentTable := by
  induction tables generalizing filled with
  | nil =>
    obtain rfl := Except.ok.inj h
    rfl
  | cons entry tables ih =>
    obtain ⟨wholeTable, -, h⟩ := bind_eq_ok.mp h
    obtain ⟨filled₁, hstore, h⟩ := bind_eq_ok.mp h
    rw [ih h fun e he => hnone e (List.mem_cons_of_mem _ he),
      Filled.store_fragmentTable hstore (hnone entry List.mem_cons_self)]

theorem fill_frag {data : List Byte} {before behind : List (Table × ℕ)} {offset : ℕ}
    {filled filled' : Filled}
    (h : fill data (before ++ (.frag, offset) :: behind) filled = .ok filled')
    (hnone : ∀ entry ∈ behind, entry.1 ≠ .frag) :
    ∃ bytes, slice data offset (tableEnd data behind) = .ok bytes ∧
      filled'.fragmentTable = some bytes := by
  induction before generalizing filled with
  | nil =>
    obtain ⟨wholeTable, hslice, h⟩ := bind_eq_ok.mp h
    obtain ⟨filled₁, hstore, h⟩ := bind_eq_ok.mp h
    refine ⟨wholeTable, hslice, ?_⟩
    rw [fill_fragmentTable h hnone, ← Except.ok.inj hstore]
  | cons entry before ih =>
    obtain ⟨wholeTable, -, h⟩ := bind_eq_ok.mp h
    obtain ⟨filled₁, -, h⟩ := bind_eq_ok.mp h
    exact ih h

namespace SquashfsSuperblock

variable (superblock : SquashfsSuperblock)

/-- The tables behind the fragment table. -/
def behindFrag : List (Table × ℕ) :=
  (if superblock.exportTable ≠ noTable then [(.exports, superblock.exportTable)] else []) ++
    ([(.id, superblock.idTable)] ++
      (if superblock.xattrTable ≠ noTable then [(.xattr, superblock.xattrTable)] else []))

theorem tables_eq : superblock.tables =
    [(.inode, superblock.inodeTable), (.dir, superblock.dirTable)] ++
      ((if superblock.fragTable ≠ noTable then [(.frag, superblock.fragTable)] else []) ++
        superblock.behindFrag) := by
  simp only [tables, behindFrag, List.append_assoc]

theorem behindFrag_ne (entry : Table × ℕ) (h : entry ∈ superblock.behindFrag) :
    entry.1 ≠ .frag := by
  have hsingle : ∀ {P : Prop} [Decidable P] {x : Table × ℕ},
      entry ∈ (if P then [x] else []) → entry = x := by
    intro P _ x hmem
    split_ifs at hmem
    · exact List.mem_singleton.mp hmem
    · cases hmem
  unfold behindFrag at h
  rcases List.mem_append.mp h with h | h
  · rw [hsingle h]
    exact Table.noConfusion
  · rcases List.mem_append.mp h with h | h
    · rw [List.mem_singleton.mp h]
      exact Table.noConfusion
    · rw [hsingle h]
      exact Table.noConfusion

theorem tableEnd_behindFrag (data : List Byte) :
    tableEnd data superblock.behindFrag = superblock.fragEnd := by
  unfold behindFrag fragEnd
  by_cases hexports : superblock.exportTable ≠ noTable
  · rw [if_pos hexports, if_pos hexports]
    rfl
  · rw [if_neg hexports, if_neg hexports]
    rfl

end SquashfsSuperblock

/-- A read works on the tables that `Squashfs::new` has cut out. -/
theorem image_tables {memory : ℕ → Byte} {ptr : ℕ} {fs : Squashfs}
    (h : Squashfs.new memory ptr = .ok fs) :
    (fs.image memory).dataTable = fs.dataTable ∧
      (fs.image memory).fragmentTable = fs.fragmentTable := by
  unfold Squashfs.new at h
  obtain ⟨superblock, -, h⟩ := bind_eq_ok.mp h
  split_ifs at h
  obtain ⟨dataTable, hdata, h⟩ := bind_eq_ok.mp h
  obtain ⟨filled, hfill, h⟩ := bind_eq_ok.mp h
  have hfrag : (if superblock.fragTable ≠ noTable then
      some (superblock.fragTable, superblock.fragEnd) else none).map (fun table =>
        window memory (ptr + table.1) (table.2 - table.1)) = filled.fragmentTable := by
    rw [superblock.tables_eq] at hfill
    by_cases hthere : superblock.fragTable ≠ noTable
    · rw [if_pos hthere] at hfill ⊢
      rw [List.singleton_append] at hfill
      obtain ⟨bytes, hslice, hbytes⟩ := fill_frag hfill superblock.behindFrag_ne
      rw [superblock.tableEnd_behindFrag] at hslice
      rw [hbytes, slice_window_eq hslice, Option.map_some]
    · rw [if_neg hthere] at hfill ⊢
      rw [fill_fragmentTable hfill]
      · rfl
      · intro entry hentry
        rcases List.mem_append.mp hentry with hentry | hentry
        · rcases List.mem_cons.mp hentry with rfl | hentry
          · exact Table.noConfusion
          · rw [List.mem_singleton.mp hentry]
            exact Table.noConfusion
        · exact superblock.behindFrag_ne entry hentry
  rcases hinode : filled.inodeTable with - | inodeTable
  · rw [hinode] at h
    cases h
  rcases hdir : filled.directoryTable with - | directoryTable
  · rw [hinode, hdir] at h
    cases h
  rw [hinode, hdir] at h
  obtain rfl := Except.ok.inj h
  exact ⟨(slice_window_eq hdata).symm, hfrag⟩

/-- By the format, the inode of a path in an image. -/
def Archive.Names {D : Decompressor} (a : Archive D) (path : List (List Byte)) (inode : Inode) :
    Prop :=
  Squashfs.Names a.inodes (a.dirs ++ a.blocksBehind .dir) a.rootInode.toNat path inode

end CappuccinOS.Squashfs

namespace CappuccinOS.Vfs.Volumes

variable {p : Profile} {features : Fat.KernelFeatures} {Z : Squashfs.Decompressor} {fuel : ℕ}
  {t : CaseTable} {L : Layout} {inodes dirs : List (Squashfs.MetaBlock Z)} {rootInode : ℕ}
  {tables : Squashfs.Tables} {inode : Squashfs.Inode} {name : Text} {π : Path} {o : Object}

/-! ## The content of an image -/

/-- The volume of an open image. -/
def volumeOf (fs : Squashfs) : Volume :=
  .squashfs fs.superblock.rootInode ⟨fs.inodeTable, fs.directoryTable⟩

/-- A volume over these blocks, whatever has been read of them. -/
def OverImage (inodes dirs : List (Squashfs.MetaBlock Z)) (rootInode : ℕ) (vol : Volume) : Prop :=
  ∃ tables, vol = .squashfs rootInode tables ∧ Squashfs.Over inodes dirs tables

theorem OverImage.root {vol vol' : Volume} (h : OverImage inodes dirs rootInode vol)
    (hroot : (volumeOps p features Z fuel t).root vol = .ok (o, vol')) :
    OverImage inodes dirs rootInode vol' := by
  obtain ⟨tables, rfl, hover⟩ := h
  simp only [volumeOps] at hroot
  rcases hread : Squashfs.readInode p Z fuel tables.inodeTable rootInode with
    e | ⟨rootDir, inodeTable⟩
  · rw [hread] at hroot
    cases hroot
  · rw [hread] at hroot
    obtain ⟨-, rfl⟩ := Prod.mk.inj (Except.ok.inj hroot)
    exact ⟨_, rfl, Squashfs.keeps_readInode hover.inodeTable hread, hover.directoryTable⟩

theorem OverImage.mount {vol vol' : Volume} (h : OverImage inodes dirs rootInode vol)
    (hmount : (volumeOps p features Z fuel t).mount vol = .ok vol') :
    OverImage inodes dirs rootInode vol' := by
  obtain ⟨tables, rfl, hover⟩ := h
  obtain rfl := Except.ok.inj hmount
  exact ⟨tables, rfl, hover⟩

theorem keeps_inodeLookup {found : Squashfs.Found} (h : Squashfs.Over inodes dirs tables)
    (hlookup : inodeLookup p Z fuel tables inode name = .ok found) :
    Squashfs.Over inodes dirs found.tables := by
  cases inode with
  | basicFile file => cases hlookup
  | basicDirectory dir =>
    unfold inodeLookup at hlookup
    exact Squashfs.keeps_findEntry h hlookup
  | extendedDirectory dir =>
    unfold inodeLookup at hlookup
    exact Squashfs.keeps_findEntry h hlookup

theorem OverImage.lookup {vol : Volume} (h : OverImage inodes dirs rootInode vol) (o : Object)
    (name : Text) :
    OverImage inodes dirs rootInode ((volumeOps p features Z fuel t).lookup vol o name).2 := by
  obtain ⟨tables, rfl, hover⟩ := h
  have hsame : OverImage inodes dirs rootInode (.squashfs rootInode tables) := ⟨tables, rfl, hover⟩
  cases o with
  | inode inode =>
    simp only [volumeOps]
    rcases hlookup : inodeLookup p Z fuel tables inode name with e | ⟨inode', read, tables'⟩
    · exact hsame
    · have hover' := keeps_inodeLookup hover hlookup
      cases inode' <;> exact ⟨tables', rfl, hover'⟩
  | file file => cases file <;> exact hsame

theorem inodeLookup_of_found {found : Squashfs.Found} {inode' : Squashfs.Inode}
    (hfind : Squashfs.findEntryInDirectory p Z fuel tables inode (toUtf8 name) = .ok found)
    (hinode : found.inode = some inode') :
    inodeLookup p Z fuel tables inode name = .ok found := by
  cases inode with
  | basicFile file =>
    obtain rfl := Except.ok.inj hfind
    cases hinode
  | basicDirectory dir => exact hfind
  | extendedDirectory dir => exact hfind

/-- The paths of an image are the content of its volume. -/
def imageContent (p : Profile) (features : Fat.KernelFeatures) (fuel : ℕ) (t : CaseTable)
    (inodes dirs : List (Squashfs.MetaBlock Z)) (rootInode : ℕ) :
    Content (volumeOps p features Z fuel t) where
  Over := OverImage inodes dirs rootInode
  Names π o := ∃ inode, o = .inode inode ∧
    Squashfs.Resolves p inodes dirs rootInode fuel (π.map toUtf8) inode
  over_root h hroot := h.root hroot
  over_mount h hmount := h.mount hmount
  over_lookup h o name := h.lookup o name
  root := by
    rintro o ⟨inode, rfl, hresolves⟩ vol ⟨tables, rfl, hover⟩
    rw [List.map_nil] at hresolves
    cases hresolves with
    | root hread =>
      obtain ⟨inodeTable, hread⟩ := hread hover.inodeTable
      exact ⟨.squashfs rootInode { tables with inodeTable := inodeTable },
        by simp only [volumeOps, hread]⟩
  entry := by
    rintro name π o ⟨inode, rfl, hresolves⟩
    rw [List.map_cons] at hresolves
    cases hresolves with
    | @entry _ dir _ _ hdir hentry =>
      refine ⟨.inode dir, ⟨dir, rfl, hdir⟩, ?_⟩
      rintro vol ⟨tables, rfl, hover⟩
      obtain ⟨⟨inode', read, tables'⟩, hfind, hinode⟩ := hentry hover
      obtain rfl : inode' = some inode := hinode
      simp only [volumeOps, inodeLookup_of_found hfind rfl]

/-! ## From the image to a file -/

/-- The content of an image that was laid out by the format. -/
abbrev archiveContent (p : Profile) (features : Fat.KernelFeatures) (fuel : ℕ) (t : CaseTable)
    (a : Squashfs.Archive Z) : Content (volumeOps p features Z fuel t) :=
  imageContent p features fuel t a.inodes (a.dirs ++ a.blocksBehind .dir) a.rootInode.toNat

/-- An image that has any path can be mounted at the root. -/
theorem archive_mounts {a : Squashfs.Archive Z}
    (hn : (archiveContent p features fuel t a).Names π o) (L : Layout) (ptr b : ℕ) :
    ∃ st₀, addVfs (volumeOps p features Z fuel t) L .init b slash (volumeOf (a.mounted ptr)) =
        (.ok (), st₀) ∧
      ∀ way, Serving (archiveContent p features fuel t a) b [] none way st₀ := by
  have hover : (archiveContent p features fuel t a).Over (volumeOf (a.mounted ptr)) :=
    ⟨_, rfl, Squashfs.holds_fresh _, Squashfs.holds_fresh _⟩
  obtain ⟨rootDir, hrootDir⟩ := Content.names_suffix hn List.nil_suffix
  obtain ⟨vol, hroot⟩ := Content.root _ hrootDir hover
  obtain ⟨tables, rfl, -⟩ := Content.over_root _ hover hroot
  obtain ⟨st₀, hadd⟩ : ∃ st₀, addVfs (volumeOps p features Z fuel t) L .init b slash
      (volumeOf (a.mounted ptr)) = (.ok (), st₀) := by
    unfold addVfs
    rw [if_pos rfl, if_neg (by simp [State.init])]
    simp only [hroot, pushVfs]
    exact ⟨_, rfl⟩
  exact ⟨st₀, hadd, fun way => serving_root hover way hadd⟩

/-- An image by the format, in memory, is mounted at the root. From some fuel on, in every run from
there that leaves the way to an inode clear, its path is opened, and a file is read as the format
has it. -/
theorem initramfs_serves (p : Profile) (features : Fat.KernelFeatures) (t : CaseTable) (L : Layout)
    (a : Squashfs.Archive Z) {memory : ℕ → Byte} {ptr : ℕ}
    (hmem : window memory ptr a.bytes.length = a.bytes) (b : ℕ)
    (hinode : a.Names (π.map toUtf8) inode) (hne : π ≠ [])
    (hπ : ∀ name ∈ π, name ≠ dot ∧ name ≠ dotdot) :
    Squashfs.new memory ptr = .ok (a.mounted ptr) ∧
    (∃ n, ∀ fuel ≥ n, ∃ st₀, addVfs (volumeOps p features Z fuel t) L .init b slash
        (volumeOf (a.mounted ptr)) = (.ok (), st₀) ∧
      ∀ st, Undisturbed (volumeOps p features Z fuel t) L p b [] none π st₀ st →
        ∀ path, components path = π.reverse →
          ∃ st' self, vfsOpen (volumeOps p features Z fuel t) L st path = (.ok π, st') ∧
            st'.tree π = some self ∧ self.vnode = ⟨.inode inode, b⟩) ∧
    ∀ (file : Squashfs.BasicFileInode)
      (f : Squashfs.File Z ((a.mounted ptr).image memory) a.superblock.blockSize file),
      inode = .basicFile file → f.Served →
      (∀ count offset,
        Squashfs.vnodeRead p Z ((a.mounted ptr).image memory) inode count offset =
          if offset < file.fileSize ∧ offset + count ≤ file.fileSize then
            .ok ((f.content.drop offset).take count)
          else .error .err) ∧
      ∀ offset < file.fileSize,
        Squashfs.readAll p Z ((a.mounted ptr).image memory) inode offset =
          .ok (f.content.drop offset) := by
  obtain ⟨n, hresolves⟩ := Squashfs.resolves_of_names (p := p) hinode
  refine ⟨Squashfs.opened_archive a hmem, ⟨n, fun fuel hfuel => ?_⟩, ?_⟩
  · have hn : (archiveContent p features fuel t a).Names π (.inode inode) :=
      ⟨inode, rfl, hresolves fuel hfuel⟩
    obtain ⟨st₀, hadd, hserving⟩ := archive_mounts hn L ptr b
    refine ⟨st₀, hadd, fun st hrun path hpath => ?_⟩
    obtain ⟨st', self, hopen, hself, hvnode⟩ := ((hserving π).undisturbed hrun).vfsOpen_ok (L := L)
      hn hne hπ (show components path = (π ++ []).reverse by rw [List.append_nil, hpath])
    rw [List.append_nil] at hopen hself
    exact ⟨st', self, hopen, hself, hvnode⟩
  · rintro file f rfl hserved
    exact ⟨fun count offset => Squashfs.vnodeRead_served f hserved count offset,
      fun offset hoffset => Squashfs.readAll_served f hserved hoffset⟩

/-! ## The image with the file `a` -/

def oneFile : Squashfs.BasicFileInode := ⟨⟨.basicFile, 0, 2⟩, 96, 0xFFFFFFFF, 0, 2⟩

def oneRoot : Squashfs.Inode := .basicDirectory ⟨⟨.basicDirectory, 0, 1⟩, 0, 2, 24, 0, 1⟩

/-- The image at `0x1000`. -/
def oneMemory : ℕ → Byte := Squashfs.loadedAt Squashfs.oneArchive.bytes 0x1000

theorem oneArchive_names : Squashfs.oneArchive.Names [[0x61]] (.basicFile oneFile) := by
  have hroot : Squashfs.InodeAt Squashfs.oneArchive.inodes 36 oneRoot :=
    .intro (k := 0) (w := ⟨0, 0, 0⟩) (.inl rfl) rfl rfl ⟨rfl, by decide⟩ ⟨[], rfl⟩
  have hfile : Squashfs.InodeAt Squashfs.oneArchive.inodes 0 (.basicFile oneFile) :=
    .intro (k := 0) (w := ⟨0, 0, 0⟩) (.inl rfl) rfl rfl ⟨rfl, by decide⟩
      (List.prefix_iff_eq_take.mpr rfl)
  refine .entry (.root hroot) (.intro (k := 0) Squashfs.oneMatch rfl ⟨?_, rfl, rfl, ?_⟩ (.inl rfl)
    ?_ (by decide) hfile)
  · decide
  · decide
  · rintro q qs hq
    obtain ⟨rfl, -⟩ := List.cons.inj hq
    exact .of_inside (by decide)

/-- The file has its two bytes in one block at the start of the data area. -/
def oneContent : Squashfs.File (fun _ => .error .err)
    ((Squashfs.oneArchive.mounted 0x1000).image oneMemory)
    Squashfs.oneArchive.superblock.blockSize oneFile where
  sizes := [2 ^ 24 + 2]
  blocks := [[0x68, 0x69]]
  fragment := none
  content := [0x68, 0x69]
  dataBlocks := by
    have hopen := Squashfs.opened_archive Squashfs.oneArchive (Squashfs.window_loadedAt _ 0x1000)
    have hdata : ((Squashfs.oneArchive.mounted 0x1000).image oneMemory).bytes 96 2 = [0x68, 0x69] :=
      (Squashfs.image_tables hopen).1
    exact .stored (by norm_num) ⟨by norm_num, congrArg Except.ok hdata⟩ (.nil _)
  fragment_none := iff_of_true rfl rfl
  fragment_le := by simp
  content_eq := rfl
  content_length := rfl
  sizes_length := rfl
  blockOffset_none := fun _ => rfl
  blockOffset_lt := by decide
  fileSize_lt := by decide
  dataEnd_le := by decide

theorem initramfs_serves_one :
    ∃ n, ∀ fuel ≥ n, ∃ st₀, addVfs (volumeOps .dev ⟨false⟩ (fun _ => .error .err) fuel .ascii) .leaf
        .init 1 slash (volumeOf (Squashfs.oneArchive.mounted 0x1000)) = (.ok (), st₀) ∧
      (∃ st' self, vfsOpen (volumeOps .dev ⟨false⟩ (fun _ => .error .err) fuel .ascii) .leaf st₀
        ['/', 'a'] = (.ok [['a']], st') ∧ st'.tree [['a']] = some self ∧
        self.vnode = ⟨.inode (.basicFile oneFile), 1⟩) ∧
      Squashfs.readAll .dev (fun _ => .error .err)
        ((Squashfs.oneArchive.mounted 0x1000).image oneMemory) (.basicFile oneFile) 0 =
          .ok [0x68, 0x69] := by
  obtain ⟨-, ⟨n, hopen⟩, hread⟩ := initramfs_serves .dev ⟨false⟩ .ascii .leaf Squashfs.oneArchive
    (Squashfs.window_loadedAt _ 0x1000) 1 (π := [['a']]) oneArchive_names (by decide) (by decide)
  refine ⟨n, fun fuel hfuel => ?_⟩
  obtain ⟨st₀, hadd, hopen⟩ := hopen fuel hfuel
  exact ⟨st₀, hadd, hopen st₀ .refl ['/', 'a'] rfl,
    (hread oneFile oneContent rfl
      (.plain rfl rfl (.inl rfl) (by simp [oneContent]) (by decide))).2 0 (by decide)⟩

end CappuccinOS.Vfs.Volumes
