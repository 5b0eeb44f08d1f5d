import CappuccinOS.Fat.File
import CappuccinOS.Lib.Text

/-!
# FAT directories (`drivers/fs/fat.rs`)

A directory is a sequence of records of 32 bytes. `find_entry_in_directory` reads one cluster of it
and goes through the records: it collects the parts of a long name, and at the record of a file
compares the long name or, if there has been none, the 8.3 name.

1. `Record`, with the fields of `LongFileName` and `FileEntry`;
2. `turn`, `scan` and `find_entry_in_directory`, `File::lookup`;
3. `scan_eq`: the loop over the bytes is `scanRecords`, a recursion over the records;
4. `scanRecords_eq_ok`, `scanRecords_eq_err`: where a scan can end.
-/

namespace CappuccinOS.Fat

/-! ## Records -/

/-- The size of `FileEntry` and of `LongFileName`. -/
abbrev recordSize : ℕ := 32

/-- The bytes of a directory entry, which the source transmutes to a `LongFileName` or a
`FileEntry`. -/
@[ext] structure Record where
  bytes : List Byte
  length_eq : bytes.length = recordSize
  deriving DecidableEq

inductive FileEntryAttributes
  | readOnly
  | hidden
  | system
  | volumeId
  | directory
  | archive
  | longFileName

def FileEntryAttributes.value : FileEntryAttributes → ℕ
  | readOnly => 0x01
  | hidden => 0x02
  | system => 0x04
  | volumeId => 0x08
  | directory => 0x10
  | archive => 0x20
  | longFileName => 0x0F

namespace Record

variable (r : Record)

/-- The number in `size` bytes of a record. -/
def field (offset size : ℕ) : ℕ := leNat ((r.bytes.drop offset).take size)

def firstByte : ℕ := r.field 0 1

/-- `attributes` of a `FileEntry`, `attribute` of a `LongFileName`. -/
def attributes : ℕ := r.field 11 1

def fileName : List Byte := r.bytes.take 8

def extension : List Byte := (r.bytes.drop 8).take 3

/-- `first_characters`, `second_characters` and `final_characters`. -/
def characters : List ℕ :=
  [1, 3, 5, 7, 9, 14, 16, 18, 20, 22, 24, 28, 30].map fun offset => r.field offset 2

/-- The fields of the `FileEntry` that reading the file needs. -/
def fileEntry : FileEntry where
  highFirstClusterNumber := .ofNat (r.field 20 2)
  lowFirstClusterNumber := .ofNat (r.field 26 2)
  fileSize := .ofNat (r.field 28 4)

end Record

/-! ## The scan -/

/-- The variables of `find_entry_in_directory` outside its loop. -/
structure Scan where
  longFilename : List Record
  longFilenameString : Option (List Char)

/-- The state before the first record. -/
def Scan.start : Scan := ⟨[], none⟩

/-- The units of a long name: the parts from the last to the first, each without its padding. -/
def longUnits (longFilename : List Record) : List ℕ :=
  longFilename.reverse.flatMap fun part =>
    part.characters.filter fun x => x != 0xFFFF && x != 0x0000

/-- Steps 6 and 7: the parts collected so far become the long name. -/
def Scan.readLongFilename (s : Scan) : Except Fault Scan :=
  if s.longFilename.isEmpty then .ok s
  else
    match fromUtf16 (longUnits s.longFilename) with
    | none => .error (.panic .unwrap)
    | some string => .ok ⟨[], some string⟩

/-- `core::str::from_utf8(..).unwrap().trim_end()`. -/
def rawShort (bytes : List Byte) : Except Fault (List Char) :=
  match fromUtf8 bytes with
  | none => .error (.panic .unwrap)
  | some string => .ok (trimEnd string)

def Record.formattedShortFilename (r : Record) : Except Fault (List Char) := do
  let rawShortFilename ← rawShort r.fileName
  let rawShortExtension ← rawShort r.extension
  if rawShortExtension.isEmpty then .ok rawShortFilename
  else .ok (rawShortFilename ++ '.' :: rawShortExtension)

/-- The comparison with `name`: by the long name if there is one. -/
def Scan.accepts (t : CaseTable) (name short : List Char) (s : Scan) : Bool :=
  match s.longFilenameString with
  | some filename => filename == name
  | none => t.toUppercase name == short

/-- What a turn of the loop comes to. -/
inductive Turn
  | stop
  | next (s : Scan)
  | found (r : Record)

section Find

variable (p : Profile) (t : CaseTable) (name : List Char)

/-- A turn of the loop of `find_entry_in_directory`. -/
def turn (s : Scan) (r : Record) : Except Fault Turn :=
  if r.firstByte = 0x00 then .ok .stop
  else if r.firstByte = 0xE5 then .ok (.next s)
  else if r.attributes = FileEntryAttributes.longFileName.value then
    .ok (.next { s with longFilename := s.longFilename ++ [r] })
  else do
    let s ← s.readLongFilename
    let short ← r.formattedShortFilename
    if s.accepts t name short then .ok (.found r) else .ok (.next s)

/-- The loop of `find_entry_in_directory`, from record `i` on. -/
def scan (dataSector : List Byte) : ℕ → ℕ → Scan → Except Fault Record
  | 0, _, _ => .error .fuel
  | fuel + 1, i, s => do
    let bytes ← slice dataSector (i * 32) ((i + 1) * 32)
    if h : bytes.length = recordSize then do
      match ← turn t name s ⟨bytes, h⟩ with
      | .stop => .error .err
      | .next s => scan dataSector fuel (i + 1) s
      | .found r => .ok r
    else
      .error (.panic .unwrap)

/-- `find_entry_in_directory`. A turn takes 32 bytes, so that there are turns enough. -/
def FatFs.findEntryInDirectory (fs : FatFs) (cluster : ℕ) : Except Fault Record := do
  let dataSector ← fs.readCluster p cluster
  scan t name dataSector (dataSector.length + 1) 0 .start

def File.lookup (fs : FatFs) (file : File) : Except Fault File :=
  match file with
  | .dir directory => do
    let fileEntry ← fs.findEntryInDirectory p t name directory
    if fileEntry.attributes = FileEntryAttributes.directory.value then
      .ok (.dir fileEntry.fileEntry.cluster)
    else
      .ok (.archive fileEntry.fileEntry)
  | .archive _ => .error (.panic .assertion)

/-- The loop over the records that are left. -/
def scanRecords : Scan → List Record → Except Fault Record
  | _, [] => .error (.panic .bounds)
  | s, r :: rs => do
    match ← turn t name s r with
    | .stop => .error .err
    | .next s => scanRecords s rs
    | .found r => .ok r

end Find

/-! ## From bytes to records -/

section Records

variable {p : Profile} {t : CaseTable} {name : List Char} {s : Scan} {rs : List Record}

theorem length_of_mem_map_bytes : ∀ b ∈ rs.map Record.bytes, b.length = recordSize := by
  intro b hb
  obtain ⟨r, -, rfl⟩ := List.mem_map.mp hb
  exact r.length_eq

theorem length_flatMap_bytes (rs : List Record) :
    (rs.flatMap Record.bytes).length = rs.length * recordSize := by
  rw [List.flatMap_def, length_flatten_blocks length_of_mem_map_bytes, List.length_map]

theorem drop_flatMap_bytes (rs : List Record) (i : ℕ) :
    (rs.flatMap Record.bytes).drop (i * 32) = (rs.drop i).flatMap Record.bytes := by
  rw [List.flatMap_def, List.flatMap_def, List.map_drop, flatten_drop length_of_mem_map_bytes i]

theorem take_flatMap_bytes (rs : List Record) {n : ℕ} (h : n ≤ rs.length) :
    (rs.flatMap Record.bytes).take (n * 32) = (rs.take n).flatMap Record.bytes := by
  have hlength : ((rs.take n).flatMap Record.bytes).length = n * 32 := by
    rw [length_flatMap_bytes, List.length_take, min_eq_left h]
  have hsplit : rs.flatMap Record.bytes =
      (rs.take n).flatMap Record.bytes ++ (rs.drop n).flatMap Record.bytes := by
    rw [← List.flatMap_append, List.take_append_drop]
  rw [hsplit, List.take_left' hlength]

theorem slice_flatMap_bytes {r : Record} {rest : List Record} {i : ℕ} (h : rs.drop i = r :: rest) :
    slice (rs.flatMap Record.bytes) (i * 32) ((i + 1) * 32) = .ok r.bytes := by
  have hlength := congrArg List.length h
  rw [List.length_drop, List.length_cons] at hlength
  rw [slice_of_le (by omega) (by rw [length_flatMap_bytes, recordSize]; omega),
    drop_flatMap_bytes, h,
    List.flatMap_cons, List.take_left' (by rw [r.length_eq, recordSize]; omega)]

/-- The loop over the bytes of records is the recursion over the records. -/
theorem scan_eq {fuel i : ℕ} (hi : i ≤ rs.length) (hfuel : rs.length < fuel + i) :
    scan t name (rs.flatMap Record.bytes) fuel i s = scanRecords t name s (rs.drop i) := by
  induction fuel generalizing i s with
  | zero => omega
  | succ fuel ih =>
    cases hdrop : rs.drop i with
    | nil =>
      have hend := List.drop_eq_nil_iff.mp hdrop
      rw [scan, slice_of_not (by rw [length_flatMap_bytes, recordSize]; omega)]
      rfl
    | cons r rest =>
      have hlength := congrArg List.length hdrop
      rw [List.length_drop, List.length_cons] at hlength
      have hrest : rs.drop (i + 1) = rest := by
        rw [← List.drop_drop, hdrop]
        rfl
      rw [scan, slice_flatMap_bytes hdrop, scanRecords]
      simp only [bind, Except.bind, r.length_eq, dif_pos]
      cases turn t name s r with
      | error e => rfl
      | ok next =>
        cases next with
        | stop => rfl
        | next s' => exact hrest ▸ ih (by omega) (by omega)
        | found r' => rfl

theorem FatFs.findEntryInDirectory_eq {fs : FatFs} {cluster : ℕ}
    (hread : fs.readCluster p cluster = .ok (rs.flatMap Record.bytes)) :
    fs.findEntryInDirectory p t name cluster = scanRecords t name .start rs := by
  have hfuel : rs.length < (rs.flatMap Record.bytes).length + 1 + 0 := by
    rw [length_flatMap_bytes, recordSize]
    omega
  unfold findEntryInDirectory
  rw [hread]
  exact scan_eq (Nat.zero_le _) hfuel

end Records

/-! ## Where a scan ends -/

section Ends

variable {t : CaseTable} {name : List Char} {s : Scan} {r : Record} {rs : List Record}

/-- A zero record stops the loop; any other is taken or passed over. -/
theorem turn_cases {next : Turn} (h : turn t name s r = .ok next) :
    r.firstByte = 0 ∧ next = .stop ∨
      r.firstByte ≠ 0 ∧ (next = .found r ∨ ∃ s', next = .next s') := by
  unfold turn at h
  split_ifs at h with hzero hdeleted hlong
  · cases h
    exact .inl ⟨hzero, rfl⟩
  · cases h
    exact .inr ⟨hzero, .inr ⟨_, rfl⟩⟩
  · cases h
    exact .inr ⟨hzero, .inr ⟨_, rfl⟩⟩
  · obtain ⟨s', -, h⟩ := bind_eq_ok.mp h
    obtain ⟨short, -, h⟩ := bind_eq_ok.mp h
    split_ifs at h with haccepts
    · cases h
      exact .inr ⟨hzero, .inl rfl⟩
    · cases h
      exact .inr ⟨hzero, .inr ⟨_, rfl⟩⟩

theorem turn_ne_err (t : CaseTable) (name : List Char) (s : Scan) (r : Record) :
    turn t name s r ≠ .error .err := by
  have hraw : ∀ bytes, rawShort bytes ≠ .error .err := by
    intro bytes
    unfold rawShort
    split <;> simp
  have hlong : s.readLongFilename ≠ .error .err := by
    unfold Scan.readLongFilename
    split_ifs
    · simp
    · split <;> simp
  unfold turn
  split_ifs
  · simp
  · simp
  · simp
  · refine bind_ne_error hlong fun s' => ?_
    refine bind_ne_error ?_ fun short => by split_ifs <;> simp
    refine bind_ne_error (hraw _) fun rawShortFilename => ?_
    refine bind_ne_error (hraw _) fun rawShortExtension => ?_
    split_ifs <;> simp

/-- A record that is found stands before every zero record. -/
theorem scanRecords_eq_ok (h : scanRecords t name s rs = .ok r) :
    r ∈ rs.takeWhile fun r => r.firstByte ≠ 0 := by
  induction rs generalizing s with
  | nil => cases h
  | cons r' rs ih =>
    rw [scanRecords] at h
    obtain ⟨next, hturn, h⟩ := bind_eq_ok.mp h
    obtain ⟨-, rfl⟩ | ⟨hne, hnext⟩ := turn_cases hturn
    · cases h
    · rw [List.takeWhile_cons_of_pos (by simpa using hne)]
      obtain rfl | ⟨s', rfl⟩ := hnext
      · cases h
        exact List.mem_cons_self
      · exact List.mem_cons_of_mem _ (ih h)

theorem scanRecords_eq_err (h : scanRecords t name s rs = .error .err) :
    ∃ r ∈ rs, r.firstByte = 0 := by
  induction rs generalizing s with
  | nil => cases h
  | cons r rs ih =>
    rw [scanRecords] at h
    cases hturn : turn t name s r with
    | error e =>
      rw [hturn] at h
      cases h
      exact absurd hturn (turn_ne_err _ _ _ _)
    | ok next =>
      rw [hturn] at h
      obtain ⟨hzero, rfl⟩ | ⟨-, rfl | ⟨s', rfl⟩⟩ := turn_cases hturn
      · exact ⟨r, List.mem_cons_self, hzero⟩
      · cases h
      · obtain ⟨r', hr', hzero⟩ := ih h
        exact ⟨r', List.mem_cons_of_mem _ hr', hzero⟩

end Ends

/-! ## A volume with one directory -/

open Storage

/-- A FAT16 volume with clusters of one sector; the bytes are those from cluster 2 on. -/
def dirVolume (fat : List ℕ) (bytes : List Byte) : FatFs :=
  ⟨.gptPartition ⟨0, 64⟩ ⟨fun a => bytes.getD (a - 1024) 0, fun _ _ => true⟩, some fat,
    ⟨512, 1, 1, 1, 0, 1⟩, .fat16⟩

theorem window_getD (l : List Byte) {base i n : ℕ} (h : i + n ≤ l.length) :
    window (fun a => l.getD (a - base) 0) (base + i) n = (l.drop i).take n := by
  apply List.ext_getElem
  · rw [length_window, List.length_take, List.length_drop]
    omega
  · intro k hk hk'
    rw [length_window] at hk
    have hindex : base + i + k - base = i + k := by omega
    simp only [window, List.getElem_map, List.getElem_range', one_mul, hindex, List.getElem_take,
      List.getElem_drop]
    exact List.getD_eq_getElem _ _ (by omega)

theorem readCluster_dirVolume (fat : List ℕ) {rs : List Record} {c : ℕ} (h2 : 2 ≤ c) (h3 : c ≤ 3)
    (hrs : 16 * (c - 1) ≤ rs.length) :
    (dirVolume fat (rs.flatMap Record.bytes)).readCluster .dev c =
      .ok (((rs.drop (16 * (c - 2))).take 16).flatMap Record.bytes) := by
  have hbytes := length_flatMap_bytes rs
  rw [recordSize] at hbytes
  have hwindow : window (fun a => (rs.flatMap Record.bytes).getD (a - 1024) 0) (512 * c) 512 =
      ((rs.drop (16 * (c - 2))).take 16).flatMap Record.bytes := by
    have hfrom := @window_getD (rs.flatMap Record.bytes) 1024 (16 * (c - 2) * 32) 512 (by omega)
    have hcut := @take_flatMap_bytes (rs.drop (16 * (c - 2))) 16 (by rw [List.length_drop]; omega)
    rw [show 512 * c = 1024 + 16 * (c - 2) * 32 by omega, hfrom, drop_flatMap_bytes, ← hcut]
  rw [← hwindow]
  interval_cases c <;>
    simp [FatFs.readCluster, FatFs.clusterToSector, FatFs.firstDataSector,
      BIOSParameterBlock.rootDirSectors, dirVolume, FatFs.sectorsPerFat, Profile.fit,
      Profile.subFit, Profile.add, Partition.read, BlockDevice.read, wordSize, sectorSize,
      bind, Except.bind]

/-- The record that ends a directory. -/
def zeroRecord : Record := ⟨List.replicate 32 0, by simp⟩

/-- The record of an empty file; the first byte is its name. -/
def oneLetter (b : Byte) : Record :=
  ⟨b :: List.replicate 10 0x20 ++ 0x20 :: List.replicate 20 0, by simp⟩

theorem formattedShortFilename_oneLetter {b : Byte} (hb : 0x20 < b.toNat ∧ b.toNat < 0x7F) :
    (oneLetter b).formattedShortFilename = .ok [asciiChar b] := by
  have hname : fromUtf8 (oneLetter b).fileName = some (asciiChar b :: List.replicate 7 ' ') := by
    refine (fromUtf8_ascii ?_).trans rfl
    intro c hc
    have hc' : c = b ∨ c = 0x20#8 := by simpa [oneLetter, Record.fileName] using hc
    obtain rfl | rfl := hc'
    · omega
    · decide
  have hextension : fromUtf8 (oneLetter b).extension = some (List.replicate 3 ' ') := by
    rw [show (oneLetter b).extension = List.replicate 3 0x20#8 from rfl]
    exact fromUtf8_ascii (by decide)
  have hblank : isWhitespace (asciiChar b) = false := by
    have hnat : (asciiChar b).toNat = b.toNat := toNat_ofNat (.inl (by omega))
    simp only [isWhitespace, hnat, decide_eq_false_iff_not]
    omega
  have htrim : trimEnd (asciiChar b :: List.replicate 7 ' ') = [asciiChar b] := by
    simp [trimEnd, List.rdropWhile, hblank, List.replicate, show isWhitespace ' ' = true from rfl]
  unfold Record.formattedShortFilename rawShort
  rw [hname, hextension]
  simp only [bind, Except.bind, htrim]
  rfl

end CappuccinOS.Fat
