import CappuccinOS.Fat.LongName

/-!
# Looking up a name

Two things keep `find_entry_in_directory` from finding a file. The long name that it has read last
stays in a variable outside its loop, so that behind the first file with a long name no 8.3 name is
compared any more. And it reads one cluster, whose end it takes for out of range.

1. `shortName_found`: a file without a long name is found exactly when no file before it has one;
2. `Covered`: the first item that has the name, or the zero record, is in the first cluster and is
   reached;
3. `chain_found`: a lookup is right exactly then.
-/

namespace CappuccinOS.Fat

/-! ## 8.3 names -/

/-- A name in upper case and in lower case. -/
def spellings (name : List Char) : List (List Char) := [name, name.map Char.toLower]

theorem toLower_ascii {c : Char} (h : c.toNat < 128) :
    c.toLower.toNat < 128 ∧ (c.toUpper = c → c.toLower.toUpper = c) := by
  have hall : ∀ n < 128, (Char.ofNat n).toLower.toNat < 128 ∧
      ((Char.ofNat n).toUpper = Char.ofNat n → (Char.ofNat n).toLower.toUpper = Char.ofNat n) := by
    decide
  have hc := hall c.toNat h
  rwa [Char.ofNat_toNat] at hc

/-- Both spellings of a name in upper case are the name in upper case. -/
theorem toUppercase_spelling (t : CaseTable) {formatted name : List Char}
    (hupper : ∀ c ∈ formatted, c.toNat < 128 ∧ c.toUpper = c) (h : name ∈ spellings formatted) :
    t.toUppercase name = formatted := by
  rw [spellings, List.mem_cons, List.mem_singleton] at h
  obtain rfl | rfl := h
  · rw [t.toUppercase_ascii fun c hc => (hupper c hc).1]
    exact (List.map_congr_left fun c hc => (hupper c hc).2).trans (List.map_id _)
  · rw [t.toUppercase_ascii, List.map_map]
    · refine (List.map_congr_left fun c hc => ?_).trans (List.map_id _)
      exact (toLower_ascii (hupper c hc).1).2 (hupper c hc).2
    · intro c hc
      obtain ⟨d, hd, rfl⟩ := List.mem_map.mp hc
      exact (toLower_ascii (hupper d hd).1).1

section Short

variable {p : Profile} {t : CaseTable} {fs : FatFs} {cluster : ℕ} {formatted : List Char}
variable {before after : List Item} {short : ShortEntry} {zero : Record} {rest : List Record}

/-- The record of a file is no other record of a directory than that of a file. -/
theorem exists_of_mem_records {items : List Item} (h : short.record ∈ items.flatMap Item.records) :
    ∃ long short', Item.file long short' ∈ items ∧ short'.record = short.record := by
  obtain ⟨item, hitem, h⟩ := List.mem_flatMap.mp h
  cases item with
  | deleted r hr =>
    obtain rfl := List.mem_singleton.mp h
    exact absurd hr short.first_ne_deleted
  | file long short' =>
    refine ⟨long, short', hitem, ?_⟩
    cases long with
    | none => exact (List.mem_singleton.mp h).symm
    | some long =>
      obtain h | h := List.mem_append.mp h
      · exact absurd (long.isPart_of_mem h).2.2 short.not_long
      · exact (List.mem_singleton.mp h).symm

/-- The scan of a directory, at a file without a long name that no earlier item has the name of. -/
theorem scanRecords_at {name : List Char} (hread : ∀ i ∈ before, i.Readable)
    (hshort : (Item.file none short).Readable) (hnamed : (Item.file none short).Named t name)
    (hearlier : ∀ i ∈ before, ¬ i.Named t name) (rs : List Record) :
    ((∀ i ∈ before, i.long? = none) ∧ scanRecords t name .start
        (before.flatMap Item.records ++ ((Item.file none short).records ++ rs)) =
          .ok short.record) ∨
      ¬ (∀ i ∈ before, i.long? = none) ∧ ∃ st, scanRecords t name .start
        (before.flatMap Item.records ++ ((Item.file none short).records ++ rs)) =
          scanRecords t name ⟨[], st⟩ rs := by
  obtain ⟨st, hst, hnone, hscan⟩ :=
    scanRecords_items hread hearlier (Option.some_ne_none name).symm
  simp only [true_and] at hnone
  rw [Scan.start, hscan]
  by_cases hlong : ∀ i ∈ before, i.long? = none
  · exact .inl ⟨hlong, scanRecords_found hshort hnamed (.inr (hnone.mpr hlong))⟩
  · exact .inr ⟨hlong, st, scanRecords_masked hshort hst (mt hnone.mp hlong) rs⟩

theorem mem_takeWhile_append_cons {xs ys : List Record} {r : Record} (hzero : zero.firstByte = 0)
    (h : r ∈ (xs ++ zero :: ys).takeWhile fun r => r.firstByte ≠ 0) : r ∈ xs := by
  induction xs with
  | nil =>
    rw [List.nil_append, List.takeWhile_cons_of_neg (by simpa using hzero)] at h
    cases h
  | cons x xs ih =>
    rw [List.cons_append, List.takeWhile_cons] at h
    split_ifs at h with hx
    · obtain rfl | h := List.mem_cons.mp h
      · exact List.mem_cons_self
      · exact List.mem_cons_of_mem _ (ih h)
    · cases h

/-- A file without a long name, by either spelling of its 8.3 name, in a directory of one cluster:
it is found if no file before it has a long name and the names before it can be converted. If its
record is not repeated, it is not found otherwise. -/
theorem shortName_found
    (hread : fs.readCluster p cluster = .ok (((before ++ .file none short :: after).flatMap
      Item.records ++ zero :: rest).flatMap Record.bytes))
    (hzero : zero.firstByte = 0)
    (hname : short.record.formattedShortFilename = .ok formatted)
    (hupper : ∀ c ∈ formatted, c.toNat < 128 ∧ c.toUpper = c)
    (hearlier : ∀ name ∈ spellings formatted, ∀ i ∈ before, ¬ i.Named t name) :
    ((∀ i ∈ before, i.long? = none ∧ i.Readable) → ∀ name ∈ spellings formatted,
      fs.findEntryInDirectory p t name cluster = .ok short.record) ∧
    (short.record ∉ after.flatMap Item.records →
      ¬ (∀ i ∈ before, i.long? = none ∧ i.Readable) → ∀ name ∈ spellings formatted,
      fs.findEntryInDirectory p t name cluster ≠ .ok short.record) := by
  have hshort : (Item.file none short).Readable := ⟨by simp, formatted, hname⟩
  have hnamed : ∀ name ∈ spellings formatted, (Item.file none short).Named t name := by
    intro name h
    rw [Item.Named, toUppercase_spelling t hupper h]
    exact hname
  simp only [FatFs.findEntryInDirectory_eq hread, List.flatMap_append, List.flatMap_cons,
    List.append_assoc]
  constructor
  · intro hcond name h
    obtain ⟨-, hscan⟩ | ⟨hlong, -⟩ := scanRecords_at (fun i hi => (hcond i hi).2) hshort
      (hnamed name h) (hearlier name h) (after.flatMap Item.records ++ zero :: rest)
    · exact hscan
    · exact absurd (fun i hi => (hcond i hi).1) hlong
  · intro hdistinct hcond name h hfound
    by_cases hreadable : ∀ i ∈ before, i.Readable
    · obtain ⟨hlong, -⟩ | ⟨-, st, hscan⟩ := scanRecords_at hreadable hshort
        (hnamed name h) (hearlier name h) (after.flatMap Item.records ++ zero :: rest)
      · exact hcond fun i hi => ⟨hlong i hi, hreadable i hi⟩
      · rw [hscan] at hfound
        exact hdistinct (mem_takeWhile_append_cons hzero (scanRecords_eq_ok hfound))
    · rw [Scan.start, scanRecords_items_panic (hearlier name h) (Option.some_ne_none name).symm
        hreadable] at hfound
      cases hfound

end Short

/-- A file without a long name. -/
def plainFile (b : Byte) (hb : 0x20 < b.toNat ∧ b.toNat < 0x7F) : Item :=
  .file none (letterEntry b hb)

theorem readable_plainFile (b : Byte) (hb : 0x20 < b.toNat ∧ b.toNat < 0x7F) :
    (plainFile b hb).Readable :=
  ⟨by simp, _, formattedShortFilename_oneLetter hb⟩

theorem named_plainFile {t : CaseTable} {b : Byte} {hb : 0x20 < b.toNat ∧ b.toNat < 0x7F}
    {name : List Char} : (plainFile b hb).Named t name ↔ t.toUppercase name = [asciiChar b] := by
  have hnamed : (plainFile b hb).Named t name ↔
      (oneLetter b).formattedShortFilename = .ok (t.toUppercase name) := Iff.rfl
  rw [hnamed, formattedShortFilename_oneLetter hb, Except.ok.injEq, eq_comm]

/-- The file "B" behind the file "A", by its name and in lower case. -/
theorem plainNames_found :
    (oneCluster [plainFile 0x41 (by decide), plainFile 0x42 (by decide)]).findEntryInDirectory .dev
      .ascii ['B'] 2 = .ok (oneLetter 0x42) ∧
    (oneCluster [plainFile 0x41 (by decide), plainFile 0x42 (by decide)]).findEntryInDirectory .dev
      .ascii ['b'] 2 = .ok (oneLetter 0x42) := by
  have hupper : ∀ c ∈ ['B'], c.toNat < 128 ∧ c.toUpper = c := by
    intro c hc
    rw [List.mem_singleton.mp hc]
    exact ⟨by decide, rfl⟩
  have hearlier : ∀ name ∈ spellings ['B'], ∀ i ∈ [plainFile 0x41 (by decide)],
      ¬ i.Named .ascii name := by
    intro name hname i hi
    rw [List.mem_singleton] at hi
    subst hi
    rw [named_plainFile, toUppercase_spelling .ascii hupper hname]
    decide
  have hplain : ∀ i ∈ [plainFile 0x41 (by decide)], i.long? = none ∧ i.Readable := by
    intro i hi
    rw [List.mem_singleton] at hi
    subst hi
    exact ⟨rfl, readable_plainFile _ _⟩
  have hfound := (@shortName_found .dev .ascii _ 2 ['B'] [plainFile 0x41 (by decide)] []
    (letterEntry 0x42 (by decide)) zeroRecord _ (readCluster_oneCluster (by decide)) (by decide)
    (formattedShortFilename_oneLetter (by decide)) hupper hearlier).1 hplain
  exact ⟨hfound ['B'] (by decide), hfound ['b'] (by decide)⟩

/-- The file "B" behind the file "x", which has a long name. -/
theorem behind_longName_lost :
    (∀ name ∈ spellings ['B'], ¬ (oneUnit 0x78 (by decide) 0x58 (by decide)).Named .ascii name) ∧
      (oneCluster [oneUnit 0x78 (by decide) 0x58 (by decide),
        plainFile 0x42 (by decide)]).findEntryInDirectory .dev .ascii ['B'] 2 = .error .err := by
  have hreadable : ∀ i ∈ [oneUnit 0x78 (by decide) 0x58 (by decide)], i.Readable := by
    intro i hi
    rw [List.mem_singleton] at hi
    subst hi
    exact ⟨fun l hl => ⟨['x'], by cases hl; rfl⟩, _, formattedShortFilename_oneLetter (by decide)⟩
  refine ⟨by decide, ?_⟩
  rw [FatFs.findEntryInDirectory_eq (readCluster_oneCluster (by decide))]
  obtain ⟨hlong, -⟩ | ⟨-, st, hscan⟩ := @scanRecords_at .ascii
    [oneUnit 0x78 (by decide) 0x58 (by decide)] (letterEntry 0x42 (by decide)) ['B'] hreadable
    (readable_plainFile 0x42 (by decide)) (named_plainFile.mpr rfl) (by decide)
    (zeroRecord :: List.replicate 12 zeroRecord)
  · exact absurd (hlong _ List.mem_cons_self) (Option.some_ne_none _)
  · exact hscan.trans (scanRecords_zero _ (by decide))

/-! ## Directories of several clusters -/

/-- The record of a file. -/
def Item.short? : Item → Option Record
  | deleted _ _ => none
  | file _ short => some short.record

/-- A search of the first `room` records of a directory comes to the first item that has the name,
or to the zero record behind all items: all names up to there can be converted, and the item has a
long name, or none before it has one. -/
def Covered (t : CaseTable) (name : List Char) (room : ℕ) (items : List Item) : Prop :=
  match items.find? fun i => i.Named t name with
  | none => (∀ i ∈ items, i.Readable) ∧ (items.flatMap Item.records).length < room
  | some item => (∀ i ∈ passed t name items ++ [item], i.Readable) ∧
      ((passed t name items ++ [item]).flatMap Item.records).length ≤ room ∧
      (item.long?.isSome ∨ ∀ i ∈ passed t name items, i.long? = none)

section Chain

variable {p : Profile} {features : KernelFeatures} {t : CaseTable} {name : List Char} {fs : FatFs}
variable {cluster room : ℕ} {blocks : List (List Byte)} {items before after : List Item}
variable {long : Option LongName} {short : ShortEntry} {tail : List Record}

theorem covered_of_none (h : ∀ i ∈ items, ¬ i.Named t name) :
    Covered t name room items ↔
      (∀ i ∈ items, i.Readable) ∧ (items.flatMap Item.records).length < room := by
  rw [Covered, find?_named_of_none h]

theorem covered_of_first (hbefore : ∀ i ∈ before, ¬ i.Named t name)
    (hnamed : (Item.file long short).Named t name) :
    Covered t name room (before ++ .file long short :: after) ↔
      (∀ i ∈ before ++ [Item.file long short], i.Readable) ∧
        ((before ++ [Item.file long short]).flatMap Item.records).length ≤ room ∧
        (long.isSome ∨ ∀ i ∈ before, i.long? = none) := by
  rw [Covered, find?_named_of_first hbefore hnamed, passed_of_first hbefore hnamed]
  rfl

theorem firstByte_ne_zero {r : Record} (h : r ∈ items.flatMap Item.records) : r.firstByte ≠ 0 := by
  obtain ⟨item, -, h⟩ := List.mem_flatMap.mp h
  cases item with
  | deleted r' hr =>
    obtain rfl := List.mem_singleton.mp h
    omega
  | file long short =>
    cases long with
    | none =>
      obtain rfl := List.mem_singleton.mp h
      exact short.first_ne_zero
    | some long =>
      obtain h | h := List.mem_append.mp h
      · exact (long.isPart_of_mem h).1
      · obtain rfl := List.mem_singleton.mp h
        exact short.first_ne_zero

/-- The first cluster of a directory holds its first records. -/
theorem findEntryInDirectory_front {block rest : List Byte} {rs : List Record}
    (hread : fs.readCluster p cluster = .ok block)
    (hdata : block ++ rest = rs.flatMap Record.bytes) :
    fs.clusterSize / 32 ≤ rs.length ∧ fs.findEntryInDirectory p t name cluster =
      scanRecords t name .start (rs.take (fs.clusterSize / 32)) := by
  have hsize : fs.clusterSize = fs.clusterSize / 32 * 32 := by
    unfold FatFs.clusterSize
    omega
  have hblock : block.length = fs.clusterSize / 32 * 32 := by
    rw [← hsize]
    exact FatFs.length_readCluster hread
  have hroom : fs.clusterSize / 32 ≤ rs.length := by
    have hlength := congrArg List.length hdata
    rw [List.length_append, length_flatMap_bytes, recordSize] at hlength
    omega
  have hfirst : block = (rs.take (fs.clusterSize / 32)).flatMap Record.bytes := by
    rw [← take_flatMap_bytes rs hroom, ← hdata, List.take_left' hblock]
  exact ⟨hroom, FatFs.findEntryInDirectory_eq (hfirst ▸ hread)⟩

theorem findEntryInDirectory_chain {rs : List Record} (hchain : Chain p features fs cluster blocks)
    (hdata : blocks.flatten = rs.flatMap Record.bytes) :
    fs.clusterSize / 32 ≤ rs.length ∧ fs.findEntryInDirectory p t name cluster =
      scanRecords t name .start (rs.take (fs.clusterSize / 32)) := by
  obtain ⟨block, others, rfl, hread⟩ := hchain.exists_first
  exact findEntryInDirectory_front hread (List.flatten_cons.symm.trans hdata)

/-- What is behind the items of a directory starts with a zero record. -/
theorem firstByte_of_take {z : Record} {zs : List Record} {n : ℕ}
    (htail : ∀ z ∈ tail.head?, z.firstByte = 0) (h : tail.take n = z :: zs) : z.firstByte = 0 := by
  apply htail
  have hhead := congrArg List.head? h
  rw [List.head?_take] at hhead
  split_ifs at hhead with hn
  · cases hhead
  · exact hhead

/-- The records that a scan can find, of a directory that is cut off. -/
theorem mem_of_mem_takeWhile {r : Record} {xs : List Record} {n : ℕ}
    (htail : ∀ z ∈ tail.head?, z.firstByte = 0)
    (h : r ∈ ((xs ++ tail).take n).takeWhile fun r => r.firstByte ≠ 0) : r ∈ xs := by
  rw [List.take_append] at h
  cases hcut : tail.take (n - xs.length) with
  | nil =>
    rw [hcut, List.append_nil] at h
    exact List.mem_of_mem_take ((List.takeWhile_sublist _).subset h)
  | cons z zs =>
    rw [hcut] at h
    exact List.mem_of_mem_take (mem_takeWhile_append_cons (firstByte_of_take htail hcut) h)

/-- Without an item that has the name, `Err` is the answer exactly when the zero record is in the
first cluster and all names can be converted. -/
theorem scanRecords_cut_none (htail : ∀ z ∈ tail.head?, z.firstByte = 0)
    (hroom : room ≤ (items.flatMap Item.records ++ tail).length)
    (hnone : ∀ i ∈ items, ¬ i.Named t name) :
    scanRecords t name .start ((items.flatMap Item.records ++ tail).take room) = .error .err ↔
      (∀ i ∈ items, i.Readable) ∧ (items.flatMap Item.records).length < room := by
  have hcut : (items.flatMap Item.records).length < room →
      (items.flatMap Item.records ++ tail).take room = items.flatMap Item.records ++
        tail.take (room - (items.flatMap Item.records).length) := by
    intro hlt
    rw [List.take_append, List.take_of_length_le hlt.le]
  constructor
  · intro herr
    have hlt : (items.flatMap Item.records).length < room := by
      by_contra hle
      obtain ⟨r, hr, hzero⟩ := scanRecords_eq_err herr
      rw [List.take_append_of_le_length (by omega)] at hr
      exact firstByte_ne_zero (List.mem_of_mem_take hr) hzero
    refine ⟨?_, hlt⟩
    by_contra hreadable
    rw [hcut hlt, Scan.start,
      scanRecords_items_panic hnone (Option.some_ne_none name).symm hreadable] at herr
    cases herr
  · rintro ⟨hreadable, hlt⟩
    obtain ⟨st, -, -, hscan⟩ := scanRecords_items hreadable hnone (Option.some_ne_none name).symm
    rw [List.length_append] at hroom
    obtain ⟨z, zs, hzs⟩ := List.exists_cons_of_ne_nil
      (show tail.take (room - (items.flatMap Item.records).length) ≠ [] by
        rw [← List.length_pos_iff, List.length_take]
        omega)
    rw [hcut hlt, Scan.start, hscan, hzs]
    exact scanRecords_zero _ (firstByte_of_take htail hzs)

theorem exists_parts (long : Option LongName) (short : ShortEntry) :
    ∃ parts, (Item.file long short).records = parts ++ [short.record] ∧ short.record ∉ parts := by
  cases long with
  | none => exact ⟨[], rfl, by simp⟩
  | some long =>
    exact ⟨long.records, rfl, fun h => short.not_long (long.isPart_of_mem h).2.2⟩

/-- In a directory whose files have different records, a record stands nowhere else. -/
theorem not_mem_records
    (hdistinct : ((before ++ .file long short :: after).filterMap Item.short?).Nodup) :
    short.record ∉ before.flatMap Item.records ∧ short.record ∉ after.flatMap Item.records := by
  rw [List.filterMap_append, List.filterMap_cons_some (show (Item.file long short).short? =
    some short.record from rfl), List.nodup_middle, List.nodup_cons, List.mem_append, not_or]
    at hdistinct
  have hother : ∀ {items : List Item}, short.record ∉ items.filterMap Item.short? →
      short.record ∉ items.flatMap Item.records := by
    intro items hnot hmem
    obtain ⟨long', short', hitem, hrecord⟩ := exists_of_mem_records hmem
    exact hnot (List.mem_filterMap.mpr ⟨_, hitem, congrArg some hrecord⟩)
  exact ⟨hother hdistinct.1.1, hother hdistinct.1.2⟩

/-- The first item that has the name is found if it is covered. -/
theorem scanRecords_cut_found (hbefore : ∀ i ∈ before, ¬ i.Named t name)
    (hnamed : (Item.file long short).Named t name)
    (hreadable : ∀ i ∈ before ++ [Item.file long short], i.Readable)
    (hlong : long.isSome ∨ ∀ i ∈ before, i.long? = none) (rs : List Record) :
    scanRecords t name .start (before.flatMap Item.records ++
      ((Item.file long short).records ++ rs)) = .ok short.record := by
  obtain ⟨hreadBefore, hread⟩ := List.forall_mem_append.mp hreadable
  obtain ⟨st, -, hnone, hscan⟩ :=
    scanRecords_items hreadBefore hbefore (Option.some_ne_none name).symm
  rw [Scan.start, hscan]
  refine scanRecords_found (hread _ List.mem_cons_self) hnamed (hlong.imp_right fun h => ?_)
  exact hnone.mpr ⟨rfl, h⟩

theorem covered_of_scanRecords (htail : ∀ z ∈ tail.head?, z.firstByte = 0)
    (hdistinct : ((before ++ .file long short :: after).filterMap Item.short?).Nodup)
    (hbefore : ∀ i ∈ before, ¬ i.Named t name) (hnamed : (Item.file long short).Named t name)
    (hfound : scanRecords t name .start
      ((before.flatMap Item.records ++ ((Item.file long short).records ++
        (after.flatMap Item.records ++ tail))).take room) = .ok short.record) :
    (∀ i ∈ before ++ [Item.file long short], i.Readable) ∧
      ((before ++ [Item.file long short]).flatMap Item.records).length ≤ room ∧
      (long.isSome ∨ ∀ i ∈ before, i.long? = none) := by
  obtain ⟨hnotBefore, hnotAfter⟩ := not_mem_records hdistinct
  obtain ⟨parts, hparts, hnotParts⟩ := exists_parts long short
  have hsome := (Option.some_ne_none name).symm
  have hroom : (before.flatMap Item.records).length + (Item.file long short).records.length ≤
      room := by
    by_contra hlt
    have hmem := (List.takeWhile_sublist _).subset (scanRecords_eq_ok hfound)
    rw [hparts, List.append_assoc, ← List.append_assoc, List.take_append_of_le_length (by
      rw [hparts, List.length_append, List.length_singleton] at hlt
      rw [List.length_append]
      omega)] at hmem
    obtain h | h := List.mem_append.mp (List.mem_of_mem_take hmem)
    · exact hnotBefore h
    · exact hnotParts h
  rw [List.take_append, List.take_of_length_le (by omega), List.take_append,
    List.take_of_length_le (by omega)] at hfound
  have hreadBefore : ∀ i ∈ before, i.Readable := by
    by_contra hnot
    rw [Scan.start, scanRecords_items_panic hbefore hsome hnot] at hfound
    cases hfound
  obtain ⟨st, hst, hnone, hscan⟩ := scanRecords_items hreadBefore hbefore hsome
  rw [Scan.start, hscan] at hfound
  have hread : (Item.file long short).Readable := by
    by_contra hnot
    rw [scanRecords_of_not_readable hnot] at hfound
    cases hfound
  refine ⟨List.forall_mem_append.mpr ⟨hreadBefore, by simpa using hread⟩, ?_, ?_⟩
  · rw [List.flatMap_append, List.flatMap_singleton, List.length_append]
    exact hroom
  · by_contra hnot
    obtain ⟨hlong, hmasked⟩ := not_or.mp hnot
    obtain rfl : long = none := by simpa using hlong
    rw [scanRecords_masked hread hst fun h => hmasked (hnone.mp h).2] at hfound
    exact hnotAfter (mem_of_mem_takeWhile htail (scanRecords_eq_ok hfound))

/-- A lookup in a directory is right if the first cluster covers it; if the files have different
records, it is right only then. -/
theorem front_found {block rest : List Byte} (hread : fs.readCluster p cluster = .ok block)
    (hdata : block ++ rest = (items.flatMap Item.records ++ tail).flatMap Record.bytes)
    (htail : ∀ z ∈ tail.head?, z.firstByte = 0) :
    (Covered t name (fs.clusterSize / 32) items →
      fs.findEntryInDirectory p t name cluster = expected t name items) ∧
    ((items.filterMap Item.short?).Nodup →
      fs.findEntryInDirectory p t name cluster = expected t name items →
        Covered t name (fs.clusterSize / 32) items) := by
  obtain ⟨hroom, hfind⟩ := @findEntryInDirectory_front p t name fs cluster _ _ _ hread hdata
  rw [hfind]
  obtain hnone | ⟨before, long, short, after, rfl, hbefore, hnamed⟩ := named_cases t name items
  · rw [expected_of_none hnone, covered_of_none hnone]
    have hiff := scanRecords_cut_none htail hroom hnone
    exact ⟨hiff.mpr, fun _ => hiff.mp⟩
  · have hrecords : (before ++ .file long short :: after).flatMap Item.records ++ tail =
        before.flatMap Item.records ++ ((Item.file long short).records ++
          (after.flatMap Item.records ++ tail)) := by
      rw [List.flatMap_append, List.flatMap_cons, List.append_assoc, List.append_assoc]
    rw [expected_of_first hbefore hnamed, covered_of_first hbefore hnamed, hrecords]
    refine ⟨?_, fun hdistinct => covered_of_scanRecords htail hdistinct hbefore hnamed⟩
    rintro ⟨hreadable, hlength, hlong⟩
    rw [List.flatMap_append, List.flatMap_singleton, List.length_append] at hlength
    rw [List.take_append, List.take_of_length_le (by omega), List.take_append,
      List.take_of_length_le (by omega)]
    exact scanRecords_cut_found hbefore hnamed hreadable hlong _

/-- A lookup in a directory, whatever its chain of clusters, is right if the first cluster covers
it; if the files have different records, it is right only then. -/
theorem chain_found (hchain : Chain p features fs cluster blocks)
    (hdata : blocks.flatten = (items.flatMap Item.records ++ tail).flatMap Record.bytes)
    (htail : ∀ z ∈ tail.head?, z.firstByte = 0) :
    (Covered t name (fs.clusterSize / 32) items →
      fs.findEntryInDirectory p t name cluster = expected t name items) ∧
    ((items.filterMap Item.short?).Nodup →
      fs.findEntryInDirectory p t name cluster = expected t name items →
        Covered t name (fs.clusterSize / 32) items) := by
  obtain ⟨block, others, rfl, hread⟩ := hchain.exists_first
  exact front_found hread (List.flatten_cons.symm.trans hdata) htail

end Chain

/-! ## A directory of two clusters -/

/-- The files "A", "B" and so on. -/
def letter (i : Fin 17) : Item :=
  plainFile (.ofNat 8 (0x41 + i)) (by rw [BitVec.toNat_ofNat]; omega)

/-- The files "A" to "Q". The sixteen up to "P" fill a cluster. -/
def letters : List Item := (List.finRange 17).map letter

/-- The records of a directory with these files. -/
def letterRecords : List Record := letters.flatMap Item.records ++ List.replicate 15 zeroRecord

def letterVolume : FatFs :=
  dirVolume [0xFFF0, 0xFFFF, 3, 0xFFFF] (letterRecords.flatMap Record.bytes)

theorem letterVolume_chain : Chain .dev ⟨true⟩ letterVolume 2
    [(letterRecords.take 16).flatMap Record.bytes,
      ((letterRecords.drop 16).take 16).flatMap Record.bytes] := by
  have hlength : letterRecords.length = 32 := by rfl
  have h2 : letterVolume.getNextCluster .dev ⟨true⟩ 2 = .ok 3 := rfl
  have h3 : letterVolume.getNextCluster .dev ⟨true⟩ 3 = .ok 0xFFFF := rfl
  refine .more (readCluster_dirVolume _ le_rfl (by norm_num) (by rw [hlength]; norm_num)) h2
    (by decide) ?_
  exact .last (readCluster_dirVolume _ (by norm_num) le_rfl (by rw [hlength])) h3 (by decide)

theorem letterVolume_flatten : [(letterRecords.take 16).flatMap Record.bytes,
    ((letterRecords.drop 16).take 16).flatMap Record.bytes].flatten =
      letterRecords.flatMap Record.bytes := by
  have hrest : (letterRecords.drop 16).take 16 = letterRecords.drop 16 :=
    List.take_of_length_le (by rfl)
  rw [hrest, List.flatten_cons, List.flatten_singleton, ← List.flatMap_append,
    List.take_append_drop]

/-- The file "A". -/
theorem first_letter_found :
    letterVolume.findEntryInDirectory .dev .ascii ['A'] 2 = expected .ascii ['A'] letters := by
  have hletters : letters = [] ++ letter 0 :: (List.finRange 17).tail.map letter := rfl
  have hnamed : (letter 0).Named .ascii ['A'] := named_plainFile.mpr rfl
  refine (chain_found letterVolume_chain letterVolume_flatten (by decide)).1 ?_
  rw [hletters]
  refine (covered_of_first (by simp) hnamed).mpr ⟨?_, ?_, .inr (by simp)⟩
  · intro i hi
    rw [List.nil_append, List.mem_singleton] at hi
    subst hi
    exact readable_plainFile _ _
  · decide

/-- The file "Q", in the second cluster: the search runs out of the first. -/
theorem second_cluster_lost :
    letterVolume.findEntryInDirectory .dev .ascii ['Q'] 2 = .error (.panic .bounds) ∧
      expected .ascii ['Q'] letters = .ok (oneLetter 0x51) := by
  have hletters : letters = (List.finRange 16).map (fun i => letter i.castSucc) ++
      letter 16 :: [] := rfl
  have hbefore : ∀ i ∈ (List.finRange 16).map (fun i => letter i.castSucc),
      ¬ i.Named .ascii ['Q'] := by
    intro i hi
    obtain ⟨k, -, rfl⟩ := List.mem_map.mp hi
    have hother : ∀ k : Fin 16, CaseTable.ascii.toUppercase ['Q'] ≠
        [asciiChar (.ofNat 8 (0x41 + k.castSucc))] := by decide
    exact mt named_plainFile.mp (hother k)
  have hreadable : ∀ i ∈ (List.finRange 16).map (fun i => letter i.castSucc), i.Readable := by
    intro i hi
    obtain ⟨k, -, rfl⟩ := List.mem_map.mp hi
    exact readable_plainFile _ _
  constructor
  · obtain ⟨st, -, -, hscan⟩ := scanRecords_items hreadable hbefore (Option.some_ne_none ['Q']).symm
    rw [(findEntryInDirectory_chain letterVolume_chain letterVolume_flatten).2]
    exact hscan []
  · rw [hletters]
    exact expected_of_first hbefore (named_plainFile.mpr rfl)

end CappuccinOS.Fat
