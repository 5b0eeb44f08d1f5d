import CappuccinOS.Fat.Directory

/-!
# Long names

The VFAT format puts the name of a file, 13 units of UTF-16 a record, in front of the record of the
file, the last part first. What `find_entry_in_directory` collects from these records is the name
again; it unwraps the conversion to a string, so that a name that is not UTF-16 is a panic.

1. `LongName`, its records, and `longUnits_records`: what is read back from them;
2. `Item`: a file with its records, or a deleted record;
3. `scanRecords_items`: a scan passes over items that do not have the name;
4. `named_iff`: a directory of files with long names is searched right exactly when the names up to
   the one that is looked for are UTF-16.
-/

namespace CappuccinOS.Fat

/-! ## The format -/

/-- A name in UTF-16, as it is stored: with the checksum of the 8.3 name. -/
structure LongName where
  units : List ℕ
  checksum : Byte
  units_pos : 1 ≤ units.length
  units_le : units.length ≤ 255
  units_ne : ∀ u ∈ units, u ≠ 0 ∧ u < 0xFFFF

/-- Unit `k` of a name, which is padded with one 0x0000 and then 0xFFFF. -/
def paddedUnit (units : List ℕ) (k : ℕ) : ℕ := (units ++ [0]).getD k 0xFFFF

/-- The record with 13 units. -/
def partRecord (order checksum : Byte) (unit : ℕ → ℕ) : Record where
  bytes := order :: (List.range' 0 5).flatMap (fun j => leBytes 2 (unit j)) ++
    [0x0F, 0, checksum] ++ (List.range' 5 6).flatMap (fun j => leBytes 2 (unit j)) ++
    [0, 0] ++ (List.range' 11 2).flatMap (fun j => leBytes 2 (unit j))
  length_eq := by simp [List.range', leBytes]

namespace LongName

variable (l : LongName)

/-- The number of records. -/
def count : ℕ := (l.units.length + 12) / 13

/-- The number of part `i` in its record; the last part has a mark. -/
def order (i : ℕ) : Byte := .ofNat 8 (i + 1 + if i + 1 = l.count then 0x40 else 0)

/-- The record of part `i`. -/
def part (i : ℕ) : Record :=
  partRecord (l.order i) l.checksum fun j => paddedUnit l.units (13 * i + j)

/-- The records of a name, the last part first. -/
def records : List Record := (List.range l.count).reverse.map l.part

end LongName

/-! ## Reading a name back -/

theorem characters_partRecord {order checksum : Byte} {unit : ℕ → ℕ} (h : ∀ j, unit j < 2 ^ 16) :
    (partRecord order checksum unit).characters = (List.range 13).map unit := by
  have hunit : ∀ j, (unit j) % 256 + 256 * (unit j / 256 % 256) = unit j := by
    intro j
    have := h j
    omega
  simp [partRecord, Record.characters, Record.field, leBytes, leNat, List.range', List.range,
    List.range.loop, hunit]

theorem firstByte_partRecord (order checksum : Byte) (unit : ℕ → ℕ) :
    (partRecord order checksum unit).firstByte = order.toNat := by
  simp [partRecord, Record.firstByte, Record.field, leNat]

theorem attributes_partRecord (order checksum : Byte) (unit : ℕ → ℕ) :
    (partRecord order checksum unit).attributes = FileEntryAttributes.longFileName.value := by
  simp [partRecord, Record.attributes, Record.field, leNat, leBytes, List.range',
    FileEntryAttributes.value]

theorem filter_padded {units : List ℕ} (hunits : ∀ u ∈ units, u ≠ 0 ∧ u < 0xFFFF) (n : ℕ) :
    ((List.range n).map (paddedUnit units)).filter (fun x => x != 0xFFFF && x != 0x0000) =
      units.take n := by
  induction n with
  | zero => rfl
  | succ n ih =>
    rw [List.range_succ, List.map_append, List.filter_append, ih, List.map_singleton]
    rcases Nat.lt_trichotomy n units.length with hlt | heq | hgt
    · have hunit : paddedUnit units n = units[n] := by
        rw [paddedUnit, List.getD_append _ _ _ _ hlt, List.getD_eq_getElem _ _ hlt]
      obtain ⟨hne, hffff⟩ := hunits units[n] (List.getElem_mem hlt)
      rw [hunit, List.take_succ_eq_append_getElem hlt]
      congr 1
      rw [List.filter_eq_self]
      intro u hu
      rw [List.mem_singleton.mp hu]
      simp [hne, hffff.ne]
    · have hunit : paddedUnit units n = 0 := by
        rw [paddedUnit, List.getD_append_right _ _ _ _ heq.ge, heq, Nat.sub_self]
        rfl
      rw [hunit, List.take_of_length_le heq.ge, List.take_of_length_le (by omega)]
      exact List.append_nil units
    · have hunit : paddedUnit units n = 0xFFFF := by
        rw [paddedUnit, List.getD_eq_default _ _ (by
          rw [List.length_append, List.length_singleton]
          omega)]
      rw [hunit, List.take_of_length_le hgt.le, List.take_of_length_le (by omega)]
      exact List.append_nil units

theorem flatMap_range_rows {α : Type} (f : ℕ → α) (width n : ℕ) :
    ((List.range n).flatMap fun i => (List.range width).map fun j => f (width * i + j)) =
      (List.range (width * n)).map f := by
  induction n with
  | zero => rfl
  | succ n ih =>
    rw [@List.range_succ n, List.flatMap_append, ih, List.flatMap_singleton, Nat.mul_succ,
      List.range_add, List.map_append, List.map_map]
    rfl

namespace LongName

variable (l : LongName)

theorem paddedUnit_lt (k : ℕ) : paddedUnit l.units k < 2 ^ 16 := by
  unfold paddedUnit
  rw [List.getD_eq_getElem?_getD]
  cases h : (l.units ++ [0])[k]? with
  | none => norm_num
  | some u =>
    have hmem := List.mem_of_getElem? h
    rw [Option.getD_some]
    obtain hu | hu := List.mem_append.mp hmem
    · have := (l.units_ne u hu).2
      omega
    · rw [List.mem_singleton.mp hu]
      norm_num

theorem count_pos : 0 < l.count := by
  have := l.units_pos
  unfold count
  omega

theorem count_le : l.count ≤ 20 := by
  have := l.units_le
  unfold count
  omega

/-- What is collected from the records of a name is the name. -/
theorem longUnits_records : longUnits l.records = l.units := by
  have hcharacters : ∀ i, (l.part i).characters =
      (List.range 13).map fun j => paddedUnit l.units (13 * i + j) :=
    fun i => characters_partRecord fun j => l.paddedUnit_lt _
  have hlong : l.units.length ≤ 13 * l.count := by
    unfold count
    omega
  unfold longUnits records
  rw [← List.map_reverse, List.reverse_reverse, List.flatMap_map]
  simp only [hcharacters]
  rw [← List.filter_flatMap, flatMap_range_rows _ 13, filter_padded l.units_ne,
    List.take_of_length_le hlong]

theorem records_ne_nil : l.records ≠ [] := by
  have := l.count_pos
  unfold records
  simp only [ne_eq, List.map_eq_nil_iff, List.reverse_eq_nil_iff, List.range_eq_nil]
  omega

theorem isPart_of_mem {r : Record} (h : r ∈ l.records) :
    r.firstByte ≠ 0 ∧ r.firstByte ≠ 0xE5 ∧
      r.attributes = FileEntryAttributes.longFileName.value := by
  obtain ⟨i, hi, rfl⟩ := List.mem_map.mp h
  have hlt := List.mem_range.mp (List.mem_reverse.mp hi)
  have hcount := l.count_le
  have hfirst : (l.part i).firstByte = i + 1 + if i + 1 = l.count then 0x40 else 0 := by
    rw [part, firstByte_partRecord, order, BitVec.toNat_ofNat]
    split_ifs <;> omega
  refine ⟨?_, ?_, attributes_partRecord _ _ _⟩
  · omega
  · split_ifs at hfirst <;> omega

end LongName

/-! ## Files -/

/-- The record of a file, with its 8.3 name. -/
structure ShortEntry where
  record : Record
  first_ne_zero : record.firstByte ≠ 0
  first_ne_deleted : record.firstByte ≠ 0xE5
  not_long : record.attributes ≠ FileEntryAttributes.longFileName.value

/-- What a directory is made of. -/
inductive Item
  | deleted (r : Record) (h : r.firstByte = 0xE5)
  | file (long : Option LongName) (short : ShortEntry)

namespace Item

/-- The records of an item. -/
def records : Item → List Record
  | deleted r _ => [r]
  | file none short => [short.record]
  | file (some long) short => long.records ++ [short.record]

/-- The long name of an item. -/
def long? : Item → Option LongName
  | deleted _ _ => none
  | file long _ => long

/-- The names that the source converts are UTF-16 and UTF-8. -/
def Readable : Item → Prop
  | deleted _ _ => True
  | file long short => (∀ l ∈ long, ∃ s, fromUtf16 l.units = some s) ∧
      ∃ s, short.record.formattedShortFilename = .ok s

/-- An item has a name: its long name is the name or, if it has none, its 8.3 name is the name in
upper case. -/
def Named (t : CaseTable) (name : List Char) : Item → Prop
  | deleted _ _ => False
  | file none short => short.record.formattedShortFilename = .ok (t.toUppercase name)
  | file (some long) _ => long.units = toUtf16 name

instance (t : CaseTable) (name : List Char) : DecidablePred (Named t name)
  | deleted _ _ => inferInstanceAs (Decidable False)
  | file none _ => inferInstanceAs (Decidable (_ = _))
  | file (some _) _ => inferInstanceAs (Decidable (_ = _))

end Item

section Items

variable (t : CaseTable) (name : List Char)

/-- The items before the first that has the name. -/
def passed (items : List Item) : List Item := items.takeWhile fun i => ¬ i.Named t name

/-- What a search of a directory is to come to: the first item that has the name. -/
def expected (items : List Item) : Except Fault Record :=
  match items.find? fun i => i.Named t name with
  | some (.file _ short) => .ok short.record
  | _ => .error .err

variable {t name}
variable {items before after : List Item} {long : Option LongName} {short : ShortEntry}

theorem find?_named_of_none (h : ∀ i ∈ items, ¬ i.Named t name) :
    items.find? (fun i => i.Named t name) = none := by
  rw [List.find?_eq_none]
  intro i hi
  simpa using h i hi

theorem find?_named_of_first (hbefore : ∀ i ∈ before, ¬ i.Named t name)
    (hnamed : (Item.file long short).Named t name) :
    (before ++ .file long short :: after).find? (fun i => i.Named t name) =
      some (.file long short) := by
  rw [List.find?_append, find?_named_of_none hbefore]
  simp [hnamed]

theorem expected_of_none (h : ∀ i ∈ items, ¬ i.Named t name) :
    expected t name items = .error .err := by
  rw [expected, find?_named_of_none h]

theorem expected_of_first (hbefore : ∀ i ∈ before, ¬ i.Named t name)
    (hnamed : (Item.file long short).Named t name) :
    expected t name (before ++ .file long short :: after) = .ok short.record := by
  rw [expected, find?_named_of_first hbefore hnamed]

theorem passed_of_none (h : ∀ i ∈ items, ¬ i.Named t name) : passed t name items = items := by
  rw [passed, List.takeWhile_eq_self_iff]
  intro i hi
  simpa using h i hi

theorem passed_of_first (hbefore : ∀ i ∈ before, ¬ i.Named t name)
    (hnamed : (Item.file long short).Named t name) :
    passed t name (before ++ .file long short :: after) = before := by
  rw [passed, List.takeWhile_append_of_pos (fun i hi => by simpa using hbefore i hi)]
  simp [hnamed]

/-- No item has the name, or there is a first that has it. -/
theorem named_cases (t : CaseTable) (name : List Char) (items : List Item) :
    (∀ i ∈ items, ¬ i.Named t name) ∨ ∃ before long short after,
      items = before ++ .file long short :: after ∧ (∀ i ∈ before, ¬ i.Named t name) ∧
        (Item.file long short).Named t name := by
  induction items with
  | nil => exact .inl (by simp)
  | cons i items ih =>
    by_cases hi : i.Named t name
    · cases i with
      | deleted r h => exact hi.elim
      | file long short => exact .inr ⟨[], long, short, items, rfl, by simp, hi⟩
    · obtain hnone | ⟨before, long, short, after, rfl, hbefore, hnamed⟩ := ih
      · exact .inl (List.forall_mem_cons.mpr ⟨hi, hnone⟩)
      · exact .inr ⟨i :: before, long, short, after, rfl,
          List.forall_mem_cons.mpr ⟨hi, hbefore⟩, hnamed⟩

end Items

/-! ## A scan over items -/

section Scan

variable {t : CaseTable} {name : List Char} {st : Option (List Char)} {parts rs : List Record}
variable {item : Item} {items : List Item} {short : ShortEntry}

theorem scanRecords_parts (hparts : ∀ r ∈ parts, r.firstByte ≠ 0 ∧ r.firstByte ≠ 0xE5 ∧
      r.attributes = FileEntryAttributes.longFileName.value) (acc : List Record) :
    scanRecords t name ⟨acc, st⟩ (parts ++ rs) = scanRecords t name ⟨acc ++ parts, st⟩ rs := by
  induction parts generalizing acc with
  | nil => rw [List.nil_append, List.append_nil]
  | cons r parts ih =>
    obtain ⟨hzero, hdeleted, hlong⟩ := hparts r List.mem_cons_self
    rw [List.cons_append, scanRecords, turn, if_neg hzero, if_neg hdeleted, if_pos hlong]
    have hrest := ih (fun r hr => hparts r (List.mem_cons_of_mem _ hr)) (acc ++ [r])
    rw [List.append_assoc, List.singleton_append] at hrest
    exact hrest

theorem scanRecords_short (s : Scan) :
    scanRecords t name s (short.record :: rs) = s.readLongFilename >>= fun s =>
      short.record.formattedShortFilename >>= fun formatted =>
        if s.accepts t name formatted then .ok short.record else scanRecords t name s rs := by
  rw [scanRecords, turn, if_neg short.first_ne_zero, if_neg short.first_ne_deleted,
    if_neg short.not_long]
  cases s.readLongFilename with
  | error e => rfl
  | ok s =>
    cases short.record.formattedShortFilename with
    | error e => rfl
    | ok formatted =>
      simp only [bind, Except.bind]
      split_ifs <;> rfl

/-- A file without a long name, after the long name `st` or none. -/
theorem scanRecords_plain :
    scanRecords t name ⟨[], st⟩ ((Item.file none short).records ++ rs) =
      short.record.formattedShortFilename >>= fun formatted =>
        if Scan.accepts t name formatted ⟨[], st⟩ then .ok short.record
        else scanRecords t name ⟨[], st⟩ rs := scanRecords_short _

theorem scanRecords_long (long : LongName) :
    scanRecords t name ⟨[], st⟩ ((Item.file (some long) short).records ++ rs) =
      match fromUtf16 long.units with
      | none => .error (.panic .unwrap)
      | some filename => short.record.formattedShortFilename >>= fun _ =>
          if filename == name then .ok short.record
          else scanRecords t name ⟨[], some filename⟩ rs := by
  have hempty : long.records.isEmpty = false := by
    rw [List.isEmpty_eq_false_iff]
    exact long.records_ne_nil
  rw [Item.records, List.append_assoc, scanRecords_parts fun r hr => long.isPart_of_mem hr,
    List.nil_append, List.singleton_append, scanRecords_short, Scan.readLongFilename]
  simp only [hempty, long.longUnits_records, Bool.false_eq_true, if_false]
  cases fromUtf16 long.units <;> rfl

theorem LongName.fromUtf16_eq_some (l : LongName) {string : List Char} :
    fromUtf16 l.units = some string ↔ l.units = toUtf16 string :=
  CappuccinOS.fromUtf16_eq_some fun u hu => by
    have := (l.units_ne u hu).2
    omega

theorem formattedShortFilename_cases (r : Record) :
    (∃ formatted, r.formattedShortFilename = .ok formatted) ∨
      r.formattedShortFilename = .error (.panic .unwrap) := by
  unfold Record.formattedShortFilename rawShort
  cases fromUtf8 r.fileName with
  | none => exact .inr rfl
  | some fileName =>
    cases fromUtf8 r.extension with
    | none => exact .inr rfl
    | some extension =>
      left
      simp only [bind, Except.bind]
      split_ifs
      · exact ⟨_, rfl⟩
      · exact ⟨_, rfl⟩

/-- A file whose names cannot be converted is a panic. -/
theorem scanRecords_of_not_readable (h : ¬ item.Readable) :
    scanRecords t name ⟨[], st⟩ (item.records ++ rs) = .error (.panic .unwrap) := by
  cases item with
  | deleted r hr => exact absurd trivial h
  | file long short =>
    cases long with
    | none =>
      obtain hs | hpanic := formattedShortFilename_cases short.record
      · exact absurd ⟨by simp, hs⟩ h
      · rw [scanRecords_plain, hpanic]
        rfl
    | some long =>
      rw [scanRecords_long]
      cases hdecode : fromUtf16 long.units with
      | none => rfl
      | some filename =>
        obtain hs | hpanic := formattedShortFilename_cases short.record
        · exact absurd ⟨by simp [hdecode], hs⟩ h
        · rw [hpanic]
          rfl

/-- An item that does not have the name is passed over. The long name that is kept then is not the
name, and there is one as soon as an item has had one. -/
theorem scanRecords_pass (hread : item.Readable) (hname : ¬ item.Named t name)
    (hst : st ≠ some name) :
    ∃ st', st' ≠ some name ∧ (st' = none ↔ st = none ∧ item.long? = none) ∧
      ∀ rs, scanRecords t name ⟨[], st⟩ (item.records ++ rs) = scanRecords t name ⟨[], st'⟩ rs := by
  cases item with
  | deleted r hr =>
    refine ⟨st, hst, by simp [Item.long?], fun rs => ?_⟩
    rw [Item.records, List.singleton_append, scanRecords, turn, if_neg (by omega), if_pos hr]
    rfl
  | file long short =>
    obtain ⟨hlong, formatted, hformatted⟩ := hread
    cases long with
    | none =>
      refine ⟨st, hst, by simp [Item.long?], fun rs => ?_⟩
      have hrejects : Scan.accepts t name formatted ⟨[], st⟩ = false := by
        unfold Scan.accepts
        cases st with
        | none =>
          rw [beq_eq_false_iff_ne]
          rintro rfl
          exact hname hformatted
        | some filename =>
          rw [beq_eq_false_iff_ne]
          rintro rfl
          exact hst rfl
      rw [scanRecords_plain, hformatted]
      simp [bind, Except.bind, hrejects]
    | some long =>
      obtain ⟨filename, hdecode⟩ := hlong long rfl
      have hne : filename ≠ name := by
        rintro rfl
        exact hname (long.fromUtf16_eq_some.mp hdecode)
      refine ⟨some filename, by simpa using hne, by simp [Item.long?], fun rs => ?_⟩
      rw [scanRecords_long, hdecode, hformatted]
      simp [bind, Except.bind, hne]

theorem scanRecords_items (hread : ∀ i ∈ items, i.Readable) (hname : ∀ i ∈ items, ¬ i.Named t name)
    (hst : st ≠ some name) :
    ∃ st', st' ≠ some name ∧ (st' = none ↔ st = none ∧ ∀ i ∈ items, i.long? = none) ∧
      ∀ rs, scanRecords t name ⟨[], st⟩ (items.flatMap Item.records ++ rs) =
        scanRecords t name ⟨[], st'⟩ rs := by
  induction items generalizing st with
  | nil => exact ⟨st, hst, by simp, fun rs => rfl⟩
  | cons item items ih =>
    obtain ⟨hitem, hitems⟩ := List.forall_mem_cons.mp hread
    obtain ⟨hnot, hnots⟩ := List.forall_mem_cons.mp hname
    obtain ⟨st₁, hst₁, hnone₁, hscan₁⟩ := scanRecords_pass hitem hnot hst
    obtain ⟨st₂, hst₂, hnone₂, hscan₂⟩ := ih hitems hnots hst₁
    refine ⟨st₂, hst₂, ?_, fun rs => ?_⟩
    · rw [hnone₂, hnone₁, List.forall_mem_cons, and_assoc]
    · rw [List.flatMap_cons, List.append_assoc, hscan₁, hscan₂]

/-- Among items that do not have the name, one that cannot be converted ends the scan. -/
theorem scanRecords_items_panic (hname : ∀ i ∈ items, ¬ i.Named t name) (hst : st ≠ some name)
    (hread : ¬ ∀ i ∈ items, i.Readable) (rs : List Record) :
    scanRecords t name ⟨[], st⟩ (items.flatMap Item.records ++ rs) = .error (.panic .unwrap) := by
  induction items generalizing st with
  | nil => exact absurd (by simp) hread
  | cons item items ih =>
    obtain ⟨hnot, hnots⟩ := List.forall_mem_cons.mp hname
    rw [List.flatMap_cons, List.append_assoc]
    by_cases hitem : item.Readable
    · obtain ⟨st', hst', -, hscan⟩ := scanRecords_pass hitem hnot hst
      rw [hscan]
      exact ih hnots hst' fun h => hread (List.forall_mem_cons.mpr ⟨hitem, h⟩)
    · exact scanRecords_of_not_readable hitem

/-- An item that has the name is found by its long name; by its 8.3 name only as long as no long
name has been read. -/
theorem scanRecords_found {long : Option LongName} (hread : (Item.file long short).Readable)
    (hname : (Item.file long short).Named t name) (hst : long.isSome ∨ st = none) :
    scanRecords t name ⟨[], st⟩ ((Item.file long short).records ++ rs) = .ok short.record := by
  obtain ⟨-, formatted, hformatted⟩ := hread
  cases long with
  | none =>
    obtain rfl := hst.resolve_left (by simp)
    obtain rfl : formatted = t.toUppercase name := Except.ok.inj (hformatted.symm.trans hname)
    rw [scanRecords_plain, hformatted]
    simp [bind, Except.bind, Scan.accepts]
  | some long =>
    rw [scanRecords_long, long.fromUtf16_eq_some.mpr hname, hformatted]
    simp [bind, Except.bind]

theorem scanRecords_masked (hread : (Item.file none short).Readable) (hst : st ≠ some name)
    (hsome : st ≠ none) (rs : List Record) :
    scanRecords t name ⟨[], st⟩ ((Item.file none short).records ++ rs) =
      scanRecords t name ⟨[], st⟩ rs := by
  obtain ⟨-, formatted, hformatted⟩ := hread
  obtain ⟨filename, rfl⟩ := Option.ne_none_iff_exists'.mp hsome
  have hne : filename ≠ name := fun h => hst (congrArg some h)
  rw [scanRecords_plain, hformatted]
  simp [bind, Except.bind, Scan.accepts, hne]

end Scan

/-! ## Directories of files with long names -/

/-- A file with a long name and an 8.3 name in ASCII. -/
def Item.HasLong : Item → Prop
  | deleted _ _ => True
  | file long short => long.isSome ∧
      ∀ b ∈ short.record.fileName ++ short.record.extension, b.toNat < 128

section Named

variable {p : Profile} {t : CaseTable} {name : List Char} {fs : FatFs} {cluster : ℕ}
variable {items : List Item} {item : Item} {zero : Record} {rest : List Record}

theorem exists_formattedShortFilename {r : Record}
    (h : ∀ b ∈ r.fileName ++ r.extension, b.toNat < 128) :
    ∃ formatted, r.formattedShortFilename = .ok formatted := by
  have hname := fromUtf8_ascii fun b hb => h b (List.mem_append_left _ hb)
  have hextension := fromUtf8_ascii fun b hb => h b (List.mem_append_right _ hb)
  unfold Record.formattedShortFilename rawShort
  rw [hname, hextension]
  simp only [bind, Except.bind]
  split_ifs
  · exact ⟨_, rfl⟩
  · exact ⟨_, rfl⟩

theorem Item.HasLong.readable_iff (h : item.HasLong) :
    item.Readable ↔ ∀ l ∈ item.long?, ∃ s, fromUtf16 l.units = some s := by
  cases item with
  | deleted r hr => simp [Readable, long?]
  | file long short => exact and_iff_left (exists_formattedShortFilename h.2)

theorem Item.HasLong.readable_of_named (h : item.HasLong) (hname : item.Named t name) :
    item.Readable := by
  refine h.readable_iff.mpr fun l hl => ⟨name, ?_⟩
  cases item with
  | deleted r hr => cases hl
  | file long short =>
    obtain rfl := hl
    exact l.fromUtf16_eq_some.mpr hname

theorem scanRecords_zero (s : Scan) (hzero : zero.firstByte = 0) :
    scanRecords t name s (zero :: rest) = .error .err := by
  rw [scanRecords, turn, if_pos hzero]
  rfl

/-- A directory of files with long names, in one cluster and with a zero record behind them, is
searched right exactly when the long names before the first that is the name are UTF-16. -/
theorem longNames_found_iff
    (hread : fs.readCluster p cluster =
      .ok ((items.flatMap Item.records ++ zero :: rest).flatMap Record.bytes))
    (hzero : zero.firstByte = 0) (hitems : ∀ i ∈ items, i.HasLong) :
    fs.findEntryInDirectory p t name cluster = expected t name items ↔
      ∀ i ∈ passed t name items, ∀ l ∈ i.long?, ∃ s, fromUtf16 l.units = some s := by
  rw [FatFs.findEntryInDirectory_eq hread]
  obtain hnone | ⟨before, long, short, after, rfl, hbefore, hnamed⟩ := named_cases t name items
  · rw [expected_of_none hnone, passed_of_none hnone]
    by_cases hreadable : ∀ i ∈ items, i.Readable
    · obtain ⟨st, -, -, hscan⟩ := scanRecords_items hreadable hnone (Option.some_ne_none name).symm
      refine iff_of_true ((hscan _).trans (scanRecords_zero _ hzero)) ?_
      exact fun i hi => (hitems i hi).readable_iff.mp (hreadable i hi)
    · refine iff_of_false ?_ fun h => hreadable fun i hi => (hitems i hi).readable_iff.mpr (h i hi)
      rw [Scan.start, scanRecords_items_panic hnone (Option.some_ne_none name).symm hreadable]
      simp
  · have hbeforeLong : ∀ i ∈ before, i.HasLong := fun i hi => hitems i (List.mem_append_left _ hi)
    have hlong := hitems (.file long short) (by simp)
    rw [expected_of_first hbefore hnamed, passed_of_first hbefore hnamed, List.flatMap_append,
      List.flatMap_cons, List.append_assoc, List.append_assoc]
    by_cases hreadable : ∀ i ∈ before, i.Readable
    · obtain ⟨st, -, -, hscan⟩ := scanRecords_items hreadable hbefore
        (Option.some_ne_none name).symm
      refine iff_of_true ?_ fun i hi => (hbeforeLong i hi).readable_iff.mp (hreadable i hi)
      rw [Scan.start, hscan]
      exact scanRecords_found (hlong.readable_of_named hnamed) hnamed (.inl hlong.1)
    · refine iff_of_false ?_ fun h =>
        hreadable fun i hi => (hbeforeLong i hi).readable_iff.mpr (h i hi)
      rw [Scan.start, scanRecords_items_panic hbefore (Option.some_ne_none name).symm hreadable]
      simp

end Named

/-! ## Two directories -/

theorem firstByte_oneLetter (b : Byte) : (oneLetter b).firstByte = b.toNat := by
  simp only [oneLetter, Record.firstByte, Record.field, leNat, List.cons_append, List.drop_zero,
    List.take_succ_cons, List.take_zero]
  omega

theorem oneLetter_ne_zero (b : Byte) (hb : 0x20 < b.toNat ∧ b.toNat < 0x7F) :
    (oneLetter b).firstByte ≠ 0 := by
  rw [firstByte_oneLetter]
  omega

theorem oneLetter_ne_deleted (b : Byte) (hb : 0x20 < b.toNat ∧ b.toNat < 0x7F) :
    (oneLetter b).firstByte ≠ 0xE5 := by
  rw [firstByte_oneLetter]
  omega

theorem oneLetter_not_long (b : Byte) :
    (oneLetter b).attributes ≠ FileEntryAttributes.longFileName.value := by
  simp [oneLetter, Record.attributes, Record.field, leNat, FileEntryAttributes.value]

/-- A file whose 8.3 name is one printable character. -/
def letterEntry (b : Byte) (hb : 0x20 < b.toNat ∧ b.toNat < 0x7F) : ShortEntry where
  record := oneLetter b
  first_ne_zero := oneLetter_ne_zero b hb
  first_ne_deleted := oneLetter_ne_deleted b hb
  not_long := oneLetter_not_long b

/-- Such a file with a long name of one unit. -/
def oneUnit (unit : ℕ) (hunit : unit ≠ 0 ∧ unit < 0xFFFF) (b : Byte)
    (hb : 0x20 < b.toNat ∧ b.toNat < 0x7F) : Item :=
  .file (some ⟨[unit], 0, by simp, by simp, by simpa using hunit⟩) (letterEntry b hb)

/-- The files "x" and "y". -/
def twoNames : List Item :=
  [oneUnit 0x78 (by decide) 0x58 (by decide), oneUnit 0x79 (by decide) 0x59 (by decide)]

/-- A file whose name is a single surrogate, and the file "y". -/
def surrogateName : List Item :=
  [oneUnit 0xD800 (by decide) 0x58 (by decide), oneUnit 0x79 (by decide) 0x59 (by decide)]

/-- A directory in cluster 2, which it fills up with zero records. -/
def oneCluster (items : List Item) : FatFs :=
  dirVolume [0xFFF0, 0xFFFF, 0xFFFF] ((items.flatMap Item.records ++
    List.replicate (16 - (items.flatMap Item.records).length) zeroRecord).flatMap Record.bytes)

theorem readCluster_oneCluster {items : List Item} (h : (items.flatMap Item.records).length < 16) :
    (oneCluster items).readCluster .dev 2 = .ok ((items.flatMap Item.records ++ zeroRecord ::
      List.replicate (15 - (items.flatMap Item.records).length) zeroRecord).flatMap
      Record.bytes) := by
  have hzeros : List.replicate (16 - (items.flatMap Item.records).length) zeroRecord =
      zeroRecord :: List.replicate (15 - (items.flatMap Item.records).length) zeroRecord := by
    rw [← List.replicate_succ]
    congr 1
    omega
  have hlength : (items.flatMap Item.records ++ zeroRecord ::
      List.replicate (15 - (items.flatMap Item.records).length) zeroRecord).length = 16 := by
    rw [List.length_append, List.length_cons, List.length_replicate]
    omega
  unfold oneCluster
  rw [hzeros, readCluster_dirVolume _ le_rfl (by norm_num) hlength.ge, Nat.sub_self, Nat.mul_zero,
    List.drop_zero, List.take_of_length_le hlength.le]

/-- The file "y", by its name. -/
theorem twoNames_found :
    (oneCluster twoNames).findEntryInDirectory .dev .ascii ['y'] 2 =
      expected .ascii ['y'] twoNames := by
  refine (longNames_found_iff (readCluster_oneCluster (by decide)) (by decide) ?_).mpr ?_
  · intro i hi
    simp only [twoNames, List.mem_cons, List.not_mem_nil, or_false] at hi
    obtain rfl | rfl := hi
    · exact ⟨rfl, by decide⟩
    · exact ⟨rfl, by decide⟩
  · intro i hi l hl
    have hpassed : passed .ascii ['y'] twoNames = [oneUnit 0x78 (by decide) 0x58 (by decide)] := by
      rfl
    rw [hpassed, List.mem_singleton] at hi
    subst hi
    obtain rfl := Option.some.inj hl
    exact ⟨['x'], rfl⟩

/-- The same file behind one whose name is not UTF-16. -/
theorem surrogateName_panics :
    (oneCluster surrogateName).findEntryInDirectory .dev .ascii ['y'] 2 =
        .error (.panic .unwrap) ∧
      expected .ascii ['y'] surrogateName = .ok (oneLetter 0x59) := by
  refine ⟨?_, rfl⟩
  rw [FatFs.findEntryInDirectory_eq (readCluster_oneCluster (by decide)), Scan.start]
  have hnot : ¬ (oneUnit 0xD800 (by decide) 0x58 (by decide)).Readable := by
    rintro ⟨hlong, -⟩
    obtain ⟨s, hs⟩ := hlong _ rfl
    cases hs
  exact scanRecords_of_not_readable hnot

end CappuccinOS.Fat
