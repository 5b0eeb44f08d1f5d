import CappuccinOS.Lib.Hex

/-!
# The names in a stack trace (`arch/x86_64/stack_trace.rs`)

`get_function_name` reads the text of `symbols.table`, a line with a hexadecimal address and a name
for each function, and looks for the function that an address lies in. It has a rule for an address
that is in the table, one for the last line, one for the first, and one for an address between two
lines, and applies them in this order on each line.

1. `getFunctionName`, over the bytes of the file;
2. `Symbol` and `tableText`: what a table says, and its text;
3. `Named` is the purpose of the function: the symbol with the greatest address that is not above
   the one looked for, and the distance to it;
4. `nameFrom_iff` follows the scan, one line for each symbol, and `getFunctionName_iff` says for
   which addresses the scan serves its purpose. Between two lines it does not: the distance returned
   is that of the two symbols, and between the last two lines the rule of the last line comes first.
-/

namespace CappuccinOS.Trace

/-- `Option<(&str, u64)>`. -/
abbrev PreviousSymbol := Option (List Char × ℕ)

section Source

variable (p : Profile) (functionAddress : ℕ)

/-- The loop of `get_function_name`, from line `i` of `total` on. -/
def nameFrom (total : ℕ) :
    List (List Char) → ℕ → PreviousSymbol → Except Fault (List Char × ℕ)
  | [], _, _ => .error .err
  | line :: rest, i, previousSymbol =>
    match splitnTwo ' ' line with
    | [digits, functionName] =>
      match fromStrRadix 64 digits with
      | none => .error .err
      | some address =>
        if address = functionAddress then .ok (functionName, 0)
        else if i = total - 1 then do
          let offset ← arith (p.sub functionAddress address)
          .ok (functionName, offset)
        else if i = 0 then
          if functionAddress < address then .error .err
          else nameFrom total rest (i + 1) (some (functionName, address))
        else
          match previousSymbol with
          | some prevSymbol =>
            if functionAddress > prevSymbol.2 ∧ functionAddress < address then do
              let offset ← arith (p.sub address prevSymbol.2)
              .ok (prevSymbol.1, offset)
            else nameFrom total rest (i + 1) (some (functionName, address))
          | none => nameFrom total rest (i + 1) (some (functionName, address))
    | _ => nameFrom total rest (i + 1) previousSymbol

/-- `get_function_name`; `file` is what opening and reading `/symbols.table` gives. -/
def getFunctionName (file : Except Fault (List Byte)) : Except Fault (List Char × ℕ) := do
  let symbolsTableBytes ← file
  match fromUtf8 symbolsTableBytes with
  | none => .error .err
  | some symbolsTable =>
    let symbolsTableLines := lines symbolsTable
    nameFrom p functionAddress symbolsTableLines.length symbolsTableLines 0 none

end Source

/-! ## Tables -/

/-- A symbol, with the digits in which its address is written. -/
structure Symbol where
  address : ℕ
  name : List Char
  width : ℕ
  upper : ℕ → Bool
  address_lt : address < 2 ^ 64
  width_pos : width ≠ 0
  address_fits : address < 16 ^ width
  name_feed : '\n' ∉ name
  name_return : name.getLast? ≠ some '\r'

namespace Symbol

variable (s : Symbol)

def digits : List Char := hexText s.upper s.width s.address

/-- The line of a symbol. -/
def line : List Char := s.digits ++ ' ' :: s.name

theorem digits_ne {c : Char} (hc : isWhitespace c = true) : c ∉ s.digits := by
  intro hmem
  have hdigit := (allDigits_hexText s.upper s.width s.address).not_whitespace c hmem
  rw [hc] at hdigit
  cases hdigit

theorem splitnTwo_line : splitnTwo ' ' s.line = [s.digits, s.name] :=
  splitnTwo_append (s.digits_ne rfl)

theorem fromStrRadix_digits : fromStrRadix 64 s.digits = some s.address :=
  fromStrRadix_hexText s.upper s.width_pos s.address_fits s.address_lt

theorem line_feed : '\n' ∉ s.line := by
  intro hmem
  rcases List.mem_append.mp hmem with h | h
  · exact s.digits_ne rfl h
  · rcases List.mem_cons.mp h with h | h
    · exact absurd h (by decide)
    · exact s.name_feed h

theorem line_return : s.line.getLast? ≠ some '\r' := by
  have hreturn := s.name_return
  rw [line, List.getLast?_append_of_ne_nil _ (List.cons_ne_nil _ _), List.getLast?_cons]
  cases h : s.name.getLast? with
  | none => decide
  | some c =>
    rw [h] at hreturn
    exact hreturn

end Symbol

/-- The text of a table. -/
def tableText (table : List Symbol) : List Char := table.flatMap fun s => s.line ++ ['\n']

/-- The addresses of a table ascend. -/
def Ascending (table : List Symbol) : Prop := table.Pairwise fun s t => s.address < t.address

theorem lines_tableText (table : List Symbol) :
    lines (tableText table) = table.map Symbol.line := by
  have h := @lines_flatMap (table.map Symbol.line) fun l hl => by
    obtain ⟨s, -, rfl⟩ := List.mem_map.mp hl
    exact ⟨s.line_feed, s.line_return⟩
  rwa [List.flatMap_map] at h

/-! ## What the name of an address is -/

/-- The result for the address `x`: the symbol with the greatest address that is not above `x`, and
the distance to it, or an error when there is no such symbol. -/
def Named (table : List Symbol) (x : ℕ) (r : Except Fault (List Char × ℕ)) : Prop :=
  (∃ s ∈ table, s.address ≤ x ∧ (∀ t ∈ table, t.address ≤ x → t.address ≤ s.address) ∧
    r = .ok (s.name, x - s.address)) ∨
  ((∀ s ∈ table, x < s.address) ∧ r = .error .err)

/-- The addresses that are in the table, or not below any of it. -/
def Reached (table : List Symbol) (x : ℕ) : Prop :=
  (∃ s ∈ table, s.address = x) ∨ ∀ s ∈ table, s.address ≤ x

section Scan

variable {p : Profile} {x total i : ℕ} {q s : Symbol} {l : List Symbol}
variable {r : Except Fault (List Char × ℕ)}

theorem named_offset (hq : q.address ≤ x) (habove : ∀ t ∈ l, x < t.address)
    (h : Named (q :: l) x r) : ∃ name, r = .ok (name, x - q.address) := by
  obtain ⟨s, hs, hle, -, rfl⟩ | ⟨hall, -⟩ := h
  · obtain rfl | hs := List.mem_cons.mp hs
    · exact ⟨_, rfl⟩
    · exact absurd (habove s hs) (by omega)
  · exact absurd (hall q List.mem_cons_self) (by omega)

/-- A symbol that is followed by another one not above `x` is not the one to be named. -/
theorem named_cons (hqs : q.address < s.address) (hs : s.address ≤ x) :
    Named (q :: s :: l) x r ↔ Named (s :: l) x r := by
  constructor
  · rintro (⟨t, ht, hle, hmax, hr⟩ | ⟨hall, -⟩)
    · have hst := hmax s (by simp) hs
      obtain rfl | ht := List.mem_cons.mp ht
      · omega
      · exact .inl ⟨t, ht, hle, fun u hu => hmax u (List.mem_cons_of_mem _ hu), hr⟩
    · exact absurd (hall s (by simp)) (by omega)
  · rintro (⟨t, ht, hle, hmax, hr⟩ | ⟨hall, -⟩)
    · refine .inl ⟨t, List.mem_cons_of_mem _ ht, hle, fun u hu hux => ?_, hr⟩
      obtain rfl | hu := List.mem_cons.mp hu
      · have := hmax s List.mem_cons_self hs
        omega
      · exact hmax u hu hux
    · exact absurd (hall s List.mem_cons_self) (by omega)

theorem named_head (hs : s.address ≤ x) (habove : ∀ t ∈ l, x < t.address) :
    Named (s :: l) x (.ok (s.name, x - s.address)) := by
  refine .inl ⟨s, List.mem_cons_self, hs, fun t ht htx => ?_, rfl⟩
  obtain rfl | ht := List.mem_cons.mp ht
  · exact le_rfl
  · exact absurd (habove t ht) (by omega)

/-- The distance that a subtraction gives when it would go below zero is none between addresses. -/
theorem sub_below (hs : x < s.address) (name : List Char) {d : ℕ} (hd : d ≤ x) :
    (do let offset ← arith (p.sub x s.address); .ok (s.name, offset) :
      Except Fault (List Char × ℕ)) ≠ .ok (name, d) ∧
    (do let offset ← arith (p.sub x s.address); .ok (s.name, offset) :
      Except Fault (List Char × ℕ)) ≠ .error .err := by
  have hlt := s.address_lt
  cases p with
  | dev =>
    rw [Profile.sub_dev_of_lt hs]
    exact ⟨nofun, nofun⟩
  | release =>
    rw [Profile.sub_release_of_lt hs]
    refine ⟨fun h => ?_, nofun⟩
    have hoffset := congrArg Prod.snd (Except.ok.inj h)
    dsimp only at hoffset
    rw [Nat.mod_eq_of_lt (by unfold wordSize; omega)] at hoffset
    unfold wordSize at hoffset
    omega

/-! ## The scan -/

theorem nameFrom_line (rest : List (List Char)) (previousSymbol : PreviousSymbol) :
    nameFrom p x total (s.line :: rest) i previousSymbol =
      if s.address = x then .ok (s.name, 0)
      else if i = total - 1 then do
        let offset ← arith (p.sub x s.address)
        .ok (s.name, offset)
      else if i = 0 then
        if x < s.address then .error .err
        else nameFrom p x total rest (i + 1) (some (s.name, s.address))
      else
        match previousSymbol with
        | some prevSymbol =>
          if x > prevSymbol.2 ∧ x < s.address then do
            let offset ← arith (p.sub s.address prevSymbol.2)
            .ok (prevSymbol.1, offset)
          else nameFrom p x total rest (i + 1) (some (s.name, s.address))
        | none => nameFrom p x total rest (i + 1) (some (s.name, s.address)) := by
  rw [nameFrom, s.splitnTwo_line]
  simp only [s.fromStrRadix_digits]

theorem reached_cons (hs : s.address < x) : Reached (s :: l) x ↔ Reached l x := by
  unfold Reached
  simp only [List.mem_cons, exists_eq_or_imp, forall_eq_or_imp, hs.ne, hs.le, false_or, true_and]

theorem not_reached (hs : x < s.address) (habove : ∀ t ∈ l, x < t.address) :
    ¬ Reached (s :: l) x := by
  rintro (⟨t, ht, rfl⟩ | hall)
  · obtain rfl | ht := List.mem_cons.mp ht
    · exact lt_irrefl _ hs
    · exact lt_irrefl _ (habove t ht)
  · exact absurd (hall s List.mem_cons_self) (Nat.not_le.mpr hs)

/-- From a symbol below `x` on, which the line before was for. -/
theorem nameFrom_iff (hasc : Ascending (q :: l)) (hq : q.address < x) (hi : i ≠ 0) (hl : l ≠ [])
    (htotal : i + l.length = total) :
    Named (q :: l) x (nameFrom p x total (l.map Symbol.line) i (some (q.name, q.address))) ↔
      Reached l x := by
  induction l generalizing q i with
  | nil => exact absurd rfl hl
  | cons s l ih =>
    obtain ⟨hqall, hasc'⟩ := List.pairwise_cons.mp hasc
    obtain ⟨hsall, -⟩ := List.pairwise_cons.mp hasc'
    have hqs : q.address < s.address := hqall s List.mem_cons_self
    rw [List.length_cons] at htotal
    rw [List.map_cons, nameFrom_line]
    rcases Nat.lt_trichotomy s.address x with hlt | heq | hgt
    · rw [if_neg hlt.ne]
      cases l with
      | nil =>
        -- the last line, below `x`
        have htrue : Named [s] x (.ok (s.name, x - s.address)) := named_head hlt.le (by simp)
        rw [if_pos (by rw [List.length_nil] at htotal; omega), p.sub_of_le hlt.le]
        exact iff_of_true ((named_cons hqs hlt.le).mpr htrue) (.inr (by simp [hlt.le]))
      | cons t l =>
        rw [List.length_cons] at htotal
        rw [if_neg (by omega), if_neg hi]
        dsimp only
        rw [if_neg (by omega), named_cons hqs hlt.le, reached_cons hlt]
        exact ih hasc' hlt (Nat.succ_ne_zero i) (List.cons_ne_nil t l)
          (by rw [List.length_cons]; omega)
    · -- a hit
      rw [if_pos heq]
      have hhead := named_head (l := l) heq.le fun t ht => heq ▸ hsall t ht
      rw [heq, Nat.sub_self] at hhead
      exact iff_of_true ((named_cons hqs heq.le).mpr hhead) (.inl ⟨s, List.mem_cons_self, heq⟩)
    · have habove : ∀ t ∈ l, x < t.address := fun t ht => hgt.trans (hsall t ht)
      have hall : ∀ t ∈ s :: l, x < t.address := List.forall_mem_cons.mpr ⟨hgt, habove⟩
      rw [if_neg hgt.ne']
      refine iff_of_false (fun hnamed => ?_) (not_reached hgt habove)
      obtain ⟨name, hr⟩ := named_offset hq.le hall hnamed
      cases l with
      | nil =>
        -- the last line, above `x`
        rw [if_pos (by rw [List.length_nil] at htotal; omega)] at hr
        exact (sub_below hgt name (Nat.sub_le x q.address)).1 hr
      | cons t l =>
        -- a gap: the distance of its ends is more than that from its lower end to `x`
        rw [List.length_cons] at htotal
        rw [if_neg (by omega), if_neg hi] at hr
        dsimp only at hr
        rw [if_pos ⟨hq, hgt⟩, p.sub_of_le hqs.le] at hr
        have hoffset : s.address - q.address = x - q.address :=
          congrArg Prod.snd (Except.ok.inj hr)
        omega

end Scan

theorem getFunctionName_table (p : Profile) (table : List Symbol) (x : ℕ) :
    getFunctionName p x (.ok (toUtf8 (tableText table))) =
      nameFrom p x table.length (table.map Symbol.line) 0 none := by
  show (match fromUtf8 (toUtf8 (tableText table)) with
    | none => _
    | some text => nameFrom p x (lines text).length (lines text) 0 none) = _
  rw [fromUtf8_toUtf8]
  dsimp only
  rw [lines_tableText, List.length_map]

/-- **The right name** is found for an address exactly when it is in the table, not below any of the
table, or below all of a table that does not have a single line. -/
theorem getFunctionName_iff (p : Profile) (table : List Symbol) (hasc : Ascending table) (x : ℕ) :
    Named table x (getFunctionName p x (.ok (toUtf8 (tableText table)))) ↔
      Reached table x ∨ (∀ s ∈ table, x < s.address) ∧ table.length ≠ 1 := by
  rw [getFunctionName_table]
  cases table with
  | nil => exact iff_of_true (.inr ⟨by simp, rfl⟩) (.inl (.inr (by simp)))
  | cons s l =>
    obtain ⟨hsall, -⟩ := List.pairwise_cons.mp hasc
    rw [List.map_cons, nameFrom_line, List.length_cons]
    rcases Nat.lt_trichotomy s.address x with hlt | heq | hgt
    · have hnot : ¬ ((∀ t ∈ s :: l, x < t.address) ∧ l.length + 1 ≠ 1) :=
        fun h => absurd (h.1 s List.mem_cons_self) (by omega)
      rw [if_neg hlt.ne, or_iff_left hnot, reached_cons hlt]
      cases l with
      | nil =>
        rw [if_pos rfl, p.sub_of_le hlt.le]
        exact iff_of_true (named_head hlt.le (by simp)) (.inr (by simp))
      | cons t l =>
        rw [if_neg (by rw [List.length_cons]; omega), if_pos rfl, if_neg (by omega)]
        exact nameFrom_iff hasc hlt (by norm_num) (List.cons_ne_nil t l) (Nat.add_comm _ _)
    · rw [if_pos heq]
      have hhead := named_head (l := l) heq.le fun t ht => heq ▸ hsall t ht
      rw [heq, Nat.sub_self] at hhead
      exact iff_of_true hhead (.inl (.inl ⟨s, List.mem_cons_self, heq⟩))
    · have habove : ∀ t ∈ l, x < t.address := fun t ht => hgt.trans (hsall t ht)
      have hall : ∀ t ∈ s :: l, x < t.address := List.forall_mem_cons.mpr ⟨hgt, habove⟩
      rw [if_neg hgt.ne', or_iff_right (not_reached hgt habove)]
      cases l with
      | nil =>
        rw [if_pos rfl]
        refine iff_of_false ?_ fun h => h.2 rfl
        rintro (⟨t, ht, hle, -, -⟩ | ⟨-, hr⟩)
        · exact absurd (hall t ht) (by omega)
        · exact (sub_below hgt [] (Nat.zero_le x)).2 hr
      | cons t l =>
        rw [if_neg (by rw [List.length_cons]; omega), if_pos rfl, if_pos hgt]
        exact iff_of_true (.inr ⟨hall, rfl⟩) ⟨hall, by rw [List.length_cons]; omega⟩

/-- A symbol with an address of four digits. -/
def Symbol.short (address : ℕ) (name : List Char) (h : address < 16 ^ 4)
    (hfeed : '\n' ∉ name) (hreturn : name.getLast? ≠ some '\r') : Symbol where
  address := address
  name := name
  width := 4
  upper := fun _ => false
  address_lt := lt_trans h (by norm_num)
  width_pos := by norm_num
  address_fits := h
  name_feed := hfeed
  name_return := hreturn

/-- Three functions, of 4096 bytes each. -/
def sampleTable : List Symbol :=
  [.short 0x1000 ['a'] (by norm_num) (by decide) (by decide),
    .short 0x2000 ['b'] (by norm_num) (by decide) (by decide),
    .short 0x3000 ['c'] (by norm_num) (by decide) (by decide)]

theorem sampleTable_ascending : Ascending sampleTable := by
  unfold Ascending sampleTable Symbol.short
  simp

/-- An address in the table. -/
theorem getFunctionName_iff_sample : Ascending sampleTable ∧
    Named sampleTable 0x2000 (getFunctionName .dev 0x2000 (.ok (toUtf8 (tableText sampleTable)))) :=
  ⟨sampleTable_ascending, (getFunctionName_iff .dev sampleTable sampleTable_ascending 0x2000).mpr
    (.inl (.inl ⟨_, List.mem_cons_of_mem _ List.mem_cons_self, rfl⟩))⟩

/-- An address in the middle of the first function: the distance returned is the function's size. -/
theorem getFunctionName_gap : Ascending sampleTable ∧
    getFunctionName .dev 0x1800 (.ok (toUtf8 (tableText sampleTable))) = .ok (['a'], 0x1000) ∧
    ¬ Named sampleTable 0x1800
      (getFunctionName .dev 0x1800 (.ok (toUtf8 (tableText sampleTable)))) := by
  have hscan : getFunctionName .dev 0x1800 (.ok (toUtf8 (tableText sampleTable))) =
      .ok (['a'], 0x1000) := by
    rw [getFunctionName_table]
    simp [sampleTable, nameFrom_line, Symbol.short, Profile.sub, bind, Except.bind]
  refine ⟨sampleTable_ascending, hscan, fun hnamed => ?_⟩
  rw [hscan] at hnamed
  obtain ⟨name, hr⟩ := named_offset (by simp [Symbol.short])
    (by simp [Symbol.short]) hnamed
  have hoffset := congrArg Prod.snd (Except.ok.inj hr)
  simp [Symbol.short] at hoffset

end CappuccinOS.Trace
