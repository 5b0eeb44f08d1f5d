import CappuccinOS.Gzip.Grammar

/-!
# What `uncompress_data` makes of malformed data

Behind a good header everything hangs on the bits between header and checksum.

1. `uncompressData_ok_iff` and `uncompressData_err_iff` say when the call returns, and with what: it
   has to come to the end of a final block, or to a block that is rejected. On all other strings it
   panics; a truncated stream is one (`malformed_panics`).
2. A compressed block may hold pairs that the format does not allow (`IllegalPair`). Nothing checks
   them, so they are reported only when the stream is reported for something else (`legal_iff`). A
   distance before the start of the output copies zeros (`illegal_accepted`).
-/

namespace CappuccinOS.Gzip

open Canonical

/-! ## The container -/

/-- What stands between header and checksum. -/
def payload (bytes : List Byte) : List Byte := (bytes.drop 2).take (bytes.length - 6)

/-- The header is rejected. -/
def HeaderRejected (bytes : List Byte) : Prop :=
  checkHeader (bytes.getD 0 0#8) (bytes.getD 1 0#8) = .error .err

/-- The checksum of `out` is the one at the end. -/
def ChecksumOk (bytes out : List Byte) : Prop :=
  adler32 out = leNat (bytes.drop (bytes.length - 4))

instance (bytes : List Byte) : Decidable (HeaderRejected bytes) :=
  inferInstanceAs (Decidable (_ = _))

instance (bytes out : List Byte) : Decidable (ChecksumOk bytes out) :=
  inferInstanceAs (Decidable (_ = _))

theorem checkHeader_cases (cmf flags : Byte) :
    checkHeader cmf flags = .ok () ∨ checkHeader cmf flags = .error .err := by
  unfold checkHeader
  split_ifs <;> simp

/-- A computation whose value is checked at the end, when the check fails with the error. -/
theorem bind_check_eq_err {α β : Type} {x : Except Fault (α × β)} {P : α → Prop} [DecidablePred P] :
    (x >>= fun r => if P r.1 then .ok r.1 else .error .err) = .error .err ↔
      x = .error .err ∨ ∃ a, (∃ b, x = .ok (a, b)) ∧ ¬ P a := by
  rcases x with f | ⟨a, b⟩
  · simp [bind, Except.bind]
  · simp [bind, Except.bind]

theorem bind_check_eq_ok {α β : Type} {x : Except Fault (α × β)} {P : α → Prop} [DecidablePred P]
    {a : α} : (x >>= fun r => if P r.1 then .ok r.1 else .error .err) = .ok a ↔
      (∃ b, x = .ok (a, b)) ∧ P a := by
  rw [bind_eq_ok]
  constructor
  · rintro ⟨⟨a', b⟩, hx, hcheck⟩
    split_ifs at hcheck with hP
    cases hcheck
    exact ⟨⟨b, hx⟩, hP⟩
  · rintro ⟨⟨b, hx⟩, hP⟩
    exact ⟨(a, b), hx, if_pos hP⟩

theorem exists_cons_cons_cons {bytes : List Byte} (h : 6 ≤ bytes.length) :
    ∃ cmf flags b rest, bytes = cmf :: flags :: b :: rest := by
  match bytes, h with
  | cmf :: flags :: b :: rest, _ => exact ⟨cmf, flags, b, rest, rfl⟩

section Container

variable {p : Profile} {bytes out : List Byte}

/-- The call on a string that has room for a header and a checksum. -/
theorem uncompressData_eq (h6 : 6 ≤ bytes.length) (hheader : ¬ HeaderRejected bytes) :
    uncompressData p bytes = decompress p (.new (payload bytes)) >>= fun r =>
      if ChecksumOk bytes r.1 then .ok r.1 else .error .err := by
  obtain ⟨cmf, flags, b, rest, rfl⟩ := exists_cons_cons_cons h6
  have hok : checkHeader cmf flags = .ok () := (checkHeader_cases cmf flags).resolve_right hheader
  have hslice : slicePayload p (cmf :: flags :: b :: rest) =
      .ok (payload (cmf :: flags :: b :: rest)) := by
    unfold slicePayload
    rw [if_neg (by omega), if_neg (by omega), payload]
  rw [uncompressData, hok, hslice]
  simp only [bind, Except.bind]
  rcases decompress p _ with f | ⟨data, c⟩
  · rfl
  · simp only [ChecksumOk, ne_eq, ite_not]
    rfl

theorem uncompressData_of_rejected (h6 : 6 ≤ bytes.length) (hheader : HeaderRejected bytes) :
    uncompressData p bytes = .error .err := by
  obtain ⟨cmf, flags, b, rest, rfl⟩ := exists_cons_cons_cons h6
  have herr : checkHeader cmf flags = .error .err := hheader
  rw [uncompressData, herr]
  rfl

theorem uncompressData_ok_iff (h6 : 6 ≤ bytes.length) :
    uncompressData p bytes = .ok out ↔ ¬ HeaderRejected bytes ∧
      Complete p (bytesBits (payload bytes)) [] out ∧ ChecksumOk bytes out := by
  by_cases hheader : HeaderRejected bytes
  · rw [uncompressData_of_rejected h6 hheader]
    exact ⟨nofun, fun h => absurd hheader h.1⟩
  rw [uncompressData_eq h6 hheader, bind_check_eq_ok, decompress_ok_iff]
  exact ⟨fun h => ⟨hheader, h⟩, fun h => h.2⟩

/-- The strings that are reported: a rejected header, a rejected block, or a whole stream with
another checksum. -/
def Reported (p : Profile) (bytes : List Byte) : Prop :=
  HeaderRejected bytes ∨ Broken p (bytesBits (payload bytes)) [] ∨
    ∃ out, Complete p (bytesBits (payload bytes)) [] out ∧ ¬ ChecksumOk bytes out

theorem uncompressData_err_iff (h6 : 6 ≤ bytes.length) :
    uncompressData p bytes = .error .err ↔ Reported p bytes := by
  by_cases hheader : HeaderRejected bytes
  · exact iff_of_true (uncompressData_of_rejected h6 hheader) (.inl hheader)
  rw [uncompressData_eq h6 hheader, bind_check_eq_err, decompress_err_iff]
  simp only [decompress_ok_iff, Reported, hheader, false_or]

/-- **Malformed data.** On a string with room for a header and a checksum, `uncompress_data` returns
a value or an error exactly when the header is rejected, or the bits behind it come to the end of a
final block or to a block that is rejected. -/
theorem malformed_iff (p : Profile) (bytes : List Byte) (h6 : 6 ≤ bytes.length) :
    ((∃ out, uncompressData p bytes = .ok out) ∨ uncompressData p bytes = .error .err) ↔
      HeaderRejected bytes ∨ (∃ out, Complete p (bytesBits (payload bytes)) [] out) ∨
        Broken p (bytesBits (payload bytes)) [] := by
  simp only [uncompressData_ok_iff h6, uncompressData_err_iff h6]
  constructor
  · rintro (⟨out, -, hcomplete, -⟩ | hheader | hbroken | ⟨out, hcomplete, -⟩)
    · exact .inr (.inl ⟨out, hcomplete⟩)
    · exact .inl hheader
    · exact .inr (.inr hbroken)
    · exact .inr (.inl ⟨out, hcomplete⟩)
  · rintro (hheader | ⟨out, hcomplete⟩ | hbroken)
    · exact .inr (.inl hheader)
    · by_cases hheader : HeaderRejected bytes
      · exact .inr (.inl hheader)
      · by_cases hsum : ChecksumOk bytes out
        · exact .inl ⟨out, hheader, hcomplete, hsum⟩
        · exact .inr (.inr (.inr ⟨out, hcomplete, hsum⟩))
    · exact .inr (.inr (.inl hbroken))

end Container

theorem complete_empty : Complete .dev (bytesBits [0x03#8, 0x00#8]) [] [] := by
  have hend : Coded Codes.fixed.lits 256 := by decide +kernel
  have hbits : bytesBits [0x03#8, 0x00#8] =
      true :: (bitsLE 1 2 ++ ([] ++ codeBits Codes.fixed.lits 256) ++ List.replicate 6 false) := by
    rw [show Codes.fixed.lits = fixedLengths from rfl, codeBits_fixedLengths (by norm_num)]
    decide
  rw [hbits]
  exact .last (.compressed .fixed .nil hend)

/-- The stream of no data is decompressed. -/
theorem malformed_demo :
    6 ≤ [0x78#8, 0x01#8, 0x03#8, 0x00#8, 0x00#8, 0x00#8, 0x00#8, 0x01#8].length ∧
      ((∃ out, uncompressData .dev
          [0x78#8, 0x01#8, 0x03#8, 0x00#8, 0x00#8, 0x00#8, 0x00#8, 0x01#8] = .ok out) ∨
        uncompressData .dev [0x78#8, 0x01#8, 0x03#8, 0x00#8, 0x00#8, 0x00#8, 0x00#8, 0x01#8] =
          .error .err) :=
  ⟨by decide, (malformed_iff .dev _ (by decide)).mpr (.inr (.inl ⟨[], complete_empty⟩))⟩

/-- A header and a checksum with nothing between them: the first bit is not there. -/
theorem malformed_panics :
    6 ≤ [0x78#8, 0x01#8, 0x00#8, 0x00#8, 0x00#8, 0x01#8].length ∧
      uncompressData .dev [0x78#8, 0x01#8, 0x00#8, 0x00#8, 0x00#8, 0x01#8] =
        .error (.panic .bounds) := by
  obtain ⟨tables, hbuild, -, -⟩ := buildFixed_spec
  have hbit : getBit (.new []) = .error (.panic .bounds) := rfl
  have hdec : decompress .dev (.new []) = .error (.panic .bounds) := by
    rw [decompress_eq hbuild, decompressLoop_succ]
    exact bind_of_error (bind_of_error hbit)
  refine ⟨by decide, ?_⟩
  rw [uncompressData_eq (by decide) (by decide)]
  show decompress .dev (.new []) >>= _ = _
  rw [hdec]
  rfl

/-! ## Illegal pairs -/

/-- The code of a distance symbol that the format reserves. The source has no codes for the two of
the fixed code. -/
inductive ReservedDistance (k : Codes) : List Bool → List Bool → Prop
  | sent {head : List Bool} {s : ℕ} (hs : s = 30 ∨ s = 31) (hc : Coded k.dists s) :
    ReservedDistance k head (codeBits k.dists s)
  | fixed {s : ℕ} (hs : s = 30 ∨ s = 31) : ReservedDistance k (bitsLE 1 2) (fixedDistBits s)

/-- A pair that the format does not allow after `n` bytes of output, in a block that starts with
`head`: a reserved length symbol, a reserved distance symbol, or a distance before the start. -/
inductive IllegalPair (p : Profile) (head : List Bool) (k : Codes) (n : ℕ) : List Bool → Prop
  | length {s : ℕ} (hs : s = 286 ∨ s = 287) (hc : Coded k.lits s) :
    IllegalPair p head k n (codeBits k.lits s)
  | distance {i : ℕ} {x d : List Bool} (hi : Coded k.lits (257 + i))
    (hx : lengthBits[i]? = some x.length) (hd : ReservedDistance k head d) :
    IllegalPair p head k n (codeBits k.lits (257 + i) ++ (x ++ d))
  | start {i j : ℕ} {x y : List Bool} (he : (Entry.pair i j x y).Readable p k)
    (hn : n < pairDistance j y) : IllegalPair p head k n ((Entry.pair i j x y).bits k)

/-- Blocks up to a compressed one and entries of it: the decoder is then in front of `rest`, in a
block that starts with `head` and has the codes `k`, and has put out `o'`. -/
inductive Meets (p : Profile) (head : List Bool) (k : Codes) (o' : List Byte) (rest : List Bool) :
    List Bool → List Byte → Prop
  | here {final : Bool} {bs : List Bool} {o : List Byte} (hopen : Opens head k)
    (hes : Entries p k bs o o') : Meets p head k o' rest (final :: (head ++ (bs ++ rest))) o
  | next {xs bs : List Bool} {o o1 : List Byte} (h : Block p xs o o1)
    (hrest : Meets p head k o' rest bs o1) : Meets p head k o' rest (false :: (xs ++ bs)) o

/-- The decoder comes to the entry `e` and executes it after `n` bytes of output. -/
def Executes (p : Profile) (bs : List Bool) (e : Entry) (n : ℕ) : Prop :=
  ∃ head k o rest, Meets p head k o (e.bits k ++ rest) bs [] ∧ e.Readable p k ∧ o.length = n

/-- The decoder comes to an illegal pair. -/
def ContainsIllegal (p : Profile) (bs : List Bool) : Prop :=
  ∃ head k o xs rest, Meets p head k o (xs ++ rest) bs [] ∧ IllegalPair p head k o.length xs

/-- What the format asks of a pair after `n` bytes of output. -/
def Entry.Legal (n : ℕ) : Entry → Prop
  | lit _ => True
  | pair i j x y => 3 ≤ pairLength i x ∧ pairLength i x ≤ 258 ∧ 1 ≤ pairDistance j y ∧
      pairDistance j y ≤ 32768 ∧ pairDistance j y ≤ n

/-- Only legal pairs are executed in a call that returns a value, and a stream with an illegal pair
is reported. -/
def AcceptsOnlyLegal (p : Profile) (bytes : List Byte) : Prop :=
  (∀ out, uncompressData p bytes = .ok out →
    ∀ e n, Executes p (bytesBits (payload bytes)) e n → e.Legal n) ∧
  (ContainsIllegal p (bytesBits (payload bytes)) → uncompressData p bytes = .error .err)

section Legal

variable {p : Profile} {bs : List Bool} {bytes : List Byte}

/-- A pair that is executed is legal, or it is one of the illegal ones. -/
theorem Executes.legal {e : Entry} {n : ℕ} (h : Executes p bs e n) (hno : ¬ ContainsIllegal p bs) :
    e.Legal n := by
  obtain ⟨head, k, o, rest, hmeets, he, rfl⟩ := h
  cases he with
  | lit hb => trivial
  | @pair i j x y hi hx hdev hj hy =>
    by_contra hillegal
    apply hno
    by_cases h29 : i = 29
    · subst h29
      rw [Entry.bits, List.append_assoc] at hmeets
      exact ⟨head, k, o, _, _, hmeets, .length (.inl rfl) hi⟩
    · obtain ⟨h3, h258⟩ := pairLength_bounds hx h29
      obtain ⟨h1, hmax⟩ := pairDistance_bounds hy
      refine ⟨head, k, o, _, rest, hmeets, .start (.pair hi hx hdev hj hy) ?_⟩
      by_contra hle
      exact hillegal ⟨h3, h258, h1, hmax, by omega⟩

theorem Meets.ne_nil {head rest : List Bool} {k : Codes} {o o' : List Byte}
    (h : Meets p head k o' rest bs o) : bs ≠ [] := by
  cases h <;> exact List.cons_ne_nil _ _

/-- A string with an illegal pair has room for a header and a checksum. -/
theorem ContainsIllegal.six_le (h : ContainsIllegal p (bytesBits (payload bytes))) :
    6 ≤ bytes.length := by
  obtain ⟨head, k, o, xs, rest, hmeets, -⟩ := h
  by_contra hlt
  refine hmeets.ne_nil ?_
  rw [payload, show bytes.length - 6 = 0 by omega, List.take_zero]
  rfl

end Legal

/-- **Illegal pairs.** They are kept out exactly when the stream has none, or is reported for
something else: its header, a rejected block behind the pair, or its checksum. -/
theorem legal_iff (p : Profile) (bytes : List Byte) :
    AcceptsOnlyLegal p bytes ↔
      ¬ ContainsIllegal p (bytesBits (payload bytes)) ∨ Reported p bytes := by
  constructor
  · rintro ⟨-, hreport⟩
    by_cases hillegal : ContainsIllegal p (bytesBits (payload bytes))
    · exact .inr ((uncompressData_err_iff hillegal.six_le).mp (hreport hillegal))
    · exact .inl hillegal
  · intro h
    by_cases hillegal : ContainsIllegal p (bytesBits (payload bytes))
    · have herr := (uncompressData_err_iff hillegal.six_le).mpr
        (h.resolve_left (not_not.mpr hillegal))
      have hno : ∀ out, uncompressData p bytes ≠ .ok out := fun out hok => by
        rw [herr] at hok
        cases hok
      exact ⟨fun out hok => absurd hok (hno out), fun _ => herr⟩
    · exact ⟨fun out _ e n he => he.legal hillegal, fun h => absurd h hillegal⟩

/-- A copy of three bytes from one byte before the start. -/
def earlyCopy : List Byte :=
  [0x78#8, 0x01#8, 0x03#8, 0x02#8, 0x00#8, 0x00#8, 0x03#8, 0x00#8, 0x01#8]

theorem bytesBits_earlyCopy : bytesBits (payload earlyCopy) =
    true :: (bitsLE 1 2 ++ ((Entry.pair 0 0 [] []).bits .fixed ++
      (codeBits Codes.fixed.lits 256 ++ [false, false]))) := by
  have hlits : ∀ s < 288, codeBits Codes.fixed.lits s = fixedLitBits s :=
    fun s hs => codeBits_fixedLengths hs
  have hdists : codeBits Codes.fixed.dists 0 = fixedDistBits 0 := codeBits_fixedDist (by norm_num)
  rw [Entry.bits, hlits _ (by norm_num), hlits _ (by norm_num), hdists]
  decide

theorem readable_earlyCopy : (Entry.pair 0 0 [] []).Readable .dev .fixed :=
  .pair (by decide +kernel) rfl (fun _ => by simp) (by decide +kernel) rfl

/-- Copying from before the start of the output gives zeros, and no error. -/
theorem illegal_accepted : uncompressData .dev earlyCopy = .ok [0x00#8, 0x00#8, 0x00#8] ∧
    ¬ AcceptsOnlyLegal .dev earlyCopy := by
  have hend : Coded Codes.fixed.lits 256 := by decide +kernel
  have hentries : Entries .dev .fixed ((Entry.pair 0 0 [] []).bits .fixed ++ []) []
      [0x00#8, 0x00#8, 0x00#8] := .cons readable_earlyCopy .nil
  have hcomplete : Complete .dev (bytesBits (payload earlyCopy)) [] [0x00#8, 0x00#8, 0x00#8] := by
    have h := @Complete.last .dev _ [false, false] _ _ (.compressed .fixed hentries hend)
    rw [bytesBits_earlyCopy]
    simpa only [List.append_assoc, List.append_nil, List.nil_append] using h
  have hok : uncompressData .dev earlyCopy = .ok [0x00#8, 0x00#8, 0x00#8] :=
    (uncompressData_ok_iff (by decide)).mpr ⟨by decide, hcomplete, by decide⟩
  refine ⟨hok, fun h => ?_⟩
  have hexec : Executes .dev (bytesBits (payload earlyCopy)) (.pair 0 0 [] []) 0 := by
    refine ⟨bitsLE 1 2, .fixed, [], codeBits Codes.fixed.lits 256 ++ [false, false], ?_,
      readable_earlyCopy, rfl⟩
    have h := @Meets.here .dev _ _ _ ((Entry.pair 0 0 [] []).bits .fixed ++
      (codeBits Codes.fixed.lits 256 ++ [false, false])) true [] [] .fixed .nil
    rwa [List.nil_append, ← bytesBits_earlyCopy] at h
  have hlegal := h.1 _ hok _ _ hexec
  exact absurd hlegal.2.2.2.2 (by decide)

end CappuccinOS.Gzip
