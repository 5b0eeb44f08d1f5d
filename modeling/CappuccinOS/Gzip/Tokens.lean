import CappuccinOS.Gzip.Table

/-!
# Token streams

The format side of RFC 1951: a block is a list of literals and back references (`Token`), with a
meaning (`expansion`) and an encoding (`blockBits`) that is given the codes of the two alphabets.
The rows of the format's length and distance tables cover consecutive ranges of values, so the
number of extra bits of each row determines the table (`row`).

`run_inflate` says that `inflate` inverts the encoding: with tables that read the two codes
(`Reads`), it returns behind the end-of-block code and has emitted the expansion of the tokens.
-/

namespace CappuccinOS.Gzip

/-- A literal byte, or a copy of earlier output. -/
inductive Token
  | lit (b : Byte)
  | copy (length distance : ℕ)
  deriving DecidableEq, Repr

/-! ## Meaning -/

/-- `n` bytes copied one at a time from `d` bytes back, so that a copy may overlap itself. -/
def copyBytes (d : ℕ) : ℕ → List Byte → List Byte
  | 0, _ => []
  | n + 1, o =>
    let b := o.getD (o.length - d) 0
    b :: copyBytes d n (o ++ [b])

/-- The bytes a token stands for behind the output `o`. -/
def Token.bytes (o : List Byte) : Token → List Byte
  | lit b => [b]
  | copy length distance => copyBytes distance length o

/-- The bytes a list of tokens stands for behind the output `o`. -/
def expansion (o : List Byte) : List Token → List Byte
  | [] => []
  | t :: ts => t.bytes o ++ expansion (o ++ t.bytes o) ts

/-- A token the format allows after `n` bytes of output. -/
def Token.Valid (n : ℕ) : Token → Prop
  | lit _ => True
  | copy length distance =>
    3 ≤ length ∧ length ≤ 258 ∧ 1 ≤ distance ∧ distance ≤ 32768 ∧ distance ≤ n

instance decidableValid (n : ℕ) : (t : Token) → Decidable (t.Valid n)
  | .lit _ => isTrue trivial
  | .copy _ _ => inferInstanceAs (Decidable (_ ∧ _))

/-- Tokens the format allows behind the output `o`. -/
def ValidFrom (o : List Byte) : List Token → Prop
  | [] => True
  | t :: ts => t.Valid o.length ∧ ValidFrom (o ++ t.bytes o) ts

instance decidableValidFrom : (o : List Byte) → (ts : List Token) → Decidable (ValidFrom o ts)
  | _, [] => isTrue trivial
  | o, t :: ts => @instDecidableAnd _ _ _ (decidableValidFrom (o ++ t.bytes o) ts)

/-! ## Encoding -/

/-- The row of a table that covers `x`: its number, its extra bits and its first value. The first
row starts at `start` and a row with `e` extra bits covers `2 ^ e` values. -/
def row : List ℕ → ℕ → ℕ → ℕ × ℕ × ℕ
  | [], start, _ => (0, 0, start)
  | e :: es, start, x =>
    if x < start + 2 ^ e then (0, e, start)
    else
      let r := row es (start + 2 ^ e) x
      (r.1 + 1, r.2)

/-- The extra bits of the length codes 257 to 284. -/
def lengthExtra : List ℕ :=
  List.replicate 8 0 ++ List.replicate 4 1 ++ List.replicate 4 2 ++ List.replicate 4 3 ++
    List.replicate 4 4 ++ List.replicate 4 5

/-- The extra bits of the distance codes 0 to 29. -/
def distExtra : List ℕ :=
  List.replicate 4 0 ++ (List.range 13).flatMap fun e => List.replicate 2 (e + 1)

/-- The row of a match length. The last length has a code of its own, 285. -/
def lengthRow (length : ℕ) : ℕ × ℕ × ℕ :=
  if length = 258 then (28, 0, 258) else row lengthExtra 3 length

/-- The row of a match distance. -/
def distRow (distance : ℕ) : ℕ × ℕ × ℕ := row distExtra 1 distance

/-- The literal/length symbol of a token. -/
def Token.symbol : Token → ℕ
  | lit b => b.toNat
  | copy length _ => 257 + (lengthRow length).1

/-- The distance symbol of a token, when it has one. -/
def Token.distSymbol : Token → Option ℕ
  | lit _ => none
  | copy _ distance => some (distRow distance).1

section Encoding

/-! `litCode` and `distCode` give the codes of the two alphabets, as they are sent. -/

variable (litCode distCode : ℕ → List Bool)

/-- The encoding of a token: a code and, for a copy, the extra bits of the length, the code of the
distance and its extra bits. -/
def Token.encode : Token → List Bool
  | lit b => litCode b.toNat
  | copy length distance =>
    let l := lengthRow length
    let d := distRow distance
    litCode (257 + l.1) ++
      (bitsLE (length - l.2.2) l.2.1 ++ (distCode d.1 ++ bitsLE (distance - d.2.2) d.2.1))

/-- The encoding of a block: its tokens, closed by the end-of-block code. -/
def blockBits (ts : List Token) : List Bool :=
  ts.flatMap (Token.encode litCode distCode) ++ litCode 256

end Encoding

/-! ## The tables of the source -/

/-- The first values of the rows of a table. -/
def starts : List ℕ → ℕ → List ℕ
  | [], _ => []
  | e :: es, start => start :: starts es (start + 2 ^ e)

/-- Row `r` of the tables `bits` and `base` covers `x`. -/
structure RowFor (bits base : List ℕ) (r : ℕ × ℕ × ℕ) (x : ℕ) : Prop where
  bits_eq : bits[r.1]? = some r.2.1
  base_eq : base[r.1]? = some r.2.2
  width_le : r.2.1 ≤ 31
  le : r.2.2 ≤ x
  lt : x - r.2.2 < 2 ^ r.2.1

theorem row_spec (es : List ℕ) (hes : ∀ e ∈ es, e ≤ 31) (start x : ℕ) (h : start ≤ x)
    (hx : x < start + (es.map (2 ^ ·)).sum) : RowFor es (starts es start) (row es start x) x := by
  induction es generalizing start with
  | nil => simp at hx; omega
  | cons e es ih =>
    rw [List.map_cons, List.sum_cons] at hx
    unfold row starts
    split_ifs with hlt
    · exact ⟨rfl, rfl, hes e List.mem_cons_self, h, by simp only; omega⟩
    · obtain ⟨hbits, hbase, hw, hle, hlt'⟩ :=
        ih (fun e' he' => hes e' (List.mem_cons_of_mem e he')) (start + 2 ^ e) (by omega) (by omega)
      exact ⟨hbits, hbase, hw, hle, hlt'⟩

theorem RowFor.append {bits base : List ℕ} {r : ℕ × ℕ × ℕ} {x : ℕ} (h : RowFor bits base r x)
    (bits' base' : List ℕ) : RowFor (bits ++ bits') (base ++ base') r x := by
  refine ⟨?_, ?_, h.width_le, h.le, h.lt⟩
  · rw [List.getElem?_append_left (List.getElem?_eq_some_iff.mp h.bits_eq).1, h.bits_eq]
  · rw [List.getElem?_append_left (List.getElem?_eq_some_iff.mp h.base_eq).1, h.base_eq]

theorem lengthRow_spec {length : ℕ} (h3 : 3 ≤ length) (h258 : length ≤ 258) :
    RowFor lengthBits lengthBase (lengthRow length) length := by
  unfold lengthRow
  split_ifs with h
  · subst h; exact ⟨rfl, rfl, by norm_num, le_rfl, by norm_num⟩
  · have hsum : (lengthExtra.map (2 ^ ·)).sum = 256 := by decide
    have hbits : lengthBits = lengthExtra ++ [0, 127] := by decide
    have hbase : lengthBase = starts lengthExtra 3 ++ [258, 0] := by decide
    rw [hbits, hbase]
    exact (row_spec lengthExtra (by decide) 3 length h3 (by omega)).append _ _

theorem distRow_spec {distance : ℕ} (h1 : 1 ≤ distance) (hmax : distance ≤ 32768) :
    RowFor distBits distBase (distRow distance) distance := by
  have hsum : (distExtra.map (2 ^ ·)).sum = 32768 := by decide
  have hbits : distBits = distExtra := by decide
  have hbase : distBase = starts distExtra 1 := by decide
  rw [hbits, hbase]
  exact row_spec distExtra (by decide) 1 distance h1 (by omega)

/-- Extra bits bring back the value they were made from. -/
theorem RowFor.run {bits base : List ℕ} {r : ℕ × ℕ × ℕ} {x : ℕ} (h : RowFor bits base r x)
    (p : Profile) (o : List Byte) (hx : x < 2 ^ 32) :
    Run (getBitsBase p r.2.1 r.2.2) (bitsLE (x - r.2.2) r.2.1) o x o :=
  run_getBitsBase p o h.width_le h.le h.lt hx

/-! ## `inflate` -/

/-- The bytes that copying `n` times from `d` bytes back emits, wherever `d` points. -/
def windowBytes (d : ℕ) : ℕ → List Byte → List Byte
  | 0, _ => []
  | n + 1, o => windowByte d o :: windowBytes d n (o ++ [windowByte d o])

theorem run_copyMatch {d : ℕ} (hpos : 1 ≤ d) (hmax : d ≤ 32768) (n : ℕ) (o : List Byte) :
    Run (copyMatch d n) [] o () (o ++ windowBytes d n o) := by
  induction n generalizing o with
  | zero =>
    rw [windowBytes, List.append_nil]
    exact Run.pure () o
  | succ n ih =>
    have hrest := ih (o ++ [windowByte d o])
    rw [List.append_assoc] at hrest
    exact (run_peek o hpos hmax).bind_nil ((run_emit _ o).bind hrest)

/-- A copy that stays behind the start of the output is the format's. -/
theorem windowBytes_eq {d : ℕ} (n : ℕ) {o : List Byte} (hle : d ≤ o.length) :
    windowBytes d n o = copyBytes d n o := by
  induction n generalizing o with
  | zero => rfl
  | succ n ih =>
    have hbyte : windowByte d o = o.getD (o.length - d) 0 := if_pos hle
    rw [windowBytes, copyBytes, hbyte, ih (by rw [List.length_append]; omega)]

/-- The table reads the code of symbol `s`. -/
structure Reads (huff : Huff) (code : ℕ → List Bool) (s : ℕ) : Prop where
  ne_nil : code s ≠ []
  run : ∀ o, Run (decode huff) (code s) o s o

theorem Reads.congr {huff : Huff} {code code' : ℕ → List Bool} {s : ℕ} (h : Reads huff code s)
    (he : code s = code' s) : Reads huff code' s :=
  ⟨he ▸ h.ne_nil, he ▸ h.run⟩

theorem TableFor.reads_coded {huff : Huff} {lens : List ℕ} {s : ℕ} (ht : TableFor huff lens)
    (h288 : lens.length ≤ 288) (hc : Canonical.Coded lens s) (h15 : Canonical.len lens s ≤ 15) :
    Reads huff (Canonical.codeBits lens) s :=
  ⟨hc.codeBits_ne_nil, run_decode ht h288 hc h15⟩

theorem TableFor.reads {huff : Huff} {lens : List ℕ} {m s : ℕ} (ht : TableFor huff lens)
    (h288 : lens.length ≤ 288) (hm : m ≤ 15) (hk : Canonical.Kraft lens m)
    (h0 : Canonical.len lens s ≠ 0) (hs : Canonical.len lens s ≤ m) :
    Reads huff (Canonical.codeBits lens) s :=
  ht.reads_coded h288 (hk.coded h0 hs) (hs.trans hm)

section Inflate

variable {p : Profile} {huffLen huffDist : Huff} {litCode distCode : ℕ → List Bool}

/-- The tables read every code of a token. -/
def Token.Readable (huffLen huffDist : Huff) (litCode distCode : ℕ → List Bool) (t : Token) :
    Prop :=
  Reads huffLen litCode t.symbol ∧
    ∀ s ∈ t.distSymbol, Reads huffDist distCode s

theorem run_inflateTurn_lit {b : Byte} (h : Reads huffLen litCode b.toNat) (o : List Byte) :
    Run (inflateTurn p huffLen huffDist) (litCode b.toNat) o true (o ++ [b]) := by
  have hb : b.toNat < 256 := b.isLt
  rw [← List.append_nil (litCode b.toNat)]
  refine (h.run o).bind ?_
  rw [if_pos hb, BitVec.ofNat_toNat, BitVec.setWidth_eq]
  exact (run_emit b o).bind (Run.pure true _)

theorem run_inflateTurn_end (h : Reads huffLen litCode 256) (o : List Byte) :
    Run (inflateTurn p huffLen huffDist) (litCode 256) o false o := by
  rw [← List.append_nil (litCode 256)]
  refine (h.run o).bind ?_
  rw [if_neg (by omega), if_pos rfl]
  exact Run.pure false o

/-- A length and a distance, whatever the bits behind their symbols stand for. -/
theorem run_inflateTurn_pair {i j lb lbase db dbase length distance : ℕ} {x y : List Bool}
    {o : List Byte} (hl : Reads huffLen litCode (257 + i)) (hd : Reads huffDist distCode j)
    (hlb : lengthBits[i]? = some lb) (hlbase : lengthBase[i]? = some lbase)
    (hdb : distBits[j]? = some db) (hdbase : distBase[j]? = some dbase)
    (hx : Run (getBitsBase p lb lbase) x o length o)
    (hy : Run (getBitsBase p db dbase) y o distance o) (h1 : 1 ≤ distance)
    (hmax : distance ≤ 32768) :
    Run (inflateTurn p huffLen huffDist) (litCode (257 + i) ++ (x ++ (distCode j ++ y))) o true
      (o ++ windowBytes distance length o) := by
  refine (hl.run o).bind ?_
  rw [if_neg (by omega), if_neg (by omega), Nat.add_sub_cancel_left]
  refine (run_index hlb o).bind_nil ((run_index hlbase o).bind_nil ?_)
  refine hx.bind ((hd.run o).bind ?_)
  refine (run_index hdb o).bind_nil ((run_index hdbase o).bind_nil ?_)
  rw [← List.append_nil y]
  exact hy.bind ((run_copyMatch h1 hmax length o).bind (Run.pure true _))

theorem run_inflateTurn_copy {length distance : ℕ} {o : List Byte}
    (hv : (Token.copy length distance).Valid o.length)
    (hl : Reads huffLen litCode (257 + (lengthRow length).1))
    (hd : Reads huffDist distCode (distRow distance).1) :
    Run (inflateTurn p huffLen huffDist) ((Token.copy length distance).encode litCode distCode) o
      true (o ++ copyBytes distance length o) := by
  obtain ⟨h3, h258, h1, hmax, hle⟩ := hv
  have hlrow := lengthRow_spec h3 h258
  have hdrow := distRow_spec h1 hmax
  rw [← windowBytes_eq length hle]
  exact run_inflateTurn_pair hl hd hlrow.bits_eq hlrow.base_eq hdrow.bits_eq hdrow.base_eq
    (hlrow.run p o (by omega)) (hdrow.run p o (by omega)) h1 hmax

theorem run_inflateTurn {t : Token} {o : List Byte} (hv : t.Valid o.length)
    (hr : t.Readable huffLen huffDist litCode distCode) :
    Run (inflateTurn p huffLen huffDist) (t.encode litCode distCode) o true (o ++ t.bytes o) := by
  cases t with
  | lit b => exact run_inflateTurn_lit hr.1 o
  | copy length distance => exact run_inflateTurn_copy hv hr.1 (hr.2 _ rfl)

theorem run_inflateLoop (hend : Reads huffLen litCode 256) (ts : List Token) (o : List Byte)
    (hv : ValidFrom o ts) (hr : ∀ t ∈ ts, t.Readable huffLen huffDist litCode distCode)
    (turns : ℕ) (hturns : ts.length < turns) :
    Run (inflateLoop p huffLen huffDist turns) (blockBits litCode distCode ts) o ()
      (o ++ expansion o ts) := by
  induction ts generalizing o turns with
  | nil =>
    obtain ⟨turns, rfl⟩ : ∃ t, turns = t + 1 := ⟨turns - 1, by simp at hturns; omega⟩
    rw [expansion, List.append_nil, blockBits, List.flatMap_nil, List.nil_append,
      ← List.append_nil (litCode 256)]
    exact (run_inflateTurn_end hend o).bind (Run.pure () o)
  | cons t ts ih =>
    rw [List.length_cons] at hturns
    obtain ⟨turns, rfl⟩ : ∃ t, turns = t + 1 := ⟨turns - 1, by omega⟩
    have hrest := ih (o ++ t.bytes o) hv.2 (fun t' ht' => hr t' (List.mem_cons_of_mem t ht')) turns
      (by omega)
    rw [List.append_assoc] at hrest
    rw [blockBits, List.flatMap_cons, List.append_assoc]
    exact (run_inflateTurn hv.1 (hr t List.mem_cons_self)).bind hrest

theorem length_le_blockBits {ts : List Token}
    (hr : ∀ t ∈ ts, t.Readable huffLen huffDist litCode distCode) :
    ts.length ≤ (blockBits litCode distCode ts).length := by
  rw [blockBits, List.length_append]
  refine le_trans ?_ (Nat.le_add_right _ _)
  induction ts with
  | nil => exact Nat.zero_le _
  | cons t ts ih =>
    have ht := List.length_pos_iff.mpr (hr t List.mem_cons_self).1.ne_nil
    have ih := ih fun t' ht' => hr t' (List.mem_cons_of_mem t ht')
    have hcode : (litCode t.symbol).length ≤ (t.encode litCode distCode).length := by
      cases t <;> simp [Token.symbol, Token.encode]
    rw [List.flatMap_cons, List.length_append, List.length_cons]
    omega

/-- `inflate` reads a block of tokens and emits what they stand for. -/
theorem run_inflate (hend : Reads huffLen litCode 256) {ts : List Token} {o : List Byte}
    (hv : ValidFrom o ts) (hr : ∀ t ∈ ts, t.Readable huffLen huffDist litCode distCode) :
    Run (inflate p huffLen huffDist) (blockBits litCode distCode ts) o ()
      (o ++ expansion o ts) := by
  have hbits := length_le_blockBits hr
  exact Run.get_bind fun c hc => run_inflateLoop hend ts o hv hr _ (by omega)

end Inflate

end CappuccinOS.Gzip
