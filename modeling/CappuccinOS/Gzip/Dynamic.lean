import CappuccinOS.Gzip.Tokens

/-!
# Dynamic-Huffman blocks

The format side of a block that brings its own codes: the code lengths of both alphabets are
written in a run-length form (`RunOp`, `render`), the symbols of that form with a code of their
own, and the lengths of that code as plain numbers in a fixed order. `DynamicHeader` is all of this
with what the format demands of it.

`decode_huffman` keeps the lengths of all three codes in one array.

1. `run_readClens`: after the first loop the array holds the lengths of the code-length code,
   and zeros behind them.
2. `run_lengthsLoop`: the second loop overwrites it from the start; what it has written is always
   what the operations read so far stand for.
3. `run_decodeHuffman` puts the tables built from it to work with `run_inflate`.
-/

namespace CappuccinOS.Gzip

open Canonical

/-! ## The format -/

/-- One symbol of the run-length form: a length, or a run of the last length (16) or of zeros (17
and 18). -/
inductive RunOp
  | one (l : ℕ)
  | again (n : ℕ)
  | zeros (n : ℕ)
  | manyZeros (n : ℕ)
  deriving DecidableEq, Repr

namespace RunOp

def symbol : RunOp → ℕ
  | one l => l
  | again _ => 16
  | zeros _ => 17
  | manyZeros _ => 18

/-- The lengths `acc` and what the operation adds; none when the format does not allow it. -/
def apply (acc : List ℕ) : RunOp → Option (List ℕ)
  | one l => if l ≤ 15 then some (acc ++ [l]) else none
  | again n =>
    if 3 ≤ n ∧ n ≤ 6 then acc.getLast?.map fun l => acc ++ List.replicate n l else none
  | zeros n => if 3 ≤ n ∧ n ≤ 10 then some (acc ++ List.replicate n 0) else none
  | manyZeros n => if 11 ≤ n ∧ n ≤ 138 then some (acc ++ List.replicate n 0) else none

/-- The extra bits behind the code of the symbol. -/
def extra : RunOp → List Bool
  | one _ => []
  | again n => bitsLE (n - 3) 2
  | zeros n => bitsLE (n - 3) 3
  | manyZeros n => bitsLE (n - 11) 7

def encode (clLens : List ℕ) (op : RunOp) : List Bool := codeBits clLens op.symbol ++ op.extra

end RunOp

/-- The lengths that `acc` and then the operations stand for. -/
def render : List ℕ → List RunOp → Option (List ℕ)
  | acc, [] => some acc
  | acc, op :: ops => (op.apply acc).bind fun acc => render acc ops

/-- The order in which the lengths of the code-length code are sent. -/
def clOrder : List ℕ := [16, 17, 18, 0, 8, 7, 9, 6, 10, 5, 11, 4, 12, 3, 13, 2, 14, 1, 15]

/-- What stands before the tokens of a dynamic-Huffman block. -/
structure DynamicHeader where
  litLens : List ℕ
  distLens : List ℕ
  clLens : List ℕ
  ops : List RunOp
  hclen : ℕ
  lit_count : 257 ≤ litLens.length ∧ litLens.length ≤ 286
  dist_count : 1 ≤ distLens.length ∧ distLens.length ≤ 30
  lit_le : ∀ l ∈ litLens, l ≤ 15
  dist_le : ∀ l ∈ distLens, l ≤ 15
  lit_kraft : Kraft litLens 15
  dist_kraft : Kraft distLens 15
  /-- The operations stand for both vectors, one behind the other. -/
  render_eq : render [] ops = some (litLens ++ distLens)
  cl_count : clLens.length = 19
  cl_le : ∀ l ∈ clLens, l ≤ 7
  cl_kraft : Kraft clLens 7
  cl_coded : ∀ op ∈ ops, len clLens op.symbol ≠ 0
  hclen_le : 4 ≤ hclen ∧ hclen ≤ 19
  /-- The lengths that are not sent are zero. -/
  hclen_enough : ∀ k ∈ clOrder.drop hclen, len clLens k = 0
  end_coded : len litLens 256 ≠ 0

namespace DynamicHeader

variable (d : DynamicHeader)

def bits : List Bool :=
  bitsLE (d.litLens.length - 257) 5 ++ (bitsLE (d.distLens.length - 1) 5 ++
    (bitsLE (d.hclen - 4) 4 ++
      ((clOrder.take d.hclen).flatMap (fun k => bitsLE (len d.clLens k) 3) ++
        d.ops.flatMap (RunOp.encode d.clLens))))

/-- The encoding of the block behind its type: header, tokens, end of block. -/
def blockBits (ts : List Token) : List Bool :=
  d.bits ++ Gzip.blockBits (codeBits d.litLens) (codeBits d.distLens) ts

/-- The symbols of the token have codes. -/
def Coded (t : Token) : Prop :=
  len d.litLens t.symbol ≠ 0 ∧ ∀ s ∈ t.distSymbol, len d.distLens s ≠ 0

instance (t : Token) : Decidable (d.Coded t) := inferInstanceAs (Decidable (_ ∧ _))

end DynamicHeader

/-! ## The shared array -/

theorem run_setLength {lengths : List ℕ} {i : ℕ} (h : i < lengths.length) (v : ℕ)
    (o : List Byte) : Run (setLength lengths i v) [] o (lengths.set i v) o :=
  fun c _ hc => ⟨c, if_pos h, hc⟩

/-- The array after the lengths of the first `i` symbols in sending order are written. -/
structure Sent (clLens : List ℕ) (i : ℕ) (lengths : List ℕ) : Prop where
  length_eq : lengths.length = 320
  getD_eq : ∀ k, lengths.getD k 0 = if k ∈ clOrder.take i then len clLens k else 0

theorem Sent.set {clLens lengths : List ℕ} {i k : ℕ} (h : Sent clLens i lengths)
    (hk : clOrder[i]? = some k) : Sent clLens (i + 1) (lengths.set k (len clLens k)) := by
  have hmem : k ∈ clOrder := List.mem_of_getElem? hk
  have h19 : k < 19 := by
    have : ∀ k ∈ clOrder, k < 19 := by decide
    exact this k hmem
  refine ⟨by rw [List.length_set, h.length_eq], fun j => ?_⟩
  have hget := h.getD_eq j
  rw [List.getD_eq_getElem?_getD] at hget ⊢
  rw [List.getElem?_set, List.take_add_one, hk]
  by_cases hj : k = j
  · subst hj
    have := h.length_eq
    rw [if_pos rfl, if_pos (by omega), if_pos (by simp)]
    rfl
  · rw [if_neg hj, hget]
    have hjk : ¬ j = k := fun he => hj he.symm
    simp [hjk]

theorem Sent.start (clLens : List ℕ) : Sent clLens 0 (List.replicate 320 0) := by
  refine ⟨List.length_replicate, fun k => ?_⟩
  rw [List.take_zero, if_neg (by simp), List.getD_eq_getElem?_getD, List.getElem?_replicate]
  split_ifs <;> rfl

variable {p : Profile}

theorem run_readClens {clLens : List ℕ} (hle : ∀ l ∈ clLens, l ≤ 7) (o : List Byte)
    (n i : ℕ) (hn : i + n ≤ 19) {lengths : List ℕ} (h : Sent clLens i lengths) :
    ∃ lengths', Sent clLens (i + n) lengths' ∧ Run (readClens p n i lengths)
      (((clOrder.drop i).take n).flatMap fun k => bitsLE (len clLens k) 3) o lengths' o := by
  induction n generalizing i lengths with
  | zero => exact ⟨lengths, h, Run.pure lengths o⟩
  | succ n ih =>
    have hi : i < clOrder.length := by
      have : clOrder.length = 19 := rfl
      omega
    have hk : clOrder[i]? = some clOrder[i] := List.getElem?_eq_getElem hi
    have hlt : clOrder[i] < lengths.length := by
      have : ∀ k ∈ clOrder, k < 19 := by decide
      have := this _ (List.getElem_mem hi)
      rw [h.length_eq]
      omega
    have h8 : len clLens clOrder[i] < 2 ^ 3 := by
      have := len_le_of_forall hle clOrder[i]
      omega
    obtain ⟨lengths', hsent, hrun⟩ := ih (i + 1) (by omega) (h.set hk)
    refine ⟨lengths', by rwa [Nat.add_right_comm] at hsent, ?_⟩
    rw [List.drop_eq_getElem_cons hi, List.take_succ_cons, List.flatMap_cons]
    refine (run_getBits_bitsLE p _ 3 o (by norm_num) h8).bind ?_
    exact (run_index hk o).bind_nil ((run_setLength hlt _ o).bind_nil hrun)

/-- When enough lengths are sent the array begins with all of them. -/
theorem Sent.take_eq {clLens lengths : List ℕ} {n : ℕ} (h : Sent clLens n lengths)
    (hcount : clLens.length = 19) (henough : ∀ k ∈ clOrder.drop n, len clLens k = 0) :
    lengths.take 19 = clLens := by
  have hlen := h.length_eq
  refine List.ext_getElem (by rw [List.length_take, hcount, hlen]; rfl) fun k hk hk' => ?_
  have hget := h.getD_eq k
  have hmem : k ∈ clOrder := by
    have : ∀ k < 19, k ∈ clOrder := by decide
    exact this k (by omega)
  rw [List.getElem_take, ← List.getD_eq_getElem _ 0, hget, ← len_eq_getElem hk']
  split_ifs with hin
  · rfl
  · rw [← List.take_append_drop n clOrder, List.mem_append] at hmem
    exact (henough k (hmem.resolve_left hin)).symm

/-- The table built from them is the one of the code-length code. -/
theorem Sent.table {clLens lengths : List ℕ} {n : ℕ} (h : Sent clLens n lengths)
    (hcount : clLens.length = 19) (hle : ∀ l ∈ clLens, l ≤ 7)
    (henough : ∀ k ∈ clOrder.drop n, len clLens k = 0) :
    ∃ codes, buildHuffman lengths 19 .zero = .ok codes ∧ TableFor codes clLens := by
  have htake := h.take_eq hcount henough
  obtain ⟨codes, hbuild, hcodes⟩ := buildHuffman_spec lengths 19 .zero
    (by rw [htake]; exact fun l hl => (hle l hl).trans (by norm_num))
    (by rw [h.length_eq]; norm_num) (by norm_num)
  rw [htake] at hcodes
  exact ⟨codes, hbuild, hcodes⟩

/-! ## The run-length form -/

theorem take_set_succ {lengths : List ℕ} {i : ℕ} (h : i < lengths.length) (v : ℕ) :
    (lengths.set i v).take (i + 1) = lengths.take i ++ [v] := by
  rw [List.take_add_one, List.take_set_of_le le_rfl, List.getElem?_set_self h]
  rfl

theorem run_fillLengths (rep n : ℕ) (o : List Byte) {acc lengths : List ℕ}
    (htake : lengths.take acc.length = acc) (hlen : acc.length + n ≤ lengths.length) :
    ∃ lengths', lengths'.length = lengths.length ∧
      lengths'.take (acc.length + n) = acc ++ List.replicate n rep ∧
      Run (fillLengths rep n acc.length lengths) [] o lengths' o := by
  induction n generalizing acc lengths with
  | zero => exact ⟨lengths, rfl, by simpa using htake, Run.pure lengths o⟩
  | succ n ih =>
    have hi : acc.length < lengths.length := by omega
    have hset := take_set_succ hi rep
    rw [htake] at hset
    obtain ⟨lengths', hlen', htake', hrun⟩ := @ih (acc ++ [rep])
      (lengths.set acc.length rep) (by simpa using hset)
      (by simp only [List.length_append, List.length_singleton, List.length_set]; omega)
    rw [List.length_append, List.length_singleton] at htake' hrun
    refine ⟨lengths', by rw [hlen', List.length_set], ?_, ?_⟩
    · rw [show acc.length + (n + 1) = acc.length + 1 + n by omega, htake', List.append_assoc,
        List.replicate_succ]
      rfl
    · exact (run_setLength hi rep o).bind_nil hrun

/-- What an operation adds: lengths of one value, read off its extra bits. -/
inductive RunOp.Adds (acc : List ℕ) : RunOp → ℕ → ℕ → Prop
  | one {l : ℕ} (hl : l ≤ 15) : Adds acc (.one l) l 1
  | again {n l : ℕ} (hn : 3 ≤ n ∧ n ≤ 6) (hlast : acc.getLast? = some l) : Adds acc (.again n) l n
  | zeros {n : ℕ} (hn : 3 ≤ n ∧ n ≤ 10) : Adds acc (.zeros n) 0 n
  | manyZeros {n : ℕ} (hn : 11 ≤ n ∧ n ≤ 138) : Adds acc (.manyZeros n) 0 n

theorem RunOp.adds_of_apply {op : RunOp} {acc acc' : List ℕ} (h : op.apply acc = some acc') :
    ∃ l n, op.Adds acc l n ∧ acc' = acc ++ List.replicate n l := by
  cases op with
  | one l =>
    simp only [RunOp.apply] at h
    split_ifs at h with hl
    exact ⟨l, 1, .one hl, (Option.some.inj h).symm⟩
  | again n =>
    simp only [RunOp.apply] at h
    split_ifs at h with hn
    obtain ⟨l, hl, rfl⟩ := Option.map_eq_some_iff.mp h
    exact ⟨l, n, .again hn hl, rfl⟩
  | zeros n =>
    simp only [RunOp.apply] at h
    split_ifs at h with hn
    exact ⟨0, n, .zeros hn, (Option.some.inj h).symm⟩
  | manyZeros n =>
    simp only [RunOp.apply] at h
    split_ifs at h with hn
    exact ⟨0, n, .manyZeros hn, (Option.some.inj h).symm⟩

theorem RunOp.Adds.pos {op : RunOp} {acc : List ℕ} {l n : ℕ} (h : op.Adds acc l n) : 1 ≤ n := by
  cases h <;> omega

theorem length_le_of_render {acc final : List ℕ} {ops : List RunOp}
    (h : render acc ops = some final) : acc.length ≤ final.length := by
  induction ops generalizing acc with
  | nil => cases h; exact le_rfl
  | cons op ops ih =>
    obtain ⟨acc', hop, hrest⟩ := Option.bind_eq_some_iff.mp h
    obtain ⟨l, n, -, rfl⟩ := RunOp.adds_of_apply hop
    have := ih hrest
    rw [List.length_append] at this
    omega

section Lengths

variable {clLens acc lengths : List ℕ} {codes : Huff} {total : ℕ} {o : List Byte}

/-- A run symbol and its extra bits say what is repeated, and how often. -/
theorem run_readRun {op : RunOp} {l n : ℕ} (hadds : op.Adds acc l n) (h16 : 16 ≤ op.symbol)
    (htake : lengths.take acc.length = acc) :
    Run (readRun p op.symbol acc.length lengths) op.extra o (l, n) o := by
  cases hadds with
  | one hl => simp only [RunOp.symbol] at h16; omega
  | again hn hlast =>
    have hpos : acc.length ≠ 0 := by
      rintro h0
      rw [List.length_eq_zero_iff.mp h0] at hlast
      cases hlast
    have hget : lengths[acc.length - 1]? = some l := by
      rw [← hlast, List.getLast?_eq_getElem?]
      conv_rhs => rw [← htake, List.getElem?_take_of_lt (by simp [htake]; omega)]
      simp [htake]
    refine (run_ensure hpos o).bind_nil ((run_index hget o).bind_nil ?_)
    exact (run_getBitsBase p o (by norm_num) hn.1 (by omega) (by omega)).bind_pure fun x => (l, x)
  | zeros hn =>
    exact (run_getBitsBase p o (by norm_num) hn.1 (by omega) (by omega)).bind_pure fun x => (0, x)
  | manyZeros hn =>
    exact (run_getBitsBase p o (by norm_num) hn.1 (by omega) (by omega)).bind_pure fun x => (0, x)

theorem run_lengthsLoop_turn {op : RunOp} {l n : ℕ} (hadds : op.Adds acc l n)
    (hread : Reads codes (codeBits clLens) op.symbol) (htotal : acc.length < total)
    (htake : lengths.take acc.length = acc) (hlen : acc.length + n ≤ lengths.length) :
    ∃ lengths', lengths'.length = lengths.length ∧
      lengths'.take (acc.length + n) = acc ++ List.replicate n l ∧
      ∀ turns bs final,
        Run (lengthsLoop p codes total turns (acc.length + n) lengths') bs o final o →
        Run (lengthsLoop p codes total (turns + 1) acc.length lengths) (op.encode clLens ++ bs) o
          final o := by
  rcases Nat.lt_or_ge op.symbol 16 with h16 | h16
  · cases hadds with
    | one hl =>
      have hset := take_set_succ (show acc.length < lengths.length by omega) l
      rw [htake] at hset
      refine ⟨_, List.length_set, hset, fun turns bs final hrest => ?_⟩
      rw [lengthsLoop, if_pos htotal, RunOp.encode, RunOp.extra, List.append_nil]
      refine (hread.run o).bind ?_
      rw [if_pos h16]
      exact (run_setLength (by omega) _ o).bind_nil hrest
    | again hn hlast => simp only [RunOp.symbol] at h16; omega
    | zeros hn => simp only [RunOp.symbol] at h16; omega
    | manyZeros hn => simp only [RunOp.symbol] at h16; omega
  · have h19 : op.symbol < 19 := by
      cases hadds <;> simp only [RunOp.symbol] at h16 ⊢ <;> omega
    obtain ⟨lengths', hlen', htake', hfill⟩ := run_fillLengths l n o htake hlen
    refine ⟨lengths', hlen', htake', fun turns bs final hrest => ?_⟩
    rw [lengthsLoop, if_pos htotal, RunOp.encode, List.append_assoc]
    refine (hread.run o).bind ?_
    rw [if_neg (by omega), if_pos h19]
    exact (run_readRun hadds h16 htake).bind (hfill.bind_nil hrest)

theorem run_lengthsLoop (ops : List RunOp) {final : List ℕ} (hrender : render acc ops = some final)
    (hread : ∀ op ∈ ops, Reads codes (codeBits clLens) op.symbol)
    (htake : lengths.take acc.length = acc) (hlen : lengths.length = 320)
    (hfinal : final.length ≤ 320) (turns : ℕ) (hturns : ops.length < turns) :
    ∃ lengths', lengths'.length = 320 ∧ lengths'.take final.length = final ∧
      Run (lengthsLoop p codes final.length turns acc.length lengths)
        (ops.flatMap (RunOp.encode clLens)) o lengths' o := by
  induction ops generalizing acc lengths turns with
  | nil =>
    cases hrender
    obtain ⟨turns, rfl⟩ : ∃ t, turns = t + 1 := ⟨turns - 1, by simp at hturns; omega⟩
    refine ⟨lengths, hlen, htake, ?_⟩
    rw [lengthsLoop, if_neg (lt_irrefl _)]
    exact Run.pure lengths o
  | cons op ops ih =>
    rw [List.length_cons] at hturns
    obtain ⟨turns, rfl⟩ : ∃ t, turns = t + 1 := ⟨turns - 1, by omega⟩
    obtain ⟨acc', hop, hrest⟩ := Option.bind_eq_some_iff.mp hrender
    obtain ⟨l, n, hadds, rfl⟩ := RunOp.adds_of_apply hop
    have hpos := hadds.pos
    have hle := length_le_of_render hrest
    have hacc : (acc ++ List.replicate n l).length = acc.length + n := by simp
    rw [hacc] at hle
    obtain ⟨lengths1, hlen1, htake1, hturn⟩ := run_lengthsLoop_turn (p := p) (o := o)
      hadds (hread op List.mem_cons_self) (show acc.length < final.length by omega) htake (by omega)
    obtain ⟨lengths', hlen', htake', hrun⟩ := ih hrest
      (fun op' hop' => hread op' (List.mem_cons_of_mem op hop')) (hacc ▸ htake1)
      (hlen1.trans hlen) turns (by omega)
    rw [hacc] at hrun
    exact ⟨lengths', hlen', htake', hturn turns _ _ hrun⟩

theorem length_le_encode {ops : List RunOp} (hcoded : ∀ op ∈ ops, len clLens op.symbol ≠ 0) :
    ops.length ≤ (ops.flatMap (RunOp.encode clLens)).length := by
  induction ops with
  | nil => exact le_rfl
  | cons op ops ih =>
    have ih := ih fun op' hop' => hcoded op' (List.mem_cons_of_mem op hop')
    have hop := hcoded op List.mem_cons_self
    rw [List.flatMap_cons, List.length_append, List.length_cons, RunOp.encode, List.length_append,
      codeBits, length_bitsBE]
    omega

end Lengths

/-! ## `decode_huffman` -/

namespace DynamicHeader

variable (d : DynamicHeader)

/-- The tables built from the transmitted lengths read every symbol of the tokens. -/
theorem readable {huffLen huffDist : Huff} (htl : TableFor huffLen d.litLens)
    (htd : TableFor huffDist d.distLens) {t : Token} (hc : d.Coded t) :
    t.Readable huffLen huffDist (codeBits d.litLens) (codeBits d.distLens) := by
  have hl := d.lit_count
  have hd := d.dist_count
  refine ⟨htl.reads (by omega) le_rfl d.lit_kraft hc.1 (len_le_of_forall d.lit_le _), ?_⟩
  intro s hs
  exact htd.reads (by omega) le_rfl d.dist_kraft (hc.2 s hs) (len_le_of_forall d.dist_le _)

/-- Both tables come out of the array that holds the two vectors one behind the other. -/
theorem tables {lengths : List ℕ} (hlen : lengths.length = 320)
    (htake : lengths.take (d.litLens ++ d.distLens).length = d.litLens ++ d.distLens) :
    ∃ huffLen huffDist, buildHuffman lengths d.litLens.length .zero = .ok huffLen ∧
      buildHuffman (lengths.drop d.litLens.length) d.distLens.length .zero = .ok huffDist ∧
      TableFor huffLen d.litLens ∧ TableFor huffDist d.distLens := by
  have hl := d.lit_count
  have hd := d.dist_count
  rw [List.length_append, List.take_add] at htake
  obtain ⟨hlit, hdist⟩ := List.append_inj htake (by rw [List.length_take]; omega)
  obtain ⟨huffLen, hbl, htl⟩ := buildHuffman_spec lengths d.litLens.length .zero
    (by rw [hlit]; exact d.lit_le) (by omega) (by omega)
  obtain ⟨huffDist, hbd, htd⟩ := buildHuffman_spec (lengths.drop d.litLens.length)
    d.distLens.length .zero (by rw [hdist]; exact d.dist_le) (by rw [List.length_drop]; omega)
    (by omega)
  rw [hlit] at htl
  rw [hdist] at htd
  exact ⟨huffLen, huffDist, hbl, hbd, htl, htd⟩

/-- `decode_huffman` reads a dynamic-Huffman block and emits what its tokens stand for. -/
theorem run_decodeHuffman (p : Profile) (ts : List Token) (o : List Byte) (hv : ValidFrom o ts)
    (hc : ∀ t ∈ ts, d.Coded t) :
    Run (decodeHuffman p) (d.blockBits ts) o () (o ++ expansion o ts) := by
  have hl := d.lit_count
  have hd := d.dist_count
  have hh := d.hclen_le
  obtain ⟨lengths, hsent, hclens⟩ :=
    run_readClens (p := p) d.cl_le o d.hclen 0 (by omega) (Sent.start d.clLens)
  rw [Nat.zero_add] at hsent
  obtain ⟨codes, hbuild, hcodes⟩ := hsent.table d.cl_count d.cl_le d.hclen_enough
  have hread : ∀ op ∈ d.ops, Reads codes (codeBits d.clLens) op.symbol := fun op hop =>
    hcodes.reads (by rw [d.cl_count]; norm_num) (by norm_num) d.cl_kraft (d.cl_coded op hop)
      (len_le_of_forall d.cl_le _)
  have hops := length_le_encode d.cl_coded
  have htotal : (d.litLens ++ d.distLens).length = d.litLens.length + d.distLens.length :=
    List.length_append
  unfold blockBits bits
  simp only [List.append_assoc]
  refine (run_getBitsBase p o (by norm_num) hl.1 (by omega) (by omega)).bind ?_
  refine (run_getBitsBase p o (by norm_num) hd.1 (by omega) (by omega)).bind ?_
  refine (run_getBitsBase p o (by norm_num) hh.1 (by omega) (by omega)).bind ?_
  refine hclens.bind ((run_lift hbuild o).bind_nil (Run.get_bind fun c hbits => ?_))
  rw [List.length_append] at hbits
  obtain ⟨lengths', hlen', htake', hrun⟩ := run_lengthsLoop (p := p) (o := o) d.ops
    d.render_eq hread rfl hsent.length_eq (by omega) (8 * c.inputBuf.length + 1) (by omega)
  obtain ⟨huffLen, huffDist, hbl, hbd, htl, htd⟩ := d.tables hlen' htake'
  rw [htotal] at hrun
  refine hrun.bind ((run_lift hbl o).bind_nil ((run_lift hbd o).bind_nil ?_))
  have hend := htl.reads (by omega) le_rfl d.lit_kraft d.end_coded (len_le_of_forall d.lit_le _)
  exact run_inflate hend hv fun t ht => d.readable htl htd (hc t ht)

/-- A header for the literal `a`, the end of block, the length 4 and the distance 1. -/
def demo : DynamicHeader where
  litLens := List.replicate 97 0 ++ [1] ++ List.replicate 158 0 ++ [2, 0, 2]
  distLens := [1]
  clLens := [2, 2, 2] ++ List.replicate 15 0 ++ [2]
  ops := [.manyZeros 97, .one 1, .manyZeros 138, .manyZeros 20, .one 2, .one 0, .one 2, .one 1]
  hclen := 18
  lit_count := by decide +kernel
  dist_count := by decide
  lit_le := by decide +kernel
  dist_le := by decide
  lit_kraft := by decide +kernel
  dist_kraft := by decide
  render_eq := by decide +kernel
  cl_count := by decide
  cl_le := by decide
  cl_kraft := by decide
  cl_coded := by decide
  hclen_le := by decide
  hclen_enough := by decide
  end_coded := by decide +kernel

theorem run_decodeHuffman_demo :
    ValidFrom [] [.lit 0x61#8, .copy 4 1] ∧ (∀ t ∈ [Token.lit 0x61#8, .copy 4 1], demo.Coded t) ∧
      Run (decodeHuffman .dev) (demo.blockBits [.lit 0x61#8, .copy 4 1]) [] ()
        (expansion [] [.lit 0x61#8, .copy 4 1]) :=
  have hv : ValidFrom [] [.lit 0x61#8, .copy 4 1] := by decide
  have hc : ∀ t ∈ [Token.lit 0x61#8, .copy 4 1], demo.Coded t := by decide +kernel
  ⟨hv, hc, demo.run_decodeHuffman .dev [.lit 0x61#8, .copy 4 1] [] hv hc⟩

end DynamicHeader

end CappuccinOS.Gzip
