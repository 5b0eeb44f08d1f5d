import CappuccinOS.Gzip.Dynamic
import CappuccinOS.Gzip.Entries

/-!
# What `decode_huffman` reads before its block, legal or not

`DynamicHeader` is what the format allows in front of a dynamic-Huffman block; a `Preamble` is what
the source reads there. The two codes may break Kraft's inequality, there may be too many symbols,
and the last run may go past the end of both vectors, as long as it stays in the source's array of
320 lengths.

1. `Preamble.run_decodeHuffman`: in front of a preamble `decode_huffman` builds the tables of its
   two codes and goes on with `inflate`.
2. `decodeHuffman_inv`: when it returns, it has read a preamble and then called `inflate`. For the
   loop over the code lengths this is `lengthsLoop_inv`, by induction on its turns.
-/

namespace CappuccinOS.Gzip

open Canonical

/-- Operations that bring the lengths `acc` up to at least `total`, and the lengths then. -/
inductive Fills (clLens : List ℕ) (total : ℕ) : List ℕ → List RunOp → List ℕ → Prop
  | done {acc : List ℕ} (htotal : total ≤ acc.length) : Fills clLens total acc [] acc
  | step {acc final : List ℕ} {op : RunOp} {ops : List RunOp} {l n : ℕ}
    (hlt : acc.length < total) (hcoded : Coded clLens op.symbol) (hadds : op.Adds acc l n)
    (hfit : acc.length + n ≤ 320)
    (hrest : Fills clLens total (acc ++ List.replicate n l) ops final) :
    Fills clLens total acc (op :: ops) final

/-- What stands before the entries of a dynamic-Huffman block. -/
structure Preamble where
  hlit : ℕ
  hdist : ℕ
  hclen : ℕ
  clLens : List ℕ
  ops : List RunOp
  lens : List ℕ
  lit_count : 257 ≤ hlit ∧ hlit ≤ 288
  dist_count : 1 ≤ hdist ∧ hdist ≤ 32
  hclen_le : 4 ≤ hclen ∧ hclen ≤ 19
  cl_count : clLens.length = 19
  cl_le : ∀ l ∈ clLens, l ≤ 7
  /-- The lengths that are not sent are zero. -/
  hclen_enough : ∀ k ∈ clOrder.drop hclen, len clLens k = 0
  fills : Fills clLens (hlit + hdist) [] ops lens

/-! ## The lengths -/

namespace Fills

variable {clLens acc final : List ℕ} {total : ℕ} {ops : List RunOp}

theorem total_le (h : Fills clLens total acc ops final) : total ≤ final.length := by
  induction h with
  | done htotal => exact htotal
  | step hlt hcoded hadds hfit hrest ih => exact ih

theorem length_le (h : Fills clLens total acc ops final) (hacc : acc.length ≤ 320) :
    final.length ≤ 320 := by
  induction h with
  | done htotal => exact hacc
  | step hlt hcoded hadds hfit hrest ih =>
    exact ih (by rwa [List.length_append, List.length_replicate])

theorem le_fifteen (h : Fills clLens total acc ops final) (hacc : ∀ l ∈ acc, l ≤ 15) :
    ∀ l ∈ final, l ≤ 15 := by
  induction h with
  | done htotal => exact hacc
  | step hlt hcoded hadds hfit hrest ih =>
    refine ih fun x hx => ?_
    rcases List.mem_append.mp hx with hmem | hmem
    · exact hacc x hmem
    · rw [List.eq_of_mem_replicate hmem]
      cases hadds with
      | one hl => exact hl
      | again hn hlast => exact hacc _ (List.mem_of_getLast? hlast)
      | zeros hn => exact Nat.zero_le 15
      | manyZeros hn => exact Nat.zero_le 15

theorem coded (h : Fills clLens total acc ops final) : ∀ op ∈ ops, len clLens op.symbol ≠ 0 := by
  induction h with
  | done htotal => simp
  | step hlt hcoded hadds hfit hrest ih => exact List.forall_mem_cons.mpr ⟨hcoded.1, ih⟩

end Fills

namespace Preamble

variable (d : Preamble)

def bits : List Bool :=
  bitsLE (d.hlit - 257) 5 ++ (bitsLE (d.hdist - 1) 5 ++ (bitsLE (d.hclen - 4) 4 ++
    ((clOrder.take d.hclen).flatMap (fun k => bitsLE (len d.clLens k) 3) ++
      d.ops.flatMap (RunOp.encode d.clLens))))

theorem lens_le : ∀ l ∈ d.lens, l ≤ 15 := d.fills.le_fifteen (by simp)

def codes : Codes where
  lits := d.lens.take d.hlit
  dists := (d.lens.drop d.hlit).take d.hdist
  lits_count := (List.length_take_le _ _).trans d.lit_count.2
  dists_count := (List.length_take_le _ _).trans (d.dist_count.2.trans (by norm_num))
  lits_le := fun l hl => d.lens_le l (List.mem_of_mem_take hl)
  dists_le := fun l hl => d.lens_le l (List.mem_of_mem_drop (List.mem_of_mem_take hl))

theorem tables {lengths : List ℕ} (hlen : lengths.length = 320)
    (htake : lengths.take d.lens.length = d.lens) :
    ∃ huffLen huffDist, buildHuffman lengths d.hlit .zero = .ok huffLen ∧
      buildHuffman (lengths.drop d.hlit) d.hdist .zero = .ok huffDist ∧
      TableFor huffLen d.codes.lits ∧ TableFor huffDist d.codes.dists := by
  have hl := d.lit_count
  have hd := d.dist_count
  have htotal := d.fills.total_le
  have hlits : lengths.take d.hlit = d.codes.lits := by
    show _ = d.lens.take d.hlit
    rw [← htake, List.take_take, Nat.min_eq_left (by omega)]
  have hdists : (lengths.drop d.hlit).take d.hdist = d.codes.dists := by
    show _ = (d.lens.drop d.hlit).take d.hdist
    rw [← htake, List.drop_take, List.take_take, Nat.min_eq_left (by omega)]
  obtain ⟨huffLen, hbl, htl⟩ := buildHuffman_spec lengths d.hlit .zero
    (by rw [hlits]; exact d.codes.lits_le) (by omega) hl.2
  obtain ⟨huffDist, hbd, htd⟩ := buildHuffman_spec (lengths.drop d.hlit) d.hdist .zero
    (by rw [hdists]; exact d.codes.dists_le) (by rw [List.length_drop]; omega) (by omega)
  rw [hlits] at htl
  rw [hdists] at htd
  exact ⟨huffLen, huffDist, hbl, hbd, htl, htd⟩

end Preamble

/-! ## Reading a preamble -/

section Run

variable {p : Profile} {clLens acc final lengths : List ℕ} {codes : Huff} {total : ℕ}

theorem run_fills {ops : List RunOp} (h : Fills clLens total acc ops final)
    (hread : ∀ s, Coded clLens s → Reads codes (codeBits clLens) s) (o : List Byte)
    (htake : lengths.take acc.length = acc) (hlen : lengths.length = 320) (turns : ℕ)
    (hturns : ops.length < turns) :
    ∃ lengths', lengths'.length = 320 ∧ lengths'.take final.length = final ∧
      Run (lengthsLoop p codes total turns acc.length lengths)
        (ops.flatMap (RunOp.encode clLens)) o lengths' o := by
  induction h generalizing lengths turns with
  | done htotal =>
    obtain ⟨turns, rfl⟩ : ∃ t, turns = t + 1 := ⟨turns - 1, by simp at hturns; omega⟩
    refine ⟨lengths, hlen, htake, ?_⟩
    rw [lengthsLoop, if_neg (by omega)]
    exact Run.pure lengths o
  | @step acc final op ops l n hlt hcoded hadds hfit hrest ih =>
    rw [List.length_cons] at hturns
    obtain ⟨turns, rfl⟩ : ∃ t, turns = t + 1 := ⟨turns - 1, by omega⟩
    have hacc : (acc ++ List.replicate n l).length = acc.length + n := by simp
    obtain ⟨lengths1, hlen1, htake1, hturn⟩ := run_lengthsLoop_turn (p := p) (o := o) hadds
      (hread _ hcoded) hlt htake (by omega)
    obtain ⟨lengths', hlen', htake', hrun⟩ :=
      ih (hacc ▸ htake1) (hlen1.trans hlen) turns (by omega)
    rw [hacc] at hrun
    exact ⟨lengths', hlen', htake', hturn turns _ _ hrun⟩

/-- `decode_huffman` reads a preamble and goes on with the tables of its codes. -/
theorem Preamble.run_decodeHuffman_of (d : Preamble) {bs : List Bool} {o o' : List Byte}
    (hrest : ∀ huffLen huffDist, TableFor huffLen d.codes.lits → TableFor huffDist d.codes.dists →
      Run (inflate p huffLen huffDist) bs o () o') :
    Run (decodeHuffman p) (d.bits ++ bs) o () o' := by
  have hl := d.lit_count
  have hd := d.dist_count
  have hh := d.hclen_le
  obtain ⟨lengths, hsent, hclens⟩ :=
    run_readClens (p := p) d.cl_le o d.hclen 0 (by omega) (Sent.start d.clLens)
  rw [Nat.zero_add] at hsent
  obtain ⟨codes, hbuild, hcodes⟩ := hsent.table d.cl_count d.cl_le d.hclen_enough
  have hread : ∀ s, Coded d.clLens s → Reads codes (codeBits d.clLens) s := fun s hs =>
    hcodes.reads_coded (by rw [d.cl_count]; norm_num) hs
      ((len_le_of_forall d.cl_le s).trans (by norm_num))
  have hops := length_le_encode d.fills.coded
  unfold bits
  simp only [List.append_assoc]
  refine (run_getBitsBase p o (by norm_num) hl.1 (by omega) (by omega)).bind ?_
  refine (run_getBitsBase p o (by norm_num) hd.1 (by omega) (by omega)).bind ?_
  refine (run_getBitsBase p o (by norm_num) hh.1 (by omega) (by omega)).bind ?_
  refine hclens.bind ((run_lift hbuild o).bind_nil (Run.get_bind fun c hbits => ?_))
  rw [List.length_append] at hbits
  obtain ⟨lengths', hlen', htake', hrun⟩ := run_fills (p := p) d.fills hread o rfl hsent.length_eq
    (8 * c.inputBuf.length + 1) (by omega)
  obtain ⟨huffLen, huffDist, hbl, hbd, htl, htd⟩ := d.tables hlen' htake'
  exact hrun.bind ((run_lift hbl o).bind_nil ((run_lift hbd o).bind_nil
    (hrest huffLen huffDist htl htd)))

end Run

/-! ## What was read -/

section Inversion

variable {p : Profile} {c c' : InflateContext} {bs : List Bool} {o : List Byte}
  {clLens acc lengths lengths' : List ℕ} {codes : Huff} {total : ℕ}

theorem setLength_inv {i v : ℕ} (h : setLength lengths i v c = .ok (lengths', c')) :
    i < lengths.length ∧ lengths' = lengths.set i v ∧ c' = c := by
  unfold setLength at h
  split_ifs at h with hi
  cases h
  exact ⟨hi, rfl, rfl⟩

/-- The first loop writes each of its places once, since they are all different. -/
theorem readClens_inv {n i : ℕ} (hlen : lengths.length = 320) (hat : At c bs o)
    (hret : readClens p n i lengths c = .ok (lengths', c')) :
    lengths'.length = 320 ∧
      (∀ k ∈ (clOrder.drop i).take n, lengths'.getD k 0 < 8) ∧
      (∀ k ∉ (clOrder.drop i).take n, lengths'.getD k 0 = lengths.getD k 0) ∧
      ∃ bs', bs = ((clOrder.drop i).take n).flatMap (fun k => bitsLE (lengths'.getD k 0) 3) ++ bs' ∧
        At c' bs' o := by
  induction n generalizing i lengths c bs with
  | zero =>
    cases hret
    exact ⟨hlen, by simp, fun _ _ => rfl, bs, rfl, hat⟩
  | succ n ih =>
    obtain ⟨v, c1, hbits, hret1⟩ := exists_of_bind hret
    obtain ⟨k, c2, hindex, hret2⟩ := exists_of_bind hret1
    obtain ⟨lengths1, c3, hset, hret3⟩ := exists_of_bind hret2
    clear hret hret1 hret2
    obtain ⟨hv, bs1, rfl, hat1⟩ := getBits_inv (by norm_num) hat hbits
    obtain ⟨hk, rfl⟩ := index_inv hindex
    obtain ⟨hlt, rfl, rfl⟩ := setLength_inv hset
    obtain ⟨hlen', hsmall, hsame, bs', rfl, hat'⟩ :=
      ih (by rwa [List.length_set]) hat1 hret3
    have hk' : clOrder[i]? = some k := hk
    obtain ⟨hi, hget⟩ := List.getElem?_eq_some_iff.mp hk'
    have hcons : (clOrder.drop i).take (n + 1) = k :: (clOrder.drop (i + 1)).take n := by
      rw [List.drop_eq_getElem_cons hi, hget, List.take_succ_cons]
    have hnew : k ∉ (clOrder.drop (i + 1)).take n := by
      have hnodup : (clOrder.drop i).Nodup :=
        (by decide : clOrder.Nodup).sublist (List.drop_sublist i _)
      rw [List.drop_eq_getElem_cons hi, hget, List.nodup_cons] at hnodup
      exact fun hmem => hnodup.1 (List.mem_of_mem_take hmem)
    have hkv : lengths'.getD k 0 = v := by
      rw [hsame k hnew, List.getD_eq_getElem?_getD, List.getElem?_set_self hlt, Option.getD_some]
    rw [hcons]
    refine ⟨hlen', List.forall_mem_cons.mpr ⟨by rwa [hkv], hsmall⟩, fun j hj => ?_, bs', ?_, hat'⟩
    · rw [List.mem_cons, not_or] at hj
      rw [hsame j hj.2, List.getD_eq_getElem?_getD, List.getElem?_set_ne (Ne.symm hj.1),
        ← List.getD_eq_getElem?_getD]
    · rw [List.flatMap_cons, hkv, List.append_assoc]

theorem len_take_nineteen (lengths : List ℕ) {k : ℕ} (hk : k ∈ clOrder) :
    len (lengths.take 19) k = lengths.getD k 0 := by
  have h19 : ∀ k ∈ clOrder, k < 19 := by decide
  rw [len, List.getD_eq_getElem?_getD, List.getElem?_take_of_lt (h19 k hk),
    ← List.getD_eq_getElem?_getD]

/-- The lengths of the code-length code, as the first loop leaves them. -/
theorem clLens_of_readClens {n : ℕ} (hlen : lengths.length = 320)
    (hsmall : ∀ k ∈ clOrder.take n, lengths.getD k 0 < 8)
    (hsame : ∀ k ∉ clOrder.take n, lengths.getD k 0 = 0) :
    (lengths.take 19).length = 19 ∧ (∀ l ∈ lengths.take 19, l ≤ 7) ∧
      ∀ k ∈ clOrder.drop n, len (lengths.take 19) k = 0 := by
  have hcount : (lengths.take 19).length = 19 := by
    rw [List.length_take, hlen]
    rfl
  refine ⟨hcount, fun l hl => ?_, fun k hk => ?_⟩
  · obtain ⟨k, hk, rfl⟩ := List.getElem_of_mem hl
    have hmem : k ∈ clOrder := by
      have : ∀ k < 19, k ∈ clOrder := by decide
      exact this k (by omega)
    rw [← len_eq_getElem hk, len_take_nineteen lengths hmem]
    by_cases hin : k ∈ clOrder.take n
    · have := hsmall k hin
      omega
    · rw [hsame k hin]
      exact Nat.zero_le 7
  · rw [len_take_nineteen lengths (List.mem_of_mem_drop hk)]
    refine hsame k fun hin => ?_
    have hnodup : (clOrder.take n ++ clOrder.drop n).Nodup := by
      rw [List.take_append_drop]
      decide
    exact (List.nodup_append.mp hnodup).2.2 k hin k hk rfl

theorem fillLengths_inv {rep n count : ℕ}
    (hret : fillLengths rep n count lengths c = .ok (lengths', c')) (hn : n ≠ 0) :
    count + n ≤ lengths.length := by
  induction n generalizing count lengths c with
  | zero => exact absurd rfl hn
  | succ n ih =>
    obtain ⟨lengths1, c1, hset, hret1⟩ := exists_of_bind hret
    obtain ⟨hlt, rfl, rfl⟩ := setLength_inv hset
    by_cases h0 : n = 0
    · omega
    · have := ih hret1 h0
      rw [List.length_set] at this
      omega

theorem readRun_inv {s l n : ℕ} (h16 : ¬ s < 16) (h19 : s < 19)
    (htake : lengths.take acc.length = acc) (hat : At c bs o)
    (hret : readRun p s acc.length lengths c = .ok ((l, n), c')) :
    ∃ op bs', RunOp.symbol op = s ∧ op.Adds acc l n ∧ bs = op.extra ++ bs' ∧ At c' bs' o := by
  unfold readRun at hret
  by_cases hs16 : s = 16
  · rw [if_pos hs16] at hret
    obtain ⟨u, c1, hens, hret1⟩ := exists_of_bind hret
    obtain ⟨rep, c2, hindex, hret2⟩ := exists_of_bind hret1
    obtain ⟨m, c3, hbits, hret3⟩ := exists_of_bind hret2
    clear hret hret1 hret2
    obtain ⟨hpos, rfl⟩ := ensure_inv hens
    obtain ⟨hget, rfl⟩ := index_inv hindex
    obtain ⟨hle, hlt, bs', rfl, hat'⟩ := getBitsBase_inv_small (by norm_num) (by norm_num) hat hbits
    cases hret3
    have hlast : acc.getLast? = some l := by
      rw [List.getLast?_eq_getElem?, ← hget]
      conv_lhs => rw [← htake, List.getElem?_take_of_lt (by simp [htake]; omega)]
      simp [htake]
    exact ⟨.again n, bs', hs16.symm, .again ⟨hle, by omega⟩ hlast, rfl, hat'⟩
  rw [if_neg hs16] at hret
  split_ifs at hret with hs17
  · obtain ⟨m, c1, hbits, hret1⟩ := exists_of_bind hret
    obtain ⟨hle, hlt, bs', rfl, hat'⟩ := getBitsBase_inv_small (by norm_num) (by norm_num) hat hbits
    cases hret1
    exact ⟨.zeros n, bs', hs17.symm, .zeros ⟨hle, by omega⟩, rfl, hat'⟩
  · obtain ⟨m, c1, hbits, hret1⟩ := exists_of_bind hret
    obtain ⟨hle, hlt, bs', rfl, hat'⟩ := getBitsBase_inv_small (by norm_num) (by norm_num) hat hbits
    cases hret1
    have hs18 : (18 : ℕ) = s := by omega
    exact ⟨.manyZeros n, bs', hs18, .manyZeros ⟨hle, by omega⟩, rfl, hat'⟩

/-- The second loop: what it has written is what the operations it has read stand for. -/
theorem lengthsLoop_inv (acc : List ℕ) (ht : TableFor codes clLens) (h19 : clLens.length = 19)
    {turns : ℕ} (htake : lengths.take acc.length = acc) (hlen : lengths.length = 320)
    (hat : At c bs o)
    (hret : lengthsLoop p codes total turns acc.length lengths c = .ok (lengths', c')) :
    ∃ ops final bs', Fills clLens total acc ops final ∧
      bs = ops.flatMap (RunOp.encode clLens) ++ bs' ∧ At c' bs' o ∧ lengths'.length = 320 ∧
      lengths'.take final.length = final := by
  induction turns generalizing acc lengths c bs with
  | zero => cases hret
  | succ turns ih =>
    rw [lengthsLoop] at hret
    by_cases htotal : acc.length < total
    · rw [if_pos htotal] at hret
      obtain ⟨s, c1, hsym, hret1⟩ := exists_of_bind hret
      clear hret
      obtain ⟨hcoded, bs1, rfl, hat1⟩ := decode_inv ht hat hsym
      have hs19 : s < 19 := by
        rw [← h19]
        exact lt_length_of_len_ne_zero hcoded.1
      -- what one operation writes, and the rest of the loop
      have hstep : ∀ op l n lengths1 c2 bs2, RunOp.symbol op = s → op.Adds acc l n →
          acc.length + n ≤ 320 → lengths1.take (acc.length + n) = acc ++ List.replicate n l →
          lengths1.length = 320 → bs1 = op.extra ++ bs2 → At c2 bs2 o →
          lengthsLoop p codes total turns (acc.length + n) lengths1 c2 = .ok (lengths', c') →
          ∃ ops final bs', Fills clLens total acc ops final ∧
            codeBits clLens s ++ bs1 = ops.flatMap (RunOp.encode clLens) ++ bs' ∧ At c' bs' o ∧
            lengths'.length = 320 ∧ lengths'.take final.length = final := by
        intro op l n lengths1 c2 bs2 hop hadds hfit htake1 hlen1 hbs hat2 hrest
        have hacc : (acc ++ List.replicate n l).length = acc.length + n := by simp
        obtain ⟨ops, final, bs', hfills, rfl, hat', hlen', htake'⟩ :=
          ih _ (by rwa [hacc]) hlen1 hat2 (by rwa [hacc])
        refine ⟨op :: ops, final, bs', .step htotal (by rwa [hop]) hadds hfit hfills, ?_, hat',
          hlen', htake'⟩
        rw [hbs, List.flatMap_cons, RunOp.encode, hop]
        simp only [List.append_assoc]
      by_cases h16 : s < 16
      · rw [if_pos h16] at hret1
        obtain ⟨lengths1, c2, hset, hret2⟩ := exists_of_bind hret1
        obtain ⟨hlt, rfl, rfl⟩ := setLength_inv hset
        have hset' := take_set_succ hlt s
        rw [htake] at hset'
        exact hstep (.one s) s 1 _ _ bs1 rfl (.one (by omega)) (by omega) hset'
          (by rwa [List.length_set]) rfl hat1 hret2
      · rw [if_neg h16, if_pos hs19] at hret1
        obtain ⟨⟨l, n⟩, c2, hrun, hret2⟩ := exists_of_bind hret1
        obtain ⟨lengths1, c3, hfill, hret3⟩ := exists_of_bind hret2
        obtain ⟨op, bs2, hop, hadds, hbs, hat2⟩ := readRun_inv h16 hs19 htake hat1 hrun
        have hpos := hadds.pos
        have hfit := fillLengths_inv hfill (by omega)
        obtain ⟨lengths2, hlen2, htake2, hrunFill⟩ := run_fillLengths l n o htake hfit
        obtain ⟨rfl, hat3⟩ := hrunFill.of_ok hat2 hfill
        exact hstep op l n _ _ bs2 hop hadds (by omega) htake2 (hlen2.trans hlen) hbs hat3 hret3
    · rw [if_neg htotal] at hret
      cases hret
      exact ⟨[], acc, bs, .done (by omega), rfl, hat, hlen, htake⟩

/-- When `decode_huffman` returns it has read a preamble and then run `inflate`. -/
theorem decodeHuffman_inv {u : Unit} (hat : At c bs o)
    (hret : decodeHuffman p c = .ok (u, c')) :
    ∃ (d : Preamble) (huffLen huffDist : Huff) (c1 : InflateContext) (bs1 : List Bool),
      bs = d.bits ++ bs1 ∧ TableFor huffLen d.codes.lits ∧ TableFor huffDist d.codes.dists ∧
      At c1 bs1 o ∧ inflate p huffLen huffDist c1 = .ok (u, c') := by
  unfold decodeHuffman at hret
  obtain ⟨hlit, c1, hb1, hret1⟩ := exists_of_bind hret
  obtain ⟨hdist, c2, hb2, hret2⟩ := exists_of_bind hret1
  obtain ⟨hclen, c3, hb3, hret3⟩ := exists_of_bind hret2
  obtain ⟨lengths, c4, hclens, hret4⟩ := exists_of_bind hret3
  obtain ⟨codes, c5, hbuild, hret5⟩ := exists_of_bind hret4
  obtain ⟨c5', c6, hget, hret6⟩ := exists_of_bind hret5
  obtain ⟨lengths', c7, hloop, hret7⟩ := exists_of_bind hret6
  obtain ⟨huffLen, c8, hbl, hret8⟩ := exists_of_bind hret7
  obtain ⟨huffDist, c9, hbd, hret9⟩ := exists_of_bind hret8
  clear hret hret1 hret2 hret3 hret4 hret5 hret6 hret7 hret8
  cases hget
  obtain ⟨hl1, hl2, bs1, rfl, hat1⟩ := getBitsBase_inv_small (by norm_num) (by norm_num) hat hb1
  obtain ⟨hd1, hd2, bs2, rfl, hat2⟩ := getBitsBase_inv_small (by norm_num) (by norm_num) hat1 hb2
  obtain ⟨hh1, hh2, bs3, rfl, hat3⟩ := getBitsBase_inv_small (by norm_num) (by norm_num) hat2 hb3
  obtain ⟨hlen, hsmall, hsame, bs4, rfl, hat4⟩ :=
    readClens_inv List.length_replicate hat3 hclens
  obtain ⟨hbuild', rfl⟩ := lift_inv hbuild
  obtain ⟨hbl', rfl⟩ := lift_inv hbl
  obtain ⟨hbd', rfl⟩ := lift_inv hbd
  rw [List.drop_zero] at hsmall hsame
  have hzero : ∀ k ∉ clOrder.take hclen, lengths.getD k 0 = 0 := by
    intro k hk
    rw [hsame k hk, List.getD_eq_getElem?_getD, List.getElem?_replicate]
    split_ifs <;> rfl
  obtain ⟨hcount, hle, henough⟩ := clLens_of_readClens hlen hsmall hzero
  obtain ⟨table, htable, hcodes⟩ := buildHuffman_spec lengths 19 .zero
    (fun l hl => (hle l hl).trans (by norm_num)) (by omega) (by norm_num)
  cases hbuild'.symm.trans htable
  obtain ⟨ops, final, bs5, hfills, rfl, hat5, hlen', htake'⟩ :=
    lengthsLoop_inv [] hcodes hcount rfl hlen hat4 hloop
  let d : Preamble := ⟨hlit, hdist, hclen, lengths.take 19, ops, final, ⟨hl1, by omega⟩,
    ⟨hd1, by omega⟩, ⟨hh1, by omega⟩, hcount, hle, henough, hfills⟩
  obtain ⟨huffLen', huffDist', hbl'', hbd'', htl, htd⟩ := d.tables hlen' htake'
  cases hbl'.symm.trans hbl''
  cases hbd'.symm.trans hbd''
  refine ⟨d, huffLen, huffDist, _, bs5, ?_, htl, htd, hat5, hret9⟩
  have hcl : (clOrder.take hclen).flatMap (fun k => bitsLE (lengths.getD k 0) 3) =
      (clOrder.take hclen).flatMap fun k => bitsLE (len (lengths.take 19) k) 3 := by
    refine List.flatMap_congr fun k hk => ?_
    rw [len_take_nineteen lengths (List.mem_of_mem_take hk)]
  rw [List.drop_zero, hcl]
  simp only [Preamble.bits, List.append_assoc, d]

end Inversion

end CappuccinOS.Gzip
