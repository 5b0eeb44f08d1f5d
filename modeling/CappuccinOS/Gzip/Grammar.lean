import CappuccinOS.Gzip.Errors
import CappuccinOS.Gzip.Fixed
import CappuccinOS.Gzip.Preamble

/-!
# The streams that `decompress` reads to an end

Blocks as the source reads them: compressed blocks of entries (`Opens`, `Entries`), and stored
blocks whose length words stand right behind the block type. `Complete` are the streams that come
to the end of a final block, `Broken` those that come to a block which the source rejects, either
for its type or for its length words.

1. `Block.run` and `block_inv`: one turn of the loop of `decompress`, in both directions.
2. Nothing but a rejected block makes the decoder return an error (`block_err`): the bit reader,
   the tables and the entries only ever panic (`NoErr`).
3. `decompress_ok_iff` and `decompress_err_iff`, by induction over the blocks and over the turns.
-/

namespace CappuccinOS.Gzip

open Canonical

/-! ## Streams -/

/-- The codes that `build_fixed` makes tables for. -/
def Codes.fixed : Codes where
  lits := fixedLengths
  dists := List.replicate 30 5
  lits_count := length_fixedLengths.le
  dists_count := by simp
  lits_le := by decide +kernel
  dists_le := by decide

/-- The type of a compressed block and what stands before its entries. -/
inductive Opens : List Bool → Codes → Prop
  | fixed : Opens (bitsLE 1 2) .fixed
  | dynamic (d : Preamble) : Opens (bitsLE 2 2 ++ d.bits) d.codes

/-- A block behind its final bit, and the output before and after it. -/
inductive Block (p : Profile) : List Bool → List Byte → List Byte → Prop
  | stored {o data : List Byte} (hlen : data.length < 2 ^ 16) :
    Block p (bitsLE 0 2 ++ (bitsLE data.length 16 ++ (bitsLE (65535 - data.length) 16 ++
      bytesBits data))) o (o ++ data)
  | compressed {head bs : List Bool} {k : Codes} {o o' : List Byte} (hopen : Opens head k)
    (hes : Entries p k bs o o') (hend : Coded k.lits 256) :
    Block p (head ++ (bs ++ codeBits k.lits 256)) o o'

/-- The start of a block that is rejected: the reserved type, or a stored block whose second length
word is not the complement of the first. -/
inductive Rejected : List Bool → Prop
  | reserved : Rejected (bitsLE 3 2)
  | stored {len nlen : ℕ} (hlen : len < 2 ^ 16) (hnlen : nlen < 2 ^ 16) (hne : nlen ≠ 65535 - len) :
    Rejected (bitsLE 0 2 ++ (bitsLE len 16 ++ bitsLE nlen 16))

/-- Blocks up to a final one, whatever comes behind it. -/
inductive Complete (p : Profile) : List Bool → List Byte → List Byte → Prop
  | last {bs rest : List Bool} {o o' : List Byte} (h : Block p bs o o') :
    Complete p (true :: (bs ++ rest)) o o'
  | next {bs rest : List Bool} {o o1 o' : List Byte} (h : Block p bs o o1)
    (hrest : Complete p rest o1 o') : Complete p (false :: (bs ++ rest)) o o'

/-- Blocks up to one that is rejected. -/
inductive Broken (p : Profile) : List Bool → List Byte → Prop
  | here {final : Bool} {bs rest : List Bool} {o : List Byte} (h : Rejected bs) :
    Broken p (final :: (bs ++ rest)) o
  | next {bs rest : List Bool} {o o1 : List Byte} (h : Block p bs o o1)
    (hrest : Broken p rest o1) : Broken p (false :: (bs ++ rest)) o

/-! ## Stored blocks -/

section Blocks

variable {p : Profile} {c c' : InflateContext} {bs : List Bool} {o : List Byte}

theorem run_uncompressedLoop (data o : List Byte) :
    Run (uncompressedLoop p data.length) (bytesBits data) o () (o ++ data) := by
  induction data generalizing o with
  | nil =>
    rw [List.append_nil]
    exact Run.pure () o
  | cons b data ih =>
    have hrest := ih (o ++ [b])
    rw [List.append_assoc] at hrest
    have hbyte : BitVec.ofNat 8 b.toNat = b := by rw [BitVec.ofNat_toNat, BitVec.setWidth_eq]
    refine (run_getBits_bitsLE p b.toNat 8 o (by norm_num) b.isLt).bind ?_
    rw [hbyte]
    exact (run_emit b o).bind hrest

theorem uncompressedLoop_inv {n : ℕ} {u : Unit} (hat : At c bs o)
    (hret : uncompressedLoop p n c = .ok (u, c')) :
    ∃ data bs', data.length = n ∧ bs = bytesBits data ++ bs' ∧ At c' bs' (o ++ data) := by
  induction n generalizing c bs o with
  | zero =>
    cases hret
    exact ⟨[], bs, rfl, rfl, by rwa [List.append_nil]⟩
  | succ n ih =>
    obtain ⟨v, c1, hbits, hret1⟩ := exists_of_bind hret
    obtain ⟨u1, c2, hemit, hret2⟩ := exists_of_bind hret1
    clear hret hret1
    obtain ⟨hv, bs1, rfl, hat1⟩ := getBits_inv (by norm_num) hat hbits
    obtain ⟨-, hat2⟩ := (run_emit _ o).of_ok hat1 hemit
    obtain ⟨data, bs', rfl, rfl, hat'⟩ := ih hat2 hret2
    refine ⟨.ofNat 8 v :: data, bs', rfl, ?_, by rwa [List.append_assoc] at hat'⟩
    rw [bytesBits_cons, byteBits_ofNat, List.append_assoc]

theorem run_uncompressed {data : List Byte} (hlen : data.length < 2 ^ 16) (o : List Byte) :
    Run (uncompressed p) (bitsLE data.length 16 ++ (bitsLE (65535 - data.length) 16 ++
      bytesBits data)) o () (o ++ data) := by
  refine (run_getBits_bitsLE p _ 16 o (by norm_num) hlen).bind ?_
  refine (run_getBits_bitsLE p _ 16 o (by norm_num) (by omega)).bind ?_
  rw [if_neg (not_not.mpr rfl)]
  exact run_uncompressedLoop data o

theorem uncompressed_inv {u : Unit} (hat : At c bs o) (hret : uncompressed p c = .ok (u, c')) :
    ∃ data bs', data.length < 2 ^ 16 ∧
      bs = bitsLE data.length 16 ++ (bitsLE (65535 - data.length) 16 ++ bytesBits data) ++ bs' ∧
      At c' bs' (o ++ data) := by
  unfold uncompressed at hret
  obtain ⟨len, c1, hlen, hret1⟩ := exists_of_bind hret
  obtain ⟨nlen, c2, hnlen, hret2⟩ := exists_of_bind hret1
  clear hret hret1
  obtain ⟨hlt, bs1, rfl, hat1⟩ := getBits_inv (by norm_num) hat hlen
  obtain ⟨-, bs2, rfl, hat2⟩ := getBits_inv (by norm_num) hat1 hnlen
  split_ifs at hret2 with hne
  · cases hret2
  · obtain ⟨data, bs', rfl, rfl, hat'⟩ := uncompressedLoop_inv hat2 hret2
    refine ⟨data, bs', hlt, ?_, hat'⟩
    rw [not_not.mp hne]
    simp only [List.append_assoc]

theorem uncompressed_err (hat : At c bs o) (hret : uncompressed p c = .error .err) :
    ∃ len nlen bs', len < 2 ^ 16 ∧ nlen < 2 ^ 16 ∧ nlen ≠ 65535 - len ∧
      bs = bitsLE len 16 ++ bitsLE nlen 16 ++ bs' := by
  unfold uncompressed at hret
  obtain ⟨len, c1, hlen, hret1⟩ := (noErr_getBits 16).of_bind hret
  obtain ⟨nlen, c2, hnlen, hret2⟩ := (noErr_getBits 16).of_bind hret1
  obtain ⟨hlt, bs1, rfl, hat1⟩ := getBits_inv (by norm_num) hat hlen
  obtain ⟨hlt', bs2, rfl, hat2⟩ := getBits_inv (by norm_num) hat1 hnlen
  split_ifs at hret2 with hne
  · exact ⟨len, nlen, bs2, hlt, hlt', hne, by rw [List.append_assoc]⟩
  · exact absurd hret2 (noErr_uncompressedLoop len c2)

/-! ## One block -/

/-- A turn of the loop of `decompress` behind the final bit. -/
def block (p : Profile) (lengths dists : Huff) : Inflate Unit := do
  let blockType ← getBits p 2
  if blockType = 0 then uncompressed p
  else if blockType = 1 then inflate p lengths dists
  else if blockType = 2 then decodeHuffman p
  else throw .err

variable {lengths dists : Huff}

theorem decompressLoop_succ (turns : ℕ) :
    decompressLoop p lengths dists (turns + 1) = getBit >>= fun isFinal =>
      block p lengths dists >>= fun _ =>
        if isFinal then pure () else decompressLoop p lengths dists turns := by
  rw [decompressLoop, block]
  congr 1
  funext isFinal
  rw [bind_assoc]
  congr 1
  funext blockType
  split_ifs <;> rfl

section Fixed

variable (htl : TableFor lengths Codes.fixed.lits) (htd : TableFor dists Codes.fixed.dists)

include htl htd

theorem Block.run {o' : List Byte} (h : Block p bs o o') :
    Run (block p lengths dists) bs o () o' := by
  cases h with
  | stored hlen =>
    refine (run_getBits_bitsLE p 0 2 o (by norm_num) (by norm_num)).bind ?_
    rw [if_pos rfl]
    exact run_uncompressed hlen o
  | compressed hopen hes hend =>
    cases hopen with
    | fixed =>
      refine (run_getBits_bitsLE p 1 2 o (by norm_num) (by norm_num)).bind ?_
      rw [if_neg (by norm_num), if_pos rfl]
      exact run_inflate_entries htl htd hend hes
    | dynamic d =>
      rw [List.append_assoc]
      refine (run_getBits_bitsLE p 2 2 o (by norm_num) (by norm_num)).bind ?_
      rw [if_neg (by norm_num), if_neg (by norm_num), if_pos rfl]
      exact d.run_decodeHuffman_of fun huffLen huffDist htl htd =>
        run_inflate_entries htl htd hend hes

theorem block_inv {u : Unit} (hat : At c bs o) (hret : block p lengths dists c = .ok (u, c')) :
    ∃ xs bs' o', Block p xs o o' ∧ bs = xs ++ bs' ∧ At c' bs' o' := by
  obtain ⟨t, c1, htype, hret1⟩ := exists_of_bind hret
  clear hret
  obtain ⟨-, bs1, rfl, hat1⟩ := getBits_inv (by norm_num) hat htype
  split_ifs at hret1 with h0 h1 h2
  · subst h0
    obtain ⟨data, bs', hlen, rfl, hat'⟩ := uncompressed_inv hat1 hret1
    exact ⟨_, bs', _, .stored hlen, by simp only [List.append_assoc], hat'⟩
  · subst h1
    obtain ⟨hend, xs, bs', o', hes, rfl, hat'⟩ := inflate_inv htl htd hat1 hret1
    exact ⟨_, bs', o', .compressed .fixed hes hend, by simp only [List.append_assoc], hat'⟩
  · subst h2
    obtain ⟨d, huffLen, huffDist, c2, bs2, rfl, htl', htd', hat2, hret2⟩ :=
      decodeHuffman_inv hat1 hret1
    obtain ⟨hend, xs, bs', o', hes, rfl, hat'⟩ := inflate_inv htl' htd' hat2 hret2
    exact ⟨_, bs', o', .compressed (.dynamic d) hes hend, by simp only [List.append_assoc], hat'⟩
  · cases hret1

end Fixed

theorem Rejected.block_eq {rest : List Bool} (h : Rejected bs) (hat : At c (bs ++ rest) o) :
    block p lengths dists c = .error .err := by
  cases h with
  | reserved =>
    obtain ⟨c1, hc1, -⟩ := run_getBits_bitsLE p 3 2 o (by norm_num) (by norm_num) c rest hat
    rw [block, bind_of_ok hc1]
    rfl
  | stored hlen hnlen hne =>
    simp only [List.append_assoc] at hat
    obtain ⟨c1, hc1, hat1⟩ := run_getBits_bitsLE p 0 2 o (by norm_num) (by norm_num) c _ hat
    obtain ⟨c2, hc2, hat2⟩ := run_getBits_bitsLE p _ 16 o (by norm_num) hlen c1 _ hat1
    obtain ⟨c3, hc3, -⟩ := run_getBits_bitsLE p _ 16 o (by norm_num) hnlen c2 _ hat2
    rw [block, bind_of_ok hc1, if_pos rfl, uncompressed, bind_of_ok hc2, bind_of_ok hc3, if_pos hne]
    rfl

theorem block_err (hat : At c bs o) (hret : block p lengths dists c = .error .err) :
    ∃ xs bs', Rejected xs ∧ bs = xs ++ bs' := by
  obtain ⟨t, c1, htype, hret1⟩ := (noErr_getBits 2).of_bind hret
  obtain ⟨hlt, bs1, rfl, hat1⟩ := getBits_inv (by norm_num) hat htype
  split_ifs at hret1 with h0 h1 h2
  · subst h0
    obtain ⟨len, nlen, bs', hlen, hnlen, hne, rfl⟩ := uncompressed_err hat1 hret1
    exact ⟨_, bs', .stored hlen hnlen hne, by simp only [List.append_assoc]⟩
  · exact absurd hret1 (noErr_inflate lengths dists c1)
  · exact absurd hret1 (noErr_decodeHuffman c1)
  · have h3 : t = 3 := by omega
    subst h3
    exact ⟨_, bs1, .reserved, rfl⟩

/-! ## The loop of `decompress` -/

section Fixed

variable (htl : TableFor lengths Codes.fixed.lits) (htd : TableFor dists Codes.fixed.dists)

include htl htd

theorem decompressLoop_block {final : Bool} {rest : List Bool} {o' : List Byte}
    (h : Block p bs o o') (hat : At c (final :: (bs ++ rest)) o) (turns : ℕ) :
    ∃ c', At c' rest o' ∧ decompressLoop p lengths dists (turns + 1) c =
      (if final then pure () else decompressLoop p lengths dists turns) c' := by
  obtain ⟨c1, hc1, hat1⟩ := run_getBit final o c _ hat
  obtain ⟨c2, hc2, hat2⟩ := h.run htl htd c1 _ hat1
  exact ⟨c2, hat2, by rw [decompressLoop_succ, bind_of_ok hc1, bind_of_ok hc2]⟩

theorem Complete.decompressLoop_eq {o' : List Byte} (h : Complete p bs o o') (hat : At c bs o)
    {turns : ℕ} (hturns : bs.length < turns) :
    ∃ c', decompressLoop p lengths dists turns c = .ok ((), c') ∧ c'.outputBuf = o' := by
  obtain ⟨turns, rfl⟩ : ∃ t, turns = t + 1 := ⟨turns - 1, by omega⟩
  induction h generalizing c turns with
  | last hblock =>
    obtain ⟨c', hat', heq⟩ := decompressLoop_block htl htd hblock hat turns
    exact ⟨c', by rw [heq, if_pos rfl]; rfl, hat'.output_eq⟩
  | next hblock hrest ih =>
    obtain ⟨c', hat', heq⟩ := decompressLoop_block htl htd hblock hat turns
    rw [List.length_cons, List.length_append] at hturns
    rw [heq, if_neg (by simp)]
    obtain ⟨turns, rfl⟩ : ∃ t, turns = t + 1 := ⟨turns - 1, by omega⟩
    exact ih hat' turns (by omega)

theorem Broken.decompressLoop_eq (h : Broken p bs o) (hat : At c bs o) {turns : ℕ}
    (hturns : bs.length < turns) : decompressLoop p lengths dists turns c = .error .err := by
  obtain ⟨turns, rfl⟩ : ∃ t, turns = t + 1 := ⟨turns - 1, by omega⟩
  induction h generalizing c turns with
  | here hrejected =>
    obtain ⟨c1, hc1, hat1⟩ := run_getBit _ _ c _ hat
    rw [decompressLoop_succ, bind_of_ok hc1, bind_of_error (hrejected.block_eq hat1)]
  | next hblock hrest ih =>
    obtain ⟨c', hat', heq⟩ := decompressLoop_block htl htd hblock hat turns
    rw [List.length_cons, List.length_append] at hturns
    rw [heq, if_neg (by simp)]
    obtain ⟨turns, rfl⟩ : ∃ t, turns = t + 1 := ⟨turns - 1, by omega⟩
    exact ih hat' turns (by omega)

theorem decompressLoop_inv {turns : ℕ} {u : Unit} (hat : At c bs o)
    (hret : decompressLoop p lengths dists turns c = .ok (u, c')) :
    Complete p bs o c'.outputBuf := by
  induction turns generalizing c bs o with
  | zero => cases hret
  | succ turns ih =>
    rw [decompressLoop_succ] at hret
    obtain ⟨isFinal, c1, hbit, hret1⟩ := exists_of_bind hret
    obtain ⟨u1, c2, hblock, hret2⟩ := exists_of_bind hret1
    clear hret hret1
    obtain ⟨bs1, rfl, hat1⟩ := getBit_inv hat hbit
    obtain ⟨xs, bs', o', hb, rfl, hat2⟩ := block_inv htl htd hat1 hblock
    cases isFinal with
    | true =>
      cases hret2
      rw [hat2.output_eq]
      exact .last hb
    | false => exact .next hb (ih hat2 hret2)

theorem decompressLoop_err {turns : ℕ} (hat : At c bs o)
    (hret : decompressLoop p lengths dists turns c = .error .err) : Broken p bs o := by
  induction turns generalizing c bs o with
  | zero => cases hret
  | succ turns ih =>
    rw [decompressLoop_succ] at hret
    obtain ⟨isFinal, c1, hbit, hret1⟩ := noErr_getBit.of_bind hret
    clear hret
    obtain ⟨bs1, rfl, hat1⟩ := getBit_inv hat hbit
    rcases hblock : block p lengths dists c1 with e | ⟨u, c2⟩
    · rw [bind_of_error hblock] at hret1
      cases hret1
      obtain ⟨xs, bs', hrejected, rfl⟩ := block_err hat1 hblock
      exact .here hrejected
    · rw [bind_of_ok hblock] at hret1
      obtain ⟨xs, bs', o', hb, rfl, hat2⟩ := block_inv htl htd hat1 hblock
      cases isFinal with
      | true => cases hret1
      | false => exact .next hb (ih hat2 hret1)

end Fixed

end Blocks

section Decompress

variable {p : Profile} {input : List Byte}

theorem decompress_eq {tables : Huff × Huff} (hbuild : buildFixed = .ok tables)
    (c : InflateContext) :
    decompress p c = (decompressLoop p tables.1 tables.2 (8 * c.inputBuf.length + 1) >>= fun _ =>
      get >>= fun c' => pure c'.outputBuf) c := by
  have hlift : lift buildFixed c = .ok (tables, c) := by rw [hbuild]; rfl
  unfold decompress
  rw [bind_of_ok hlift, bind_of_ok (rfl : (get : Inflate InflateContext) c = .ok (c, c))]

/-- `decompress` returns exactly on the streams that come to the end of a final block. -/
theorem decompress_ok_iff {out : List Byte} :
    (∃ c, decompress p (.new input) = .ok (out, c)) ↔ Complete p (bytesBits input) [] out := by
  obtain ⟨tables, hbuild, htl, htd⟩ := buildFixed_spec
  have hat := at_new input
  constructor
  · rintro ⟨c, hret⟩
    rw [decompress_eq hbuild] at hret
    obtain ⟨u, c1, hloop, hret1⟩ := exists_of_bind hret
    cases hret1
    exact decompressLoop_inv htl htd hat hloop
  · intro h
    have hlen := hat.length_le
    obtain ⟨c, hloop, rfl⟩ := h.decompressLoop_eq htl htd hat (Nat.lt_succ_of_le hlen)
    exact ⟨c, decompress_of_loop hbuild hloop⟩

/-- `decompress` reports an error exactly on the streams that come to a rejected block. -/
theorem decompress_err_iff :
    decompress p (.new input) = .error .err ↔ Broken p (bytesBits input) [] := by
  obtain ⟨tables, hbuild, htl, htd⟩ := buildFixed_spec
  have hat := at_new input
  rw [decompress_eq hbuild]
  constructor
  · intro hret
    rcases hloop : decompressLoop p tables.1 tables.2
      (8 * (InflateContext.new input).inputBuf.length + 1) (.new input) with e | ⟨u, c1⟩
    · rw [bind_of_error hloop] at hret
      cases hret
      exact decompressLoop_err htl htd hat hloop
    · rw [bind_of_ok hloop] at hret
      cases hret
  · intro h
    have hlen := hat.length_le
    exact bind_of_error (h.decompressLoop_eq htl htd hat (Nat.lt_succ_of_le hlen))

end Decompress

end CappuccinOS.Gzip
