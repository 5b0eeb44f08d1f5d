import CappuccinOS.Gzip.Container

/-!
# Fixed-Huffman streams

The codes that RFC 1951 fixes are written out (`fixedLitBits`, `fixedDistBits`) and compared with
the tables that `build_fixed` makes from their lengths. `uncompressData_fixed` is the round trip of
a stream of such blocks: by `run_inflate` for one block, by induction over the blocks for the loop
of `decompress`.
-/

namespace CappuccinOS.Gzip

open Canonical

/-! ## The codes -/

/-- The fixed literal/length codes. -/
def fixedLitBits (s : ℕ) : List Bool :=
  if s < 144 then bitsBE (0x30 + s) 8
  else if s < 256 then bitsBE (0x190 + (s - 144)) 9
  else if s < 280 then bitsBE (s - 256) 7
  else bitsBE (0xC0 + (s - 280)) 8

/-- The fixed distance codes. -/
def fixedDistBits (s : ℕ) : List Bool := bitsBE s 5

/-- A fixed-Huffman block: the final bit, the block type 1, and the tokens. -/
def fixedBlock (final : Bool) (ts : List Token) : List Bool :=
  final :: (bitsLE 1 2 ++ blockBits fixedLitBits fixedDistBits ts)

/-- Blocks in sequence, with the final bit on the last one only. -/
def fixedBlocks : List (List Token) → List Bool
  | [] => []
  | [ts] => fixedBlock true ts
  | ts :: rest => fixedBlock false ts ++ fixedBlocks rest

/-! ## The tables -/

theorem len_fixedLengths {s : ℕ} (hs : s < 288) : len fixedLengths s =
    if s < 144 then 8 else if s < 256 then 9 else if s < 280 then 7 else 8 := by
  simp only [len, fixedLengths, List.getD_eq_getElem?_getD, List.getElem?_append,
    List.length_append, List.length_replicate, List.getElem?_replicate]
  split_ifs <;> first | rfl | omega

theorem count_take_fixedLengths (s k : ℕ) : (fixedLengths.take s).count k =
    if k = 8 then min s 144 + min (s - 280) 8
    else if k = 9 then min (s - 144) 112
    else if k = 7 then min (s - 256) 24
    else 0 := by
  simp only [fixedLengths, List.take_append, List.take_replicate, List.count_append,
    List.count_replicate, List.length_append, List.length_replicate, beq_iff_eq]
  split_ifs <;> omega

theorem first_fixedLengths : first fixedLengths 7 = 0 ∧ first fixedLengths 8 = 0x30 ∧
    first fixedLengths 9 = 0x190 := by
  decide +kernel

/-- The fixed codes are the canonical codes of their lengths. -/
theorem codeBits_fixedLengths {s : ℕ} (hs : s < 288) :
    codeBits fixedLengths s = fixedLitBits s := by
  have hlen := len_fixedLengths hs
  have hcount := count_take_fixedLengths s
  obtain ⟨h7, h8, h9⟩ := first_fixedLengths
  unfold fixedLitBits
  split_ifs at hlen ⊢
  · refine codeBits_eq hlen ?_
    rw [hcount, if_pos rfl, h8]
    omega
  · refine codeBits_eq hlen ?_
    rw [hcount, if_neg (by norm_num), if_pos rfl, h9]
    omega
  · refine codeBits_eq hlen ?_
    rw [hcount, if_neg (by norm_num), if_neg (by norm_num), if_pos rfl, h7]
    omega
  · refine codeBits_eq hlen ?_
    rw [hcount, if_pos rfl, h8]
    omega

theorem codeBits_fixedDist {s : ℕ} (hs : s < 30) :
    codeBits (List.replicate 30 5) s = fixedDistBits s := by
  have hlen : len (List.replicate 30 5) s = 5 := by
    rw [len_eq_getElem (by simpa using hs), List.getElem_replicate]
  have hfirst : first (List.replicate 30 5) 5 = 0 := by decide
  refine codeBits_eq hlen ?_
  rw [hfirst, List.take_replicate, List.count_replicate, if_pos (by rfl)]
  omega

theorem length_fixedLengths : fixedLengths.length = 288 := by
  simp only [fixedLengths, List.length_append, List.length_replicate]

theorem buildFixed_spec : ∃ tables, buildFixed = .ok tables ∧ TableFor tables.1 fixedLengths ∧
    TableFor tables.2 (List.replicate 30 5) := by
  have hlits : fixedLengths.take 288 = fixedLengths :=
    List.take_of_length_le length_fixedLengths.le
  have hdists : (List.replicate 30 5 ++ fixedLengths.drop 30).take 30 = List.replicate 30 5 :=
    List.take_left' List.length_replicate
  obtain ⟨hl, hbl, htl⟩ := buildHuffman_spec fixedLengths 288 .zero
    (by rw [hlits]; decide +kernel) length_fixedLengths.ge le_rfl
  obtain ⟨hd, hbd, htd⟩ := buildHuffman_spec (List.replicate 30 5 ++ fixedLengths.drop 30) 30 .zero
    (by rw [hdists]; decide) (by simp) (by norm_num)
  rw [hlits] at htl
  rw [hdists] at htd
  refine ⟨(hl, hd), ?_, htl, htd⟩
  unfold buildFixed
  rw [hbl, hbd]
  rfl

variable {p : Profile} {huffLen huffDist : Huff}

theorem reads_fixedLit (ht : TableFor huffLen fixedLengths) {s : ℕ} (hs : s < 288) :
    Reads huffLen fixedLitBits s := by
  have hlen := len_fixedLengths hs
  have hk : Kraft fixedLengths 15 := by decide +kernel
  refine (ht.reads length_fixedLengths.le le_rfl hk ?_ ?_).congr (codeBits_fixedLengths hs)
  · split_ifs at hlen <;> omega
  · split_ifs at hlen <;> omega

theorem reads_fixedDist (ht : TableFor huffDist (List.replicate 30 5)) {s : ℕ} (hs : s < 30) :
    Reads huffDist fixedDistBits s := by
  have hlen : len (List.replicate 30 5) s = 5 := by
    rw [len_eq_getElem (by simpa using hs), List.getElem_replicate]
  have hk : Kraft (List.replicate 30 5) 15 := by decide
  exact (ht.reads (by simp) le_rfl hk (by omega) (by omega)).congr (codeBits_fixedDist hs)

theorem readable_fixed (htl : TableFor huffLen fixedLengths)
    (htd : TableFor huffDist (List.replicate 30 5)) {t : Token} {n : ℕ} (hv : t.Valid n) :
    t.Readable huffLen huffDist fixedLitBits fixedDistBits := by
  cases t with
  | lit b =>
    have hb : b.toNat < 256 := b.isLt
    exact ⟨reads_fixedLit htl (by simp only [Token.symbol]; omega), nofun⟩
  | copy length distance =>
    obtain ⟨h3, h258, h1, hmax, -⟩ := hv
    have hl := (List.getElem?_eq_some_iff.mp (lengthRow_spec h3 h258).bits_eq).1
    have hd := (List.getElem?_eq_some_iff.mp (distRow_spec h1 hmax).bits_eq).1
    refine ⟨reads_fixedLit htl ?_, ?_⟩
    · have hlen : lengthBits.length = 30 := rfl
      rw [Token.symbol]
      omega
    · rintro s ⟨⟩
      exact reads_fixedDist htd hd

/-! ## The round trip -/

theorem expansion_append (o : List Byte) (ts us : List Token) :
    expansion o (ts ++ us) = expansion o ts ++ expansion (o ++ expansion o ts) us := by
  induction ts generalizing o with
  | nil => simp [expansion]
  | cons t ts ih => simp [expansion, ih]

theorem validFrom_append {o : List Byte} {ts us : List Token} :
    ValidFrom o (ts ++ us) ↔ ValidFrom o ts ∧ ValidFrom (o ++ expansion o ts) us := by
  induction ts generalizing o with
  | nil => simp [ValidFrom, expansion]
  | cons t ts ih => simp [ValidFrom, expansion, ih, and_assoc]

theorem ValidFrom.exists_valid {o : List Byte} {ts : List Token} (h : ValidFrom o ts) :
    ∀ t ∈ ts, ∃ n, t.Valid n := by
  induction ts generalizing o with
  | nil => simp
  | cons t ts ih =>
    intro t' ht'
    rcases List.mem_cons.mp ht' with rfl | hmem
    · exact ⟨_, h.1⟩
    · exact ih h.2 t' hmem

theorem run_fixedBlock (htl : TableFor huffLen fixedLengths)
    (htd : TableFor huffDist (List.replicate 30 5)) {ts : List Token} {o : List Byte}
    (hv : ValidFrom o ts) :
    Run (inflate p huffLen huffDist) (blockBits fixedLitBits fixedDistBits ts) o ()
      (o ++ expansion o ts) := by
  refine run_inflate (reads_fixedLit htl (by norm_num)) hv fun t ht => ?_
  obtain ⟨n, hn⟩ := hv.exists_valid t ht
  exact readable_fixed htl htd hn

theorem run_decompressLoop_turn (htl : TableFor huffLen fixedLengths)
    (htd : TableFor huffDist (List.replicate 30 5)) {ts : List Token} {o o' : List Byte}
    (hv : ValidFrom o ts) {final : Bool} {turns : ℕ} {bs : List Bool}
    (hrest : Run (if final then pure () else decompressLoop p huffLen huffDist turns) bs
      (o ++ expansion o ts) () o') :
    Run (decompressLoop p huffLen huffDist (turns + 1)) (fixedBlock final ts ++ bs) o () o' := by
  unfold fixedBlock
  rw [List.cons_append, List.append_assoc]
  refine (run_getBit final o).bind
    ((run_getBits_bitsLE p 1 2 o (by norm_num) (by norm_num)).bind ?_)
  rw [if_neg (by norm_num), if_pos rfl]
  exact (run_fixedBlock htl htd hv).bind hrest

theorem run_decompressLoop_fixed (htl : TableFor huffLen fixedLengths)
    (htd : TableFor huffDist (List.replicate 30 5)) (blocks : List (List Token))
    (hne : blocks ≠ []) (o : List Byte) (hv : ValidFrom o blocks.flatten) (turns : ℕ)
    (hturns : blocks.length ≤ turns) :
    Run (decompressLoop p huffLen huffDist turns) (fixedBlocks blocks) o ()
      (o ++ expansion o blocks.flatten) := by
  induction blocks using fixedBlocks.induct generalizing o turns with
  | case1 => exact absurd rfl hne
  | case2 ts =>
    obtain ⟨turns, rfl⟩ : ∃ t, turns = t + 1 := ⟨turns - 1, by simp at hturns; omega⟩
    rw [List.flatten_singleton] at hv ⊢
    rw [fixedBlocks, ← List.append_nil (fixedBlock true ts)]
    exact run_decompressLoop_turn htl htd hv (Run.pure () _)
  | case3 ts rest hrest ih =>
    have hne' : rest ≠ [] := fun h => hrest h
    obtain ⟨turns, rfl⟩ : ∃ t, turns = t + 1 := ⟨turns - 1, by simp at hturns; omega⟩
    rw [List.flatten_cons, validFrom_append] at hv
    rw [fixedBlocks, List.flatten_cons, expansion_append, ← List.append_assoc]
    · exact run_decompressLoop_turn htl htd hv.1
        (ih hne' _ hv.2 turns (by rw [List.length_cons] at hturns; omega))
    · exact hrest

theorem decompress_of_loop {tables : Huff × Huff} {c c' : InflateContext}
    (hbuild : buildFixed = .ok tables)
    (hloop : decompressLoop p tables.1 tables.2 (8 * c.inputBuf.length + 1) c = .ok ((), c')) :
    decompress p c = .ok (c'.outputBuf, c') := by
  have hlift : lift buildFixed c = .ok (tables, c) := by rw [hbuild]; rfl
  unfold decompress
  rw [bind_of_ok hlift, bind_of_ok (rfl : (get : Inflate InflateContext) c = .ok (c, c)),
    bind_of_ok hloop]
  rfl

theorem length_le_fixedBlocks (blocks : List (List Token)) :
    blocks.length ≤ (fixedBlocks blocks).length := by
  induction blocks using fixedBlocks.induct with
  | case1 => exact le_rfl
  | case2 ts => simp [fixedBlocks, fixedBlock]
  | case3 ts rest hrest ih =>
    rw [fixedBlocks, List.length_append, List.length_cons]
    · simp only [fixedBlock, List.length_cons]
      omega
    · exact hrest

/-- A fixed-Huffman zlib stream decompresses to what its tokens stand for. -/
theorem uncompressData_fixed (p : Profile) (header : ZlibHeader) (blocks : List (List Token))
    (hne : blocks ≠ []) (hv : ValidFrom [] blocks.flatten) :
    uncompressData p (zlib header (packBits (fixedBlocks blocks)) (expansion [] blocks.flatten)) =
      .ok (expansion [] blocks.flatten) := by
  obtain ⟨tables, hbuild, htl, htd⟩ := buildFixed_spec
  obtain ⟨k, hpack⟩ := bytesBits_packBits (fixedBlocks blocks)
  have hat := at_new (packBits (fixedBlocks blocks))
  have hlen := hat.length_le
  have hblocks := length_le_fixedBlocks blocks
  rw [hpack] at hat hlen
  rw [List.length_append] at hlen
  obtain ⟨c, hrun, hend⟩ := run_decompressLoop_fixed (p := p) htl htd blocks hne [] hv
    (8 * (InflateContext.new (packBits (fixedBlocks blocks))).inputBuf.length + 1) (by omega)
    _ _ hat
  refine uncompressData_of_decompress (c := c) ?_
  rw [decompress_of_loop hbuild hrun, hend.output_eq, List.nil_append]

/-- Two blocks, with a copy that overlaps itself and one that reaches back into the first block. -/
theorem uncompressData_fixed_demo :
    expansion [] [.lit 0x61#8, .copy 4 1, .lit 0x62#8, .copy 3 2] =
        [0x61#8, 0x61#8, 0x61#8, 0x61#8, 0x61#8, 0x62#8, 0x61#8, 0x62#8, 0x61#8] ∧
      uncompressData .dev
          (zlib .default
            (packBits (fixedBlocks [[.lit 0x61#8, .copy 4 1], [.lit 0x62#8, .copy 3 2]]))
            (expansion [] [.lit 0x61#8, .copy 4 1, .lit 0x62#8, .copy 3 2])) =
        .ok (expansion [] [.lit 0x61#8, .copy 4 1, .lit 0x62#8, .copy 3 2]) :=
  ⟨by decide, uncompressData_fixed .dev .default
    [[.lit 0x61#8, .copy 4 1], [.lit 0x62#8, .copy 3 2]] (by decide) (by decide)⟩

end CappuccinOS.Gzip
