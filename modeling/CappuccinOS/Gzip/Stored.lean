import CappuccinOS.Gzip.Fixed

/-!
# Stored blocks

The format pads the three header bits of a stored block to a byte before the two length words.
`uncompressed` reads the length words right behind the three bits. What it takes for the length
is the padding and the low eleven bits of the real one, and the check against the complement
passes exactly when the high five bits of the length are the complement of the padding
(`storedCheck_iff`).

So every stream whose first piece does not meet this is rejected, and a stream of one piece that
meets it comes out with the wrong length. Behind the first of several pieces the decoder takes
the data itself for the next block header, so no more than a necessary condition can be said.
-/

namespace CappuccinOS.Gzip

/-! ## The format -/

/-- A piece of the data and the five bits that pad the header of its block. -/
structure StoredPiece where
  pad : Fin 32
  data : List Byte
  length_le : data.length ≤ 65535

/-- A stored block: the header bits and their padding, the length and its complement, the data. -/
def storedBlock (final : Bool) (b : StoredPiece) : List Byte :=
  BitVec.ofNat 8 (final.toNat + 8 * b.pad) ::
    (leBytes 2 b.data.length ++ leBytes 2 (65535 - b.data.length) ++ b.data)

/-- Stored blocks in sequence, with the final bit on the last one only. -/
def storedBlocks : List StoredPiece → List Byte
  | [] => []
  | [b] => storedBlock true b
  | b :: rest => storedBlock false b ++ storedBlocks rest

/-- The pieces are a way of cutting `d`. -/
def Cuts (d : List Byte) (pieces : List StoredPiece) : Prop :=
  pieces ≠ [] ∧ (pieces.map StoredPiece.data).flatten = d

/-- The first 40 bits of a block as one number. -/
def storedHead (final : Bool) (b : StoredPiece) : ℕ :=
  final.toNat + 8 * b.pad + 2 ^ 8 * b.data.length + 2 ^ 24 * (65535 - b.data.length)

/-- What the source takes for the length. -/
def misreadLen (b : StoredPiece) : ℕ := b.pad + 32 * (b.data.length % 2048)

/-! ## What the source reads -/

theorem bytesBits_storedBlock (final : Bool) (b : StoredPiece) :
    bytesBits (storedBlock final b) = bitsLE (storedHead final b) 40 ++ bytesBits b.data := by
  have hlen := b.length_le
  have hpad := b.pad.isLt
  have hfinal := Bool.toNat_lt final
  rw [show 40 = 8 + (8 + (8 + (8 + 8))) from rfl]
  simp only [storedBlock, leBytes, bytesBits_cons, bytesBits_append, byteBits_ofNat, bitsLE_append,
    Nat.div_div_eq_div_mul, bytesBits_nil, List.append_assoc, List.append_nil]
  unfold storedHead
  congr 1
  · exact bitsLE_congr (by omega)
  congr 1
  · exact bitsLE_congr (by omega)
  congr 1
  · exact bitsLE_congr (by omega)
  congr 1
  · exact bitsLE_congr (by omega)
  congr 1
  exact bitsLE_congr (by omega)

theorem bitsLE_storedHead (final : Bool) (b : StoredPiece) :
    bitsLE (storedHead final b) 40 =
      [final] ++ (bitsLE 0 2 ++ (bitsLE (misreadLen b) 16 ++
        (bitsLE (b.data.length / 2048 + 32 * (2047 - b.data.length % 2048)) 16 ++
          bitsLE (storedHead final b / 2 ^ 35) 5))) := by
  have hlen := b.length_le
  have hpad := b.pad.isLt
  have hfinal := Bool.toNat_lt final
  rw [show 40 = 1 + (2 + (16 + (16 + 5))) from rfl]
  simp only [bitsLE_append, Nat.div_div_eq_div_mul]
  congr 1
  · have hbit : (storedHead final b).testBit 0 = final := by
      rw [Nat.testBit_zero]
      unfold storedHead
      cases final <;> simp <;> omega
    rw [bitsLE, hbit]
    rfl
  unfold misreadLen storedHead
  congr 1
  · exact bitsLE_congr (by omega)
  congr 1
  · exact bitsLE_congr (by omega)
  congr 1
  · apply bitsLE_congr
    have hnlen : 65535 - b.data.length =
        2048 * (31 - b.data.length / 2048) + (2047 - b.data.length % 2048) := by omega
    have hdiv : (final.toNat + 8 * b.pad + 2 ^ 8 * b.data.length +
        2 ^ 24 * (65535 - b.data.length)) / (2 ^ 1 * 2 ^ 2 * 2 ^ 16) =
          b.data.length / 2048 + 32 * (65535 - b.data.length) := by omega
    rw [hdiv, hnlen]
    omega

theorem misreadLen_lt (b : StoredPiece) : misreadLen b < 2 ^ 16 := by
  have hpad := b.pad.isLt
  unfold misreadLen
  omega

/-- The condition under which the source takes what it reads for a stored block. -/
theorem storedCheck_iff (b : StoredPiece) :
    b.data.length / 2048 + 32 * (2047 - b.data.length % 2048) = 65535 - misreadLen b ↔
      b.data.length / 2048 + b.pad = 31 := by
  have hlen := b.length_le
  have hpad := b.pad.isLt
  unfold misreadLen
  omega

/-! ## The decoder on a stored block -/

variable {p : Profile} {huffLen huffDist : Huff}

/-- A turn of the block loop on a stored block: the block is rejected, or as many bytes are copied
as were misread. -/
theorem decompressLoop_stored {final : Bool} {b : StoredPiece} {rest : List Bool} {o : List Byte}
    {c : InflateContext} (turns : ℕ) (h : At c (bytesBits (storedBlock final b) ++ rest) o) :
    ∃ c', c'.outputBuf = o ∧ decompressLoop p huffLen huffDist (turns + 1) c =
      if b.data.length / 2048 + b.pad = 31 then
        (do
          uncompressedLoop p (misreadLen b)
          if final then pure () else decompressLoop p huffLen huffDist turns) c'
      else .error .err := by
  have hlen := b.length_le
  rw [bytesBits_storedBlock, bitsLE_storedHead] at h
  simp only [List.append_assoc] at h
  obtain ⟨c1, hc1, h1⟩ := run_getBit final o c _ h
  obtain ⟨c2, hc2, h2⟩ := run_getBits_bitsLE p 0 2 o (by norm_num) (by norm_num) c1 _ h1
  obtain ⟨c3, hc3, h3⟩ :=
    run_getBits_bitsLE p (misreadLen b) 16 o (by norm_num) (misreadLen_lt b) c2 _ h2
  obtain ⟨c4, hc4, h4⟩ := run_getBits_bitsLE p _ 16 o (by norm_num) (by omega) c3 _ h3
  refine ⟨c4, h4.output_eq, ?_⟩
  have hblock : uncompressed p c2 =
      if b.data.length / 2048 + b.pad = 31 then uncompressedLoop p (misreadLen b) c4
      else .error .err := by
    unfold uncompressed
    rw [bind_of_ok hc3, bind_of_ok hc4]
    simp only [ne_eq, ite_not, storedCheck_iff]
    split_ifs <;> rfl
  rw [decompressLoop, bind_of_ok hc1, bind_of_ok hc2, if_pos rfl]
  by_cases hcheck : b.data.length / 2048 + b.pad = 31
  · rw [if_pos hcheck] at hblock ⊢
    exact bind_congr_of_eq hblock _
  · rw [if_neg hcheck] at hblock ⊢
    exact bind_of_error hblock

theorem outputBuf_of_getBit {b : Bool} {c c' : InflateContext} (h : getBit c = .ok (b, c')) :
    c'.outputBuf = c.outputBuf := by
  obtain ⟨c1, hdrop, hread⟩ := bind_eq_ok.mp h
  have hc1 : c1.outputBuf = c.outputBuf := by
    unfold dropByte at hdrop
    split_ifs at hdrop
    · split at hdrop
      · cases hdrop
      · cases hdrop; rfl
    · cases hdrop; rfl
  split at hread
  · cases hread
  · cases hread
    exact hc1

theorem outputBuf_of_getBitsFrom {n bit byte v : ℕ} {c c' : InflateContext}
    (h : getBitsFrom p n bit byte c = .ok (v, c')) : c'.outputBuf = c.outputBuf := by
  induction n generalizing bit byte c with
  | zero => cases h; rfl
  | succ n ih =>
    obtain ⟨b, c1, hbit, h⟩ := exists_of_bind h
    obtain ⟨x, c2, hshl, h⟩ := exists_of_bind h
    rw [ih h, (lift_inv hshl).2, outputBuf_of_getBit hbit]

theorem outputBuf_of_emit {b : Byte} {c c' : InflateContext} (h : emit b c = .ok ((), c')) :
    c'.outputBuf = c.outputBuf ++ [b] := by
  obtain ⟨c1, c2, hget, h⟩ := exists_of_bind h
  cases hget
  obtain ⟨u, c3, hensure, h⟩ := exists_of_bind h
  rw [(ensure_inv hensure).2] at h
  cases h
  rfl

theorem length_of_uncompressedLoop {n : ℕ} {c c' : InflateContext}
    (h : uncompressedLoop p n c = .ok ((), c')) :
    c'.outputBuf.length = c.outputBuf.length + n := by
  induction n generalizing c with
  | zero => cases h; rfl
  | succ n ih =>
    obtain ⟨v, c1, hbits, h⟩ := exists_of_bind h
    obtain ⟨u, c2, hemit, h⟩ := exists_of_bind h
    rw [ih h, outputBuf_of_emit hemit, outputBuf_of_getBitsFrom hbits, List.length_append,
      List.length_singleton]
    omega

theorem storedBlocks_cons (b : StoredPiece) (rest : List StoredPiece) :
    storedBlocks (b :: rest) = storedBlock rest.isEmpty b ++ storedBlocks rest := by
  cases rest with
  | nil => simp [storedBlocks]
  | cons b' rest => rfl

/-- What the decoder makes of a stream of stored blocks, as far as the first block decides it. -/
theorem decompress_stored (p : Profile) (b : StoredPiece) (rest : List StoredPiece) :
    (b.data.length / 2048 + b.pad ≠ 31 →
      decompress p (.new (storedBlocks (b :: rest))) = .error .err) ∧
    (rest = [] → ∀ out c, decompress p (.new (storedBlocks (b :: rest))) = .ok (out, c) →
      out.length = misreadLen b) := by
  obtain ⟨tables, hbuild, -, -⟩ := buildFixed_spec
  have hat := at_new (storedBlocks (b :: rest))
  rw [storedBlocks_cons, bytesBits_append] at hat
  obtain ⟨c', hout, hturn⟩ := @decompressLoop_stored p tables.1 tables.2 _ _ _ _ _
    (8 * (storedBlocks (b :: rest)).length) hat
  rw [← storedBlocks_cons] at hturn
  have hlift : lift buildFixed (.new (storedBlocks (b :: rest))) =
      .ok (tables, .new (storedBlocks (b :: rest))) := by rw [hbuild]; rfl
  unfold decompress
  rw [bind_of_ok hlift, bind_of_ok (rfl : (get : Inflate InflateContext) _ = .ok (_, _))]
  constructor
  · intro hcheck
    rw [if_neg hcheck] at hturn
    exact bind_of_error hturn
  · rintro rfl out c h
    obtain ⟨u, c1, hloop, h⟩ := exists_of_bind h
    cases h
    replace hloop := hturn.symm.trans hloop
    by_cases hcheck : b.data.length / 2048 + b.pad = 31
    · rw [if_pos hcheck] at hloop
      obtain ⟨u, c2, hcopy, hend⟩ := exists_of_bind hloop
      rw [List.isEmpty_nil, if_pos rfl] at hend
      cases hend
      rw [length_of_uncompressedLoop hcopy, hout, List.length_nil, Nat.zero_add]
    · rw [if_neg hcheck] at hloop
      cases hloop

theorem misreadLen_ne {b : StoredPiece} (h : b.data.length / 2048 + b.pad = 31) :
    misreadLen b ≠ b.data.length := by
  unfold misreadLen
  omega

/-- A stored stream comes out right only if it has several pieces and the length of the first one
meets the misplaced check. Hence no data comes out right for every way of cutting it. -/
theorem uncompressData_stored (p : Profile) (header : ZlibHeader) (d : List Byte) :
    (∀ pieces, Cuts d pieces →
      uncompressData p (zlib header (storedBlocks pieces) d) = .ok d →
      2 ≤ pieces.length ∧ ∀ b ∈ pieces.head?, b.data.length / 2048 + b.pad = 31) ∧
    ¬ ∀ pieces, Cuts d pieces → uncompressData p (zlib header (storedBlocks pieces) d) = .ok d := by
  have hnec : ∀ pieces, Cuts d pieces →
      uncompressData p (zlib header (storedBlocks pieces) d) = .ok d →
      2 ≤ pieces.length ∧ ∀ b ∈ pieces.head?, b.data.length / 2048 + b.pad = 31 := by
    rintro (- | ⟨b, rest⟩) ⟨hne, hcut⟩ h
    · exact absurd rfl hne
    obtain ⟨c, hdec⟩ := decompress_of_uncompressData h
    obtain ⟨hreject, hlength⟩ := decompress_stored p b rest
    have hcheck : b.data.length / 2048 + b.pad = 31 := by
      by_contra hcheck
      rw [hreject hcheck] at hdec
      cases hdec
    refine ⟨?_, by rintro b' ⟨⟩; exact hcheck⟩
    cases rest with
    | nil =>
      have hd : b.data = d := by simpa using hcut
      have := hlength rfl d c hdec
      rw [← hd] at this
      exact absurd this.symm (misreadLen_ne hcheck)
    | cons b' rest => simp
  refine ⟨hnec, fun hall => ?_⟩
  -- the data in pieces of one byte, or one empty piece
  cases d with
  | nil =>
    have hcut : Cuts [] [⟨0, [], by simp⟩] := ⟨by simp, rfl⟩
    have := (hnec _ hcut (hall _ hcut)).2 _ rfl
    simp at this
  | cons x d =>
    have hcut : Cuts (x :: d) ((x :: d).map fun y => ⟨0, [y], by simp⟩) := by
      refine ⟨by simp, ?_⟩
      rw [List.map_map, ← List.flatMap_def]
      exact List.flatMap_singleton' (x :: d)
    have := (hnec _ hcut (hall _ hcut)).2 _ rfl
    simp at this

/-- One byte in one block is rejected. -/
theorem uncompressData_stored_rejected :
    Cuts [0x61#8] [⟨0, [0x61#8], by decide⟩] ∧
      uncompressData .dev (zlib .default (storedBlocks [⟨0, [0x61#8], by decide⟩]) [0x61#8]) =
        .error .err := by
  have h := (decompress_stored .dev ⟨0, [0x61#8], by decide⟩ []).1 (by decide)
  exact ⟨⟨by simp, rfl⟩, by rw [uncompressData_zlib, h]⟩

end CappuccinOS.Gzip
