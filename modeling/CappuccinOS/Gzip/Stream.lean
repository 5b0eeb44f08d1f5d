import CappuccinOS.Gzip.Grammar

/-!
# Streams of blocks of every kind

A compressor ends a block where it pleases and picks the kind of each: stored, with the fixed
codes, or with codes of its own. A `Piece` is such a block, `stream` the bits the format has for
pieces in sequence, with stored blocks padded to a byte.

1. Tokens are entries (`entries_of_tokens`), and the header of a dynamic block is a preamble
   (`DynamicHeader.preamble`), so every piece is a `Block` (`Piece.block`).
2. `complete_stream`, by induction over the pieces: their stream is one that `decompress` reads to
   its end, with what the tokens stand for as output.
3. `uncompressData_stream`: the round trip of a zlib stream of such blocks. The source does not skip
   the padding of a stored block, hence the stored blocks stand where there is none (`Unpadded`).
-/

namespace CappuccinOS.Gzip

open Canonical

/-! ## The format -/

/-- A block of the format: stored data, tokens in the fixed codes, or tokens in the codes of a
header. -/
inductive Piece
  | stored (data : List Byte)
  | fixed (ts : List Token)
  | dynamic (d : DynamicHeader) (ts : List Token)

namespace Piece

/-- What the block stands for, as tokens. -/
def tokens : Piece → List Token
  | stored data => data.map .lit
  | fixed ts => ts
  | dynamic _ ts => ts

/-- The bits from the header of a stored block to the next byte, when its final bit stands at
`pos`. -/
def padding (pos : ℕ) : ℕ := (8 - (pos + 3) % 8) % 8

/-- The block behind its final bit, which stands at `pos`. -/
def bits (pos : ℕ) : Piece → List Bool
  | stored data => bitsLE 0 2 ++ (List.replicate (padding pos) false ++
      (bitsLE data.length 16 ++ (bitsLE (65535 - data.length) 16 ++ bytesBits data)))
  | fixed ts => bitsLE 1 2 ++ blockBits fixedLitBits fixedDistBits ts
  | dynamic d ts => bitsLE 2 2 ++ d.blockBits ts

/-- The block can be sent: stored data has a length of 16 bits, and the codes of a header cover the
tokens. -/
def Sendable : Piece → Prop
  | stored data => data.length < 2 ^ 16
  | fixed _ => True
  | dynamic d ts => ∀ t ∈ ts, d.Coded t

/-- At `pos` the block is not padded. -/
def Unpadded (pos : ℕ) : Piece → Prop
  | stored _ => pos % 8 = 5
  | fixed _ => True
  | dynamic _ _ => True

end Piece

/-- Pieces in sequence from position `pos` on, with the final bit on the last one only. -/
def stream : ℕ → List Piece → List Bool
  | _, [] => []
  | pos, [q] => true :: q.bits pos
  | pos, q :: rest => false :: (q.bits pos ++ stream (pos + 1 + (q.bits pos).length) rest)

/-- No piece of the sequence is padded. -/
def Unpadded : ℕ → List Piece → Prop
  | _, [] => True
  | pos, q :: rest => q.Unpadded pos ∧ Unpadded (pos + 1 + (q.bits pos).length) rest

/-! ## Tokens as entries -/

/-- The entry that a token is sent as. -/
def Token.entry : Token → Entry
  | lit b => .lit b
  | copy length distance =>
    let l := lengthRow length
    let d := distRow distance
    .pair l.1 d.1 (bitsLE (length - l.2.2) l.2.1) (bitsLE (distance - d.2.2) d.2.1)

/-- The codes `k` cover the token, and the bits it is sent in are those of `k`. -/
structure Token.Sent (k : Codes) (litCode distCode : ℕ → List Bool) (t : Token) : Prop where
  coded : Coded k.lits t.symbol
  code_eq : litCode t.symbol = codeBits k.lits t.symbol
  dist_coded : ∀ s ∈ t.distSymbol, Coded k.dists s
  dist_eq : ∀ s ∈ t.distSymbol, distCode s = codeBits k.dists s

section Tokens

variable {p : Profile} {k : Codes} {litCode distCode : ℕ → List Bool}

theorem Token.Sent.bits_entry {t : Token} (h : t.Sent k litCode distCode) :
    t.entry.bits k = t.encode litCode distCode := by
  cases t with
  | lit b => exact h.code_eq.symm
  | copy length distance =>
    have hlit := h.code_eq
    have hdist := h.dist_eq _ rfl
    simp only [Token.symbol] at hlit
    simp only [Token.entry, Entry.bits, Token.encode, hlit, hdist]

theorem RowFor.value {bits base : List ℕ} {r : ℕ × ℕ × ℕ} {x : ℕ} (h : RowFor bits base r x)
    (hx : x < 2 ^ 32) :
    (base.getD r.1 0 + orBits (bitsLE (x - r.2.2) r.2.1) 0 0) % 2 ^ 32 = x := by
  have hw := h.width_le
  have hle := h.le
  have hbase : base.getD r.1 0 = r.2.2 := by rw [List.getD_eq_getElem?_getD, h.base_eq]; rfl
  rw [hbase, orBits_eq_valLE (by rw [length_bitsLE]; omega), valLE_bitsLE, Nat.mod_eq_of_lt h.lt,
    Nat.add_sub_cancel' hle, Nat.mod_eq_of_lt hx]

theorem Token.Valid.bytes_entry {t : Token} {o : List Byte} (hv : t.Valid o.length) :
    t.entry.bytes o = t.bytes o := by
  cases t with
  | lit b => rfl
  | copy length distance =>
    obtain ⟨h3, h258, h1, hmax, hle⟩ := hv
    have hlen := (lengthRow_spec h3 h258).value (by omega)
    have hdist := (distRow_spec h1 hmax).value (by omega)
    have hcopy := windowBytes_eq length hle
    simp only [Token.entry, Entry.bytes, pairLength, pairDistance, hlen, hdist, hcopy, Token.bytes]

theorem Token.Sent.readable_entry {t : Token} {n : ℕ} (h : t.Sent k litCode distCode)
    (hv : t.Valid n) : t.entry.Readable p k := by
  cases t with
  | lit b => exact .lit h.coded
  | copy length distance =>
    obtain ⟨h3, h258, h1, hmax, -⟩ := hv
    have hl := lengthRow_spec h3 h258
    have hd := distRow_spec h1 hmax
    have hw := hl.width_le
    refine .pair h.coded ?_ (fun _ => ?_) (h.dist_coded _ rfl) ?_
    · rw [length_bitsLE, hl.bits_eq]
    · rw [length_bitsLE]; omega
    · rw [length_bitsLE, hd.bits_eq]

/-- The tokens of a block are entries, and what the entries emit is their expansion. -/
theorem entries_of_tokens {ts : List Token} {o : List Byte} (hv : ValidFrom o ts)
    (hs : ∀ t ∈ ts, t.Sent k litCode distCode) :
    Entries p k (ts.flatMap (Token.encode litCode distCode)) o (o ++ expansion o ts) := by
  induction ts generalizing o with
  | nil =>
    rw [List.flatMap_nil, expansion, List.append_nil]
    exact .nil
  | cons t ts ih =>
    obtain ⟨hvt, hvts⟩ := hv
    obtain ⟨hst, hsts⟩ := List.forall_mem_cons.mp hs
    have hrest := ih hvts hsts
    rw [← hvt.bytes_entry, List.append_assoc] at hrest
    rw [List.flatMap_cons, expansion, ← hst.bits_entry, ← hvt.bytes_entry]
    exact .cons (hst.readable_entry hvt) hrest

end Tokens

/-! ## Codes -/

theorem coded_fixedLit {s : ℕ} (hs : s < 288) : Coded fixedLengths s := by
  have hlen := len_fixedLengths hs
  have hk : Kraft fixedLengths 15 := by decide +kernel
  refine hk.coded ?_ ?_
  · split_ifs at hlen <;> omega
  · split_ifs at hlen <;> omega

theorem coded_fixedDist {s : ℕ} (hs : s < 30) : Coded (List.replicate 30 5) s := by
  have hlen : len (List.replicate 30 5) s = 5 := by
    rw [len_eq_getElem (by simpa using hs), List.getElem_replicate]
  have hk : Kraft (List.replicate 30 5) 15 := by decide
  exact hk.coded (by omega) (by omega)

theorem Token.Valid.sent_fixed {t : Token} {n : ℕ} (hv : t.Valid n) :
    t.Sent .fixed fixedLitBits fixedDistBits := by
  have hsymbol : t.symbol < 288 ∧ ∀ s ∈ t.distSymbol, s < 30 := by
    cases t with
    | lit b =>
      have hb : b.toNat < 256 := b.isLt
      exact ⟨by simp only [Token.symbol]; omega, nofun⟩
    | copy length distance =>
      obtain ⟨h3, h258, h1, hmax, -⟩ := hv
      have hl := (List.getElem?_eq_some_iff.mp (lengthRow_spec h3 h258).bits_eq).1
      have hd := (List.getElem?_eq_some_iff.mp (distRow_spec h1 hmax).bits_eq).1
      have hlen : lengthBits.length = 30 := rfl
      refine ⟨by rw [Token.symbol]; omega, ?_⟩
      rintro s ⟨⟩
      exact hd
  obtain ⟨hl, hd⟩ := hsymbol
  exact ⟨coded_fixedLit hl, (codeBits_fixedLengths hl).symm, fun s hs => coded_fixedDist (hd s hs),
    fun s hs => (codeBits_fixedDist (hd s hs)).symm⟩

/-- Operations that stand for lengths bring the array up to them. -/
theorem fills_of_render {clLens acc final : List ℕ} {ops : List RunOp}
    (h : render acc ops = some final) (hcoded : ∀ op ∈ ops, Coded clLens op.symbol)
    (hfit : final.length ≤ 320) : Fills clLens final.length acc ops final := by
  induction ops generalizing acc with
  | nil =>
    cases h
    exact .done le_rfl
  | cons op ops ih =>
    obtain ⟨acc', hop, hrest⟩ := Option.bind_eq_some_iff.mp h
    obtain ⟨l, n, hadds, rfl⟩ := RunOp.adds_of_apply hop
    obtain ⟨hc, hcs⟩ := List.forall_mem_cons.mp hcoded
    have hpos := hadds.pos
    have hle := length_le_of_render hrest
    rw [List.length_append, List.length_replicate] at hle
    exact .step (by omega) hc hadds (by omega) (ih hrest hcs)

namespace DynamicHeader

variable (d : DynamicHeader)

/-- The header as the source reads it. -/
def preamble : Preamble where
  hlit := d.litLens.length
  hdist := d.distLens.length
  hclen := d.hclen
  clLens := d.clLens
  ops := d.ops
  lens := d.litLens ++ d.distLens
  lit_count := ⟨d.lit_count.1, d.lit_count.2.trans (by norm_num)⟩
  dist_count := ⟨d.dist_count.1, d.dist_count.2.trans (by norm_num)⟩
  hclen_le := d.hclen_le
  cl_count := d.cl_count
  cl_le := d.cl_le
  hclen_enough := d.hclen_enough
  fills := by
    have hl := d.lit_count
    have hd := d.dist_count
    rw [← List.length_append]
    refine fills_of_render d.render_eq (fun op hop => ?_) (by rw [List.length_append]; omega)
    exact d.cl_kraft.coded (d.cl_coded op hop) (len_le_of_forall d.cl_le _)

theorem preamble_bits : d.preamble.bits = d.bits := rfl

theorem preamble_lits : d.preamble.codes.lits = d.litLens := List.take_left' rfl

theorem preamble_dists : d.preamble.codes.dists = d.distLens := by
  show ((d.litLens ++ d.distLens).drop d.litLens.length).take d.distLens.length = d.distLens
  rw [List.drop_left' rfl, List.take_length]

theorem sent {t : Token} (hc : d.Coded t) :
    t.Sent d.preamble.codes (codeBits d.litLens) (codeBits d.distLens) where
  coded := by
    rw [preamble_lits]
    exact d.lit_kraft.coded hc.1 (len_le_of_forall d.lit_le _)
  code_eq := by rw [preamble_lits]
  dist_coded := by
    intro s hs
    rw [preamble_dists]
    exact d.dist_kraft.coded (hc.2 s hs) (len_le_of_forall d.dist_le _)
  dist_eq := by
    intro s hs
    rw [preamble_dists]

theorem coded_end : Canonical.Coded d.preamble.codes.lits 256 := by
  rw [preamble_lits]
  exact d.lit_kraft.coded d.end_coded (len_le_of_forall d.lit_le _)

end DynamicHeader

/-! ## Pieces as blocks -/

theorem expansion_lits (o data : List Byte) : expansion o (data.map .lit) = data := by
  induction data generalizing o with
  | nil => rfl
  | cons b data ih => rw [List.map_cons, expansion, ih]; rfl

/-- Every piece that is not padded is a block as the source reads it. -/
theorem Piece.block {p : Profile} {pos : ℕ} {q : Piece} {o : List Byte} (hsend : q.Sendable)
    (hpad : q.Unpadded pos) (hv : ValidFrom o q.tokens) :
    Block p (q.bits pos) o (o ++ expansion o q.tokens) := by
  cases q with
  | stored data =>
    have hpos : pos % 8 = 5 := hpad
    have hzero : padding pos = 0 := by unfold padding; omega
    rw [tokens, expansion_lits, bits, hzero]
    exact .stored hsend
  | fixed ts =>
    have hs : ∀ t ∈ ts, t.Sent .fixed fixedLitBits fixedDistBits := fun t ht =>
      let ⟨_, hn⟩ := hv.exists_valid t ht
      hn.sent_fixed
    have hend : Coded Codes.fixed.lits 256 := coded_fixedLit (by norm_num)
    have hcode : fixedLitBits 256 = codeBits Codes.fixed.lits 256 :=
      (codeBits_fixedLengths (by norm_num)).symm
    have hblock := Block.compressed .fixed (entries_of_tokens (p := p) hv hs) hend
    rw [bits, blockBits, hcode]
    exact hblock
  | dynamic d ts =>
    have hs := entries_of_tokens (p := p) hv fun t ht => d.sent (hsend t ht)
    have hblock := Block.compressed (.dynamic d.preamble) hs d.coded_end
    rw [d.preamble_lits, d.preamble_bits, List.append_assoc] at hblock
    exact hblock

/-! ## The round trip -/

theorem complete_stream {p : Profile} {pieces : List Piece} {pos : ℕ} {o : List Byte}
    (hne : pieces ≠ []) (hsend : ∀ q ∈ pieces, q.Sendable) (hpad : Unpadded pos pieces)
    (hv : ValidFrom o (pieces.flatMap Piece.tokens)) (rest : List Bool) :
    Complete p (stream pos pieces ++ rest) o (o ++ expansion o (pieces.flatMap Piece.tokens)) := by
  induction pos, pieces using stream.induct generalizing o with
  | case1 => exact absurd rfl hne
  | case2 pos q =>
    rw [List.flatMap_singleton] at hv ⊢
    exact .last (Piece.block (hsend q List.mem_cons_self) hpad.1 hv)
  | case3 pos q qs hqs ih =>
    obtain ⟨hq, hsends⟩ := List.forall_mem_cons.mp hsend
    rw [List.flatMap_cons, validFrom_append] at hv
    have hrest := ih (fun h => hqs h) hsends hpad.2 hv.2
    rw [List.flatMap_cons, expansion_append, ← List.append_assoc, stream.eq_3 _ _ _ hqs,
      List.cons_append, List.append_assoc]
    exact .next (Piece.block hq hpad.1 hv.1) hrest

/-- A zlib stream of blocks of every kind decompresses to what its tokens stand for, when the stored
blocks stand where the format does not pad them. -/
theorem uncompressData_stream (p : Profile) (header : ZlibHeader) (pieces : List Piece)
    (hne : pieces ≠ []) (hsend : ∀ q ∈ pieces, q.Sendable) (hpad : Unpadded 0 pieces)
    (hv : ValidFrom [] (pieces.flatMap Piece.tokens)) :
    uncompressData p (zlib header (packBits (stream 0 pieces))
        (expansion [] (pieces.flatMap Piece.tokens))) =
      .ok (expansion [] (pieces.flatMap Piece.tokens)) := by
  obtain ⟨k, hpack⟩ := bytesBits_packBits (stream 0 pieces)
  have hcomplete := complete_stream (p := p) hne hsend hpad hv (List.replicate k false)
  rw [← hpack, List.nil_append] at hcomplete
  obtain ⟨c, hdec⟩ := decompress_ok_iff.mpr hcomplete
  exact uncompressData_of_decompress hdec

/-- A fixed block that ends where a stored one needs no padding, and a dynamic one that copies from
the stored data. -/
def threeKinds : List Piece :=
  [.fixed [.lit 0xC8#8, .lit 0xC9#8, .lit 0xCA#8], .stored [0x61#8, 0x62#8],
    .dynamic .demo [.lit 0x61#8, .copy 4 1]]

theorem uncompressData_stream_demo :
    expansion [] (threeKinds.flatMap Piece.tokens) =
        [0xC8#8, 0xC9#8, 0xCA#8, 0x61#8, 0x62#8, 0x61#8, 0x61#8, 0x61#8, 0x61#8, 0x61#8] ∧
      uncompressData .dev (zlib .default (packBits (stream 0 threeKinds))
          (expansion [] (threeKinds.flatMap Piece.tokens))) =
        .ok (expansion [] (threeKinds.flatMap Piece.tokens)) := by
  have hcoded : ∀ t ∈ [Token.lit 0x61#8, .copy 4 1], DynamicHeader.demo.Coded t := by decide +kernel
  have hlen : [0x61#8, 0x62#8].length < 2 ^ 16 := by decide
  have hsend : ∀ q ∈ threeKinds, q.Sendable :=
    List.forall_mem_cons.mpr ⟨trivial, List.forall_mem_cons.mpr ⟨hlen,
      List.forall_mem_cons.mpr ⟨hcoded, by simp⟩⟩⟩
  have hpos : (0 + 1 + (Piece.bits 0 (.fixed [.lit 0xC8#8, .lit 0xC9#8, .lit 0xCA#8])).length) % 8 =
      5 := by decide
  exact ⟨by decide, uncompressData_stream .dev .default threeKinds (by simp [threeKinds]) hsend
    ⟨trivial, hpos, trivial, trivial⟩ (by decide)⟩

end CappuccinOS.Gzip
