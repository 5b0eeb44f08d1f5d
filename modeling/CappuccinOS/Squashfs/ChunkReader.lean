import CappuccinOS.Lib.Bytes

/-!
# Metadata blocks (`drivers/fs/initramfs/chunk_reader.rs`)

A SquashFS table is a sequence of metadata blocks: a 16-bit header with the stored length and a
flag, then the stored bytes, compressed or not. `ChunkReader` splits a table into its blocks and
decompresses a block in place when it is first read; the header is then that of the decompressed
block. `get_slice` names a block by the byte at which it starts in the table.

1. `Chunk`, `ChunkReader::new` and `get_slice`, over any decompressor;
2. `MetaBlock`, a well-formed block with its payload, and `encode`, its bytes in the table;
3. `new_encode`: a table is split into its blocks;
4. `readFrom_eq`: what is read from a block on depends on the payloads only (`pick`), not on which
   blocks have been decompressed.
-/

namespace CappuccinOS.Squashfs

/-- `Fn(&[u8]) -> Result<Vec<u8>, ()>`. -/
abbrev Decompressor := List Byte → Except Fault (List Byte)

abbrev headerSize : ℕ := 2

/-! ## The reader -/

/-- `Chunk`: a block with its header. -/
@[ext] structure Chunk where
  data : List Byte
  headerSize_le : headerSize ≤ data.length

namespace Chunk

def header (c : Chunk) : ℕ := leNat (c.data.take headerSize)

def len (c : Chunk) : ℕ := c.header &&& 0x7FFF

def isCompressed (c : Chunk) : Bool := c.header &&& 0x8000 == 0

/-- A block that is stored as it is, with the header that `decompress` gives it. -/
def plain (payload : List Byte) : Chunk :=
  ⟨leBytes 2 (payload.length % 2 ^ 16 ||| 0x8000) ++ payload, by simp⟩

def decompress (D : Decompressor) (c : Chunk) : Except Fault Chunk :=
  if c.isCompressed then do
    let decompressedData ← expect (D (c.data.drop headerSize))
    .ok (plain decompressedData)
  else
    .ok c

end Chunk

/-- The loop of `ChunkReader::new`, on the data from `offset` on. -/
def chunksFrom : ℕ → List Byte → Except Fault (List Chunk)
  | _, [] => .ok []
  | 0, _ :: _ => .error .fuel
  | fuel + 1, data => do
    let header ← slice data 0 headerSize
    let length := (leNat header &&& 0x7FFF) + headerSize
    if h : length ≤ data.length then do
      let rest ← chunksFrom fuel (data.drop length)
      .ok (⟨data.take length, by rw [List.length_take, min_eq_left h]; exact Nat.le_add_left _ _⟩ ::
        rest)
    else
      .error (.panic .bounds)

/-- `ChunkReader::new`; a turn takes two bytes or more. -/
def ChunkReader.new (data : List Byte) : Except Fault (List Chunk) := chunksFrom data.length data

section Reader

variable (p : Profile) (D : Decompressor)

/-- The first loop of `get_slice`: the number of steps of `step` bytes that lead to the byte
`chunk`. -/
def locate (step chunk : ℕ) : ℕ → ℕ → ℕ → Except Fault ℕ
  | 0, _, _ => .error .fuel
  | fuel + 1, chunkIdx, totalLength =>
    if totalLength = chunk then .ok chunkIdx
    else do
      let totalLength ← arith (p.add totalLength step)
      locate step chunk fuel (chunkIdx + 1) totalLength

/-- The block that `get_slice` takes for the one at byte `chunk`. -/
def chunkIndex (fuel : ℕ) (chunks : List Chunk) (chunk : ℕ) : Except Fault ℕ :=
  match chunks with
  | [] => if chunk = 0 then .ok 0 else .error (.panic .bounds)
  | c :: _ => locate p (c.len + headerSize) chunk fuel 0 0

/-- The second loop of `get_slice`: how many of the blocks behind the first it needs. -/
def gather (size : ℕ) : ℕ → List Chunk → Except Fault (ℕ × List Chunk)
  | availableBytes, [] => if availableBytes < size then .error (.panic .bounds) else .ok (0, [])
  | availableBytes, c :: cs =>
    if availableBytes < size then do
      let c ← c.decompress D
      let (chunksToRead, cs) ← gather size (availableBytes + c.len) cs
      .ok (chunksToRead + 1, c :: cs)
    else
      .ok (0, c :: cs)

def blockEnd (size offset : ℕ) (c : Chunk) : Except Fault ℕ := do
  let span ← arith (p.sub (c.len + headerSize) (offset + headerSize))
  if span > size then arith (p.add (offset + headerSize) size) else .ok (c.len + headerSize)

/-- The bytes `get_slice` takes from one block. -/
def copyChunk (size offset : ℕ) (c : Chunk) : Except Fault (List Byte) := do
  let blockEnd ← blockEnd p size offset c
  slice c.data (offset + headerSize) blockEnd

/-- The third loop of `get_slice`, over `n` blocks. -/
def copyChunks (size : ℕ) : ℕ → ℕ → List Chunk → Except Fault (List Byte × List Chunk)
  | _, 0, cs => .ok ([], cs)
  | _, _ + 1, [] => .error (.panic .bounds)
  | offset, n + 1, c :: cs => do
    let c ← c.decompress D
    let bytes ← copyChunk p size offset c
    let (rest, cs) ← copyChunks size 0 n cs
    .ok (bytes ++ rest, c :: cs)

/-- What `get_slice` does from the block it has found on. -/
def readFrom (offset size : ℕ) : List Chunk → Except Fault (List Byte × List Chunk)
  | [] => .error (.panic .bounds)
  | c :: cs => do
    let c ← c.decompress D
    -- the bytes available in the first block count its header
    if offset ≤ c.data.length then do
      let (chunksToRead, cs) ← gather D size (c.data.length - offset) cs
      copyChunks p D size offset (chunksToRead + 1) (c :: cs)
    else
      .error (.panic .bounds)

/-- `ChunkReader::get_slice`: the bytes, and the blocks as they are then. -/
def getSlice (fuel : ℕ) (chunks : List Chunk) (chunk offset size : ℕ) :
    Except Fault (List Byte × List Chunk) := do
  let chunk ← chunkIndex p fuel chunks chunk
  let (data, cs) ← readFrom p D offset size (chunks.drop chunk)
  .ok (data, chunks.take chunk ++ cs)

end Reader

/-! ## Headers -/

namespace Chunk

variable {c : Chunk} {payload : List Byte}

theorem header_eq {v : ℕ} {rest : List Byte} (h : c.data = leBytes 2 v ++ rest)
    (hv : v < 2 ^ 16) : c.header = v := by
  rw [header, h, List.take_left' (length_leBytes 2 v), leNat_leBytes]
  exact Nat.mod_eq_of_lt hv

theorem len_eq (c : Chunk) : c.len = c.header % 2 ^ 15 := by
  rw [len, show 0x7FFF = 2 ^ 15 - 1 from rfl, Nat.and_two_pow_sub_one_eq_mod]

theorem isCompressed_iff (c : Chunk) : c.isCompressed ↔ c.header / 2 ^ 15 % 2 = 0 := by
  have h : c.header &&& 0x8000 = 2 ^ 15 * (c.header / 2 ^ 15 % 2 ^ 1) := and_field _ 15 1
  rw [isCompressed, h, beq_iff_eq, pow_one]
  omega

theorem plain_header (h : payload.length < 2 ^ 15) :
    payload.length % 2 ^ 16 ||| 0x8000 = payload.length + 2 ^ 15 := by
  have hor := Nat.two_pow_add_eq_or_of_lt h 1
  rw [Nat.mod_eq_of_lt (by omega), Nat.lor_comm]
  rw [Nat.mul_one] at hor
  exact hor.symm.trans (Nat.add_comm _ _)

theorem header_plain (h : payload.length < 2 ^ 15) :
    (plain payload).header = payload.length + 2 ^ 15 :=
  (header_eq rfl (by rw [plain_header h]; omega)).trans (plain_header h)

theorem len_plain (h : payload.length < 2 ^ 15) : (plain payload).len = payload.length := by
  rw [len_eq, header_plain h]
  omega

theorem length_data_plain (payload : List Byte) :
    (plain payload).data.length = payload.length + headerSize := by
  simp [plain, Nat.add_comm]

theorem decompress_plain (D : Decompressor) (h : payload.length < 2 ^ 15) :
    (plain payload).decompress D = .ok (plain payload) := by
  have hplain : ¬ (plain payload).isCompressed := by
    rw [isCompressed_iff, header_plain h]
    omega
  exact if_neg hplain

end Chunk

/-! ## Well-formed blocks -/

/-- A metadata block with its payload. -/
structure MetaBlock (D : Decompressor) where
  stored : List Byte
  compressed : Bool
  payload : List Byte
  stored_lt : stored.length < 2 ^ 15
  payload_pos : 1 ≤ payload.length
  payload_le : payload.length ≤ 8192
  decodes : (if compressed then D stored else .ok stored) = .ok payload

namespace MetaBlock

variable {D : Decompressor} (b : MetaBlock D)

/-- The block in the table: the length of the stored bytes with the flag, then these. -/
def encode : Chunk :=
  ⟨leBytes 2 (b.stored.length + if b.compressed then 0 else 2 ^ 15) ++ b.stored, by simp⟩

theorem payload_lt : b.payload.length < 2 ^ 15 := by
  have := b.payload_le
  omega

theorem header_encode :
    b.encode.header = b.stored.length + if b.compressed then 0 else 2 ^ 15 := by
  have := b.stored_lt
  refine Chunk.header_eq rfl ?_
  split_ifs <;> omega

theorem len_encode : b.encode.len = b.stored.length := by
  have := b.stored_lt
  rw [Chunk.len_eq, b.header_encode]
  split_ifs <;> omega

theorem isCompressed_encode : b.encode.isCompressed ↔ b.compressed := by
  have := b.stored_lt
  rw [Chunk.isCompressed_iff, b.header_encode]
  split_ifs with h
  · exact iff_of_true (by omega) h
  · exact iff_of_false (by omega) h

theorem length_encode : b.encode.data.length = b.stored.length + headerSize := by
  simp [encode, Nat.add_comm]

theorem decompress_encode : b.encode.decompress D = .ok (.plain b.payload) := by
  have hdec := b.decodes
  unfold Chunk.decompress
  by_cases h : b.compressed
  · rw [if_pos (b.isCompressed_encode.mpr h)]
    rw [if_pos h] at hdec
    have hdrop : b.encode.data.drop headerSize = b.stored := List.drop_left' (length_leBytes 2 _)
    rw [hdrop, hdec]
    rfl
  · rw [if_neg (mt b.isCompressed_encode.mp h)]
    rw [if_neg h] at hdec
    obtain hpayload : b.stored = b.payload := Except.ok.inj hdec
    have hlt := b.payload_lt
    rw [Except.ok.injEq, Chunk.ext_iff]
    simp only [encode, Chunk.plain, Chunk.plain_header hlt, h, if_false, hpayload,
      Bool.false_eq_true]

/-- The block as the reader holds it: as stored, or decompressed. -/
def Held (c : Chunk) : Prop := c = b.encode ∨ c = .plain b.payload

variable {b}

theorem Held.decompress {c : Chunk} (h : b.Held c) :
    c.decompress D = .ok (.plain b.payload) := by
  obtain rfl | rfl := h
  · exact b.decompress_encode
  · exact Chunk.decompress_plain D b.payload_lt

theorem Held.len {c : Chunk} (h : b.Held c) :
    c.len = b.stored.length ∨ c.len = b.payload.length := by
  obtain rfl | rfl := h
  · exact .inl b.len_encode
  · exact .inr (Chunk.len_plain b.payload_lt)

end MetaBlock

/-- The payloads of blocks. -/
abbrev payloads {D : Decompressor} (blocks : List (MetaBlock D)) : List (List Byte) :=
  blocks.map MetaBlock.payload

/-- A reader over these blocks, in any state. -/
abbrev Holds {D : Decompressor} (blocks : List (MetaBlock D)) (chunks : List Chunk) : Prop :=
  List.Forall₂ MetaBlock.Held blocks chunks

/-! ## What is read, from the payloads -/

/-- `gather` over payloads. -/
def gatherCount (size : ℕ) : ℕ → List (List Byte) → Except Fault ℕ
  | availableBytes, [] => if availableBytes < size then .error (.panic .bounds) else .ok 0
  | availableBytes, q :: qs =>
    if availableBytes < size then do
      let n ← gatherCount size (availableBytes + q.length) qs
      .ok (n + 1)
    else
      .ok 0

/-- `copyChunks` over payloads. -/
def pickBytes (p : Profile) (size : ℕ) : ℕ → ℕ → List (List Byte) → Except Fault (List Byte)
  | _, 0, _ => .ok []
  | _, _ + 1, [] => .error (.panic .bounds)
  | offset, n + 1, q :: qs => do
    let bytes ← copyChunk p size offset (.plain q)
    let rest ← pickBytes p size 0 n qs
    .ok (bytes ++ rest)

/-- `readFrom` over payloads: how many blocks are read, and the bytes. -/
def pick (p : Profile) (offset size : ℕ) : List (List Byte) → Except Fault (ℕ × List Byte)
  | [] => .error (.panic .bounds)
  | q :: qs =>
    if offset ≤ q.length + headerSize then do
      let n ← gatherCount size (q.length + headerSize - offset) qs
      let bytes ← pickBytes p size offset (n + 1) (q :: qs)
      .ok (n + 1, bytes)
    else
      .error (.panic .bounds)

section Spec

variable {p : Profile} {D : Decompressor} {blocks : List (MetaBlock D)} {chunks : List Chunk}
variable {size offset n : ℕ}

/-- The state after the first `n` blocks have been decompressed. -/
def unpacked (n : ℕ) (blocks : List (MetaBlock D)) (chunks : List Chunk) : List Chunk :=
  ((payloads blocks).take n).map .plain ++ chunks.drop n

theorem holds_unpacked (h : Holds blocks chunks) (n : ℕ) :
    Holds blocks (unpacked n blocks chunks) := by
  induction h generalizing n with
  | nil => simp [unpacked]
  | cons hb h ih =>
    cases n with
    | zero => exact .cons hb h
    | succ n => exact .cons (.inr rfl) (ih n)

theorem unpacked_unpacked (h : Holds blocks chunks) (n : ℕ) :
    unpacked n blocks (unpacked n blocks chunks) = unpacked n blocks chunks := by
  induction h generalizing n with
  | nil => simp [unpacked]
  | cons hb h ih =>
    cases n with
    | zero => rfl
    | succ n => exact congrArg (List.cons _) (ih n)

theorem gather_eq (h : Holds blocks chunks) (available : ℕ) :
    gather D size available chunks =
      (gatherCount size available (payloads blocks)).map
        fun n => (n, unpacked n blocks chunks) := by
  induction h generalizing available with
  | nil =>
    simp only [gather, gatherCount, List.map_nil]
    split_ifs <;> rfl
  | @cons b c blocks chunks hb h ih =>
    simp only [gather, gatherCount, List.map_cons]
    split_ifs
    · rw [hb.decompress]
      simp only [bind, Except.bind, ih, Chunk.len_plain b.payload_lt]
      cases gatherCount size (available + b.payload.length) (payloads blocks) <;> rfl
    · rfl

theorem copyChunks_eq (h : Holds blocks chunks) (n : ℕ) :
    copyChunks p D size offset n chunks =
      (pickBytes p size offset n (payloads blocks)).map fun bytes =>
        (bytes, unpacked n blocks chunks) := by
  induction h generalizing offset n with
  | nil => cases n <;> rfl
  | @cons b c blocks chunks hb h ih =>
    cases n with
    | zero => rfl
    | succ n =>
      simp only [copyChunks, pickBytes, List.map_cons, hb.decompress, bind, Except.bind]
      cases copyChunk p size offset (.plain b.payload) with
      | error e => rfl
      | ok bytes =>
        simp only [ih]
        cases pickBytes p size 0 n (payloads blocks) <;> rfl

/-- What is read depends on the payloads only; the blocks read are decompressed then. -/
theorem readFrom_eq (h : Holds blocks chunks) :
    readFrom p D offset size chunks =
      (pick p offset size (payloads blocks)).map fun r => (r.2, unpacked r.1 blocks chunks) := by
  cases h with
  | nil => rfl
  | @cons b c blocks chunks hb h =>
    simp only [readFrom, pick, List.map_cons, hb.decompress, bind, Except.bind,
      Chunk.length_data_plain]
    split_ifs with hoff
    · rw [gather_eq h]
      cases gatherCount size (b.payload.length + headerSize - offset) (payloads blocks) with
      | error e => rfl
      | ok n =>
        have hplain : Holds (b :: blocks) (Chunk.plain b.payload :: unpacked n blocks chunks) :=
          .cons (.inr rfl) (holds_unpacked h n)
        have hagain : unpacked (n + 1) (b :: blocks)
            (.plain b.payload :: unpacked n blocks chunks) =
            unpacked (n + 1) (b :: blocks) (c :: chunks) :=
          congrArg (List.cons (Chunk.plain b.payload)) (unpacked_unpacked h n)
        simp only [Except.map]
        rw [copyChunks_eq hplain, hagain]
        simp only [payloads, List.map_cons]
        cases pickBytes p size offset (n + 1) (b.payload :: blocks.map MetaBlock.payload) <;> rfl
    · rfl

theorem getSlice_eq (h : Holds blocks chunks) (fuel chunk : ℕ) :
    getSlice p D fuel chunks chunk offset size =
      chunkIndex p fuel chunks chunk >>= fun i =>
        (pick p offset size ((payloads blocks).drop i)).map fun r =>
          (r.2, chunks.take i ++ unpacked r.1 (blocks.drop i) (chunks.drop i)) := by
  unfold getSlice
  congr 1
  funext i
  rw [readFrom_eq (List.forall₂_drop i h), payloads, List.map_drop]
  cases pick p offset size ((payloads blocks).drop i) <;> rfl

/-- A reader keeps its blocks through every call that returns. -/
theorem holds_getSlice (h : Holds blocks chunks) {fuel chunk : ℕ} {bytes : List Byte}
    {chunks' : List Chunk}
    (hget : getSlice p D fuel chunks chunk offset size = .ok (bytes, chunks')) :
    Holds blocks chunks' := by
  rw [getSlice_eq h] at hget
  obtain ⟨i, -, hget⟩ := bind_eq_ok.mp hget
  obtain ⟨r, -, hget⟩ := map_eq_ok.mp hget
  cases hget
  have happend := List.rel_append (List.forall₂_take i h)
    (holds_unpacked (List.forall₂_drop i h) r.1)
  simp only [List.take_append_drop] at happend
  exact happend

end Spec

/-! ## Splitting a table -/

section New

variable {D : Decompressor}

/-- The bytes of a table. -/
def encode (blocks : List (MetaBlock D)) : List Byte := blocks.flatMap fun b => b.encode.data

/-- The reader over a table that has not been read yet. -/
abbrev fresh (blocks : List (MetaBlock D)) : List Chunk := blocks.map MetaBlock.encode

theorem holds_fresh (blocks : List (MetaBlock D)) : Holds blocks (fresh blocks) := by
  rw [Holds, List.forall₂_map_right_iff, List.forall₂_same]
  exact fun b _ => .inl rfl

theorem chunksFrom_append {c : Chunk} {rest : List Byte} {cs : List Chunk} {fuel : ℕ}
    (hlen : c.data.length = c.len + headerSize) (hrest : chunksFrom fuel rest = .ok cs) :
    chunksFrom (fuel + 1) (c.data ++ rest) = .ok (c :: cs) := by
  have hsize := c.headerSize_le
  have hheader : slice (c.data ++ rest) 0 headerSize = .ok (c.data.take headerSize) := by
    rw [slice_of_le (Nat.zero_le _) (by rw [List.length_append]; omega), List.drop_zero,
      Nat.sub_zero, List.take_append_of_le_length hsize]
  have hlength : (leNat (c.data.take headerSize) &&& 0x7FFF) + headerSize = c.data.length :=
    hlen.symm
  rw [chunksFrom, hheader]
  · simp only [bind, Except.bind, hlength]
    rw [dif_pos (by rw [List.length_append]; omega)]
    simp only [List.drop_left, List.take_left, hrest]
  · intro h
    simp only [List.append_eq_nil_iff] at h
    rw [h.1] at hsize
    simp at hsize

theorem chunksFrom_encode (blocks : List (MetaBlock D)) {fuel : ℕ}
    (hfuel : (encode blocks).length ≤ fuel) :
    chunksFrom fuel (encode blocks) = .ok (fresh blocks) := by
  induction blocks generalizing fuel with
  | nil => cases fuel <;> rfl
  | cons b blocks ih =>
    have hb := b.length_encode
    have happend : encode (b :: blocks) = b.encode.data ++ encode blocks := rfl
    rw [happend, List.length_append, hb, headerSize] at hfuel
    obtain ⟨fuel, rfl⟩ : ∃ n, fuel = n + 1 := ⟨fuel - 1, by omega⟩
    rw [happend]
    exact chunksFrom_append (by rw [hb, b.len_encode]) (ih (by omega))

theorem new_encode (blocks : List (MetaBlock D)) :
    ChunkReader.new (encode blocks) = .ok (fresh blocks) := chunksFrom_encode blocks le_rfl

end New

end CappuccinOS.Squashfs
