import CappuccinOS.Lib.Bytes

/-!
# The zlib decompressor (`libs/gzip.rs`)

`InflateContext` is the state of the source's decoder, and `Inflate` the computations on it. A
call ends with a value, with the source's `Err(())`, or with a panic: a failed assertion, an
index out of bounds, or an overflow where the `dev` profile checks it. Fixed-size arrays are
functions on their indices, with the bounds checks written out.

The three unbounded loops (the blocks of `decompress`, the symbols of `inflate`, the code lengths
of `decode_huffman`) read at least one bit a turn, so they are given one turn more than the input
has bits; `Fault.fuel` marks a loop that would need more.
-/

namespace CappuccinOS.Gzip

/-- `Huff`: how many codes have each length, and the symbols sorted by length. -/
structure Huff where
  counts : ℕ → ℕ
  symbols : ℕ → ℕ

/-- A table of zeros. -/
def Huff.zero : Huff := ⟨fun _ => 0, fun _ => 0⟩

/-- `HuffRing`: the last 32 KiB of output. -/
structure HuffRing where
  pointer : ℕ
  data : ℕ → Byte

structure InflateContext where
  inputBuf : List Byte
  bitIndex : ℕ
  outputBuf : List Byte
  ring : HuffRing

def InflateContext.new (bytes : List Byte) : InflateContext :=
  ⟨bytes, 0, [], ⟨0, fun _ => 0#8⟩⟩

/-- A computation of the decoder. -/
abbrev Inflate := StateT InflateContext (Except Fault)

/-- A check that panics when it fails. -/
def ensure (p : Panic) (c : Prop) [Decidable c] : Inflate Unit :=
  fun s => if c then .ok ((), s) else .error (.panic p)

/-- A computation that does not touch the context. -/
def lift {α : Type} (e : Except Fault α) : Inflate α := fun s =>
  match e with
  | .ok a => .ok (a, s)
  | .error f => .error f

/-- An array access. -/
def index (l : List ℕ) (i : ℕ) : Inflate ℕ := fun s =>
  match l[i]? with
  | some v => .ok (v, s)
  | none => .error (.panic .bounds)

/-! ## The bit reader -/

/-- The first part of `get_bit`: once all eight bits of the first byte are read it is removed, and
there must be another. -/
def dropByte (c : InflateContext) : Except Fault InflateContext :=
  if c.bitIndex = 8 then
    match c.inputBuf.tail with
    | [] => .error (.panic .assertion)
    | b :: rest => .ok { c with inputBuf := b :: rest, bitIndex := 0 }
  else
    .ok c

def getBit : Inflate Bool := fun c => do
  let c ← dropByte c
  match c.inputBuf with
  | [] => .error (.panic .bounds)
  | b :: _ => .ok (b &&& 1#8 <<< c.bitIndex != 0#8, { c with bitIndex := c.bitIndex + 1 })

/-- `x << bit` on `u32`, for `x` zero or one. -/
def shl (p : Profile) (x bit : ℕ) : Except Fault ℕ :=
  if bit < 32 then .ok (x <<< bit)
  else match p with
    | .dev => .error (.panic .overflow)
    | .release => .ok (x <<< (bit % 32))

/-- The loop of `get_bits`, from bit `bit` on. -/
def getBitsFrom (p : Profile) : ℕ → ℕ → ℕ → Inflate ℕ
  | 0, _, byte => pure byte
  | n + 1, bit, byte => do
    let b ← getBit
    let v ← lift (shl p b.toNat bit)
    getBitsFrom p n (bit + 1) (byte ||| v)

def getBits (p : Profile) (numBits : ℕ) : Inflate ℕ := getBitsFrom p numBits 0 0

def getBitsBase (p : Profile) (num base : ℕ) : Inflate ℕ := do
  let v ← (if num ≠ 0 then getBits p num else pure 0)
  pure ((base + v) % 2 ^ 32)

/-! ## Huffman tables -/

/-- The counting loop of `build_huffman`. -/
def countLengths : List ℕ → (ℕ → ℕ) → Except Fault (ℕ → ℕ)
  | [], counts => .ok counts
  | l :: rest, counts =>
    if l ≤ 15 then countLengths rest (Function.update counts l (counts l + 1))
    else .error (.panic .assertion)

/-- The loop of `build_huffman` that turns counts into offsets. -/
def sumOffsets (counts : ℕ → ℕ) : ℕ → (ℕ → ℕ) × ℕ
  | 0 => (fun _ => 0, 0)
  | i + 1 =>
    let (offsets, count) := sumOffsets counts i
    (Function.update offsets i count, count + counts i)

/-- The loop of `build_huffman` that places the symbols. -/
def placeSymbols (lengths : List ℕ) (size : ℕ) :
    ℕ → ℕ → (ℕ → ℕ) → (ℕ → ℕ) → Except Fault (ℕ → ℕ)
  | 0, _, symbols, _ => .ok symbols
  | n + 1, i, symbols, offsets =>
    match lengths[i]? with
    | none => .error (.panic .bounds)
    | some l =>
      if l ≠ 0 then
        if offsets l < 288 then
          placeSymbols lengths size n (i + 1) (Function.update symbols (offsets l) i)
            (Function.update offsets l (offsets l + 1))
        else .error (.panic .bounds)
      else placeSymbols lengths size n (i + 1) symbols offsets

def buildHuffman (lengths : List ℕ) (size : ℕ) (out : Huff) : Except Fault Huff := do
  if size ≤ 288 then pure () else throw (.panic .assertion)
  let counts ← countLengths (lengths.take size) fun _ => 0
  let counts := Function.update counts 0 0
  let offsets := (sumOffsets counts 16).1
  let symbols ← placeSymbols lengths size size 0 out.symbols offsets
  pure ⟨counts, symbols⟩

/-- The literal/length code lengths of `build_fixed`. -/
def fixedLengths : List ℕ :=
  List.replicate 144 8 ++ List.replicate 112 9 ++ List.replicate 24 7 ++ List.replicate 8 8

/-- `build_fixed`: the array is reused for the distances, with its first 30 entries filled with
5. -/
def buildFixed : Except Fault (Huff × Huff) := do
  let outLength ← buildHuffman fixedLengths 288 .zero
  let outDist ← buildHuffman (List.replicate 30 5 ++ fixedLengths.drop 30) 30 .zero
  pure (outLength, outDist)

/-- The loop of `decode`: `i` bits are read after this turn. -/
def decodeFrom (huff : Huff) : ℕ → ℕ → ℕ → ℕ → Inflate ℕ
  | 0, _, _, _ => throw .fuel
  | turns + 1, i, base, offs => do
    let b ← getBit
    let offs := 2 * offs + b.toNat
    ensure .assertion (i ≤ 15)
    if offs < huff.counts i then
      pure (base + offs)
    else
      decodeFrom huff turns (i + 1) (base + huff.counts i) (offs - huff.counts i)

def decode (huff : Huff) : Inflate ℕ := do
  let slot ← decodeFrom huff 16 1 0 0
  ensure .assertion (slot < 288)
  pure (huff.symbols slot)

/-! ## Output -/

def emit (byte : Byte) : Inflate Unit := do
  let c ← get
  let pointer := if c.ring.pointer = 32768 then 0 else c.ring.pointer
  ensure .bounds (pointer < 32768)
  set { c with
    ring := ⟨pointer + 1, Function.update c.ring.data pointer byte⟩
    outputBuf := c.outputBuf ++ [byte] }

def peek (offset : ℕ) : Inflate Byte := do
  let c ← get
  pure (c.ring.data ((c.ring.pointer + wordSize - offset) % wordSize % 32768))

/-- The copying loop of `inflate`. -/
def copyMatch (offset : ℕ) : ℕ → Inflate Unit
  | 0 => pure ()
  | n + 1 => do
    let b ← peek offset
    emit b
    copyMatch offset n

/-! ## Blocks -/

/-- The copying loop of `uncompressed`. -/
def uncompressedLoop (p : Profile) : ℕ → Inflate Unit
  | 0 => pure ()
  | n + 1 => do
    let byte ← getBits p 8
    emit (BitVec.ofNat 8 byte)
    uncompressedLoop p n

def uncompressed (p : Profile) : Inflate Unit := do
  let len ← getBits p 16
  let nlen ← getBits p 16
  if nlen ≠ 65535 - len then throw .err else uncompressedLoop p len

def lengthBits : List ℕ :=
  [0, 0, 0, 0, 0, 0, 0, 0, 1, 1, 1, 1, 2, 2, 2, 2, 3, 3, 3, 3, 4, 4, 4, 4, 5, 5, 5, 5, 0, 127]

def lengthBase : List ℕ :=
  [3, 4, 5, 6, 7, 8, 9, 10, 11, 13, 15, 17, 19, 23, 27, 31, 35, 43, 51, 59, 67, 83, 99, 115, 131,
    163, 195, 227, 258, 0]

def distBits : List ℕ :=
  [0, 0, 0, 0, 1, 1, 2, 2, 3, 3, 4, 4, 5, 5, 6, 6, 7, 7, 8, 8, 9, 9, 10, 10, 11, 11, 12, 12, 13,
    13]

def distBase : List ℕ :=
  [1, 2, 3, 4, 5, 7, 9, 13, 17, 25, 33, 49, 65, 97, 129, 193, 257, 385, 513, 769, 1025, 1537, 2049,
    3073, 4097, 6145, 8193, 12289, 16385, 24577]

/-- One turn of the loop of `inflate`; false when it met the end of the block. -/
def inflateTurn (p : Profile) (huffLen huffDist : Huff) : Inflate Bool := do
  let symbol ← decode huffLen
  if symbol < 256 then
    emit (BitVec.ofNat 8 symbol)
    pure true
  else if symbol = 256 then
    pure false
  else
    let symbol := symbol - 257
    let lb ← index lengthBits symbol
    let lbase ← index lengthBase symbol
    let length ← getBitsBase p lb lbase
    let distance ← decode huffDist
    let db ← index distBits distance
    let dbase ← index distBase distance
    let offset ← getBitsBase p db dbase
    copyMatch offset length
    pure true

def inflateLoop (p : Profile) (huffLen huffDist : Huff) : ℕ → Inflate Unit
  | 0 => throw .fuel
  | turns + 1 => do
    let more ← inflateTurn p huffLen huffDist
    if more then inflateLoop p huffLen huffDist turns else pure ()

def inflate (p : Profile) (huffLen huffDist : Huff) : Inflate Unit := do
  let c ← get
  inflateLoop p huffLen huffDist (8 * c.inputBuf.length + 1)

def clens : List ℕ := [16, 17, 18, 0, 8, 7, 9, 6, 10, 5, 11, 4, 12, 3, 13, 2, 14, 1, 15]

/-- A write to the array `lengths`. -/
def setLength (lengths : List ℕ) (i v : ℕ) : Inflate (List ℕ) := fun s =>
  if i < lengths.length then .ok (lengths.set i v, s) else .error (.panic .bounds)

/-- The loop of `decode_huffman` that reads the lengths of the code-length code. -/
def readClens (p : Profile) : ℕ → ℕ → List ℕ → Inflate (List ℕ)
  | 0, _, lengths => pure lengths
  | n + 1, i, lengths => do
    let v ← getBits p 3
    let k ← index clens i
    let lengths ← setLength lengths k v
    readClens p n (i + 1) lengths

/-- The loop of `decode_huffman` that writes one run of lengths. -/
def fillLengths (rep : ℕ) : ℕ → ℕ → List ℕ → Inflate (List ℕ)
  | 0, _, lengths => pure lengths
  | n + 1, count, lengths => do
    let lengths ← setLength lengths count rep
    fillLengths rep n (count + 1) lengths

/-- What a run symbol (16, 17 or 18) repeats, and how often. With nothing before the first run the
subtraction `count - 1` overflows or, where that is not checked, leaves the array. -/
def readRun (p : Profile) (symbol count : ℕ) (lengths : List ℕ) : Inflate (ℕ × ℕ) :=
  if symbol = 16 then do
    ensure (if p = .dev then .overflow else .bounds) (count ≠ 0)
    let rep ← index lengths (count - 1)
    let length ← getBitsBase p 2 3
    pure (rep, length)
  else if symbol = 17 then do
    let length ← getBitsBase p 3 3
    pure (0, length)
  else do
    let length ← getBitsBase p 7 11
    pure (0, length)

/-- The loop of `decode_huffman` that decodes the code lengths. -/
def lengthsLoop (p : Profile) (codes : Huff) (total : ℕ) : ℕ → ℕ → List ℕ → Inflate (List ℕ)
  | 0, _, _ => throw .fuel
  | turns + 1, count, lengths =>
    if count < total then do
      let symbol ← decode codes
      if symbol < 16 then
        let lengths ← setLength lengths count symbol
        lengthsLoop p codes total turns (count + 1) lengths
      else if symbol < 19 then
        let run ← readRun p symbol count lengths
        let lengths ← fillLengths run.1 run.2 count lengths
        lengthsLoop p codes total turns (count + run.2) lengths
      else
        pure lengths
    else
      pure lengths

def decodeHuffman (p : Profile) : Inflate Unit := do
  let literals ← getBitsBase p 5 257
  let distances ← getBitsBase p 5 1
  let clengths ← getBitsBase p 4 4
  let lengths ← readClens p clengths 0 (List.replicate 320 0)
  let codes ← lift (buildHuffman lengths 19 .zero)
  let c ← get
  let lengths ← lengthsLoop p codes (literals + distances) (8 * c.inputBuf.length + 1) 0 lengths
  let huffLen ← lift (buildHuffman lengths literals .zero)
  let huffDist ← lift (buildHuffman (lengths.drop literals) distances .zero)
  inflate p huffLen huffDist

/-- The block loop of `decompress`. -/
def decompressLoop (p : Profile) (lengths dists : Huff) : ℕ → Inflate Unit
  | 0 => throw .fuel
  | turns + 1 => do
    let isFinal ← getBit
    let blockType ← getBits p 2
    if blockType = 0 then uncompressed p
    else if blockType = 1 then inflate p lengths dists
    else if blockType = 2 then decodeHuffman p
    else throw .err
    if isFinal then pure () else decompressLoop p lengths dists turns

def decompress (p : Profile) : Inflate (List Byte) := do
  let tables ← lift buildFixed
  let c ← get
  decompressLoop p tables.1 tables.2 (8 * c.inputBuf.length + 1)
  let c ← get
  pure c.outputBuf

/-! ## The zlib container -/

/-- The two sums of `adler32`, in its loop's order. -/
def adlerLoop : List Byte → ℕ → ℕ → ℕ × ℕ
  | [], a, b => (a, b)
  | byte :: rest, a, b =>
    let a := (a + byte.toNat) % 65521
    let b := (b + a) % 65521
    adlerLoop rest a b

/-- `u32::from_be` on a little-endian machine: the four bytes reversed. -/
def swapBytes (x : ℕ) : ℕ :=
  x % 256 * 2 ^ 24 + x / 2 ^ 8 % 256 * 2 ^ 16 + x / 2 ^ 16 % 256 * 2 ^ 8 + x / 2 ^ 24 % 256

def adler32 (bytes : List Byte) : ℕ :=
  let s := adlerLoop bytes 1 0
  swapBytes (s.2 <<< 16 ||| s.1)

/-- The header checks of `uncompress_data`. -/
def checkHeader (cmf flags : Byte) : Except Fault Unit :=
  if cmf &&& 0x0F#8 ≠ 0x08#8 then .error .err
  else if cmf >>> 4 &&& 0x0F#8 > 0x07#8 then .error .err
  else if (cmf.toNat * 256 + flags.toNat) % 31 ≠ 0 then .error .err
  else if flags >>> 5 &&& 0x01#8 ≠ 0#8 then .error .err
  else .ok ()

/-- The slice `&bytes[2..bytes.len() - 4]`. -/
def slicePayload (p : Profile) (bytes : List Byte) : Except Fault (List Byte) :=
  if p = .dev ∧ bytes.length < 4 then .error (.panic .overflow)
  else if bytes.length < 6 then .error (.panic .bounds)
  else .ok ((bytes.drop 2).take (bytes.length - 6))

def uncompressData (p : Profile) (bytes : List Byte) : Except Fault (List Byte) :=
  match bytes with
  | cmf :: flags :: _ :: _ => do
    checkHeader cmf flags
    let input ← slicePayload p bytes
    let (data, _) ← decompress p (.new input)
    let checksum := leNat (bytes.drop (bytes.length - 4))
    if adler32 data ≠ checksum then throw .err else pure data
  | _ => .error (.panic .assertion)

end CappuccinOS.Gzip
