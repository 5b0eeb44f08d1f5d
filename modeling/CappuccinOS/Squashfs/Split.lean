import CappuccinOS.Squashfs.ChunkReader

/-!
# Splitting is lossless

`ChunkReader::new` knows the size of a block from its header only, and stops when it has reached
the end of the data exactly. Here its input is any sequence of blocks that a header can describe,
empty ones included and whatever their bytes decompress to, and then any byte string.

1. `Frame` is a block as the table has it, with the flag and the bytes that follow its header.
2. `new_frames`: from the concatenated encodings of frames the frames come back, in order.
3. `new_ne_fuel` and `flatten_of_new`: on any byte string the loop ends, and what it returns is the
   input cut into pieces.
-/

namespace CappuccinOS.Squashfs

/-! ## Frames -/

/-- A block of a table: up to 32767 bytes, and whether they are compressed. -/
@[ext] structure Frame where
  payload : List Byte
  compressed : Bool
  payload_lt : payload.length < 2 ^ 15

namespace Frame

variable (f : Frame)

/-- The 16-bit header: the length, with the top bit set when the bytes are stored as they are. -/
def headerBits : ℕ := f.payload.length + if f.compressed then 0 else 2 ^ 15

def encode : List Byte := leBytes 2 f.headerBits ++ f.payload

/-- The block that the reader is to hold. -/
def chunk : Chunk := ⟨f.encode, by simp [encode]⟩

theorem headerBits_lt : f.headerBits < 2 ^ 16 := by
  have := f.payload_lt
  unfold headerBits
  split_ifs <;> omega

theorem header_chunk : f.chunk.header = f.headerBits := Chunk.header_eq rfl f.headerBits_lt

theorem len_chunk : f.chunk.len = f.payload.length := by
  have := f.payload_lt
  rw [Chunk.len_eq, header_chunk, headerBits]
  split_ifs <;> omega

theorem isCompressed_chunk : f.chunk.isCompressed = f.compressed := by
  have := f.payload_lt
  rw [Bool.eq_iff_iff, Chunk.isCompressed_iff, header_chunk, headerBits]
  split_ifs with h
  · exact iff_of_true (by omega) h
  · exact iff_of_false (by omega) h

theorem payload_chunk : f.chunk.data.drop headerSize = f.payload :=
  List.drop_left' (length_leBytes 2 _)

theorem length_data_chunk : f.chunk.data.length = f.chunk.len + headerSize := by
  rw [len_chunk]
  show (leBytes 2 f.headerBits ++ f.payload).length = _
  rw [List.length_append, length_leBytes, Nat.add_comm]

end Frame

/-- What a block of the reader says: its flag, and its bytes behind the header. -/
def Chunk.frame (c : Chunk) : List Byte × Bool := (c.data.drop headerSize, c.isCompressed)

theorem frame_chunk (f : Frame) : f.chunk.frame = (f.payload, f.compressed) := by
  unfold Chunk.frame
  rw [f.payload_chunk, f.isCompressed_chunk]

/-! ## From frames to blocks -/

theorem chunksFrom_frames (frames : List Frame) {fuel : ℕ}
    (hfuel : (frames.flatMap Frame.encode).length ≤ fuel) :
    chunksFrom fuel (frames.flatMap Frame.encode) = .ok (frames.map Frame.chunk) := by
  induction frames generalizing fuel with
  | nil => cases fuel <;> rfl
  | cons f frames ih =>
    have hsize : 2 ≤ f.encode.length := f.chunk.headerSize_le
    rw [List.flatMap_cons, List.length_append] at hfuel
    rw [List.flatMap_cons, List.map_cons]
    obtain ⟨fuel, rfl⟩ : ∃ n, fuel = n + 1 := Nat.exists_eq_succ_of_ne_zero (by omega)
    exact chunksFrom_append f.length_data_chunk (ih (by omega))

theorem new_frames (frames : List Frame) :
    ChunkReader.new (frames.flatMap Frame.encode) = .ok (frames.map Frame.chunk) :=
  chunksFrom_frames frames le_rfl

/-! ## Any byte string -/

/-- A turn takes two bytes or more, so that as many turns as there are bytes are enough. -/
theorem chunksFrom_ne_fuel {data : List Byte} {fuel : ℕ} (h : data.length ≤ fuel) :
    chunksFrom fuel data ≠ .error .fuel := by
  induction fuel generalizing data with
  | zero =>
    rw [List.eq_nil_of_length_eq_zero (Nat.le_zero.mp h), chunksFrom]
    simp
  | succ fuel ih =>
    cases data with
    | nil =>
      rw [chunksFrom]
      simp
    | cons b l =>
      unfold chunksFrom
      refine bind_ne_fuel (slice_ne_fuel _ _ _) fun header => ?_
      dsimp only
      split_ifs with hlen
      · refine bind_ne_fuel (ih ?_) fun rest => by simp
        have hhead : headerSize = 2 := rfl
        rw [List.length_cons] at h
        rw [List.length_drop, List.length_cons]
        omega
      · simp

theorem flatten_of_chunksFrom {data : List Byte} {fuel : ℕ} {chunks : List Chunk}
    (h : chunksFrom fuel data = .ok chunks) : (chunks.map Chunk.data).flatten = data := by
  induction fuel generalizing data chunks with
  | zero =>
    cases data with
    | nil =>
      rw [chunksFrom] at h
      cases h
      rfl
    | cons b l => cases h
  | succ fuel ih =>
    cases data with
    | nil =>
      rw [chunksFrom] at h
      cases h
      rfl
    | cons b l =>
      unfold chunksFrom at h
      obtain ⟨header, -, h⟩ := bind_eq_ok.mp h
      dsimp only at h
      split_ifs at h with hlen
      obtain ⟨rest, hrest, h⟩ := bind_eq_ok.mp h
      cases h
      -- the piece that is cut off, and what the later turns make of the rest
      rw [List.map_cons, List.flatten_cons, ih hrest, List.take_append_drop]

theorem new_ne_fuel (data : List Byte) : ChunkReader.new data ≠ .error .fuel :=
  chunksFrom_ne_fuel le_rfl

theorem flatten_of_new {data : List Byte} {chunks : List Chunk}
    (h : ChunkReader.new data = .ok chunks) : (chunks.map Chunk.data).flatten = data :=
  flatten_of_chunksFrom h

/-- The blocks of a table come back as they were encoded, and no byte string is cut with a loss. -/
theorem new_lossless :
    (∀ frames : List Frame, ∃ chunks,
      ChunkReader.new (frames.flatMap Frame.encode) = .ok chunks ∧
        chunks.map Chunk.data = frames.map Frame.encode ∧
        chunks.map Chunk.frame = frames.map fun f => (f.payload, f.compressed)) ∧
    ∀ data, ChunkReader.new data ≠ .error .fuel ∧
      ∀ chunks, ChunkReader.new data = .ok chunks → (chunks.map Chunk.data).flatten = data := by
  constructor
  · intro frames
    refine ⟨frames.map Frame.chunk, new_frames frames, ?_, ?_⟩
    · rw [List.map_map]
      rfl
    · rw [List.map_map]
      exact List.map_congr_left fun f _ => frame_chunk f
  · intro data
    exact ⟨new_ne_fuel data, fun chunks h => flatten_of_new h⟩

end CappuccinOS.Squashfs
