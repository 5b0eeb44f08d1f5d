import CappuccinOS.Squashfs.ChunkReader

/-!
# Addressing metadata blocks

`get_slice` finds the block at a byte of the table by adding up block lengths until the sum is that
byte. It adds the length of block 0 each time, whatever block it is at, and it takes this length
from the header that decompressing block 0 rewrites.

1. `exists_locate`, `locate_eq_ok`: where the sum of equal steps stops;
2. `pick_eq`: what is read when the blocks hold enough bytes;
3. `addressed_iff`: block `k` is found exactly when the blocks before it are as long as `k` times
   block 0;
4. `historyFree_iff`: the calls before do not matter exactly as long as block 0 keeps its length.
-/

namespace CappuccinOS.Squashfs

/-! ## The sum of lengths -/

section Locate

variable {p : Profile} {step chunk fuel idx total j m : ℕ}

theorem locate_of_mul (hstep : 0 < step) (hfuel : m < fuel)
    (hword : total + m * step < wordSize) :
    locate p step (total + m * step) fuel idx total = .ok (idx + m) := by
  induction m generalizing fuel idx total with
  | zero =>
    obtain ⟨fuel, rfl⟩ : ∃ n, fuel = n + 1 := ⟨fuel - 1, by omega⟩
    rw [locate, if_pos (by omega), Nat.add_zero]
  | succ m ih =>
    obtain ⟨fuel, rfl⟩ : ∃ n, fuel = n + 1 := ⟨fuel - 1, by omega⟩
    have hsum : total + (m + 1) * step = total + step + m * step := by ring
    have hmul : 0 ≤ m * step := Nat.zero_le _
    rw [hsum] at hword ⊢
    rw [locate, if_neg (by omega), Profile.add_of_lt p (by omega), arith_ok]
    simp only [bind, Except.bind]
    rw [ih (by omega) hword, Nat.add_right_comm, Nat.add_assoc]

/-- A search that ends has made some number of steps, up to the wrapping of the sum. -/
theorem locate_eq_ok (h : locate p step chunk fuel idx total = .ok j) (htotal : total < wordSize) :
    ∃ m, j = idx + m ∧ (total + m * step) % wordSize = chunk := by
  induction fuel generalizing idx total with
  | zero => cases h
  | succ fuel ih =>
    rw [locate] at h
    split_ifs at h with hstop
    · refine ⟨0, (Except.ok.inj h).symm, ?_⟩
      rw [Nat.zero_mul, Nat.add_zero, Nat.mod_eq_of_lt htotal, hstop]
    · obtain ⟨next, hnext, h⟩ := bind_eq_ok.mp h
      have hmod := Profile.eq_mod_of_add (arith_eq_ok.mp hnext)
      obtain ⟨m, rfl, hm⟩ := ih h (hmod ▸ Nat.mod_lt _ (by norm_num))
      refine ⟨m + 1, by omega, ?_⟩
      rw [← hm, hmod, Nat.mod_add_mod, Nat.succ_mul, Nat.add_comm (m * step), Nat.add_assoc]

end Locate

/-! ## What is read from a block on -/

section Pick

variable {p : Profile} {size offset n : ℕ} {q : List Byte} {qs : List (List Byte)}

theorem copyChunk_plain (hq : q.length < 2 ^ 15) (hoff : offset ≤ q.length) :
    copyChunk p size offset (.plain q) = .ok ((q.drop offset).take size) := by
  have hlen := Chunk.length_data_plain q
  have hdrop : (Chunk.plain q).data.drop (offset + headerSize) = q.drop offset := by
    unfold Chunk.plain
    rw [Nat.add_comm, ← length_leBytes headerSize, List.drop_length_add_append]
  unfold copyChunk blockEnd
  rw [Chunk.len_plain hq, Profile.sub_of_le p (by omega), arith_ok]
  simp only [bind, Except.bind, Nat.add_sub_add_right]
  split_ifs with hspan
  · rw [Profile.add_of_lt p (by unfold wordSize headerSize; omega), arith_ok]
    simp only []
    rw [slice_of_le (Nat.le_add_right _ _) (by omega), hdrop, Nat.add_sub_cancel_left]
  · simp only []
    rw [slice_of_le (by omega) hlen.ge, hdrop, Nat.add_sub_add_right,
      List.take_of_length_le (by rw [List.length_drop]), List.take_of_length_le
      (by rw [List.length_drop]; omega)]

/-- The blocks behind the first, each cut at the size asked for. -/
theorem pickBytes_zero (hqs : ∀ q ∈ qs, q.length < 2 ^ 15) (hn : n ≤ qs.length) :
    pickBytes p size 0 n qs = .ok ((qs.take n).map (List.take size)).flatten := by
  induction n generalizing qs with
  | zero => rfl
  | succ n ih =>
    cases qs with
    | nil => simp at hn
    | cons q qs =>
      have hrest := ih (fun q hq => hqs q (List.mem_cons_of_mem _ hq)) (by simpa using hn)
      simp only [pickBytes, copyChunk_plain (hqs q List.mem_cons_self) (Nat.zero_le _), hrest, bind,
        Except.bind, List.drop_zero, List.take_succ_cons, List.map_cons, List.flatten_cons]

theorem gatherCount_of_le {available : ℕ} (h : size ≤ available + qs.flatten.length) :
    ∃ n ≤ qs.length, gatherCount size available qs = .ok n := by
  induction qs generalizing available with
  | nil =>
    refine ⟨0, le_rfl, ?_⟩
    rw [gatherCount, if_neg (by simpa using h)]
  | cons q qs ih =>
    rw [gatherCount]
    split_ifs
    · rw [List.flatten_cons, List.length_append, ← Nat.add_assoc] at h
      obtain ⟨n, hn, hcount⟩ := ih h
      exact ⟨n + 1, by simpa using hn, by rw [hcount]; rfl⟩
    · exact ⟨0, Nat.zero_le _, rfl⟩

/-- The blocks counted are enough, and without the last of them they are not. -/
theorem gatherCount_eq_ok {available : ℕ} (h : gatherCount size available qs = .ok n) :
    n ≤ qs.length ∧ size ≤ available + (qs.take n).flatten.length ∧
      ∀ m < n, available + (qs.take m).flatten.length < size := by
  induction qs generalizing available n with
  | nil =>
    rw [gatherCount] at h
    split_ifs at h with hlt
    cases h
    simpa using hlt
  | cons q qs ih =>
    rw [gatherCount] at h
    split_ifs at h with hlt
    · obtain ⟨n, hn, h⟩ := bind_eq_ok.mp h
      cases h
      obtain ⟨hle, henough, hless⟩ := ih hn
      refine ⟨Nat.succ_le_succ hle, ?_, fun m hm => ?_⟩
      · rw [List.take_succ_cons, List.flatten_cons, List.length_append]
        omega
      · cases m with
        | zero => simpa using hlt
        | succ m =>
          have := hless m (Nat.lt_of_succ_lt_succ hm)
          rw [List.take_succ_cons, List.flatten_cons, List.length_append]
          omega
    · cases h
      simpa using hlt

theorem gatherCount_of_lt {available : ℕ} (h : available + qs.flatten.length < size) :
    gatherCount size available qs = .error (.panic .bounds) := by
  induction qs generalizing available with
  | nil => rw [gatherCount, if_pos (by simpa using h)]
  | cons q qs ih =>
    rw [List.flatten_cons, List.length_append, ← Nat.add_assoc] at h
    rw [gatherCount, if_pos (by omega), ih h]
    rfl

theorem pick_of_count (hq : q.length < 2 ^ 15) (hqs : ∀ q ∈ qs, q.length < 2 ^ 15)
    (hoff : offset ≤ q.length)
    (hcount : gatherCount size (q.length + headerSize - offset) qs = .ok n) :
    pick p offset size (q :: qs) =
      .ok (n + 1, (q.drop offset).take size ++ ((qs.take n).map (List.take size)).flatten) := by
  have hn := (gatherCount_eq_ok hcount).1
  rw [pick, if_pos (by omega), hcount]
  simp only [bind, Except.bind, pickBytes, copyChunk_plain hq hoff, pickBytes_zero hqs hn]

/-- A read that the blocks can answer; the header of the first block is counted as two bytes. -/
theorem pick_eq (hq : q.length < 2 ^ 15) (hqs : ∀ q ∈ qs, q.length < 2 ^ 15)
    (hoff : offset ≤ q.length)
    (hsize : size ≤ q.length + headerSize - offset + qs.flatten.length) :
    ∃ n ≤ qs.length, pick p offset size (q :: qs) =
      .ok (n + 1, (q.drop offset).take size ++ ((qs.take n).map (List.take size)).flatten) := by
  obtain ⟨n, hn, hcount⟩ := gatherCount_of_le hsize
  exact ⟨n, hn, pick_of_count hq hqs hoff hcount⟩

theorem pick_error (h : ((q :: qs).flatten.length + headerSize) < size + offset) :
    ∃ e, pick p offset size (q :: qs) = .error e := by
  rw [List.flatten_cons, List.length_append] at h
  rw [pick]
  split_ifs with hoff
  · rw [gatherCount_of_lt (by omega)]
    exact ⟨_, rfl⟩
  · exact ⟨_, rfl⟩

theorem pick_inside (hq : q.length < 2 ^ 15) (h : offset + size ≤ q.length) :
    pick p offset size (q :: qs) = .ok (1, (q.drop offset).take size) := by
  have hcount : gatherCount size (q.length + headerSize - offset) qs = .ok 0 := by
    cases qs <;> rw [gatherCount, if_neg (by omega)]
  rw [pick, if_pos (by omega), hcount]
  simp only [bind, Except.bind, pickBytes, copyChunk_plain hq (show offset ≤ q.length by omega),
    List.append_nil, Nat.zero_add]

theorem gatherCount_ne_fuel (size available : ℕ) (qs : List (List Byte)) :
    gatherCount size available qs ≠ .error .fuel := by
  induction qs generalizing available with
  | nil => rw [gatherCount]; split_ifs <;> simp
  | cons q qs ih =>
    rw [gatherCount]
    split_ifs
    · exact bind_ne_fuel (ih _) fun n => by simp
    · simp

theorem copyChunk_ne_fuel (p : Profile) (size offset : ℕ) (c : Chunk) :
    copyChunk p size offset c ≠ .error .fuel := by
  refine bind_ne_fuel (bind_ne_fuel (arith_ne_fuel _) fun span => ?_) fun stop =>
    slice_ne_fuel _ _ _
  split_ifs
  · exact arith_ne_fuel _
  · simp

theorem pickBytes_ne_fuel (p : Profile) (size offset n : ℕ) (qs : List (List Byte)) :
    pickBytes p size offset n qs ≠ .error .fuel := by
  induction n generalizing offset qs with
  | zero => simp [pickBytes]
  | succ n ih =>
    cases qs with
    | nil => simp [pickBytes]
    | cons q qs =>
      exact bind_ne_fuel (copyChunk_ne_fuel _ _ _ _) fun bytes =>
        bind_ne_fuel (ih 0 qs) fun rest => by simp

theorem pick_ne_fuel (p : Profile) (offset size : ℕ) (qs : List (List Byte)) :
    pick p offset size qs ≠ .error .fuel := by
  cases qs with
  | nil => simp [pick]
  | cons q qs =>
    rw [pick]
    split_ifs
    · exact bind_ne_fuel (gatherCount_ne_fuel _ _ _) fun n =>
        bind_ne_fuel (pickBytes_ne_fuel _ _ _ _ _) fun bytes => by simp
    · simp

end Pick

/-! ## Block starts -/

/-- The byte at which block `k` starts, from the stored lengths. -/
def startOf (lengths : List ℕ) (k : ℕ) : ℕ := ((lengths.take k).map (· + headerSize)).sum

/-- The stored lengths of blocks. -/
abbrev storedLengths {D : Decompressor} (blocks : List (MetaBlock D)) : List ℕ :=
  blocks.map fun b => b.stored.length

/-- `get_slice` returns these bytes. -/
def Returns (p : Profile) (D : Decompressor) (chunks : List Chunk) (chunk offset size : ℕ)
    (bytes : List Byte) : Prop :=
  ∃ fuel chunks', getSlice p D fuel chunks chunk offset size = .ok (bytes, chunks')

/-- Block `k` of every table with these stored lengths is found: the search for its start ends, and
what is read there starts with the payload of the block. -/
def Addressed (p : Profile) (lengths : List ℕ) (k : ℕ) : Prop :=
  ∀ (D : Decompressor) (blocks : List (MetaBlock D)), storedLengths blocks = lengths →
    ∃ chunks, ChunkReader.new (encode blocks) = .ok chunks ∧ ∀ offset size,
      (∃ fuel, getSlice p D fuel chunks (startOf lengths k) offset size ≠ .error .fuel) ∧
      ∀ q, (payloads blocks)[k]? = some q → offset < q.length →
        offset + size ≤ ((payloads blocks).drop k).flatten.length →
        ∃ bytes, Returns p D chunks (startOf lengths k) offset size bytes ∧
          bytes.take (min size (q.length - offset)) =
            (q.drop offset).take (min size (q.length - offset))

section Addressed

variable {p : Profile} {D : Decompressor} {blocks : List (MetaBlock D)} {chunks : List Chunk}
variable {lengths : List ℕ} {k : ℕ}

theorem returns_iff (h : Holds blocks chunks) {chunk offset size : ℕ} {bytes : List Byte} :
    Returns p D chunks chunk offset size bytes ↔
      ∃ fuel i n, chunkIndex p fuel chunks chunk = .ok i ∧
      pick p offset size ((payloads blocks).drop i) = .ok (n, bytes) := by
  unfold Returns
  simp only [getSlice_eq h, bind_eq_ok, map_eq_ok]
  constructor
  · rintro ⟨fuel, chunks', i, hi, ⟨n, bytes'⟩, hpick, heq⟩
    cases heq
    exact ⟨fuel, i, n, hi, hpick⟩
  · rintro ⟨fuel, i, n, hi, hpick⟩
    exact ⟨fuel, _, i, hi, (n, bytes), hpick, rfl⟩

theorem three_mul_le_startOf (hpos : ∀ s ∈ lengths, 1 ≤ s) (hk : k ≤ lengths.length) :
    3 * k ≤ startOf lengths k := by
  unfold startOf
  have h := List.card_nsmul_le_sum ((lengths.take k).map (· + headerSize)) 3 fun n hn => by
    obtain ⟨s, hs, rfl⟩ := List.mem_map.mp hn
    have := hpos s (List.mem_of_mem_take hs)
    show 3 ≤ s + 2
    omega
  rwa [List.length_map, List.length_take, min_eq_left hk, smul_eq_mul, mul_comm] at h

theorem chunkIndex_fresh (hk : 0 < blocks.length) (fuel chunk : ℕ) :
    chunkIndex p fuel (fresh blocks) chunk =
      locate p (blocks[0].stored.length + headerSize) chunk fuel 0 0 := by
  cases blocks with
  | nil => simp at hk
  | cons b blocks => simp only [chunkIndex, fresh, List.map_cons, b.len_encode,
      List.getElem_cons_zero]

theorem addressed_of_eq (hk : k < lengths.length) (hstart : startOf lengths k < wordSize)
    (heq : startOf lengths k = k * (lengths[0] + headerSize)) : Addressed p lengths k := by
  intro D blocks hlengths
  subst hlengths
  have hkb : k < blocks.length := by simpa using hk
  have hindex : chunkIndex p (k + 1) (fresh blocks) (startOf (storedLengths blocks) k) = .ok k := by
    have hfound := @locate_of_mul p (blocks[0].stored.length + headerSize) (k + 1) 0 0 k
      (Nat.add_pos_right _ (by decide)) (Nat.lt_succ_self k)
    simp only [List.getElem_map] at heq
    rw [chunkIndex_fresh (by omega), heq]
    simpa only [Nat.zero_add] using hfound (by rw [Nat.zero_add, ← heq]; exact hstart)
  refine ⟨fresh blocks, new_encode blocks, fun offset size => ⟨⟨k + 1, ?_⟩, ?_⟩⟩
  · rw [getSlice_eq (holds_fresh blocks), hindex]
    refine bind_ne_fuel (by simp) fun i => ?_
    have hpick := pick_ne_fuel p offset size ((payloads blocks).drop i)
    cases h : pick p offset size ((payloads blocks).drop i) with
    | error e => rw [h] at hpick; simpa [Except.map] using hpick
    | ok r => simp [Except.map]
  · intro q hq hoff hsize
    obtain ⟨hlt, rfl⟩ := List.getElem?_eq_some_iff.mp hq
    have hsmall : ∀ q ∈ payloads blocks, q.length < 2 ^ 15 := by
      intro q hq
      obtain ⟨b, -, rfl⟩ := List.mem_map.mp hq
      exact b.payload_lt
    have hdrop := List.drop_eq_getElem_cons hlt
    rw [hdrop, List.flatten_cons, List.length_append] at hsize
    obtain ⟨n, -, hpick⟩ := pick_eq (p := p) (hsmall _ (List.getElem_mem hlt))
      (fun q hq => hsmall q (List.mem_of_mem_drop hq)) hoff.le
      (show size ≤
        _ + headerSize - offset + ((payloads blocks).drop (k + 1)).flatten.length by omega)
    rw [← hdrop] at hpick
    refine ⟨_, (returns_iff (holds_fresh blocks)).mpr ⟨k + 1, k, n + 1, hindex, hpick⟩, ?_⟩
    rw [List.take_append_of_le_length (by rw [List.length_take, List.length_drop]),
      List.take_take, min_eq_left (min_le_left _ _)]

/-- Blocks of given stored lengths, each with one byte of payload. -/
theorem exists_blocks (hpos : ∀ s ∈ lengths, 1 ≤ s ∧ s < 2 ^ 15) (f : ℕ → Byte) :
    ∃ blocks : List (MetaBlock fun z => .ok (z.take 1)), storedLengths blocks = lengths ∧
      payloads blocks = (List.range lengths.length).map fun i => [f i] := by
  induction lengths generalizing f with
  | nil => exact ⟨[], rfl, rfl⟩
  | cons s lengths ih =>
    obtain ⟨blocks, hlengths, hpayloads⟩ := ih (fun s hs => hpos s (List.mem_cons_of_mem _ hs))
      (fun i => f (i + 1))
    obtain ⟨hs, hlt⟩ := hpos s List.mem_cons_self
    let b : MetaBlock fun z => .ok (z.take 1) :=
      { stored := List.replicate s (f 0), compressed := true, payload := [f 0]
        stored_lt := by simpa using hlt, payload_pos := le_rfl, payload_le := by simp
        decodes := by rw [if_pos rfl, List.take_replicate, min_eq_left hs]; rfl }
    refine ⟨b :: blocks, ?_, ?_⟩
    · simp [b, hlengths]
    · rw [List.length_cons, List.range_succ_eq_map, List.map_cons, List.map_map]
      exact congrArg (List.cons [f 0]) hpayloads

/-- Block `k` is found exactly when the blocks before it take as many bytes as `k` times block 0. -/
theorem addressed_iff (hpos : ∀ s ∈ lengths, 1 ≤ s ∧ s < 2 ^ 15) (hk : k < lengths.length)
    (hstart : startOf lengths k < 2 ^ 48) :
    Addressed p lengths k ↔ startOf lengths k = k * (lengths[0] + headerSize) := by
  constructor
  · intro h
    -- in a table where only block `k` holds a 1, the search must end at block `k`
    obtain ⟨blocks, hlengths, hpayloads⟩ := exists_blocks hpos fun i => if i = k then 1 else 0
    obtain ⟨chunks, hnew, hread⟩ := h _ blocks hlengths
    obtain rfl := Except.ok.inj (hnew.symm.trans (new_encode blocks))
    have hq : (payloads blocks)[k]? = some [1] := by
      rw [hpayloads, List.getElem?_map, List.getElem?_range hk, Option.map_some, if_pos rfl]
    obtain ⟨hlt, hqk⟩ := List.getElem?_eq_some_iff.mp hq
    obtain ⟨bytes, hreturns, hbytes⟩ := (hread 0 1).2 [1] hq (by simp) (by
      rw [List.drop_eq_getElem_cons hlt, hqk]
      simp)
    obtain ⟨fuel, i, n, hi, hpick⟩ := (returns_iff (holds_fresh blocks)).mp hreturns
    obtain rfl : i = k := by
      by_cases hil : i < lengths.length
      · have hcell : (payloads blocks).drop i =
            [if i = k then 1 else 0] :: (payloads blocks).drop (i + 1) := by
          rw [List.drop_eq_getElem_cons (by rw [hpayloads]; simpa using hil)]
          simp [hpayloads]
        rw [hcell, pick_inside (by norm_num) (by simp)] at hpick
        cases hpick
        by_contra hne
        simp [hne] at hbytes
      · rw [List.drop_eq_nil_of_le (by rw [hpayloads]; simpa using hil)] at hpick
        cases hpick
    have hblocks : 0 < blocks.length := by
      have := congrArg List.length hlengths
      rw [List.length_map] at this
      omega
    rw [chunkIndex_fresh hblocks] at hi
    obtain ⟨m, hkm, hm⟩ := locate_eq_ok hi (by norm_num)
    rw [Nat.zero_add] at hkm hm
    subst hkm
    have hstep : lengths[0] = blocks[0].stored.length := by
      simp [← hlengths]
    have hfirst := (hpos lengths[0] (List.getElem_mem _)).2
    have hmul : i * (lengths[0] + headerSize) < wordSize := by
      have hcount := three_mul_le_startOf (fun s hs => (hpos s hs).1) hk.le
      calc i * (lengths[0] + headerSize) ≤ 2 ^ 48 * (2 ^ 15 + 1) :=
            Nat.mul_le_mul (by omega) (by unfold headerSize; omega)
        _ < wordSize := by norm_num
    rw [← hstep, Nat.mod_eq_of_lt hmul] at hm
    exact hm.symm
  · exact addressed_of_eq hk (hstart.trans (by norm_num))

end Addressed

/-- The third block of three equal ones. -/
theorem addressed_third_of_equal : Addressed .dev [2, 2, 2] 2 :=
  (addressed_iff (by decide) (by decide) (by decide)).mpr (by decide)

/-- A block of the given bytes that is not compressed. -/
def storedBlock (D : Decompressor) (bytes : List Byte) (hpos : 1 ≤ bytes.length)
    (hle : bytes.length ≤ 8192) : MetaBlock D :=
  ⟨bytes, false, bytes, by omega, hpos, hle, rfl⟩

theorem pos_length_pair : 1 ≤ ([1, 2] : List Byte).length := by decide

theorem length_pair_le : ([1, 2] : List Byte).length ≤ 8192 := by decide

/-- Three blocks of two, one and one bytes. -/
def unequalBlocks : List (MetaBlock fun _ => .error .err) :=
  [storedBlock _ [1, 2] pos_length_pair length_pair_le, storedBlock _ [3] (by decide) (by decide),
    storedBlock _ [4] (by decide) (by decide)]

theorem locate_release_never {fuel idx total : ℕ} (h : total % 4 = 0) :
    locate .release 4 7 fuel idx total = .error .fuel := by
  induction fuel generalizing idx total with
  | zero => rfl
  | succ fuel ih =>
    rw [locate, if_neg (by omega)]
    by_cases hlt : total + 4 < wordSize
    · rw [Profile.add_of_lt _ hlt, arith_ok]
      exact ih (by omega)
    · rw [Profile.add_release_of_le (by omega), arith_ok]
      exact ih (by unfold wordSize; omega)

/-- The search for the third of these blocks does not end. -/
theorem third_block_not_found :
    startOf (storedLengths unequalBlocks) 2 = 7 ∧
      ∃ chunks, ChunkReader.new (encode unequalBlocks) = .ok chunks ∧
        ∀ fuel, getSlice .release (fun _ => .error .err) fuel chunks 7 0 1 = .error .fuel := by
  refine ⟨by decide, fresh unequalBlocks, new_encode _, fun fuel => ?_⟩
  rw [getSlice_eq (holds_fresh unequalBlocks), chunkIndex_fresh (by decide)]
  have hnever := @locate_release_never fuel 0 0 rfl
  exact congrArg (· >>= _) hnever

/-! ## Histories -/

/-- The states of a reader after calls that returned. -/
inductive Reached (p : Profile) (D : Decompressor) (start : List Chunk) : List Chunk → Prop
  | refl : Reached p D start start
  | call {chunks chunks' : List Chunk} {fuel chunk offset size : ℕ} {bytes : List Byte}
      (before : Reached p D start chunks)
      (hget : getSlice p D fuel chunks chunk offset size = .ok (bytes, chunks')) :
      Reached p D start chunks'

section History

variable {p : Profile} {D : Decompressor} {blocks : List (MetaBlock D)} {chunks : List Chunk}

theorem Reached.holds (h : Reached p D (fresh blocks) chunks) : Holds blocks chunks := by
  induction h with
  | refl => exact holds_fresh blocks
  | call _ hget ih => exact holds_getSlice ih hget

/-- Reads at block starts give what they give on a reader that has not been used. -/
def HistoryFree (p : Profile) (blocks : List (MetaBlock D)) (chunks : List Chunk) : Prop :=
  ∀ k < blocks.length, ∀ offset size bytes,
    Returns p D chunks (startOf (storedLengths blocks) k) offset size bytes ↔
      Returns p D (fresh blocks) (startOf (storedLengths blocks) k) offset size bytes

/-- Block 0 has the length it has in the table: it has not been decompressed, or decompressing it
keeps its length. With one block its length is not asked for. -/
def FirstKept (blocks : List (MetaBlock D)) (chunks : List Chunk) : Prop :=
  blocks.length ≤ 1 ∨ ∀ b ∈ blocks.head?, ∀ c ∈ chunks.head?,
    c = b.encode ∨ b.payload.length = b.stored.length

theorem getSlice_zero {b : MetaBlock D} {fuel offset size : ℕ} (h : Holds (b :: blocks) chunks)
    (hin : offset + size ≤ b.payload.length) :
    getSlice p D (fuel + 1) chunks 0 offset size =
      .ok ((b.payload.drop offset).take size, unpacked 1 (b :: blocks) chunks) := by
  rw [getSlice_eq h]
  have hpick := @pick_inside p size offset b.payload (payloads blocks) b.payload_lt hin
  cases h with
  | cons hb hrest =>
    simp only [chunkIndex, locate, if_true, bind, Except.bind, List.drop_zero, List.map_cons, hpick,
      Except.map, List.take_zero, List.nil_append]

theorem length_flatten_drop_le (n : ℕ) (qs : List (List Byte)) :
    (qs.drop n).flatten.length ≤ qs.flatten.length := by
  have h := congrArg (fun l => (List.flatten l).length) (List.take_append_drop n qs)
  simp only [List.flatten_append, List.length_append] at h
  omega

theorem historyFree_of_chunkIndex (h : Holds blocks chunks)
    (hindex : ∀ k < blocks.length, ∀ fuel,
      chunkIndex p fuel chunks (startOf (storedLengths blocks) k) =
        chunkIndex p fuel (fresh blocks) (startOf (storedLengths blocks) k)) :
    HistoryFree p blocks chunks := by
  intro k hk offset size bytes
  simp only [returns_iff h, returns_iff (holds_fresh blocks), hindex k hk]

theorem chunkIndex_zero (p : Profile) (fuel : ℕ) (c c' : Chunk) (cs cs' : List Chunk) :
    chunkIndex p fuel (c :: cs) 0 = chunkIndex p fuel (c' :: cs') 0 := by
  cases fuel <;> rfl

/-- Decompressing block 0 with a change of its length hides block 1. -/
theorem not_historyFree {b b' : MetaBlock D} {cs : List Chunk}
    (h : Holds (b :: b' :: blocks) (.plain b.payload :: cs))
    (hne : b.payload.length ≠ b.stored.length) :
    ¬ HistoryFree p (b :: b' :: blocks) (.plain b.payload :: cs) := by
  intro hfree
  have hsmall : ∀ q ∈ payloads blocks, q.length < 2 ^ 15 := by
    intro q hq
    obtain ⟨b, -, rfl⟩ := List.mem_map.mp hq
    exact b.payload_lt
  have hword := b.stored_lt
  have hpay := b.payload_lt
  have hstart : startOf (storedLengths (b :: b' :: blocks)) 1 = b.stored.length + headerSize := by
    simp [startOf]
  -- the request for all the bytes from block 1 on, and for two more
  obtain ⟨n, -, hpick⟩ := @pick_eq p
      (b'.payload.length + headerSize + (payloads blocks).flatten.length)
    0 b'.payload (payloads blocks) b'.payload_lt hsmall (Nat.zero_le _) le_rfl
  have hone : chunkIndex p 2 (fresh (b :: b' :: blocks))
      (startOf (storedLengths (b :: b' :: blocks)) 1) = .ok 1 := by
    have hfound := @locate_of_mul p (b.stored.length + headerSize) 2 0 0 1
      (Nat.add_pos_right _ (by decide)) (by decide) (by unfold headerSize wordSize; omega)
    rw [chunkIndex_fresh (by simp), hstart]
    simpa only [Nat.zero_add, Nat.one_mul, List.getElem_cons_zero] using hfound
  have hfresh := (returns_iff (holds_fresh (b :: b' :: blocks))).mpr ⟨2, 1, n + 1, hone, hpick⟩
  obtain ⟨fuel, i, n', hi, hpick'⟩ := (returns_iff h).mp ((hfree 1 (by simp) _ _ _).mpr hfresh)
  -- the new length of block 0 leads past block 1, where the table has fewer bytes
  rw [chunkIndex, hstart, Chunk.len_plain hpay] at hi
  obtain ⟨m, hm, hmod⟩ := locate_eq_ok hi (by norm_num)
  rw [Nat.zero_add] at hm hmod
  subst hm
  have htwo : 2 ≤ i := by
    by_contra hlt
    obtain rfl | rfl : i = 0 ∨ i = 1 := by omega
    · simp [headerSize] at hmod
    · rw [Nat.one_mul, Nat.mod_eq_of_lt (by unfold headerSize wordSize; omega)] at hmod
      omega
  obtain ⟨j, rfl⟩ : ∃ j, i = j + 2 := ⟨i - 2, by omega⟩
  have hfew := length_flatten_drop_le j (payloads blocks)
  have hpos := b'.payload_pos
  have hpast : (payloads (b :: b' :: blocks)).drop (j + 2) = (payloads blocks).drop j := rfl
  rw [hpast] at hpick'
  cases hdrop : (payloads blocks).drop j with
  | nil => rw [hdrop] at hpick'; cases hpick'
  | cons q qs =>
    rw [hdrop] at hpick' hfew
    obtain ⟨e, herror⟩ := @pick_error p (b'.payload.length + headerSize +
      (payloads blocks).flatten.length) 0 q qs (by omega)
    rw [herror] at hpick'
    cases hpick'

/-- The calls before do not matter exactly as long as block 0 keeps its length. -/
theorem historyFree_iff (h : Reached p D (fresh blocks) chunks) :
    HistoryFree p blocks chunks ↔ FirstKept blocks chunks := by
  have hholds := h.holds
  constructor
  · intro hfree
    match blocks, chunks, hholds with
    | [], _, _ => exact .inl (by simp)
    | [b], _, _ => exact .inl (by simp)
    | b :: b' :: blocks, c :: cs, .cons hb hrest =>
      refine .inr ?_
      simp only [List.head?_cons, Option.mem_some_iff, forall_eq']
      obtain hc | rfl := hb
      · exact .inl hc
      · by_contra hne
        exact not_historyFree (.cons (.inr rfl) hrest) (not_or.mp hne).2 hfree
  · rintro (hone | hkept)
    · refine historyFree_of_chunkIndex hholds fun k hk fuel => ?_
      obtain rfl : k = 0 := by omega
      match blocks, chunks, hholds with
      | b :: blocks, c :: cs, _ => exact chunkIndex_zero p fuel _ _ _ _
    · refine historyFree_of_chunkIndex hholds fun k hk fuel => ?_
      match blocks, chunks, hholds with
      | b :: blocks, c :: cs, .cons hb _ =>
        have hlen : c.len = b.encode.len := by
          obtain rfl | heq := hkept b rfl c rfl
          · rfl
          · obtain hlen | hlen := hb.len <;> rw [b.len_encode, hlen]
            exact heq
        simp only [chunkIndex, fresh, List.map_cons, hlen]

end History

/-- A block of one byte that stands for three, and a block that is not compressed. -/
def growingBlocks : List (MetaBlock fun _ => .ok [1, 2, 3]) :=
  [⟨[0], true, [1, 2, 3], by decide, by decide, by decide, rfl⟩,
    storedBlock _ [7] (by decide) (by decide)]

theorem growing_second_index : chunkIndex .dev 2 (fresh growingBlocks) 3 = .ok 1 := by
  rw [chunkIndex_fresh (by decide)]
  have hfound := @locate_of_mul .dev 3 2 0 0 1 (by decide) (by decide) (by decide)
  exact hfound

/-- The state of that reader once block 0 has been read. -/
def grownChunks : List Chunk := unpacked 1 growingBlocks (fresh growingBlocks)

/-- The length of the decompressed block 0 does not lead to block 1. -/
theorem grown_index {fuel i : ℕ} (hi : chunkIndex .dev fuel grownChunks 3 = .ok i) : 2 ≤ i := by
  have hstate : grownChunks = .plain [1, 2, 3] :: (fresh growingBlocks).drop 1 := rfl
  rw [hstate, chunkIndex, Chunk.len_plain (by decide)] at hi
  obtain ⟨m, hm, hmod⟩ := locate_eq_ok hi (by norm_num)
  by_contra hlt
  obtain rfl | rfl : m = 0 ∨ m = 1 := by omega
  · cases hmod
  · cases hmod

/-- After a read of block 0, block 1 cannot be read any more. -/
theorem second_block_lost :
    Reached .dev (fun _ => .ok [1, 2, 3]) (fresh growingBlocks) grownChunks ∧
      startOf (storedLengths growingBlocks) 1 = 3 ∧
      Returns .dev (fun _ => .ok [1, 2, 3]) (fresh growingBlocks) 3 0 1 [7] ∧
      ¬ Returns .dev (fun _ => .ok [1, 2, 3]) grownChunks 3 0 1 [7] := by
  have hheld : Holds growingBlocks grownChunks := holds_unpacked (holds_fresh growingBlocks) 1
  have hcall := @getSlice_zero .dev _ _ _ _ 0 0 1 (holds_fresh growingBlocks) (by decide)
  refine ⟨.call .refl hcall, by decide, ?_, ?_⟩
  · refine (returns_iff (holds_fresh growingBlocks)).mpr ⟨2, 1, 1, growing_second_index, ?_⟩
    exact pick_inside (by decide) (by decide)
  · intro h
    obtain ⟨fuel, i, n, hi, hpick⟩ := (returns_iff hheld).mp h
    have hpast : (payloads growingBlocks).drop i = [] := List.drop_eq_nil_of_le (grown_index hi)
    rw [hpast] at hpick
    cases hpick

/-- After a read of block 0 that is not compressed, all is as before. -/
theorem historyFree_of_stored_first :
    ∃ chunks, getSlice .dev (fun _ => .error .err) 1 (fresh unequalBlocks) 0 0 1 =
        .ok ([1], chunks) ∧
      HistoryFree .dev unequalBlocks chunks := by
  have hget := @getSlice_zero .dev _ _ _ _ 0 0 1 (holds_fresh unequalBlocks) (by decide)
  exact ⟨_, hget, (historyFree_iff (.call .refl hget)).mpr (.inr fun b hb c hc => .inr (by
    cases hb; rfl))⟩

end CappuccinOS.Squashfs
