import CappuccinOS.Squashfs.Address

/-!
# Slices that span metadata blocks

`get_slice` decides how many blocks it needs in one loop and copies them in another. The first loop
counts the header of the first block as two bytes of payload; the second cuts every block at the
size asked for, not at what is left of it.

1. `flatten_take`: a run of blocks that are not cut;
2. `pick_of_stop`, `stop_of_length`: which slices come out as long as asked for;
3. `pick_of_readsTo`: which slices begin with the bytes asked for;
4. `sliced_iff`: a slice is right exactly when it lies inside the first block, or ends with a block
   of more than two bytes.
-/

namespace CappuccinOS.Squashfs

/-- `get_slice` at the first block returns the bytes asked for. -/
def Sliced (p : Profile) (D : Decompressor) (chunks : List Chunk) (qs : List (List Byte))
    (offset size : ℕ) : Prop :=
  Returns p D chunks 0 offset size ((qs.flatten.drop offset).take size)

/-- Where `get_slice` may stop: inside the first block, or at the end of a later block that is
longer than a header. -/
def StopsWell (q : List Byte) (qs : List (List Byte)) (stop : ℕ) : Prop :=
  stop ≤ q.length ∨ ∃ before last after, qs = before ++ last :: after ∧ headerSize < last.length ∧
    stop = (q :: before ++ [last]).flatten.length

/-- Where a slice may stop for all its bytes to be read: inside the first block, or inside a later
block, behind its second byte. -/
def ReadsTo (q : List Byte) (qs : List (List Byte)) (stop : ℕ) : Prop :=
  stop ≤ q.length ∨ ∃ before last after, qs = before ++ last :: after ∧
    (q :: before).flatten.length + headerSize < stop ∧
    stop ≤ (q :: before ++ [last]).flatten.length

/-! ## Runs of blocks -/

section Runs

variable {size : ℕ} {qs : List (List Byte)}

/-- Blocks that hold together no more than `size` bytes are not cut. -/
theorem flatten_take (h : qs.flatten.length ≤ size) :
    (qs.map (List.take size)).flatten = qs.flatten := by
  have hmap : qs.map (List.take size) = qs.map id := by
    apply List.map_congr_left
    intro q hq
    have hle : q.length ≤ qs.flatten.length := (List.sublist_flatten_of_mem hq).length_le
    exact List.take_of_length_le (hle.trans h)
  rw [hmap, List.map_id]

theorem length_flatten_take_mono (qs : List (List Byte)) {m n : ℕ} (h : m ≤ n) :
    (qs.take m).flatten.length ≤ (qs.take n).flatten.length := by
  have hprefix := (List.take_prefix_take_left h (l := qs)).flatten
  exact hprefix.length_le

end Runs

/-! ## Slices that are right -/

section Sliced

variable {p : Profile} {size offset n : ℕ} {q : List Byte} {qs : List (List Byte)}

/-- One block fewer than those up to `last` is too few even with the header counted. -/
theorem gatherCount_of_last {before after : List (List Byte)} {last : List Byte}
    (hoff : offset ≤ q.length) (hmore : (q :: before).flatten.length + headerSize < offset + size)
    (hstop : offset + size ≤ (q :: before ++ [last]).flatten.length) :
    gatherCount size (q.length + headerSize - offset) (before ++ last :: after) =
      .ok (before.length + 1) := by
  rw [List.flatten_cons, List.length_append] at hmore
  have hrun : (before ++ last :: after).take (before.length + 1) = before ++ [last] := by
    rw [show before ++ last :: after = (before ++ [last]) ++ after by simp,
      List.take_left' (by simp)]
  have hsum : offset + size ≤ q.length + (before.flatten.length + last.length) := by
    simpa using hstop
  have hflat : (before ++ [last]).flatten.length = before.flatten.length + last.length := by simp
  obtain ⟨n, -, hcount⟩ := gatherCount_of_le
    (show size ≤ q.length + headerSize - offset + (before ++ last :: after).flatten.length by
      simp only [List.flatten_append, List.flatten_cons, List.length_append]
      omega)
  obtain ⟨-, henough, hless⟩ := gatherCount_eq_ok hcount
  have hn : n = before.length + 1 := by
    rcases Nat.lt_trichotomy n (before.length + 1) with hlt | heq | hgt
    · have hmono := length_flatten_take_mono (before ++ last :: after) (Nat.le_of_lt_succ hlt)
      rw [List.take_left] at hmono
      omega
    · exact heq
    · have henough' := hless (before.length + 1) hgt
      rw [hrun] at henough'
      omega
  rw [hcount, hn]

/-- A run of blocks behind the first, the last of them longer than a header, is what is read when
the slice ends with it. -/
theorem pick_of_stop {before after : List (List Byte)} {last : List Byte}
    (hq : q.length < 2 ^ 15) (hqs : ∀ q ∈ before ++ last :: after, q.length < 2 ^ 15)
    (hoff : offset ≤ q.length) (hlast : headerSize < last.length)
    (hstop : offset + size = (q :: before ++ [last]).flatten.length) :
    ∃ n, pick p offset size (q :: (before ++ last :: after)) =
      .ok (n, q.drop offset ++ (before ++ [last]).flatten) := by
  have hsum : offset + size = q.length + (before.flatten.length + last.length) := by
    simpa using hstop
  have hrun : (before ++ last :: after).take (before.length + 1) = before ++ [last] := by
    rw [show before ++ last :: after = (before ++ [last]) ++ after by simp,
      List.take_left' (by simp)]
  have hflat : (before ++ [last]).flatten.length = before.flatten.length + last.length := by simp
  have hcount : gatherCount size (q.length + headerSize - offset) (before ++ last :: after) =
      .ok (before.length + 1) :=
    gatherCount_of_last hoff (by rw [List.flatten_cons, List.length_append]; omega) hstop.le
  refine ⟨before.length + 1 + 1, ?_⟩
  rw [pick_of_count hq hqs hoff hcount, hrun, flatten_take (by omega),
    List.take_of_length_le (by rw [List.length_drop]; omega)]

/-- What is read of such a slice begins with the bytes asked for. -/
theorem pick_of_readsTo (hq : q.length < 2 ^ 15) (hqs : ∀ q ∈ qs, q.length < 2 ^ 15)
    (hoff : offset ≤ q.length) (h : ReadsTo q qs (offset + size)) :
    ∃ n data, pick p offset size (q :: qs) = .ok (n + 1, data) ∧
      data.take size = ((q :: qs).flatten.drop offset).take size := by
  obtain hin | ⟨before, last, after, rfl, hmore, hstop⟩ := h
  · refine ⟨0, _, pick_inside hq hin, ?_⟩
    rw [List.take_take, min_self, List.flatten_cons, List.drop_append_of_le_length hoff,
      List.take_append_of_le_length (by rw [List.length_drop]; omega)]
  · have hcount := @gatherCount_of_last size offset q before after last hoff hmore hstop
    have hrun : (before ++ last :: after).take (before.length + 1) = before ++ [last] := by
      rw [show before ++ last :: after = (before ++ [last]) ++ after by simp,
        List.take_left' (by simp)]
    refine ⟨before.length + 1, _, pick_of_count hq hqs hoff hcount, ?_⟩
    rw [List.flatten_cons, List.length_append] at hmore
    have hlast : offset + size ≤ q.length + before.flatten.length + last.length := by
      simpa [Nat.add_assoc] using hstop
    -- the blocks before the last are not cut, and what is cut off the last is not asked for
    have hfront : (q.drop offset ++ before.flatten).length =
        q.length - offset + before.flatten.length := by
      rw [List.length_append, List.length_drop]
    have hread : (q.drop offset).take size ++ ((before ++ [last]).map (List.take size)).flatten =
        (q.drop offset ++ before.flatten) ++ last.take size := by
      rw [List.map_append, List.flatten_append, flatten_take (by omega), List.map_singleton,
        List.flatten_singleton, List.take_of_length_le (by rw [List.length_drop]; omega),
        List.append_assoc]
    have hthere : (q :: (before ++ last :: after)).flatten.drop offset =
        (q.drop offset ++ before.flatten) ++ (last ++ after.flatten) := by
      rw [List.flatten_cons, List.drop_append_of_le_length hoff, List.flatten_append,
        List.flatten_cons, List.append_assoc]
    rw [hrun, hread, hthere]
    generalize q.drop offset ++ before.flatten = front at hfront
    rw [List.take_append, List.take_append, List.take_take, min_eq_left (Nat.sub_le _ _),
      List.take_append_of_le_length (by omega)]

/-- A slice that is as long as asked for, and goes on behind the first block, ends with a block that
is longer than a header. -/
theorem stop_of_length (hoff : offset < q.length) (hlong : q.length < offset + size)
    (hcount : gatherCount size (q.length + headerSize - offset) qs = .ok n)
    (hlength : ((q.drop offset).take size ++
      ((qs.take n).map (List.take size)).flatten).length = size) :
    ∃ before last after, qs = before ++ last :: after ∧ headerSize < last.length ∧
      offset + size = (q :: before ++ [last]).flatten.length := by
  obtain ⟨hn, henough, hless⟩ := gatherCount_eq_ok hcount
  rw [List.length_append, List.length_take, List.length_drop, min_eq_right (by omega)] at hlength
  cases n with
  | zero =>
    rw [List.take_zero, List.map_nil, List.flatten_nil, List.length_nil] at hlength
    omega
  | succ m =>
    have hm := hless m (Nat.lt_succ_self m)
    rw [List.take_succ_eq_append_getElem hn, List.map_append, List.flatten_append,
      flatten_take (by omega), List.map_singleton, List.flatten_singleton, List.length_append,
      List.length_take] at hlength
    -- the last block is not cut, since the first gives at least one byte
    have hlast : offset + size = q.length + (qs.take m).flatten.length + qs[m].length := by omega
    refine ⟨qs.take m, qs[m], qs.drop (m + 1), ?_, by omega, ?_⟩
    · rw [← List.drop_eq_getElem_cons, List.take_append_drop]
    · simp only [List.cons_append, List.flatten_cons, List.flatten_append, List.flatten_nil,
        List.append_nil, List.length_append]
      omega

/-- Reading from the first block on is right exactly when the slice stops well. -/
theorem pick_sliced_iff (hq : q.length < 2 ^ 15) (hqs : ∀ q ∈ qs, q.length < 2 ^ 15)
    (hoff : offset < q.length) (hsize : offset + size ≤ (q :: qs).flatten.length) :
    (∃ n, pick p offset size (q :: qs) = .ok (n, ((q :: qs).flatten.drop offset).take size)) ↔
      StopsWell q qs (offset + size) := by
  have hdrop : (q :: qs).flatten.drop offset = q.drop offset ++ qs.flatten := by
    rw [List.flatten_cons, List.drop_append_of_le_length hoff.le]
  constructor
  · rintro ⟨n, hpick⟩
    by_cases hin : offset + size ≤ q.length
    · exact .inl hin
    · rw [List.flatten_cons, List.length_append] at hsize
      obtain ⟨m, -, hcount⟩ := gatherCount_of_le
        (show size ≤ q.length + headerSize - offset + qs.flatten.length by omega)
      rw [pick_of_count hq hqs hoff.le hcount, Except.ok.injEq, Prod.mk.injEq] at hpick
      refine .inr (stop_of_length hoff (by omega) hcount ?_)
      rw [hpick.2, hdrop, List.length_take, List.length_append, List.length_drop]
      omega
  · rintro (hin | ⟨before, last, after, rfl, hlast, hstop⟩)
    · refine ⟨1, ?_⟩
      rw [pick_inside hq hin, hdrop,
        List.take_append_of_le_length (by rw [List.length_drop]; omega)]
    · obtain ⟨n, hpick⟩ := @pick_of_stop p size offset q before after last hq hqs hoff.le
        hlast hstop
      refine ⟨n, ?_⟩
      have hlen : (q.drop offset ++ (before ++ [last]).flatten).length = size := by
        rw [List.cons_append, List.flatten_cons, List.length_append] at hstop
        rw [List.length_append, List.length_drop]
        omega
      have hparts : (before ++ last :: after).flatten =
          (before ++ [last]).flatten ++ after.flatten := by
        simp
      rw [hpick, hdrop, hparts, ← List.append_assoc, List.take_left' hlen]

end Sliced

section Reader

variable {p : Profile} {D : Decompressor} {b : MetaBlock D} {blocks : List (MetaBlock D)}
variable {chunks : List Chunk} {offset size : ℕ}

theorem returns_zero_iff (h : Holds (b :: blocks) chunks) {bytes : List Byte} :
    Returns p D chunks 0 offset size bytes ↔
      ∃ n, pick p offset size (payloads (b :: blocks)) = .ok (n, bytes) := by
  rw [returns_iff h]
  constructor
  · rintro ⟨fuel, i, n, hi, hpick⟩
    have hzero : i = 0 := by
      cases h with
      | cons hb hrest =>
        cases fuel with
        | zero => cases hi
        | succ fuel => exact (Except.ok.inj hi).symm
    subst hzero
    exact ⟨n, hpick⟩
  · rintro ⟨n, hpick⟩
    refine ⟨1, 0, n, ?_, hpick⟩
    cases h with
    | cons hb hrest => rfl

/-- A slice from the first block of a reader, in any state, is right exactly when it stops well. -/
theorem sliced_iff (h : Holds (b :: blocks) chunks) (hoff : offset < b.payload.length)
    (hsize : offset + size ≤ (payloads (b :: blocks)).flatten.length) :
    Sliced p D chunks (payloads (b :: blocks)) offset size ↔
      StopsWell b.payload (payloads blocks) (offset + size) := by
  have hsmall : ∀ q ∈ payloads blocks, q.length < 2 ^ 15 := by
    intro q hq
    obtain ⟨b, -, rfl⟩ := List.mem_map.mp hq
    exact b.payload_lt
  rw [Sliced, returns_zero_iff h]
  exact pick_sliced_iff b.payload_lt hsmall hoff hsize

end Reader

/-- Two blocks that are not compressed, of two and five bytes. -/
def twoAndFive : List (MetaBlock fun _ => .error .err) :=
  [storedBlock _ [1, 2] pos_length_pair length_pair_le,
    storedBlock _ [3, 4, 5, 6, 7] (by decide) (by decide)]

/-- The six bytes behind the first, up to the end of the second block. -/
theorem sliced_to_edge :
    Sliced .dev (fun _ => .error .err) (fresh twoAndFive) (payloads twoAndFive) 1 6 :=
  (sliced_iff (holds_fresh twoAndFive) (by decide) (by decide)).mpr
    (.inr ⟨[], [3, 4, 5, 6, 7], [], rfl, by decide, by decide⟩)

/-- For three bytes the header of the first block stands in for the third; for five the second block
is not cut. -/
theorem not_sliced_inside :
    (Returns .dev (fun _ => .error .err) (fresh twoAndFive) 0 0 3 [1, 2] ∧
      ¬ Sliced .dev (fun _ => .error .err) (fresh twoAndFive) (payloads twoAndFive) 0 3) ∧
    (Returns .dev (fun _ => .error .err) (fresh twoAndFive) 0 0 5 [1, 2, 3, 4, 5, 6, 7] ∧
      ¬ Sliced .dev (fun _ => .error .err) (fresh twoAndFive) (payloads twoAndFive) 0 5) := by
  have hthree : pick .dev 0 3 (payloads twoAndFive) = .ok (1, [1, 2]) := by rfl
  have hfive : pick .dev 0 5 (payloads twoAndFive) = .ok (2, [1, 2, 3, 4, 5, 6, 7]) := by rfl
  unfold Sliced
  simp only [returns_zero_iff (holds_fresh twoAndFive)]
  refine ⟨⟨⟨1, hthree⟩, ?_⟩, ⟨2, hfive⟩, ?_⟩
  · rintro ⟨n, hn⟩
    cases hthree.symm.trans hn
  · rintro ⟨n, hn⟩
    cases hfive.symm.trans hn

end CappuccinOS.Squashfs
