import Mathlib

/-!
# Lists of intervals and how often they cover a point

A list of half-open intervals `[start, start + len)` is followed through splits, merges and
moves by its *cover count* `cover l x`, the number of intervals of `l` that contain `x`. The
count is additive over lists and does not see the order of a list, a split or a merge of
neighbours; a list whose count is the indicator of a range is a partition of that range
(`pairwise_disjoint_of_cover_le_one`, `exists_mem_iff_cover_pos`).
-/

namespace CappuccinOS.Cover

/-- A half-open interval of natural numbers. -/
structure Interval where
  start : ℕ
  len : ℕ
  deriving DecidableEq, Repr

/-- The points of an interval. -/
def Interval.Mem (i : Interval) (x : ℕ) : Prop := i.start ≤ x ∧ x < i.start + i.len

instance (i : Interval) (x : ℕ) : Decidable (i.Mem x) :=
  inferInstanceAs (Decidable (i.start ≤ x ∧ x < i.start + i.len))

/-- Two intervals have no point in common. -/
def Interval.Apart (i j : Interval) : Prop := ∀ x, ¬ (i.Mem x ∧ j.Mem x)

/-- The indicator of an interval. -/
def ind (i : Interval) (x : ℕ) : ℕ := if i.Mem x then 1 else 0

/-- How many intervals of the list contain the point. -/
def cover : List Interval → ℕ → ℕ
  | [], _ => 0
  | i :: l, x => ind i x + cover l x

@[simp] theorem cover_nil (x : ℕ) : cover [] x = 0 := rfl

@[simp] theorem cover_cons (i : Interval) (l : List Interval) (x : ℕ) :
    cover (i :: l) x = ind i x + cover l x := rfl

@[simp] theorem cover_append (l m : List Interval) (x : ℕ) :
    cover (l ++ m) x = cover l x + cover m x := by
  induction l with
  | nil => simp
  | cons i l ih => rw [List.cons_append, cover_cons, cover_cons, ih, Nat.add_assoc]

theorem cover_perm {l m : List Interval} (h : l.Perm m) (x : ℕ) : cover l x = cover m x := by
  induction h with
  | nil => rfl
  | cons i _ ih => rw [cover_cons, cover_cons, ih]
  | swap i j l => simp only [cover_cons]; omega
  | trans _ _ ih₁ ih₂ => rw [ih₁, ih₂]

theorem ind_of_mem {i : Interval} {x : ℕ} (h : i.Mem x) : ind i x = 1 := if_pos h

theorem ind_of_not_mem {i : Interval} {x : ℕ} (h : ¬ i.Mem x) : ind i x = 0 := if_neg h

/-- An interval is the sum of the two halves it is cut into. -/
theorem ind_split (a m n x : ℕ) : ind ⟨a, m + n⟩ x = ind ⟨a, m⟩ x + ind ⟨a + m, n⟩ x := by
  have hmem : Interval.Mem ⟨a, m + n⟩ x ↔ Interval.Mem ⟨a, m⟩ x ∨ Interval.Mem ⟨a + m, n⟩ x := by
    simp only [Interval.Mem]; omega
  by_cases h1 : Interval.Mem ⟨a, m⟩ x
  · have h2 : ¬ Interval.Mem ⟨a + m, n⟩ x := by simp only [Interval.Mem] at *; omega
    rw [ind_of_mem (hmem.mpr (.inl h1)), ind_of_mem h1, ind_of_not_mem h2]
  · by_cases h2 : Interval.Mem ⟨a + m, n⟩ x
    · rw [ind_of_mem (hmem.mpr (.inr h2)), ind_of_not_mem h1, ind_of_mem h2]
    · rw [ind_of_not_mem (fun h => (hmem.mp h).elim h1 h2), ind_of_not_mem h1, ind_of_not_mem h2]

theorem ind_start {i : Interval} (h : 0 < i.len) : ind i i.start = 1 :=
  ind_of_mem ⟨le_rfl, by omega⟩

theorem ind_pos {i : Interval} {x : ℕ} : 0 < ind i x ↔ i.Mem x := by
  by_cases h : i.Mem x
  · simp [ind_of_mem h, h]
  · simp [ind_of_not_mem h, h]

theorem ind_le_cover {i : Interval} {l : List Interval} (h : i ∈ l) (x : ℕ) :
    ind i x ≤ cover l x := by
  induction l with
  | nil => simp at h
  | cons j l ih =>
    rw [cover_cons]
    rcases List.mem_cons.mp h with rfl | h
    · omega
    · have := ih h; omega

/-- A point is covered exactly when some interval contains it. -/
theorem exists_mem_iff_cover_pos {l : List Interval} {x : ℕ} :
    (∃ i ∈ l, i.Mem x) ↔ 0 < cover l x := by
  induction l with
  | nil => simp
  | cons j l ih =>
    rw [List.exists_mem_cons_iff, ih, cover_cons, ← ind_pos]
    omega

/-- No point covered twice: the intervals are pairwise apart. -/
theorem pairwise_disjoint_of_cover_le_one {l : List Interval} (h : ∀ x, cover l x ≤ 1) :
    l.Pairwise Interval.Apart := by
  induction l with
  | nil => exact List.Pairwise.nil
  | cons i l ih =>
    refine List.Pairwise.cons ?_ (ih fun x => ?_)
    · intro j hj x hx
      have h1 := ind_pos.mpr hx.1
      have h2 := ind_pos.mpr hx.2
      have h3 := ind_le_cover hj x
      have h4 := h x
      rw [cover_cons] at h4
      omega
    · have := h x
      rw [cover_cons] at this
      omega

/-- Intervals that are pairwise apart cover no point twice. -/
theorem cover_le_one_of_pairwise {l : List Interval} (h : l.Pairwise Interval.Apart) (x : ℕ) :
    cover l x ≤ 1 := by
  induction l with
  | nil => exact Nat.zero_le _
  | cons i l ih =>
    obtain ⟨hi, hl⟩ := List.pairwise_cons.mp h
    rw [cover_cons]
    by_cases hx : i.Mem x
    · have hrest : ¬ 0 < cover l x := by
        rw [← exists_mem_iff_cover_pos]
        rintro ⟨j, hj, hjx⟩
        exact hi j hj x ⟨hx, hjx⟩
      rw [ind_of_mem hx]
      omega
    · rw [ind_of_not_mem hx, Nat.zero_add]
      exact ih hl

/-- Counting the points of a range by the intervals that contain them. -/
theorem sum_cover_range {l : List Interval} {n : ℕ} (h : ∀ i ∈ l, i.start + i.len ≤ n) :
    ∑ x ∈ Finset.range n, cover l x = (l.map Interval.len).sum := by
  induction l with
  | nil => simp
  | cons i l ih =>
    have hi : ∑ x ∈ Finset.range n, ind i x = i.len := by
      have hfilter : (Finset.range n).filter i.Mem = Finset.Ico i.start (i.start + i.len) := by
        ext x
        have := h i List.mem_cons_self
        simp only [Finset.mem_filter, Finset.mem_range, Finset.mem_Ico, Interval.Mem]
        omega
      simp only [ind, ← Finset.card_filter, hfilter, Nat.card_Ico]
      omega
    simp only [cover_cons, Finset.sum_add_distrib, hi, List.map_cons, List.sum_cons]
    rw [ih fun j hj => h j (List.mem_cons_of_mem _ hj)]

/-- Two intervals with a gap between them, the first one on the left. -/
def Interval.Before (i j : Interval) : Prop := i.start + i.len < j.start

/-- Intervals with gaps between them that cover exactly one interval are that interval: the end of
the first one would be a hole. -/
theorem eq_singleton_of_cover {l : List Interval} {j : Interval} (hj : 0 < j.len)
    (hlen : ∀ i ∈ l, 0 < i.len) (hgap : l.Pairwise Interval.Before)
    (hcov : ∀ x, cover l x = ind j x) : l = [j] := by
  have hstart : ∀ i ∈ l, j.Mem i.start ∧ j.Mem (i.start + i.len - 1) := by
    intro i hi
    have hpos := hlen i hi
    refine ⟨ind_pos.mp ?_, ind_pos.mp ?_⟩ <;> rw [← hcov] <;>
      refine exists_mem_iff_cover_pos.mp ⟨i, hi, ?_⟩ <;> simp only [Interval.Mem] <;> omega
  have hfirst : ∃ i ∈ l, i.Mem j.start := by
    rw [exists_mem_iff_cover_pos, hcov, ind_start hj]
    exact one_pos
  cases l with
  | nil => simp at hfirst
  | cons i rest =>
    obtain ⟨hi, hrest⟩ := List.pairwise_cons.mp hgap
    have hpos := hlen i List.mem_cons_self
    obtain ⟨hlo, hhi⟩ := hstart i List.mem_cons_self
    simp only [Interval.Mem] at hlo hhi
    -- the point behind the first interval is in no interval of the list
    have hend : ¬ j.Mem (i.start + i.len) := by
      rw [← ind_pos, ← hcov, ← exists_mem_iff_cover_pos]
      rintro ⟨k, hk, hmem⟩
      simp only [Interval.Mem] at hmem
      rcases List.mem_cons.mp hk with rfl | hk
      · omega
      · have := hi k hk
        unfold Interval.Before at this
        omega
    have hnil : rest = [] := by
      apply List.eq_nil_iff_forall_not_mem.mpr
      intro k hk
      have hlt := hi k hk
      have hmem := (hstart k (List.mem_cons_of_mem _ hk)).1
      simp only [Interval.Mem, Interval.Before] at hlt hmem hend
      omega
    subst hnil
    obtain ⟨k, hk, hmem⟩ := hfirst
    obtain rfl := List.mem_singleton.mp hk
    obtain ⟨ks, kl⟩ := k
    obtain ⟨js, jl⟩ := j
    simp only [Interval.Mem] at *
    have h1 : ks = js := by omega
    have h2 : kl = jl := by omega
    rw [h1, h2]

end CappuccinOS.Cover
