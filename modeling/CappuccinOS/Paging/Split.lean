import CappuccinOS.Paging.LastWriter

/-!
# Splitting a large page

`get_next_level` replaces a large page by a table and calls `vmm_map` for the small pages. The
directory it passes on is the one that holds the entry, not the root, so the four indices of an
address are followed from the wrong place: the small pages end up in some table further below, and
the new table stays empty up to one entry.

1. `fromPml2` and `fromPml3` are the lower levels of `vmm_map`. Where they meet no large page,
   their writes are confined to one subtree, even when the leaves are at the wrong depth
   (`Shape.dirty`).
2. `readyCall` and `firstCall` are the calls that start at a directory below the root. These may
   split further pages; from the second call on they meet tables only.
3. `splitLarge_holes`: so the new table has holes.
4. `preserves_iff_not_splits`: a run keeps its address space only if it never splits a page.
-/

namespace CappuccinOS.Paging

/-! ## Partial results -/

/-- If there is a result, it has the property `Q`. -/
def Ensures {α : Type} (r : Except Fault α) (Q : α → Prop) : Prop := ∀ a, r = .ok a → Q a

namespace Ensures

variable {α β : Type} {r : Except Fault α} {Q R : α → Prop}

theorem ok {a : α} (h : Q a) : Ensures (.ok a) Q := by
  rintro _ ⟨⟩
  exact h

theorem error (e : Fault) : Ensures (.error e) Q := nofun

theorem mono (h : Ensures r Q) (hQ : ∀ a, Q a → R a) : Ensures r R := fun a ha => hQ a (h a ha)

theorem bind {f : α → Except Fault β} {S : β → Prop} (h : Ensures r Q)
    (hf : ∀ a, Q a → Ensures (f a) S) : Ensures (r >>= f) S := by
  cases r with
  | error e => exact error e
  | ok a => exact hf a (h a rfl)

theorem require_bind {c : Prop} [Decidable c] {f : Unit → Except Fault β} {S : β → Prop}
    (hf : c → Ensures (f ()) S) : Ensures (Paging.require c >>= f) S := by
  by_cases hc : c
  · simp only [Paging.require, if_pos hc]
    exact hf hc
  · simp only [Paging.require, if_neg hc]
    exact error _

theorem mapLoop {recur : MapFn} {dir virt phys flags step bound : ℕ} {size : PageSize}
    {I : State → Prop} (hstep : 0 < step)
    (h : ∀ i < bound, ∀ st, I st → Ensures (recur st dir (virt + i) (phys + i) flags size) I)
    (turns i : ℕ) (hbound : i + turns * step ≤ bound) {st : State} (hst : I st) :
    Ensures (Paging.mapLoop recur dir virt phys flags size step turns i st) I := by
  induction turns generalizing i st with
  | zero => exact ok hst
  | succ turns ih =>
    rw [Nat.succ_mul] at hbound
    rw [Paging.mapLoop]
    exact (h i (by omega) st hst).bind fun st' hst' => ih (i + step) (by omega) hst'

end Ensures

/-! ## The levels of `vmm_map` -/

section Levels

/-- `vmm_map` from the second-to-last level on, for pages smaller than 1 GiB. -/
def fromPml2 (M : Machine) (recur : MapFn) (virt phys flags : ℕ) (size : PageSize) (st : State)
    (pml2 : ℕ) : Except Fault State :=
  if size = .size2MiB then
    st.write pml2 (tableIndex virt 21) (phys ||| (flags ||| ptFlagValid) ||| ptFlagLarge)
  else do
    let (pml1, st) ← getNextLevel M recur st pml2 virt size 1 (tableIndex virt 21)
    st.write pml1 (tableIndex virt 12) (phys ||| leafFlags (flags ||| ptFlagValid))

def fromPml3 (M : Machine) (recur : MapFn) (virt phys flags : ℕ) (size : PageSize) (st : State)
    (pml3 : ℕ) : Except Fault State := do
  let (pml2, st) ← getNextLevel M recur st pml3 virt size 2 (tableIndex virt 30)
  fromPml2 M recur virt phys flags size st pml2

variable {M : Machine} {recur : MapFn} {st : State} {dir virt phys flags : ℕ} {size : PageSize}

theorem vmmMapBody_eq (hmode : M.mode = .fourLevel) (hsize : size ≠ .size1GiB) :
    vmmMapBody M recur st dir virt phys flags size =
      getNextLevel M recur st dir virt size 3 (tableIndex virt 39) >>= fun r =>
        fromPml3 M recur virt phys flags size r.2 r.1 := by
  simp only [vmmMapBody, hmode, pure_bind, if_neg hsize]
  rfl

end Levels

/-! ## Trees with leaves at the wrong depth -/

/-- Besides the leaves that callers ask for, there may be any in tables at depth `k` and below. -/
def Shape.dirty (k : ℕ) (P : ℕ → Prop) : Shape where
  leaf π a := π.length = 3 ∧ P a ∨ k ≤ π.length
  large π := (π.length = 1 ∨ π.length = 2) ∨ k ≤ π.length

theorem Shape.dirty_takes {k : ℕ} {P : ℕ → Prop} {π : List ℕ} (h : k ≤ π.length) (e : ℕ) :
    (Shape.dirty k P).Takes π e := ⟨fun _ => .inr h, fun _ => .inr h⟩

/-- The frame is neither the root nor one that `pmm_alloc(1)` hands out. -/
def Foreign (M : Machine) (root a : ℕ) : Prop := a ≠ root ∧ ∀ k, M.frames k ≠ some a

section Step

variable {M : Machine} {root : ℕ} {S S' : Shape} {st : State} {own : ℕ → Option (List ℕ)}
  {recur : MapFn} {f g i v arg : ℕ} {π : List ℕ} {t : ℕ → ℕ} {size : PageSize}

theorem Tree.mono (hT : Tree M root S st own) (hleaf : ∀ π a, S.leaf π a → S'.leaf π a)
    (hlarge : ∀ π, S.large π → S'.large π) : Tree M root S' st own where
  root_own := hT.root_own
  owned := hT.owned
  inj := hT.inj
  alloc := hT.alloc
  child := fun hf hmem hi htab => (hT.child hf hmem hi htab).imp_right (hleaf _ _)
  large := fun hf hmem h => hlarge _ (hT.large hf hmem h)
  parent := hT.parent

theorem Tree.mono_plain {P : ℕ → Prop} (hT : Tree M root (.plain P) st own) (k : ℕ) :
    Tree M root (.dirty k P) st own := hT.mono (fun _ _ => .inl) fun _ => .inl

theorem Tree.mono_dirty {P : ℕ → Prop} {k k' : ℕ} (hk : k ≤ k')
    (hT : Tree M root (.dirty k' P) st own) : Tree M root (.dirty k P) st own :=
  hT.mono (fun _ _ => Or.imp_right hk.trans) fun _ => Or.imp_right hk.trans

/-- No page directory is at a foreign frame. -/
theorem Tree.mem_foreign (hT : Tree M root S st own) (hf : Foreign M root f) :
    st.mem f = none := by
  rcases hmem : st.mem f with - | t
  · rfl
  · rcases hT.alloc hmem with hroot | ⟨k, -, hk⟩
    · exact absurd hroot hf.1
    · exact absurd hk (hf.2 k)

theorem Tree.entry_eq (hT : Tree M root S st own) (hf : own f = some π) (hmem : st.mem f = some t)
    (hg : own g = some (π ++ [i])) : t i = tableEntry g ∧ FrameAddr g := by
  obtain ⟨hframe, f', t', hf', hmem', hent⟩ := hT.parent hg
  obtain rfl := hT.inj hf' hf
  obtain rfl : t' = t := Option.some.inj (hmem'.symm.trans hmem)
  exact ⟨hent, hframe⟩

theorem Tree.not_isLarge_of_child (hT : Tree M root S st own) (hf : own f = some π)
    (hmem : st.mem f = some t) (hg : own g = some (π ++ [i])) : ¬ isLarge (t i) := by
  obtain ⟨hent, hframe⟩ := hT.entry_eq hf hmem hg
  rw [hent]
  exact not_isLarge_tableEntry hframe

theorem Tree.getNextLevel_child (hT : Tree M root S st own) (hf : own f = some π)
    (hg : own g = some (π ++ [i])) : getNextLevel M recur st f v size arg i = .ok (g, st) := by
  obtain ⟨t, hmem⟩ := hT.owned hf
  obtain ⟨hent, hframe⟩ := hT.entry_eq hf hmem hg
  simp only [getNextLevel, State.read_eq hmem, bind, Except.bind, hent,
    if_pos (isTable_tableEntry hframe), addr_tableEntry hframe]
  rfl

theorem getNextLevel_none (h : st.mem f = none) :
    getNextLevel M recur st f v size arg i = .error .notTable := by
  simp only [getNextLevel, State.read, h]
  rfl

/-- `get_next_level` at an entry that is no large page comes to the table on the path, or to no
table at all. -/
theorem Tree.getNextLevel_ensures (hT : Tree M root S st own) (hM : FreshFrames M root)
    (hf : own f = some π) (hi : i < 512) (hlarge : ∀ t, st.mem f = some t → ¬ isLarge (t i))
    (hforeign : ∀ a, S.leaf π a → Foreign M root a) :
    Ensures (getNextLevel M recur st f v size arg i) fun r => r.2.mem r.1 = none ∨
      ∃ own', Tree M root S r.2 own' ∧ Within (π ++ [i]) st own r.2 own' ∧
        own' r.1 = some (π ++ [i]) := by
  obtain ⟨t, hmem⟩ := hT.owned hf
  have hlarge := hlarge t hmem
  simp only [getNextLevel, State.read_eq hmem, bind, Except.bind]
  by_cases htab : isTable (t i)
  · rw [if_pos htab]
    refine .ok ?_
    rcases hT.child hf hmem hi htab with ⟨g, hg, hent, hown⟩ | hleaf
    · right
      rw [hent, addr_tableEntry hg]
      exact ⟨own, hT, Within.refl .., hown⟩
    · exact .inl (hT.mem_foreign (hforeign _ hleaf))
  · rw [if_neg htab, if_neg hlarge]
    rcases hg : M.frames st.next with - | g
    · simp only [linkTable, hg]
      exact .error _
    · rw [hT.linkTable_eq hM hg hf hmem]
      exact .ok (.inr ⟨_, hT.link hM hg hf hmem htab, hT.within_link hM hg hf hmem,
        Function.update_self ..⟩)

theorem Tree.write_ensures (hT : Tree M root S st own) (hf : own f = some π) {e : ℕ}
    (he : S.Takes π e) : Ensures (st.write f i e) fun st' =>
      ∃ own', Tree M root S st' own' ∧ Within (π ++ [i]) st own st' own' := by
  obtain ⟨t, hmem⟩ := hT.owned hf
  rw [State.write_eq hmem]
  exact .ok ⟨_, hT.setLeaf hf hmem he.1 he.2, within_setLeaf e hf hmem⟩

theorem write_ensures_none {Q : State → Prop} {e : ℕ} (h : st.mem f = none) :
    Ensures (st.write f i e) Q := by
  simp only [State.write, h]
  exact .error _

/-! ### The lower levels -/

section Lower

variable {virt phys flags : ℕ} {σ : List ℕ} (hT : Tree M root S st own) (hM : FreshFrames M root)

include hT hM

/-- The last levels, from a table at path `σ` on, where no large page is in the way. -/
theorem fromPml2_ensures (hsize : size ≠ .size1GiB) (hf : own f = some σ)
    (hlarge : size = .size4KiB → ∀ t, st.mem f = some t → ¬ isLarge (t (virt / 2 ^ 21 % 512)))
    (hforeign : size = .size4KiB → ∀ a, S.leaf σ a → Foreign M root a)
    (hentry : if size = .size4KiB
      then S.Takes (σ ++ [virt / 2 ^ 21 % 512]) (entryFor phys flags size)
      else S.Takes σ (entryFor phys flags size)) :
    Ensures (fromPml2 M recur virt phys flags size st f) fun st' =>
      ∃ own', Tree M root S st' own' ∧ Within (σ ++ [virt / 2 ^ 21 % 512]) st own st' own' := by
  unfold fromPml2
  rw [tableIndex_eq]
  cases size with
  | size1GiB => exact absurd rfl hsize
  | size2MiB => exact hT.write_ensures hf hentry
  | size4KiB =>
    refine Ensures.bind (hT.getNextLevel_ensures hM hf (Nat.mod_lt _ (by norm_num)) (hlarge rfl)
      (hforeign rfl)) ?_
    rintro ⟨g, st1⟩ (hnone | ⟨own1, hT1, hW1, hg⟩)
    · exact write_ensures_none hnone
    · refine (hT1.write_ensures hg hentry).mono ?_
      rintro st' ⟨own', hT', hW'⟩
      exact ⟨own', hT', hW1.trans (hW'.mono (List.prefix_append ..))⟩

omit hT hM in
theorem fromPml2_none {Q : State → Prop} (h : st.mem f = none) :
    Ensures (fromPml2 M recur virt phys flags size st f) Q := by
  unfold fromPml2
  split_ifs
  · exact write_ensures_none h
  · rw [getNextLevel_none h]
    exact .error _

end Lower

/-! ### The loop over the small pages -/

theorem pageStart_eq {level : ℕ} (hv : v < 2 ^ 64) (hlevel : level ≤ 3) :
    v &&& wordNot (pageSizes level - 1) =
      v / 2 ^ (12 + 9 * level) * 2 ^ (12 + 9 * level) := by
  have hpage : pageSizes level = 2 ^ (12 + 9 * level) := by
    interval_cases level <;> rfl
  rw [hpage]
  exact and_wordNot_two_pow hv (by omega)

theorem add_div_two_pow {s n : ℕ} (hs : s ≤ n) (hi : i < 2 ^ s) :
    (v / 2 ^ s * 2 ^ s + i) / 2 ^ n = v / 2 ^ n := by
  obtain ⟨m, rfl⟩ : ∃ m, n = s + m := ⟨n - s, by omega⟩
  rw [pow_add, ← Nat.div_div_eq_div_mul, ← Nat.div_div_eq_div_mul, Nat.mul_comm (v / 2 ^ s),
    Nat.mul_add_div (Nat.two_pow_pos s), Nat.div_eq_of_lt hi, Nat.add_zero]

theorem turns_mul {level : ℕ} (hlevel : level ≤ 3) (h : size.toNat < level) :
    (pageSizes level + pageSizes size.toNat - 1) / pageSizes size.toNat * pageSizes size.toNat =
      2 ^ (12 + 9 * level) := by
  cases size <;> simp only [PageSize.toNat] at h ⊢ <;> interval_cases level <;> rfl

theorem Tree.splitLarge_ensures (hT : Tree M root S st own) (hM : FreshFrames M root)
    (hf : own f = some π) (hmem : st.mem f = some t) {level old : ℕ} (Q : ℕ → State → Prop)
    (h : ∀ g, M.frames st.next = some g →
      Ensures (mapLoop recur f (v &&& wordNot (pageSizes level - 1)) (addr old) (vmmFlags old) size
        (pageSizes size.toNat)
        ((pageSizes level + pageSizes size.toNat - 1) / pageSizes size.toNat) 0
        (linked st g f t i)) (Q g)) :
    Ensures (splitLarge M recur st f v size level i old) fun r => Q r.1 r.2 := by
  unfold splitLarge
  refine Ensures.require_bind fun _ => Ensures.require_bind fun _ => ?_
  rcases hg : M.frames st.next with - | g
  · simp only [linkTable, hg]
    exact .error _
  · rw [hT.linkTable_eq hM hg hf hmem]
    exact (h g hg).bind fun st' hst' => .ok hst'

theorem getNextLevel_large (hmem : st.mem f = some t) (hlarge : isLarge (t i)) :
    getNextLevel M recur st f v size arg i = splitLarge M recur st f v size arg i (t i) := by
  simp only [getNextLevel, State.read_eq hmem, bind, Except.bind, if_neg hlarge.not_isTable,
    if_pos hlarge]

theorem Tree.linked_mem (hT : Tree M root S st own) (hM : FreshFrames M root)
    (hg : M.frames st.next = some g) (hf : own f = some π) :
    (linked st g f t i).mem g = some fun _ => 0 :=
  (State.put_mem_of_ne (hT.ne_next hM hg hf).symm _).trans pmmAlloc_mem_self

end Step

/-! ## Calls from a directory below the root -/

section Below

variable {M : Machine} {root : ℕ} {P : ℕ → Prop} {st : State} {own : ℕ → Option (List ℕ)}
  {recur : MapFn} {dir virt phys flags k : ℕ} {π : List ℕ} {size : PageSize}

theorem length_snoc (π : List ℕ) (i : ℕ) : (π ++ [i]).length = π.length + 1 := by simp

variable (hM : FreshFrames M root) (hP : ∀ a, P a → Foreign M root a)
  (hsize : size ≠ .size1GiB)

include hM hP hsize

omit hM hsize in
theorem foreign_of_dirty (hk : π.length < k) (a : ℕ) (h : (Shape.dirty k P).leaf π a) :
    Foreign M root a := by
  rcases h with ⟨-, h⟩ | h
  · exact hP a h
  · omega

omit hM hP in
theorem size_toNat_le_one : size.toNat ≤ 1 := by
  cases size with
  | size4KiB => decide
  | size2MiB => decide
  | size1GiB => exact absurd rfl hsize

/-- The last levels, at the depth of the wrong leaves. -/
theorem fromPml2_dirty (hk : k + size.toNat = π.length + 1) (hπ : 3 ≤ π.length)
    (hT : Tree M root (.dirty k P) st own) {f : ℕ} (hf : own f = some π) :
    Ensures (fromPml2 M recur virt phys flags size st f) fun st' =>
      ∃ own', Tree M root (.dirty k P) st' own' ∧
        Within (π ++ [virt / 2 ^ 21 % 512]) st own st' own' := by
  have hle := size_toNat_le_one hsize
  refine fromPml2_ensures hT hM hsize hf ?_ ?_ ?_
  · -- the table is too deep for the large pages of callers, and above those of the calls
    rintro rfl t ht hl
    have hdeep := hT.large hf ht hl
    simp only [Shape.dirty, PageSize.toNat] at hdeep hk
    omega
  · rintro rfl
    simp only [PageSize.toNat] at hk
    exact foreign_of_dirty hP (by omega)
  · split_ifs
    · exact Shape.dirty_takes (by rw [length_snoc]; omega) _
    · refine Shape.dirty_takes ?_ _
      have h1 : size.toNat = 1 := by
        cases size with
        | size4KiB => contradiction
        | size2MiB => rfl
        | size1GiB => contradiction
      omega

/-- From a table at path `π`, where no large page is in the way. -/
theorem fromPml3_ensures (hk : k + size.toNat = π.length + 2) (hπ : 2 ≤ π.length)
    (hT : Tree M root (.dirty k P) st own) {f : ℕ} (hf : own f = some π)
    (hlarge : ∀ t, st.mem f = some t → ¬ isLarge (t (virt / 2 ^ 30 % 512))) :
    Ensures (fromPml3 M recur virt phys flags size st f) fun st' =>
      ∃ own', Tree M root (.dirty k P) st' own' ∧
        Within (π ++ [virt / 2 ^ 30 % 512]) st own st' own' ∧
        ∃ g, own' g = some (π ++ [virt / 2 ^ 30 % 512]) := by
  have hle := size_toNat_le_one hsize
  unfold fromPml3
  rw [tableIndex_eq]
  refine Ensures.bind (hT.getNextLevel_ensures hM hf (Nat.mod_lt _ (by norm_num)) hlarge
    (foreign_of_dirty hP (by omega))) ?_
  rintro ⟨g, st1⟩ (hnone | ⟨own1, hT1, hW1, hg⟩)
  · exact fromPml2_none hnone
  · refine (fromPml2_dirty hM hP hsize (by rw [length_snoc]; omega) (by rw [length_snoc]; omega) hT1
      hg).mono ?_
    rintro st' ⟨own', hT', hW'⟩
    exact ⟨own', hT', hW1.trans (hW'.mono (List.prefix_append ..)), g,
      (hW'.own_iff g _ (snoc_not_prefix_self _ _)).mpr hg⟩

/-- The table behind the first index, if there is one, has no large page at the second. -/
def Ready (π : List ℕ) (i j : ℕ) (st : State) (own : ℕ → Option (List ℕ)) : Prop :=
  ∀ f t, own f = some (π ++ [i]) → st.mem f = some t → ¬ isLarge (t j)

/-- What calls that start at the directory with path `π` have done, when `i` and `j` are the first
two indices of the addresses: nothing has changed but behind `i`, and if there was a table there
already, it has changed at `j` only. -/
structure Filled (M : Machine) (root : ℕ) (P : ℕ → Prop) (k : ℕ) (π : List ℕ) (i j : ℕ) (st : State)
    (own : ℕ → Option (List ℕ)) (st' : State) (own' : ℕ → Option (List ℕ)) : Prop where
  tree : Tree M root (.dirty k P) st' own'
  ready : Ready π i j st' own'
  within : Within (π ++ [i]) st own st' own'
  within_of_table : ∀ g, own g = some (π ++ [i]) → Within (π ++ [i] ++ [j]) st own st' own'

omit hM hP hsize in
theorem Ready.of_child {S : Shape} {i j g : ℕ} (hT : Tree M root S st own)
    (hg : own g = some (π ++ [i] ++ [j])) : Ready π i j st own := fun _ _ hf ht =>
  hT.not_isLarge_of_child hf ht hg

omit hM hP hsize in
theorem Filled.refl {i j : ℕ} (hT : Tree M root (.dirty k P) st own) (h : Ready π i j st own) :
    Filled M root P k π i j st own st own := ⟨hT, h, Within.refl .., fun _ _ => Within.refl ..⟩

omit hM hP hsize in
theorem Filled.trans {i j : ℕ} {st' st'' : State} {own' own'' : ℕ → Option (List ℕ)}
    (h : Filled M root P k π i j st own st' own')
    (h' : Filled M root P k π i j st' own' st'' own'') :
    Filled M root P k π i j st own st'' own'' where
  tree := h'.tree
  ready := h'.ready
  within := h.within.trans h'.within
  within_of_table := by
    intro g hg
    have hW := h.within_of_table g hg
    exact hW.trans (h'.within_of_table g ((hW.own_iff g _ (snoc_not_prefix_self _ _)).mpr hg))

/-- A call where the table behind the first index is there. -/
theorem quietCall (hmode : M.mode = .fourLevel) (hk : k + size.toNat = π.length + 3)
    (hπ : 1 ≤ π.length) (hT : Tree M root (.dirty k P) st own) (hdir : own dir = some π) {f : ℕ}
    (hf : own f = some (π ++ [virt / 2 ^ 39 % 512]))
    (hready : Ready π (virt / 2 ^ 39 % 512) (virt / 2 ^ 30 % 512) st own) :
    Ensures (vmmMapBody M recur st dir virt phys flags size) fun st' => ∃ own',
      Filled M root P k π (virt / 2 ^ 39 % 512) (virt / 2 ^ 30 % 512) st own st' own' := by
  rw [vmmMapBody_eq hmode hsize, tableIndex_eq, hT.getNextLevel_child hdir hf]
  refine (fromPml3_ensures hM hP hsize (by rw [length_snoc]; omega) (by rw [length_snoc]; omega) hT
    hf fun t ht => hready f t hf ht).mono ?_
  rintro st' ⟨own', hT', hW', g, hg⟩
  exact ⟨own', hT', .of_child hT' hg, hW'.mono (List.prefix_append ..), fun _ _ => hW'⟩

omit hM hP hsize in
/-- A table without large pages is still without after the call. -/
theorem Filled.not_isLarge {i j : ℕ} {st' : State} {own' : ℕ → Option (List ℕ)}
    (h : Filled M root P k π i j st own st' own') (hT : Tree M root (.dirty k P) st own) {g : ℕ}
    (hg : own g = some (π ++ [i])) (hl : ∀ t n, st.mem g = some t → ¬ isLarge (t n)) :
    own' g = some (π ++ [i]) ∧ ∀ t n, st'.mem g = some t → ¬ isLarge (t n) := by
  have hW := h.within_of_table g hg
  have hg' : own' g = some (π ++ [i]) := (hW.own_iff g _ (snoc_not_prefix_self _ _)).mpr hg
  refine ⟨hg', fun t' n ht' => ?_⟩
  by_cases hn : n = j
  · subst hn
    exact h.ready g t' hg' ht'
  · obtain ⟨t, ht⟩ := hT.owned hg
    obtain ⟨t'', ht'', heq⟩ := hW.mem_eq g _ t hg (snoc_not_prefix_self _ _) ht
    obtain rfl : t' = t'' := Option.some.inj (ht'.symm.trans ht'')
    rw [heq n fun hp => hn (prefix_snoc_inj hp (snoc_not_prefix_self _ _)).2]
    exact hl t n ht

/-- Where there is no table behind the first index, a new one is entered. If it replaces a large
page, this is taken for one of 512 GiB and mapped in pieces. -/
theorem enter_ensures (hmode : M.mode = .fourLevel) (hk : k + size.toNat = π.length + 3)
    (hπ : 1 ≤ π.length) (hvirt : virt < 2 ^ 64) (fuel : ℕ) (hT : Tree M root (.dirty k P) st own)
    (hdir : own dir = some π) {t : ℕ → ℕ} (hmem : st.mem dir = some t)
    (htab : ¬ isTable (t (virt / 2 ^ 39 % 512))) :
    Ensures (getNextLevel M (vmmMap M fuel) st dir virt size 3 (virt / 2 ^ 39 % 512)) fun r =>
      ∃ own', Tree M root (.dirty k P) r.2 own' ∧
        Within (π ++ [virt / 2 ^ 39 % 512]) st own r.2 own' ∧
        own' r.1 = some (π ++ [virt / 2 ^ 39 % 512]) ∧
        ∀ t' n, r.2.mem r.1 = some t' → ¬ isLarge (t' n) := by
  have hle := size_toNat_le_one hsize
  -- the state right behind the new entry
  have hnew : ∀ g, M.frames st.next = some g → ∃ own',
      Tree M root (.dirty k P) (linked st g dir t (virt / 2 ^ 39 % 512)) own' ∧
        Within (π ++ [virt / 2 ^ 39 % 512]) st own (linked st g dir t (virt / 2 ^ 39 % 512)) own' ∧
        own' g = some (π ++ [virt / 2 ^ 39 % 512]) ∧
        ∀ t' n, (linked st g dir t (virt / 2 ^ 39 % 512)).mem g = some t' → ¬ isLarge (t' n) := by
    intro g hg
    refine ⟨_, hT.link hM hg hdir hmem htab, hT.within_link hM hg hdir hmem, linkedOwn_self,
      fun t' n ht' => ?_⟩
    obtain rfl := Option.some.inj ((hT.linked_mem hM hg hdir).symm.trans ht')
    exact show ¬ isLarge 0 by decide
  by_cases hlarge : isLarge (t (virt / 2 ^ 39 % 512))
  · rw [getNextLevel_large hmem hlarge]
    refine hT.splitLarge_ensures hM hdir hmem (fun g st' =>
      ∃ own', Tree M root (.dirty k P) st' own' ∧
        Within (π ++ [virt / 2 ^ 39 % 512]) st own st' own' ∧
        own' g = some (π ++ [virt / 2 ^ 39 % 512]) ∧
        ∀ t' n, st'.mem g = some t' → ¬ isLarge (t' n)) fun g hg => ?_
    have hstep : 0 < pageSizes size.toNat := by cases size <;> decide
    refine Ensures.mapLoop hstep (fun i hi st1 => ?_) _ 0
      ((Nat.zero_add _).le.trans (turns_mul le_rfl (by omega)).le) (hnew g hg)
    rintro ⟨own1, hT1, hW1, hg1, hl1⟩
    rw [pageStart_eq hvirt le_rfl]
    have hidx : (virt / 2 ^ (12 + 9 * 3) * 2 ^ (12 + 9 * 3) + i) / 2 ^ 39 % 512 =
        virt / 2 ^ 39 % 512 := by
      rw [add_div_two_pow (by norm_num) hi]
    cases fuel with
    | zero => exact .error _
    | succ fuel =>
      rw [vmmMap]
      refine (quietCall hM hP hsize hmode hk hπ hT1
        ((hW1.own_iff dir _ (snoc_not_prefix_self _ _)).mpr hdir) (by rw [hidx]; exact hg1)
        ?_).mono ?_
      · intro f t' hf ht'
        rw [hidx] at hf
        obtain rfl := hT1.inj hf hg1
        exact hl1 t' _ ht'
      · rintro st2 ⟨own2, h2⟩
        rw [hidx] at h2
        exact ⟨own2, h2.tree, hW1.trans h2.within, h2.not_isLarge hT1 hg1 hl1⟩
  · simp only [getNextLevel, State.read_eq hmem, bind, Except.bind, if_neg htab, if_neg hlarge]
    rcases hg : M.frames st.next with - | g
    · simp only [linkTable, hg]
      exact .error _
    · rw [hT.linkTable_eq hM hg hdir hmem]
      exact .ok (hnew g hg)

/-- A call that meets no large page behind its first two indices. -/
theorem readyCall (hmode : M.mode = .fourLevel) (hk : k + size.toNat = π.length + 3)
    (hπ : 1 ≤ π.length) (hπ2 : π.length ≤ 2) (hvirt : virt < 2 ^ 64) (fuel : ℕ)
    (hT : Tree M root (.dirty k P) st own) (hdir : own dir = some π)
    (hready : Ready π (virt / 2 ^ 39 % 512) (virt / 2 ^ 30 % 512) st own) :
    Ensures (vmmMap M fuel st dir virt phys flags size) fun st' => ∃ own',
      Filled M root P k π (virt / 2 ^ 39 % 512) (virt / 2 ^ 30 % 512) st own st' own' := by
  have hle := size_toNat_le_one hsize
  cases fuel with
  | zero => exact .error _
  | succ fuel =>
  rw [vmmMap]
  obtain ⟨t, hmem⟩ := hT.owned hdir
  by_cases htab : isTable (t (virt / 2 ^ 39 % 512))
  · rcases hT.child hdir hmem (Nat.mod_lt _ (by norm_num)) htab with ⟨g, -, -, hg⟩ | hleaf
    · exact quietCall hM hP hsize hmode hk hπ hT hdir hg hready
    · simp only [Shape.dirty] at hleaf
      omega
  · rw [vmmMapBody_eq hmode hsize, tableIndex_eq]
    refine (enter_ensures hM hP hsize hmode hk hπ hvirt fuel hT hdir hmem htab).bind ?_
    rintro ⟨g, st1⟩ ⟨own1, hT1, hW1, hg, hl⟩
    refine (fromPml3_ensures hM hP hsize (by rw [length_snoc]; omega) (by rw [length_snoc]; omega)
      hT1 hg fun t' => hl t' _).mono ?_
    rintro st' ⟨own', hT', hW', g', hg'⟩
    exact ⟨own', hT', .of_child hT' hg', hW1.trans (hW'.mono (List.prefix_append ..)),
      fun g hg => absurd hg (hT.own_ne_of_not_isTable hdir hmem htab g)⟩

/-- The calls of a loop over a page of at most 1 GiB all have the same first two indices. -/
theorem readyLoop (hmode : M.mode = .fourLevel) (hk : k + size.toNat = π.length + 3)
    (hπ : 1 ≤ π.length) (hπ2 : π.length ≤ 2) (hvirt : virt < 2 ^ 64) {s : ℕ} (hs : s ≤ 30)
    (fuel turns i : ℕ) (hbound : i + turns * pageSizes size.toNat ≤ 2 ^ s)
    (hT : Tree M root (.dirty k P) st own) (hdir : own dir = some π)
    (hready : Ready π (virt / 2 ^ 39 % 512) (virt / 2 ^ 30 % 512) st own) :
    Ensures (mapLoop (vmmMap M fuel) dir (virt / 2 ^ s * 2 ^ s) phys flags size
      (pageSizes size.toNat) turns i st) fun st' => ∃ own',
        Filled M root P k π (virt / 2 ^ 39 % 512) (virt / 2 ^ 30 % 512) st own st' own' := by
  have hstep : 0 < pageSizes size.toNat := by cases size <;> decide
  refine Ensures.mapLoop hstep (fun n hn st1 => ?_) turns i hbound
    ⟨own, Filled.refl hT hready⟩
  rintro ⟨own1, h1⟩
  have h39 : (virt / 2 ^ s * 2 ^ s + n) / 2 ^ 39 = virt / 2 ^ 39 := add_div_two_pow (by omega) hn
  have h30 : (virt / 2 ^ s * 2 ^ s + n) / 2 ^ 30 = virt / 2 ^ 30 := add_div_two_pow hs hn
  have hlt : virt / 2 ^ s * 2 ^ s + n < 2 ^ 64 := by
    have h64 : (virt / 2 ^ s * 2 ^ s + n) / 2 ^ 64 = virt / 2 ^ 64 := add_div_two_pow (by omega) hn
    rw [Nat.div_eq_of_lt hvirt] at h64
    exact (Nat.div_eq_zero_iff_lt (Nat.two_pow_pos 64)).mp h64
  refine (readyCall hM hP hsize hmode hk hπ hπ2 hlt fuel h1.tree
    ((h1.within.own_iff dir _ (snoc_not_prefix_self _ _)).mpr hdir)
    (by rw [h39, h30]; exact h1.ready)).mono ?_
  rintro st2 ⟨own2, h2⟩
  rw [h39, h30] at h2
  exact ⟨own2, h1.trans h2⟩

/-- The first call of a loop may find a large page behind its first two indices. It is split by
calls that start one level further down. -/
theorem firstCall (hmode : M.mode = .fourLevel) (hk : k + size.toNat = π.length + 3)
    (hπ : 1 ≤ π.length) (hπ2 : π.length ≤ 2) (hvirt : virt < 2 ^ 64) (fuel : ℕ)
    (hT : Tree M root (.dirty (k + 1) P) st own) (hdir : own dir = some π) :
    Ensures (vmmMap M fuel st dir virt phys flags size) fun st' => ∃ own',
      Tree M root (.dirty k P) st' own' ∧
        Ready π (virt / 2 ^ 39 % 512) (virt / 2 ^ 30 % 512) st' own' ∧
        Within (π ++ [virt / 2 ^ 39 % 512]) st own st' own' := by
  have hle := size_toNat_le_one hsize
  by_cases hready : Ready π (virt / 2 ^ 39 % 512) (virt / 2 ^ 30 % 512) st own
  · refine (readyCall hM hP hsize hmode hk hπ hπ2 hvirt fuel (hT.mono_dirty (Nat.le_succ k)) hdir
      hready).mono ?_
    rintro st' ⟨own', h⟩
    exact ⟨own', h.tree, h.ready, h.within⟩
  unfold Ready at hready
  push Not at hready
  obtain ⟨f, t, hf, hmem, hlarge⟩ := hready
  -- a large page of callers is in a table of depth 2 at most
  have h1 : π.length = 1 := by
    have hdeep := hT.large hf hmem hlarge
    simp only [Shape.dirty, length_snoc] at hdeep
    omega
  cases fuel with
  | zero => exact .error _
  | succ fuel =>
  rw [vmmMap, vmmMapBody_eq hmode hsize, tableIndex_eq, hT.getNextLevel_child hdir hf]
  simp only [bind, Except.bind, fromPml3]
  rw [tableIndex_eq, getNextLevel_large hmem hlarge]
  refine (hT.splitLarge_ensures hM hf hmem (fun g st' =>
    ∃ own', Tree M root (.dirty (k + 1) P) st' own' ∧
    Within (π ++ [virt / 2 ^ 39 % 512]) st own st' own' ∧
    own' g = some (π ++ [virt / 2 ^ 39 % 512] ++ [virt / 2 ^ 30 % 512])) fun g hg => ?_).bind ?_
  · have hT1 := hT.link hM hg hf hmem hlarge.not_isTable
    have hW1 := hT.within_link (i := virt / 2 ^ 30 % 512) hM hg hf hmem
    have hf1 := (hW1.own_iff f _ (snoc_not_prefix_self _ _)).mpr hf
    rw [pageStart_eq hvirt (by norm_num)]
    refine (readyLoop hM hP hsize hmode (by rw [length_snoc]; omega) (by rw [length_snoc]; omega)
      (by rw [length_snoc]; omega) hvirt le_rfl fuel _ 0
      ((Nat.zero_add _).le.trans (turns_mul (by norm_num) (by omega)).le) hT1 hf1 ?_).mono ?_
    · intro f' t' hf' ht' hl
      have hdeep := hT1.large hf' ht' hl
      simp only [Shape.dirty, length_snoc] at hdeep
      omega
    · rintro st2 ⟨own2, h2⟩
      have hg1 : linkedOwn own g (π ++ [virt / 2 ^ 39 % 512]) (virt / 2 ^ 30 % 512) g =
          some (π ++ [virt / 2 ^ 39 % 512] ++ [virt / 2 ^ 30 % 512]) := linkedOwn_self
      refine ⟨own2, h2.tree, (hW1.mono (List.prefix_append ..)).trans
        (h2.within.mono (List.prefix_append ..)), ?_⟩
      by_cases heq : virt / 2 ^ 39 % 512 = virt / 2 ^ 30 % 512
      · have hg1' := hg1.trans (show _ = some (π ++ [virt / 2 ^ 39 % 512] ++
        [virt / 2 ^ 39 % 512]) by
          rw [heq])
        rw [← heq]
        exact ((h2.within_of_table g hg1').own_iff g _ (snoc_not_prefix_self _ _)).mpr hg1'
      · refine (h2.within.own_iff g _ fun hp => heq ?_).mpr hg1
        exact (prefix_snoc_inj hp (snoc_not_prefix_self _ _)).2.symm
  · rintro ⟨g, st2⟩ ⟨own2, hT2, hW2, hg⟩
    refine (fromPml2_dirty hM hP hsize (by rw [length_snoc, length_snoc]; omega)
      (by rw [length_snoc, length_snoc]; omega) (hT2.mono_dirty (Nat.le_succ k)) hg).mono ?_
    rintro st' ⟨own', hT', hW'⟩
    refine ⟨own', hT', .of_child hT' ((hW'.own_iff g _ (snoc_not_prefix_self _ _)).mpr hg),
      hW2.trans (hW'.mono ((List.prefix_append _ _).trans (List.prefix_append _ _)))⟩

/-- The table that replaces a large page is empty, up to one entry. -/
theorem splitLarge_holes (hmode : M.mode = .fourLevel) (hk : k + size.toNat = π.length + 3)
    (hπ : 1 ≤ π.length) (hπ2 : π.length ≤ 2) (hvirt : virt < 2 ^ 64)
    {level : ℕ} (hlevel : level ≤ 2)
    (hlt : size.toNat < level) (fuel : ℕ) (hT : Tree M root (.plain P) st own)
    (hdir : own dir = some π) {t : ℕ → ℕ} (hmem : st.mem dir = some t) {i : ℕ}
    (hlarge : isLarge (t i)) :
    Ensures (splitLarge M (vmmMap M fuel) st dir virt size level i (t i)) fun r => ∃ own' t',
      Tree M root (.dirty k P) r.2 own' ∧ own' r.1 = some (π ++ [i]) ∧ r.2.mem r.1 = some t' ∧
        (∀ n, n ≠ virt / 2 ^ 30 % 512 → t' n = 0) ∧ ∀ n, ¬ isLarge (t' n) := by
  have htab := hlarge.not_isTable
  refine hT.splitLarge_ensures hM hdir hmem (fun g st' => ∃ own' t',
    Tree M root (.dirty k P) st' own' ∧ own' g = some (π ++ [i]) ∧ st'.mem g = some t' ∧
      (∀ n, n ≠ virt / 2 ^ 30 % 512 → t' n = 0) ∧ ∀ n, ¬ isLarge (t' n)) fun g hg => ?_
  have hT1 := hT.link hM hg hdir hmem htab
  have hdir1 := ((hT.within_link (i := i) hM hg hdir hmem).own_iff dir _
    (snoc_not_prefix_self _ _)).mpr hdir
  have hg1 : linkedOwn own g π i g = some (π ++ [i]) := linkedOwn_self
  have hmem1 : (linked st g dir t i).mem g = some fun _ => 0 := hT.linked_mem hM hg hdir
  have hturns := turns_mul (hlevel.trans (by norm_num)) hlt
  have hzero : ∀ t' n, (linked st g dir t i).mem g = some t' → ¬ isLarge (t' n) := by
    intro t' n ht'
    obtain rfl := Option.some.inj (hmem1.symm.trans ht')
    exact show ¬ isLarge 0 by decide
  rw [pageStart_eq hvirt (by omega)]
  by_cases heq : virt / 2 ^ 39 % 512 = i
  · -- the calls come to the new table right away, and go on behind its entry for their second index
    subst heq
    refine (readyLoop hM hP hsize hmode hk hπ hπ2 hvirt (by omega) fuel _ 0
      ((Nat.zero_add _).le.trans hturns.le) (hT1.mono_plain k) hdir1 ?_).mono ?_
    · intro f' t' hf' ht'
      obtain rfl := hT1.inj hf' hg1
      exact hzero t' _ ht'
    · rintro st2 ⟨own2, h2⟩
      have hW := h2.within_of_table g hg1
      obtain ⟨t2, ht2, heq2⟩ := hW.mem_eq g _ _ hg1 (snoc_not_prefix_self _ _) hmem1
      obtain ⟨hg2, hl2⟩ := h2.not_isLarge (hT1.mono_plain k) hg1 hzero
      refine ⟨own2, t2, h2.tree, hg2, ht2, fun n hn => ?_, fun n => hl2 t2 n ht2⟩
      exact heq2 n fun hp => hn (prefix_snoc_inj hp (snoc_not_prefix_self _ _)).2
  · -- all calls go on behind another entry of the directory
    have hstep : 0 < pageSizes size.toNat := by cases size <;> decide
    obtain ⟨turns, hsucc⟩ : ∃ turns,
        (pageSizes level + pageSizes size.toNat - 1) / pageSizes size.toNat = turns + 1 := by
      refine ⟨_, (Nat.succ_pred_eq_of_pos (Nat.pos_of_ne_zero fun h0 => ?_)).symm⟩
      rw [h0, Nat.zero_mul] at hturns
      exact (Nat.two_pow_pos _).ne hturns
    have hbase : virt / 2 ^ (12 + 9 * level) * 2 ^ (12 + 9 * level) ≤ virt :=
      Nat.div_mul_le_self ..
    have hidx : ∀ n, 12 + 9 * level ≤ n →
        (virt / 2 ^ (12 + 9 * level) * 2 ^ (12 + 9 * level)) / 2 ^ n = virt / 2 ^ n := fun n hn =>
      add_div_two_pow hn (Nat.two_pow_pos _)
    rw [hsucc] at hturns ⊢
    rw [mapLoop, Nat.add_zero, Nat.add_zero]
    refine (firstCall hM hP hsize hmode hk hπ hπ2 (hbase.trans_lt hvirt) fuel
      (hT1.mono_plain (k + 1)) hdir1).bind ?_
    rintro st2 ⟨own2, hT2, hready, hW2⟩
    rw [hidx 39 (by omega)] at hready hW2
    rw [hidx 30 (by omega)] at hready
    refine (readyLoop hM hP hsize hmode hk hπ hπ2 hvirt (by omega) fuel turns _
      (by rw [Nat.succ_mul] at hturns; omega) hT2
      ((hW2.own_iff dir _ (snoc_not_prefix_self _ _)).mpr hdir1) hready).mono ?_
    rintro st3 ⟨own3, h3⟩
    have hW := hW2.trans h3.within
    have hout : ¬ π ++ [virt / 2 ^ 39 % 512] <+: π ++ [i] := fun hp =>
      heq (prefix_snoc_inj hp (snoc_not_prefix_self _ _)).2.symm
    obtain ⟨t3, ht3, heq3⟩ := hW.mem_eq g _ _ hg1 hout hmem1
    have hentry : ∀ n, t3 n = 0 := by
      refine fun n => heq3 n fun hp => ?_
      have := congrArg List.length (prefix_snoc_inj hp hout).1
      rw [length_snoc] at this
      omega
    refine ⟨own3, t3, h3.tree, (hW.own_iff g _ hout).mpr hg1, ht3, fun n _ => hentry n, fun n => ?_⟩
    rw [hentry n]
    exact show ¬ isLarge 0 by decide

end Below

/-! ## Holes in the address space -/

/-- The call asks for a page inside a larger one. -/
def Splits (st : State) (root : ℕ) (c : Call) : Prop :=
  ∃ l, walk st root c.virt = some l ∧ c.size.bytes < l.size

/-- The two addresses are in one page of `s` bytes. -/
def SamePage (s v w : ℕ) : Prop := v % 2 ^ 48 / s = w % 2 ^ 48 / s

/-- What a translation is compared by: the address, and the write and no-execute flags. -/
def Leaf.seen (l : Leaf) : ℕ × ℕ := (l.phys, vmmFlags l.flags)

/-- The call succeeds and keeps the address space: the small page has the new target, the rest of
the large page its old one, and nothing changes elsewhere. -/
def Preserves (M : Machine) (root : ℕ) (st : State) (c : Call) : Prop :=
  ∃ fuel st', c.map M fuel root st = .ok st' ∧ ∀ l, walk st root c.virt = some l → ∀ v < 2 ^ 64,
    (c.Contains v →
      (walk st' root v).map Leaf.phys = some (c.phys + (v % 2 ^ 48 - c.virt % 2 ^ 48))) ∧
    (¬ c.Contains v → SamePage l.size v c.virt →
      (walk st' root v).map Leaf.seen = (walk st root v).map Leaf.seen) ∧
    (¬ SamePage l.size v c.virt → walk st' root v = walk st root v)

section Holes

variable {M : Machine} {root : ℕ} {P : ℕ → Prop} {st : State} {own : ℕ → Option (List ℕ)}

theorem Call.takes_entry_dirty {c : Call} {k : ℕ} {π : List ℕ}
    (hleaf : c.size = .size4KiB → P c.phys) (hπ : π.length + c.size.toNat = 3) :
    (Shape.dirty k P).Takes π c.entry := by
  obtain ⟨htable, hlarge⟩ := c.takes_entry hleaf hπ
  exact ⟨fun h => .inl (htable h), fun h => .inl (hlarge h)⟩

theorem Tree.exists_leaf {S : Shape} (hT : Tree M root S st own) (hS : S.Regular) {v : ℕ} {l : Leaf}
    (level d f : ℕ) (hd : d + level = 3) (hf : own f = some ((pathOf v).take d))
    (h : walkFrom st v (level + 1) f grantFlags 0 = some l) :
    ∃ d' level' f' t', d' + level' = 3 ∧ own f' = some ((pathOf v).take d') ∧
      st.mem f' = some t' ∧ l.size = 2 ^ (12 + 9 * level') ∧
      (level' = 0 ∨ level' ≤ 2 ∧ isLarge (t' (v / 2 ^ (12 + 9 * level') % 512))) := by
  induction level generalizing d f with
  | zero =>
    obtain ⟨t, ht⟩ := hT.owned hf
    refine ⟨d, 0, f, t, hd, hf, ht, ?_, .inl rfl⟩
    by_cases h0 : (t (v / 2 ^ 12 % 512)).testBit 0 = true
    · rw [walkFrom_last ht h0] at h
      obtain rfl := Option.some.inj h
      rfl
    · rw [walkFrom_absent ht (by simpa using h0)] at h
      cases h
  | succ level ih =>
    obtain ⟨t, ht⟩ := hT.owned hf
    by_cases htab : isTable (t (v / 2 ^ (12 + 9 * (level + 1)) % 512))
    · rcases hT.child hf ht (Nat.mod_lt _ (by norm_num)) htab with ⟨g, hg, hent, hown⟩ | hleaf
      · rw [← take_pathOf_succ v hd] at hown
        rw [walkFrom_table hg ht hent] at h
        exact ih (d + 1) g (by omega) hown h
      · have := hS.deep _ _ hleaf
        have := List.length_take_le d (pathOf v)
        omega
    by_cases hlarge : isLarge (t (v / 2 ^ (12 + 9 * (level + 1)) % 512))
    · have hle : level + 1 ≤ 2 := by
        by_contra hgt
        obtain rfl : d = 0 := by omega
        exact hS.not_large_nil (hT.large hf ht hlarge)
      refine ⟨d, level + 1, f, t, hd, hf, ht, ?_, .inr ⟨hle, hlarge⟩⟩
      rw [walkFrom_large ht hlarge (by omega) hle] at h
      obtain rfl := Option.some.inj h
      rfl
    · rw [walkFrom_absent ht (testBit_zero_of_absent htab hlarge)] at h
      cases h

theorem Within.keeps {π : List ℕ} {i g : ℕ} {st' : State} {own' : ℕ → Option (List ℕ)} {t : ℕ → ℕ}
    (hW : Within (π ++ [i]) st own st' own') (hg : own g = some π) (hmem : st.mem g = some t) :
    own' g = some π ∧ ∃ t', st'.mem g = some t' ∧ ∀ n, n ≠ i → t' n = t n := by
  obtain ⟨t', ht', heq⟩ := hW.mem_eq g π t hg (snoc_not_prefix_self _ _) hmem
  exact ⟨(hW.own_iff g π (snoc_not_prefix_self _ _)).mpr hg, t', ht', fun n hn => heq n fun hp =>
    hn (prefix_snoc_inj hp (snoc_not_prefix_self _ _)).2⟩

variable (hM : FreshFrames M root) (hP : ∀ a, P a → Foreign M root a) (hmode : M.mode = .fourLevel)
  (hT : Tree M root (.plain P) st own) {c : Call} (hleaf : c.size = .size4KiB → P c.phys)

include hM hP hmode hT hleaf

/-- A 1 GiB page is split: the new table has its two entries at most. -/
theorem map_holes_gib {f : ℕ} {t : ℕ → ℕ} (hf : own f = some ((pathOf c.virt).take 1))
    (hmem : st.mem f = some t) (hlarge : isLarge (t (c.virt / 2 ^ 30 % 512)))
    (hlt : c.size.toNat < 2) (fuel : ℕ) :
    Ensures (c.map M fuel root st) fun st' => ∃ S own' g t', Tree M root S st' own' ∧
      own' g = some ((pathOf c.virt).take 2) ∧ st'.mem g = some t' ∧
      ∀ n, n ≠ c.virt / 2 ^ 30 % 512 → n ≠ c.virt / 2 ^ 21 % 512 → t' n = 0 := by
  have hsize : c.size ≠ .size1GiB := by
    intro h
    rw [h, PageSize.toNat] at hlt
    omega
  cases fuel with
  | zero => exact .error _
  | succ fuel =>
  rw [Call.map, vmmMap, vmmMapBody_eq hmode hsize, tableIndex_eq,
    hT.getNextLevel_child hT.root_own hf]
  simp only [bind, Except.bind, fromPml3]
  rw [tableIndex_eq, getNextLevel_large hmem hlarge]
  refine (splitLarge_holes (k := 4 - c.size.toNat) hM hP hsize hmode
    (show _ = 1 + 3 by omega) le_rfl (by norm_num [pathOf]) c.virt_lt le_rfl hlt fuel hT hf hmem
    hlarge).bind ?_
  rintro ⟨g, st1⟩ ⟨own1, t1, hT1, hg1, ht1, hzero, hl1⟩
  have hlen : ((pathOf c.virt).take 1 ++ [c.virt / 2 ^ 30 % 512]).length = 2 := rfl
  refine (fromPml2_ensures hT1 hM hsize hg1 (fun _ t' ht' => ?_) (fun h4 => ?_) ?_).mono ?_
  · obtain rfl := Option.some.inj (ht1.symm.trans ht')
    exact hl1 _
  · rw [h4]
    exact foreign_of_dirty hP (by rw [hlen]; decide)
  · rw [entryFor_eq]
    split_ifs with h4
    · exact c.takes_entry_dirty hleaf (by rw [h4]; rfl)
    · refine c.takes_entry_dirty hleaf ?_
      cases hs : c.size with
      | size4KiB => exact absurd hs h4
      | size2MiB => rfl
      | size1GiB => exact absurd hs hsize
  · rintro st' ⟨own', hT', hW'⟩
    obtain ⟨hg', t', ht', heq⟩ := hW'.keeps hg1 ht1
    exact ⟨_, own', g, t', hT', hg', ht', fun n h30 h21 => (heq n h21).trans (hzero n h30)⟩

theorem map_holes_mib {f : ℕ} {t : ℕ → ℕ} (hf : own f = some ((pathOf c.virt).take 2))
    (hmem : st.mem f = some t) (hlarge : isLarge (t (c.virt / 2 ^ 21 % 512)))
    (h4 : c.size = .size4KiB) (fuel : ℕ) :
    Ensures (c.map M fuel root st) fun st' => ∃ S own' g t', Tree M root S st' own' ∧
      own' g = some ((pathOf c.virt).take 3) ∧ st'.mem g = some t' ∧
      ∀ n, n ≠ c.virt / 2 ^ 30 % 512 → n ≠ c.virt / 2 ^ 12 % 512 → t' n = 0 := by
  have hsize : c.size ≠ .size1GiB := by
    rw [h4]
    decide
  -- the table above
  obtain ⟨-, f3, -, hf3, -, -⟩ := hT.parent
    (show own f = some ((pathOf c.virt).take 1 ++ [c.virt / 2 ^ 30 % 512]) from hf)
  cases fuel with
  | zero => exact .error _
  | succ fuel =>
  rw [Call.map, vmmMap, vmmMapBody_eq hmode hsize, tableIndex_eq,
    hT.getNextLevel_child hT.root_own hf3]
  simp only [bind, Except.bind, fromPml3]
  rw [tableIndex_eq, hT.getNextLevel_child hf3 hf]
  simp only [fromPml2, if_neg (show c.size ≠ .size2MiB by rw [h4]; decide)]
  rw [tableIndex_eq, getNextLevel_large hmem hlarge]
  refine (splitLarge_holes (k := 5) hM hP hsize hmode (by rw [h4]; rfl)
    (by norm_num [pathOf]) le_rfl
    c.virt_lt (by norm_num) (by rw [h4]; decide) fuel hT hf hmem hlarge).bind ?_
  rintro ⟨g, st1⟩ ⟨own1, t1, hT1, hg1, ht1, hzero, -⟩
  have hentry : c.phys ||| leafFlags (c.flags ||| ptFlagValid) = c.entry := Call.entry_small h4
  simp only [hentry]
  refine (hT1.write_ensures hg1 (c.takes_entry_dirty hleaf (by rw [h4]; rfl))).mono ?_
  rintro st' ⟨own', hT', hW'⟩
  obtain ⟨hg', t', ht', heq⟩ := hW'.keeps hg1 ht1
  rw [tableIndex_eq] at heq
  exact ⟨_, own', g, t', hT', hg', ht', fun n h30 h12 => (heq n h12).trans (hzero n h30)⟩

omit hM hP hmode hT hleaf in
/-- An address of the page at `level + 1` around `w`, with index `j` below. -/
theorem pageAddr_spec {w level d j : ℕ} (hw : w < 2 ^ 64) (hd : d + (level + 1) = 3) (hj : j < 512)
    {v : ℕ} (hv : v = w / 2 ^ (21 + 9 * level) * 2 ^ (21 + 9 * level) + j * 2 ^ (12 + 9 * level)) :
    v < 2 ^ 64 ∧ SamePage (2 ^ (21 + 9 * level)) v w ∧
      (pathOf v).take (d + 1) = (pathOf w).take (d + 1) ∧ v / 2 ^ (12 + 9 * level) % 512 = j := by
  have hoff : j * 2 ^ (12 + 9 * level) < 2 ^ (21 + 9 * level) := by
    rw [show 21 + 9 * level = 9 + (12 + 9 * level) by omega, pow_add 2 9]
    exact Nat.mul_lt_mul_of_pos_right hj (Nat.two_pow_pos _)
  have hdiv : ∀ n, 21 + 9 * level ≤ n → v / 2 ^ n = w / 2 ^ n := by
    intro n hn
    rw [hv]
    exact add_div_two_pow hn hoff
  refine ⟨?_, ?_, ?_, ?_⟩
  · have h64 := hdiv 64 (by omega)
    rw [Nat.div_eq_of_lt hw] at h64
    exact (Nat.div_eq_zero_iff_lt (Nat.two_pow_pos 64)).mp h64
  · unfold SamePage
    rw [show 48 = 21 + 9 * level + (27 - 9 * level) by omega, pow_add, Nat.mod_mul_right_div_self,
      Nat.mod_mul_right_div_self, hdiv _ le_rfl]
  · have hlevel : level ≤ 2 := by omega
    obtain rfl : d = 2 - level := by omega
    unfold pathOf
    rw [hdiv 39 (by omega)]
    interval_cases level
    · rw [hdiv 30 (by norm_num), hdiv 21 (by norm_num)]
      rfl
    · rw [hdiv 30 (by norm_num)]
      rfl
    · rfl
  · rw [hv, show 21 + 9 * level = 12 + 9 * level + 9 by omega, pow_add _ _ 9, ← Nat.mul_assoc,
      Nat.mul_right_comm, ← Nat.add_mul, Nat.mul_div_cancel _ (Nat.two_pow_pos _)]
    omega

omit hM hP hmode hT hleaf in
theorem exists_index_ne (a b : ℕ) : ∃ j < 512, j ≠ a ∧ j ≠ b := by
  by_cases h0 : 0 ≠ a ∧ 0 ≠ b
  · exact ⟨0, by norm_num, h0⟩
  by_cases h1 : 1 ≠ a ∧ 1 ≠ b
  · exact ⟨1, by norm_num, h1⟩
  · exact ⟨2, by norm_num, by omega, by omega⟩

/-- After a split some address of the large page is not mapped any more. -/
theorem exists_hole {l : Leaf} (hl : walk st root c.virt = some l) (hlt : c.size.bytes < l.size)
    {fuel : ℕ} {st' : State} (hmap : c.map M fuel root st = .ok st') :
    ∃ v < 2 ^ 64, ¬ c.Contains v ∧ SamePage l.size v c.virt ∧ walk st root v ≠ none ∧
      walk st' root v = none := by
  obtain ⟨d, level, f, t, hd, hf, hmem, hls, hcase⟩ :=
    hT.exists_leaf (Shape.plain_regular P) 3 0 root rfl hT.root_own hl
  rw [hls, PageSize.bytes_eq, Nat.pow_lt_pow_iff_right (by norm_num)] at hlt
  rcases hcase with rfl | ⟨hle, hlarge⟩
  · omega
  obtain ⟨m, rfl⟩ : ∃ m, level = m + 1 := ⟨level - 1, by omega⟩
  have hidx : 12 + 9 * (m + 1) = 21 + 9 * m := by omega
  have hholes : ∃ S own' g t', Tree M root S st' own' ∧
      own' g = some ((pathOf c.virt).take (d + 1)) ∧ st'.mem g = some t' ∧
      ∀ n, n ≠ c.virt / 2 ^ 30 % 512 → n ≠ c.virt / 2 ^ (12 + 9 * m) % 512 → t' n = 0 := by
    have hm : m ≤ 1 := by omega
    interval_cases m
    · obtain rfl : d = 2 := by omega
      have h4 : c.size = .size4KiB := by
        cases hs : c.size with
        | size4KiB => rfl
        | size2MiB => rw [hs, PageSize.toNat] at hlt; omega
        | size1GiB => rw [hs, PageSize.toNat] at hlt; omega
      exact map_holes_mib hM hP hmode hT hleaf hf hmem hlarge h4 fuel st' hmap
    · obtain rfl : d = 1 := by omega
      exact map_holes_gib hM hP hmode hT hleaf hf hmem hlarge (by omega) fuel st' hmap
  obtain ⟨S, own', g, t', hT', hg', ht', hzero⟩ := hholes
  obtain ⟨j, hj, hj30, hjm⟩ :=
    exists_index_ne (c.virt / 2 ^ 30 % 512) (c.virt / 2 ^ (12 + 9 * m) % 512)
  obtain ⟨v, hv⟩ : ∃ v, v = c.virt / 2 ^ (21 + 9 * m) * 2 ^ (21 + 9 * m) + j * 2 ^ (12 + 9 * m) :=
    ⟨_, rfl⟩
  obtain ⟨hv64, hpage, htake, hvj⟩ := pageAddr_spec c.virt_lt hd hj hv
  have hpre : (pathOf c.virt).take (d + 1) <+: pathOf v := by
    rw [← htake]
    exact List.take_prefix ..
  obtain ⟨-, htaked, hvi⟩ := take_pathOf_eq hd hpre
  refine ⟨v, hv64, fun hc => ?_, by rw [hls, hidx]; exact hpage, ?_, ?_⟩
  · -- the page of the call is behind another index
    rw [c.contains_iff] at hc
    have hpre2 : (pathOf c.virt).take (d + 1 + 1) <+: pathOf v :=
      (List.take_prefix_take_left (by omega)).trans hc
    obtain ⟨-, -, hvm⟩ := take_pathOf_eq (show d + 1 + m = 3 by omega) hpre2
    omega
  · rw [hT.walk_descend v d (m + 1) f hd (htaked ▸ hf),
      walkFrom_large hmem (by rw [hvi]; exact hlarge) (by omega) hle]
    exact nofun
  · rw [hT'.walk_descend v (d + 1) m g (by omega) (htake ▸ hg')]
    refine walkFrom_absent ht' ?_
    rw [hvj, hzero j hj30 hjm]
    exact Nat.zero_testBit 0

theorem not_preserves (hs : Splits st root c) : ¬ Preserves M root st c := by
  rintro ⟨fuel, st', hmap, hpres⟩
  obtain ⟨l, hl, hlt⟩ := hs
  obtain ⟨v, hv, hc, hpage, hsome, hnone⟩ := exists_hole hM hP hmode hT hleaf hl hlt hmap
  have hseen := (hpres l hl v hv).2.1 hc hpage
  rw [hnone, Option.map_none] at hseen
  exact hsome (Option.map_eq_none_iff.mp hseen.symm)

end Holes

/-! ## Runs -/

section Runs

variable {M : Machine} {root : ℕ}

/-- As long as no call splits a page, the state is as the calls ask for. -/
theorem holds_of_not_splits (hM : FreshFrames M root) (hmode : M.mode = .fourLevel)
    (hgib : M.is1GibPageSupported = true) {P : ℕ → Prop} {fuel : ℕ} (before : List Call)
    {st : State}
    (hleaf : ∀ c ∈ before, c.size = .size4KiB → P c.phys)
    (hns : ∀ cs c after st, before = cs ++ c :: after →
      mapAll M fuel root (State.init root) cs = .ok st → Holds M root P cs st → ¬ Splits st root c)
    (hst : mapAll M fuel root (State.init root) before = .ok st) : Holds M root P before st := by
  induction before using List.reverseRecOn generalizing st with
  | nil =>
    obtain rfl := Except.ok.inj hst
    exact Holds.init
  | append_singleton cs c ih =>
    rw [mapAll_append] at hst
    rcases hcs : mapAll M fuel root (State.init root) cs with e | st1
    · rw [hcs] at hst
      cases hst
    · rw [hcs] at hst
      have h1 := ih (fun c' hc' => hleaf c' (List.mem_append_left _ hc'))
        (fun cs' c' after' st' heq => hns cs' c' (after' ++ [c]) st' (by rw [heq]; simp)) hcs
      have hnot := hns cs c [] st1 rfl hcs h1
      have hfuel : 1 ≤ fuel := by
        cases fuel with
        | zero => cases hst
        | succ n => omega
      refine (h1.step hM hmode (.inr ⟨hgib, hfuel⟩) (fun w hw => ?_) (hleaf c (by simp))).elim
        (fun h => ?_) fun ⟨st2, h2, hh⟩ => ?_
      · by_contra hlt
        refine hnot ⟨w.leaf M.is1GibPageSupported c.virt, ?_, not_le.mp hlt⟩
        rw [h1.walk_eq, hw]
        rfl
      · cases h.symm.trans hst
      · obtain rfl := Except.ok.inj (h2.symm.trans hst)
        exact hh

/-- A run keeps its address space at every split just if it has none: no split does. -/
theorem preserves_iff_not_splits (M : Machine) (root : ℕ) (hM : FreshFrames M root)
    (hmode : M.mode = .fourLevel) (hgib : M.is1GibPageSupported = true) (cs : List Call)
    (hforeign : ∀ c ∈ cs, c.size = .size4KiB → Foreign M root c.phys) :
    (∀ before c after fuel st, cs = before ++ c :: after →
      mapAll M fuel root (State.init root) before = .ok st → Splits st root c →
        Preserves M root st c) ↔
    ∀ before c after fuel st, cs = before ++ c :: after →
      mapAll M fuel root (State.init root) before = .ok st → ¬ Splits st root c := by
  constructor
  · intro hpres before c after fuel st hcs hst hs
    have hno : ∀ cs' c' after' st', cs = cs' ++ c' :: after' →
        mapAll M fuel root (State.init root) cs' = .ok st' →
        Holds M root (Foreign M root) cs' st' → ¬ Splits st' root c' := by
      intro cs' c' after' st' heq hst' hh hs'
      obtain ⟨own, hT⟩ := hh.tree
      exact not_preserves hM (fun _ => id) hmode hT (hforeign c' (by simp [heq])) hs'
        (hpres cs' c' after' fuel st' heq hst' hs')
    have hh := holds_of_not_splits hM hmode hgib before
      (fun c' hc' => hforeign c' (by simp [hcs, hc']))
      (fun cs' c' after' st' heq => hno cs' c' (after' ++ c :: after) st' (by simp [hcs, heq])) hst
    exact hno before c after st hcs hst hh hs
  · intro hns before c after fuel st hcs hst hs
    exact absurd hs (hns before c after fuel st hcs hst)

/-- A 4 KiB page inside the page of `demoCall`. -/
def demoSmallCall : Call where
  virt := 0x200000
  phys := 0x800000
  flags := ptFlagWrite
  size := .size4KiB
  virt_lt := demoVirt_lt
  virt_aligned := rfl
  phys_aligned := rfl
  phys_lt := by norm_num
  flags_sub := subMask_ptFlagWrite

theorem demoSmallCall_foreign : Foreign (demoMachine true) 0x1000 demoSmallCall.phys := by
  refine ⟨by decide, fun k hk => ?_⟩
  simp only [demoMachine, demoSmallCall] at hk
  split_ifs at hk with h8
  have := Option.some.inj hk
  omega

theorem demo_splits : ∃ st,
    mapAll (demoMachine true) 2 0x1000 (State.init 0x1000) [demoCall 0x400000 (by norm_num)] =
      .ok st ∧
    Holds (demoMachine true) 0x1000 (Foreign (demoMachine true) 0x1000)
      [demoCall 0x400000 (by norm_num)] st ∧
    Splits st 0x1000 demoSmallCall := by
  have hns : NoSplit (demoMachine true).is1GibPageSupported [demoCall 0x400000 (by norm_num)] := by
    intro before c after hcs w hw
    have hnil : before = [] := by
      cases before with
      | nil => rfl
      | cons b bs => simp at hcs
    subst hnil
    cases hw
  obtain hmem | ⟨st, hst, hh⟩ := mapAll_holds (demoMachine_fresh true) rfl (.inl le_rfl) _ hns
    (P := Foreign (demoMachine true) 0x1000) fun c hc h4 => by
      rw [List.mem_singleton.mp hc] at h4
      cases h4
  · have hok : (mapAll (demoMachine true) 2 0x1000 (State.init 0x1000)
        [demoCall 0x400000 (by norm_num)]).isOk = true := by decide +kernel
    rw [hmem] at hok
    cases hok
  · exact ⟨st, hst, hh, _, hh.walk_eq 0x200000, by decide⟩

theorem preserves_iff_not_splits_demo :
    ¬ ∀ before c after fuel st, [demoCall 0x400000 (by norm_num), demoSmallCall] =
        before ++ c :: after →
      mapAll (demoMachine true) fuel 0x1000 (State.init 0x1000) before = .ok st →
        Splits st 0x1000 c → Preserves (demoMachine true) 0x1000 st c := by
  obtain ⟨st, hst, -, hs⟩ := demo_splits
  rw [preserves_iff_not_splits (demoMachine true) 0x1000 (demoMachine_fresh true) rfl rfl]
  · intro h
    exact h _ demoSmallCall [] 2 st rfl hst hs
  · intro c hc h4
    rcases List.mem_pair.mp hc with rfl | rfl
    · cases h4
    · exact demoSmallCall_foreign

theorem demoSmallCall_returns :
    (mapAll (demoMachine true) 2 0x1000 (State.init 0x1000) [demoCall 0x400000 (by norm_num)] >>=
      fun st => demoSmallCall.map (demoMachine true) 2 0x1000 st).isOk = true := by
  decide +kernel

/-- A 2 MiB page at `0x200000`, then a 4 KiB page there: the call returns, and an address of the
large page is lost. -/
theorem split_loses_address : ∃ st,
    mapAll (demoMachine true) 2 0x1000 (State.init 0x1000) [demoCall 0x400000 (by norm_num)] =
      .ok st ∧
    Splits st 0x1000 demoSmallCall ∧ ¬ Preserves (demoMachine true) 0x1000 st demoSmallCall ∧
    (∃ st', demoSmallCall.map (demoMachine true) 2 0x1000 st = .ok st') ∧
    ∀ fuel st', demoSmallCall.map (demoMachine true) fuel 0x1000 st = .ok st' →
      ∃ v < 2 ^ 64, ¬ demoSmallCall.Contains v ∧ SamePage 0x200000 v 0x200000 ∧
        walk st 0x1000 v ≠ none ∧ walk st' 0x1000 v = none := by
  obtain ⟨st, hst, hh, hs⟩ := demo_splits
  obtain ⟨own, hT⟩ := hh.tree
  have hleaf : demoSmallCall.size = .size4KiB →
      Foreign (demoMachine true) 0x1000 demoSmallCall.phys :=
    fun _ => demoSmallCall_foreign
  refine ⟨st, hst, hs, not_preserves (demoMachine_fresh true) (fun _ => id) rfl hT hleaf hs, ?_,
    fun fuel st' hmap => ?_⟩
  · have hok := demoSmallCall_returns
    rw [hst] at hok
    cases hsmall : demoSmallCall.map (demoMachine true) 2 0x1000 st with
    | error e =>
      simp only [bind, Except.bind, hsmall] at hok
      cases hok
    | ok st' => exact ⟨st', rfl⟩
  exact exists_hole (demoMachine_fresh true) (fun _ => id) rfl hT hleaf (hh.walk_eq 0x200000)
    (by decide) hmap

end Runs

end CappuccinOS.Paging
