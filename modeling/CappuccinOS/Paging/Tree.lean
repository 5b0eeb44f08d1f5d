import CappuccinOS.Paging.Walk

/-!
# Page tables form a tree

Every table in use is found on one path of indices from the root. `Tree` says so with a ghost
function `own` that gives the path of a table: the root has the empty path, different tables have
different paths, and a table entry of the table at path `π` and index `i` leads to the table at
`π ++ [i]`. A `Shape` says where there may be leaves: entries that look like table entries but are
4 KiB leaves, and large pages.

1. `Tree.link` and `Tree.setLeaf` are the two ways in which the source writes to a table: a new
   table is entered, or a leaf. A leaf may cut off a whole subtree, whose tables lose their paths.
2. `Within ρ` says that a change of state is confined to the subtree at path `ρ`.
3. `walk_eq_of_within`: then the walk of an address whose path does not go through `ρ` is as
   before.
-/

namespace CappuccinOS.Paging

/-- `pmm_alloc(1)` never hands out a frame twice, nor the root's. -/
structure FreshFrames (M : Machine) (root : ℕ) : Prop where
  inj : ∀ {j k g}, M.frames j = some g → M.frames k = some g → j = k
  frameAddr : ∀ {k g}, M.frames k = some g → FrameAddr g
  ne_root : ∀ {k g}, M.frames k = some g → g ≠ root

/-- Where leaves may be: the path of the table, and for 4 KiB leaves the address they lead to. -/
structure Shape where
  leaf : List ℕ → ℕ → Prop
  large : List ℕ → Prop

/-- The tables in use form a tree, and `own` gives the path of each. -/
structure Tree (M : Machine) (root : ℕ) (S : Shape) (st : State)
    (own : ℕ → Option (List ℕ)) : Prop where
  root_own : own root = some []
  owned : ∀ {f π}, own f = some π → ∃ t, st.mem f = some t
  inj : ∀ {f g π}, own f = some π → own g = some π → f = g
  alloc : ∀ {f t}, st.mem f = some t → f = root ∨ ∃ k < st.next, M.frames k = some f
  child : ∀ {f π t i}, own f = some π → st.mem f = some t → i < 512 → isTable (t i) →
    (∃ g, FrameAddr g ∧ t i = tableEntry g ∧ own g = some (π ++ [i])) ∨ S.leaf π (addr (t i))
  large : ∀ {f π t i}, own f = some π → st.mem f = some t → isLarge (t i) → S.large π
  parent : ∀ {g π i}, own g = some (π ++ [i]) →
    FrameAddr g ∧ ∃ f t, own f = some π ∧ st.mem f = some t ∧ t i = tableEntry g

/-- The change from `st` to `st'` is confined to the subtree at path `ρ`. -/
structure Within (ρ : List ℕ) (st : State) (own : ℕ → Option (List ℕ)) (st' : State)
    (own' : ℕ → Option (List ℕ)) : Prop where
  own_iff : ∀ f π, ¬ ρ <+: π → (own' f = some π ↔ own f = some π)
  mem_eq : ∀ f π t, own f = some π → ¬ ρ <+: π → st.mem f = some t →
    ∃ t', st'.mem f = some t' ∧ ∀ i, ¬ ρ <+: π ++ [i] → t' i = t i

/-! ## Confinement -/

namespace Within

variable {ρ ρ' : List ℕ} {st st' st'' : State} {own own' own'' : ℕ → Option (List ℕ)}

theorem refl (ρ : List ℕ) (st : State) (own : ℕ → Option (List ℕ)) : Within ρ st own st own :=
  ⟨fun _ _ _ => Iff.rfl, fun _ _ t _ _ ht => ⟨t, ht, fun _ _ => rfl⟩⟩

theorem trans (h : Within ρ st own st' own') (h' : Within ρ st' own' st'' own'') :
    Within ρ st own st'' own'' := by
  refine ⟨fun f π hπ => (h'.own_iff f π hπ).trans (h.own_iff f π hπ), fun f π t hf hπ ht => ?_⟩
  obtain ⟨t', ht', heq⟩ := h.mem_eq f π t hf hπ ht
  obtain ⟨t'', ht'', heq'⟩ := h'.mem_eq f π t' ((h.own_iff f π hπ).mpr hf) hπ ht'
  exact ⟨t'', ht'', fun i hi => (heq' i hi).trans (heq i hi)⟩

/-- A change confined to a subtree is confined to every larger one. -/
theorem mono (h : Within ρ' st own st' own') (hρ : ρ <+: ρ') : Within ρ st own st' own' := by
  refine ⟨fun f π hπ => h.own_iff f π fun hp => hπ (hρ.trans hp), fun f π t hf hπ ht => ?_⟩
  obtain ⟨t', ht', heq⟩ := h.mem_eq f π t hf (fun hp => hπ (hρ.trans hp)) ht
  exact ⟨t', ht', fun i hi => heq i fun hp => hi (hρ.trans hp)⟩

end Within

theorem snoc_not_prefix_self (π : List ℕ) (i : ℕ) : ¬ π ++ [i] <+: π := by
  intro h
  have := h.length_le
  rw [List.length_append, List.length_singleton] at this
  omega

theorem prefix_snoc_inj {π σ : List ℕ} {i j : ℕ} (h : π ++ [i] <+: σ ++ [j])
    (hσ : ¬ π ++ [i] <+: σ) : σ = π ∧ j = i := by
  rcases List.prefix_concat_iff.mp h with he | hp
  · obtain ⟨h1, h2⟩ := List.append_inj' he rfl
    exact ⟨h1.symm, by simpa using h2.symm⟩
  · exact absurd hp hσ

/-! ## Writing to a table -/

section Write

variable {M : Machine} {root : ℕ} {S : Shape} {st : State} {own : ℕ → Option (List ℕ)}
  {f i : ℕ} {π : List ℕ} {t : ℕ → ℕ}

/-- The state after an entry of the table `t` at `f` is written. -/
def State.put (st : State) (f : ℕ) (t : ℕ → ℕ) (i e : ℕ) : State :=
  { st with mem := Function.update st.mem f (some (Function.update t i e)) }

theorem State.write_eq (hmem : st.mem f = some t) (e : ℕ) :
    st.write f i e = .ok (st.put f t i e) := by
  simp only [State.write, hmem, State.put]

theorem State.read_eq (hmem : st.mem f = some t) : st.read f i = .ok (t i) := by
  simp only [State.read, hmem]

/-- The paths after the subtree at `ρ` is cut off. -/
def prune (own : ℕ → Option (List ℕ)) (ρ : List ℕ) (g : ℕ) : Option (List ℕ) :=
  (own g).filter fun π => ¬ ρ <+: π

theorem prune_eq_some {ρ σ : List ℕ} {g : ℕ} :
    prune own ρ g = some σ ↔ own g = some σ ∧ ¬ ρ <+: σ := by
  simp [prune, Option.filter_eq_some_iff]

theorem State.put_mem_self (e : ℕ) :
    (st.put f t i e).mem f = some (Function.update t i e) := Function.update_self ..

theorem State.put_mem_of_ne {g : ℕ} (hg : g ≠ f) (e : ℕ) : (st.put f t i e).mem g = st.mem g :=
  Function.update_of_ne hg ..

/-- A table after `put`: the one that was written, or one that was there. -/
theorem State.put_mem_cases {g e : ℕ} {t' : ℕ → ℕ} (h : (st.put f t i e).mem g = some t') :
    g = f ∧ t' = Function.update t i e ∨ g ≠ f ∧ st.mem g = some t' := by
  by_cases hg : g = f
  · subst hg
    rw [State.put_mem_self] at h
    exact .inl ⟨rfl, (Option.some.inj h).symm⟩
  · rw [State.put_mem_of_ne hg] at h
    exact .inr ⟨hg, h⟩

theorem State.put_entry {g e : ℕ} {t' : ℕ → ℕ} (hmem : st.mem f = some t)
    (hmem' : st.mem g = some t') : ∃ t'', (st.put f t i e).mem g = some t'' ∧
      ∀ j, (g = f → j ≠ i) → t'' j = t' j := by
  by_cases hg : g = f
  · subst hg
    obtain rfl : t' = t := Option.some.inj (hmem'.symm.trans hmem)
    exact ⟨_, State.put_mem_self e, fun j hj => Function.update_of_ne (hj rfl) ..⟩
  · exact ⟨t', (State.put_mem_of_ne hg e).trans hmem', fun _ _ => rfl⟩

theorem within_put {own' : ℕ → Option (List ℕ)} (e : ℕ) (hf : own f = some π)
    (hmem : st.mem f = some t)
    (hown : ∀ g σ, ¬ π ++ [i] <+: σ → (own' g = some σ ↔ own g = some σ)) :
    Within (π ++ [i]) st own (st.put f t i e) own' := by
  refine ⟨hown, fun g σ t' hg hσ ht' => ?_⟩
  obtain ⟨t'', ht'', heq⟩ := State.put_entry (i := i) (e := e) hmem ht'
  refine ⟨t'', ht'', fun j hj => heq j ?_⟩
  rintro rfl rfl
  obtain rfl : σ = π := Option.some.inj (hg.symm.trans hf)
  exact hj List.prefix_rfl

theorem Tree.setLeaf (hT : Tree M root S st own) (hf : own f = some π)
    (hmem : st.mem f = some t) {e : ℕ} (he : isTable e → S.leaf π (addr e))
    (hl : isLarge e → S.large π) :
    Tree M root S (st.put f t i e) (prune own (π ++ [i])) where
  root_own := prune_eq_some.mpr ⟨hT.root_own, fun h => by simpa using h.length_le⟩
  owned := by
    intro g σ hg
    obtain ⟨t', ht'⟩ := hT.owned (prune_eq_some.mp hg).1
    by_cases hgf : g = f
    · subst hgf
      exact ⟨_, State.put_mem_self e⟩
    · exact ⟨t', (State.put_mem_of_ne hgf e).trans ht'⟩
  inj := fun hg hg' => hT.inj (prune_eq_some.mp hg).1 (prune_eq_some.mp hg').1
  alloc := by
    intro g t' ht'
    rcases State.put_mem_cases ht' with ⟨rfl, -⟩ | ⟨-, ht'⟩
    · exact hT.alloc hmem
    · exact hT.alloc ht'
  child := by
    intro g σ t' j hg ht' hj htab
    obtain ⟨hg, hσ⟩ := prune_eq_some.mp hg
    -- an entry other than the written one is as before, and so is the path it leads to
    have hold : ∀ {t''}, st.mem g = some t'' → t' j = t'' j → (σ = π → j ≠ i) →
        (∃ g', FrameAddr g' ∧ t' j = tableEntry g' ∧ prune own (π ++ [i]) g' = some (σ ++ [j])) ∨
          S.leaf σ (addr (t' j)) := by
      intro t'' hmem'' heq hne
      rw [heq] at htab ⊢
      rcases hT.child hg hmem'' hj htab with ⟨g', hg', hent, hown⟩ | hleaf
      · refine .inl ⟨g', hg', hent, prune_eq_some.mpr ⟨hown, fun hp => ?_⟩⟩
        obtain ⟨h1, h2⟩ := prefix_snoc_inj hp hσ
        exact hne h1 h2
      · exact .inr hleaf
    rcases State.put_mem_cases ht' with ⟨rfl, rfl⟩ | ⟨hgf, ht'⟩
    · have hσπ : σ = π := Option.some.inj (hg.symm.trans hf)
      by_cases hji : j = i
      · subst hji hσπ
        rw [Function.update_self] at htab ⊢
        exact .inr (he htab)
      · exact hold hmem (Function.update_of_ne hji ..) fun _ => hji
    · exact hold ht' rfl fun hσπ => absurd (hT.inj (hσπ ▸ hg) hf) hgf
  large := by
    intro g σ t' j hg ht' hlarge
    obtain ⟨hg, -⟩ := prune_eq_some.mp hg
    rcases State.put_mem_cases ht' with ⟨rfl, rfl⟩ | ⟨-, ht'⟩
    · obtain rfl : σ = π := Option.some.inj (hg.symm.trans hf)
      by_cases hji : j = i
      · rw [hji, Function.update_self] at hlarge
        exact hl hlarge
      · rw [Function.update_of_ne hji] at hlarge
        exact hT.large hf hmem hlarge
    · exact hT.large hg ht' hlarge
  parent := by
    intro g σ j hg
    obtain ⟨hg, hσ⟩ := prune_eq_some.mp hg
    obtain ⟨hframe, f', t', hf', hmem', hent⟩ := hT.parent hg
    have hσ' : ¬ π ++ [i] <+: σ := fun hp => hσ (hp.trans (List.prefix_append ..))
    obtain ⟨t'', ht'', heq⟩ := State.put_entry (i := i) (e := e) hmem hmem'
    refine ⟨hframe, f', t'', prune_eq_some.mpr ⟨hf', hσ'⟩, ht'', (heq j ?_).trans hent⟩
    rintro rfl rfl
    obtain rfl : σ = π := Option.some.inj (hf'.symm.trans hf)
    exact hσ List.prefix_rfl

theorem Tree.mem_next (hT : Tree M root S st own) (hM : FreshFrames M root) {g : ℕ}
    (hg : M.frames st.next = some g) : st.mem g = none := by
  rcases hmem : st.mem g with - | t
  · rfl
  · rcases hT.alloc hmem with hroot | ⟨k, hk, heq⟩
    · exact absurd hroot (hM.ne_root hg)
    · have := hM.inj heq hg
      omega

theorem Tree.own_next (hT : Tree M root S st own) (hM : FreshFrames M root) {g : ℕ}
    (hg : M.frames st.next = some g) : own g = none := by
  rcases hown : own g with - | π
  · rfl
  · obtain ⟨t, ht⟩ := hT.owned hown
    rw [hT.mem_next hM hg] at ht
    cases ht

theorem Tree.ne_next (hT : Tree M root S st own) (hM : FreshFrames M root) {g : ℕ}
    (hg : M.frames st.next = some g) {f : ℕ} {π : List ℕ} (hf : own f = some π) : f ≠ g := by
  rintro rfl
  rw [hT.own_next hM hg] at hf
  cases hf

/-- No table has the path of an entry that is not a table entry. -/
theorem Tree.own_ne_of_not_isTable (hT : Tree M root S st own) (hf : own f = some π)
    (hmem : st.mem f = some t) (hnot : ¬ isTable (t i)) (g : ℕ) : own g ≠ some (π ++ [i]) := by
  intro hg
  obtain ⟨hframe, f', t', hf', hmem', hent⟩ := hT.parent hg
  obtain rfl := hT.inj hf' hf
  obtain rfl : t' = t := Option.some.inj (hmem'.symm.trans hmem)
  exact hnot (hent ▸ isTable_tableEntry hframe)

theorem pmmAlloc_mem_self {g : ℕ} : (pmmAlloc st g).mem g = some fun _ => 0 :=
  Function.update_self ..

theorem pmmAlloc_mem_of_ne {g h : ℕ} (hh : h ≠ g) : (pmmAlloc st g).mem h = st.mem h :=
  Function.update_of_ne hh ..

theorem Tree.alloc_frame (hT : Tree M root S st own) (hM : FreshFrames M root) {g : ℕ}
    (hg : M.frames st.next = some g) : Tree M root S (pmmAlloc st g) own := by
  have hne : ∀ {h π}, own h = some π → h ≠ g := hT.ne_next hM hg
  refine ⟨hT.root_own, fun hh => ?_, hT.inj, fun {h t'} ht' => ?_, fun hh ht' hj htab => ?_,
    fun hh ht' hlarge => ?_, fun hh => ?_⟩
  · rw [pmmAlloc_mem_of_ne (hne hh)]
    exact hT.owned hh
  · by_cases hh : h = g
    · exact .inr ⟨st.next, Nat.lt_succ_self _, hh ▸ hg⟩
    · rw [pmmAlloc_mem_of_ne hh] at ht'
      rcases hT.alloc ht' with hroot | ⟨k, hk, heq⟩
      · exact .inl hroot
      · exact .inr ⟨k, Nat.lt_succ_of_lt hk, heq⟩
  · rw [pmmAlloc_mem_of_ne (hne hh)] at ht'
    exact hT.child hh ht' hj htab
  · rw [pmmAlloc_mem_of_ne (hne hh)] at ht'
    exact hT.large hh ht' hlarge
  · obtain ⟨hframe, f', t', hf', hmem', hent⟩ := hT.parent hh
    exact ⟨hframe, f', t', hf', (pmmAlloc_mem_of_ne (hne hf')).trans hmem', hent⟩

/-- The state and the paths after the new table `g` is entered. -/
def linked (st : State) (g f : ℕ) (t : ℕ → ℕ) (i : ℕ) : State :=
  (pmmAlloc st g).put f t i (tableEntry g)

def linkedOwn (own : ℕ → Option (List ℕ)) (g : ℕ) (π : List ℕ) (i : ℕ) : ℕ → Option (List ℕ) :=
  Function.update own g (some (π ++ [i]))

theorem linkedOwn_self {g : ℕ} : linkedOwn own g π i g = some (π ++ [i]) := Function.update_self ..

theorem linkedOwn_cases {g h : ℕ} {σ : List ℕ} (hh : linkedOwn own g π i h = some σ) :
    h = g ∧ σ = π ++ [i] ∨ own h = some σ := by
  unfold linkedOwn at hh
  by_cases hhg : h = g
  · subst hhg
    rw [Function.update_self] at hh
    exact .inl ⟨rfl, (Option.some.inj hh).symm⟩
  · rw [Function.update_of_ne hhg] at hh
    exact .inr hh

theorem Tree.linkTable_eq (hT : Tree M root S st own) (hM : FreshFrames M root) {g : ℕ}
    (hg : M.frames st.next = some g) (hf : own f = some π) (hmem : st.mem f = some t) :
    linkTable M st f i = .ok (g, linked st g f t i) := by
  have hmem' : (pmmAlloc st g).mem f = some t :=
    (pmmAlloc_mem_of_ne (hT.ne_next hM hg hf)).trans hmem
  simp only [linkTable, hg, State.write_eq hmem']
  rfl

theorem Tree.link (hT : Tree M root S st own) (hM : FreshFrames M root) {g : ℕ}
    (hg : M.frames st.next = some g) (hf : own f = some π) (hmem : st.mem f = some t)
    (hnot : ¬ isTable (t i)) : Tree M root S (linked st g f t i) (linkedOwn own g π i) := by
  have hA := hT.alloc_frame hM hg
  have hnone := hT.own_ne_of_not_isTable hf hmem hnot
  have hne : ∀ {h σ}, own h = some σ → h ≠ g := hT.ne_next hM hg
  have hkeep : ∀ {h σ}, own h = some σ → linkedOwn own g π i h = some σ := fun hh =>
    (Function.update_of_ne (hne hh) ..).trans hh
  have hmemA : (pmmAlloc st g).mem f = some t := (pmmAlloc_mem_of_ne (hne hf)).trans hmem
  refine ⟨hkeep hT.root_own, fun {h σ} hh => ?_, fun {h h' σ} hh hh' => ?_, fun {h t'} ht' => ?_,
    fun {h σ t' j} hh ht' hj htab => ?_, fun {h σ t' j} hh ht' hlarge => ?_,
    fun {h σ j} hh => ?_⟩
  · by_cases hhf : h = f
    · subst hhf
      exact ⟨_, State.put_mem_self _⟩
    · rcases linkedOwn_cases hh with ⟨rfl, -⟩ | hh
      · exact ⟨_, (State.put_mem_of_ne hhf _).trans pmmAlloc_mem_self⟩
      · obtain ⟨t', ht'⟩ := hA.owned hh
        exact ⟨t', (State.put_mem_of_ne hhf _).trans ht'⟩
  · rcases linkedOwn_cases hh with ⟨rfl, rfl⟩ | hho <;>
      rcases linkedOwn_cases hh' with ⟨rfl, hσ⟩ | hho'
    · rfl
    · exact absurd hho' (hnone h')
    · subst hσ
      exact absurd hho (hnone h)
    · exact hT.inj hho hho'
  · rcases State.put_mem_cases ht' with ⟨rfl, -⟩ | ⟨-, ht'⟩
    · exact hA.alloc hmemA
    · exact hA.alloc ht'
  · have hold : ∀ {t''}, own h = some σ → (pmmAlloc st g).mem h = some t'' → t' j = t'' j →
        (∃ g', FrameAddr g' ∧ t' j = tableEntry g' ∧ linkedOwn own g π i g' = some (σ ++ [j])) ∨
          S.leaf σ (addr (t' j)) := by
      intro t'' hho hmem'' heq
      rw [heq] at htab ⊢
      rcases hA.child hho hmem'' hj htab with ⟨g', hg', hent, hown'⟩ | hleaf
      · exact .inl ⟨g', hg', hent, hkeep hown'⟩
      · exact .inr hleaf
    rcases State.put_mem_cases ht' with ⟨rfl, rfl⟩ | ⟨hhf, ht'⟩
    · have hho : own h = some σ := (linkedOwn_cases hh).resolve_left fun heq => hne hf heq.1
      obtain rfl : σ = π := Option.some.inj (hho.symm.trans hf)
      by_cases hji : j = i
      · subst hji
        exact .inl ⟨g, hM.frameAddr hg, Function.update_self .., Function.update_self ..⟩
      · exact hold hho hmemA (Function.update_of_ne hji ..)
    · rcases linkedOwn_cases hh with ⟨rfl, -⟩ | hho
      · obtain rfl : (fun _ => 0) = t' := Option.some.inj (pmmAlloc_mem_self.symm.trans ht')
        exact absurd htab (show ¬ isTable 0 by decide)
      · exact hold hho ht' rfl
  · rcases State.put_mem_cases ht' with ⟨rfl, rfl⟩ | ⟨hhf, ht'⟩
    · have hho : own h = some σ := (linkedOwn_cases hh).resolve_left fun heq => hne hf heq.1
      by_cases hji : j = i
      · rw [hji, Function.update_self] at hlarge
        exact absurd hlarge (not_isLarge_tableEntry (hM.frameAddr hg))
      · rw [Function.update_of_ne hji] at hlarge
        exact hT.large hho hmem hlarge
    · rcases linkedOwn_cases hh with ⟨rfl, -⟩ | hho
      · obtain rfl : (fun _ => 0) = t' := Option.some.inj (pmmAlloc_mem_self.symm.trans ht')
        exact absurd hlarge (show ¬ isLarge 0 by decide)
      · exact hA.large hho ht' hlarge
  · rcases linkedOwn_cases hh with ⟨rfl, hσ⟩ | hho
    · obtain ⟨rfl, hj⟩ := List.append_inj' hσ rfl
      obtain rfl : j = i := by simpa using hj
      exact ⟨hM.frameAddr hg, f, _, hkeep hf, State.put_mem_self _, Function.update_self ..⟩
    · obtain ⟨hframe, f', t', hf', hmem', hent⟩ := hA.parent hho
      obtain ⟨t'', ht'', heq⟩ := State.put_entry (i := i) (e := tableEntry g) hmemA hmem'
      refine ⟨hframe, f', t'', hkeep hf', ht'', (heq j ?_).trans hent⟩
      rintro rfl rfl
      obtain rfl : σ = π := Option.some.inj (hf'.symm.trans hf)
      exact hnone h hho

theorem within_setLeaf (e : ℕ) (hf : own f = some π) (hmem : st.mem f = some t) :
    Within (π ++ [i]) st own (st.put f t i e) (prune own (π ++ [i])) :=
  within_put e hf hmem fun _ _ hσ => prune_eq_some.trans (and_iff_left hσ)

theorem Tree.within_link (hT : Tree M root S st own) (hM : FreshFrames M root) {g : ℕ}
    (hg : M.frames st.next = some g) (hf : own f = some π) (hmem : st.mem f = some t) :
    Within (π ++ [i]) st own (linked st g f t i) (linkedOwn own g π i) := by
  have hne : ∀ {h σ}, own h = some σ → h ≠ g := hT.ne_next hM hg
  have halloc : Within (π ++ [i]) st own (pmmAlloc st g) own :=
    ⟨fun _ _ _ => Iff.rfl, fun h σ t' hh _ ht' =>
      ⟨t', (pmmAlloc_mem_of_ne (hne hh)).trans ht', fun _ _ => rfl⟩⟩
  refine halloc.trans (within_put _ hf ((pmmAlloc_mem_of_ne (hne hf)).trans hmem) fun h σ hσ => ?_)
  unfold linkedOwn
  by_cases hh : h = g
  · subst hh
    rw [Function.update_self, hT.own_next hM hg, Option.some.injEq]
    constructor
    · rintro rfl
      exact absurd List.prefix_rfl hσ
    · exact nofun
  · rw [Function.update_of_ne hh]

end Write

/-! ## Walks -/

/-- 4 KiB leaves are in the tables that the walk comes to last, or deeper. -/
def Shape.Deep (S : Shape) : Prop := ∀ π a, S.leaf π a → 3 ≤ π.length

section Walks

variable {M : Machine} {root : ℕ} {S : Shape} {st st' : State}
  {own own' : ℕ → Option (List ℕ)} {ρ : List ℕ}

theorem take_pathOf_succ (v : ℕ) {d level : ℕ} (h : d + level = 3) :
    (pathOf v).take (d + 1) = (pathOf v).take d ++ [v / 2 ^ (12 + 9 * level) % 512] := by
  obtain rfl : level = 3 - d := by omega
  have hd : d < 4 := by omega
  interval_cases d <;> rfl

/-- Where the change cannot be seen, the entry that the walk of `v` reads is as before. -/
theorem entry_eq_of_within (hT : Tree M root S st own) (hW : Within ρ st own st' own')
    {v : ℕ} (hv : ¬ ρ <+: pathOf v) {level d f : ℕ} (hd : d + level = 3)
    (hf : own f = some ((pathOf v).take d)) :
    ∃ t t', st.mem f = some t ∧ st'.mem f = some t' ∧
      t' (v / 2 ^ (12 + 9 * level) % 512) = t (v / 2 ^ (12 + 9 * level) % 512) := by
  have hpre : ∀ n, ¬ ρ <+: (pathOf v).take n := fun n h => hv (h.trans (List.take_prefix ..))
  obtain ⟨t, ht⟩ := hT.owned hf
  obtain ⟨t', ht', heq⟩ := hW.mem_eq f _ t hf (hpre d) ht
  refine ⟨t, t', ht, ht', heq _ ?_⟩
  rw [← take_pathOf_succ v hd]
  exact hpre (d + 1)

/-- The walk below a table, from where the change cannot be seen. -/
theorem walkFrom_eq_of_within (hS : S.Deep) (hT : Tree M root S st own)
    (hW : Within ρ st own st' own')
    {v : ℕ} (hv : ¬ ρ <+: pathOf v) (level d f : ℕ) (hd : d + level = 3)
    (hf : own f = some ((pathOf v).take d)) :
    walkFrom st' v (level + 1) f grantFlags 0 = walkFrom st v (level + 1) f grantFlags 0 := by
  induction level generalizing d f with
  | zero =>
    obtain ⟨t, t', ht, ht', heq⟩ := entry_eq_of_within hT hW hv hd hf
    rw [walkFrom, walkFrom, ht, ht']
    simp only [heq, if_true]
  | succ level ih =>
    obtain ⟨t, t', ht, ht', heq⟩ := entry_eq_of_within hT hW hv hd hf
    by_cases htab : isTable (t (v / 2 ^ (12 + 9 * (level + 1)) % 512))
    · -- the walk goes on, in both states at the same table
      rcases hT.child hf ht (Nat.mod_lt _ (by norm_num)) htab with ⟨g, hg, hent, hown⟩ | hleaf
      · rw [← take_pathOf_succ v hd] at hown
        rw [walkFrom_table hg ht' (heq.trans hent), walkFrom_table hg ht hent]
        exact ih (d + 1) g (by omega) hown
      · have h3 := hS _ _ hleaf
        have := List.length_take_le d (pathOf v)
        omega
    · rw [isTable_iff] at htab
      rw [walkFrom, walkFrom, ht, ht']
      simp only [heq]
      by_cases h0 : (t (v / 2 ^ (12 + 9 * (level + 1)) % 512)).testBit 0 = true
      · have h7 : (t (v / 2 ^ (12 + 9 * (level + 1)) % 512)).testBit 7 = true := by
          simpa [h0] using htab
        simp only [h0, h7, if_true]
      · rw [if_pos h0, if_pos h0]

/-- The walk of an address whose path does not go through the changed subtree is as before. -/
theorem walk_eq_of_within (hS : S.Deep) (hT : Tree M root S st own)
    (hW : Within ρ st own st' own') {v : ℕ} (hv : ¬ ρ <+: pathOf v) :
    walk st' root v = walk st root v :=
  walkFrom_eq_of_within hS hT hW hv 3 0 root rfl hT.root_own

theorem Tree.walk_descend (hT : Tree M root S st own) (v d level f : ℕ) (hd : d + level = 3)
    (hf : own f = some ((pathOf v).take d)) :
    walk st root v = walkFrom st v (level + 1) f grantFlags 0 := by
  induction d generalizing level f with
  | zero =>
    obtain rfl : f = root := hT.inj hf hT.root_own
    obtain rfl : level = 3 := by omega
    rfl
  | succ d ih =>
    rw [take_pathOf_succ v (show d + (level + 1) = 3 by omega)] at hf
    obtain ⟨hframe, f', t, hf', hmem, hent⟩ := hT.parent hf
    rw [ih (level + 1) f' (by omega) hf', walkFrom_table hframe hmem hent]

end Walks

end CappuccinOS.Paging
