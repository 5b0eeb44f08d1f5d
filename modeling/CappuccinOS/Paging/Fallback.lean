import CappuccinOS.Paging.Split

/-!
# 1 GiB pages with and without the processor

Where the processor has no 1 GiB pages, `vmm_map` maps such a page in 512 pieces. In every state
that was built without splitting a page the two ways give the same translations.

1. `Unsplit`: the states that calls of `vmm_map` lead to, with any arguments, as long as none of
   them splits a page. `Unsplit.tree`: their tables are a tree.
2. `fallback_equivalent`: on these the two ways agree.
3. A split follows 4 KiB leaves as if they were tables (`Split`). If such a leaf maps a page table,
   the split writes into it: `fallback_not_equivalent`.
-/

namespace CappuccinOS.Paging

/-! ## States built by calls -/

/-- Arguments of `vmm_map` behind the directory, whatever they are. -/
structure Args where
  virt : ℕ
  phys : ℕ
  flags : ℕ
  size : PageSize

/-- The call comes to a large page that it has to replace by smaller ones. -/
def Args.Splits (st : State) (root : ℕ) (a : Args) : Prop :=
  ∃ l, walk st root a.virt = some l ∧ a.size.bytes < l.size

/-- The states reached from a zeroed root by calls of which none splits a page. -/
inductive Unsplit (M : Machine) (root : ℕ) : State → Prop
  | init : Unsplit M root (State.init root)
  | call {st st' : State} {fuel : ℕ} (a : Args) : Unsplit M root st → ¬ a.Splits st root →
      vmmMap M fuel st root a.virt a.phys a.flags a.size = .ok st' → Unsplit M root st'

/-- No table of the second level has an entry for a 1 GiB page. -/
def NoGib (st : State) (root : ℕ) : Prop :=
  ∀ t i t3 j, st.mem root = some t → isTable (t i) → st.mem (addr (t i)) = some t3 →
    ¬ isLarge (t3 j)

/-- What the two ways are compared by: the address and the flags of a translation. -/
def Leaf.target (l : Leaf) : ℕ × ℕ := (l.phys, l.flags)

/-- The machine with a processor that has 1 GiB pages, or has none. -/
def Machine.withGib (M : Machine) (gib : Bool) : Machine := { M with is1GibPageSupported := gib }

/-- Leaves with any bits, where calls may put them; 1 GiB pages only if `gib`. -/
def Shape.loose (gib : Bool) : Shape where
  leaf π _ := π.length = 3
  large π := π.length = 2 ∨ π.length = 3 ∨ gib = true ∧ π.length = 1

theorem Shape.loose_regular (gib : Bool) : (Shape.loose gib).Regular where
  deep := fun _ _ h => h.ge
  not_large_nil := by
    rintro (h | h | ⟨-, h⟩)
    · cases h
    · cases h
    · cases h
  large_of_two := fun _ h => .inl h

theorem not_isTable_entryFor {phys flags : ℕ} {size : PageSize} (h : size ≠ .size4KiB) :
    ¬ isTable (entryFor phys flags size) := by
  have hbit : ptFlagLarge.testBit 7 = true := by decide
  have heq : entryFor phys flags size = phys ||| (flags ||| ptFlagValid) ||| ptFlagLarge := by
    cases size with
    | size4KiB => exact absurd rfl h
    | size2MiB => rfl
    | size1GiB => rfl
  have hlarge : (entryFor phys flags size).testBit 7 = true := by
    rw [heq, Nat.testBit_or, hbit, Bool.or_true]
  rw [isTable_iff, hlarge]
  exact fun h => by cases h.2

/-- Whatever the arguments are, the entry may stand where the call puts it. -/
theorem loose_takes_entryFor {gib : Bool} {phys flags : ℕ} {size : PageSize} {π : List ℕ}
    (hgib : size = .size1GiB → gib = true) (hπ : π.length + size.toNat = 3) :
    (Shape.loose gib).Takes π (entryFor phys flags size) := by
  refine ⟨fun htab => ?_, fun _ => ?_⟩
  · by_cases h : size = .size4KiB
    · rw [h] at hπ
      exact hπ
    · exact absurd htab (not_isTable_entryFor h)
  · cases size with
    | size4KiB => exact .inr (.inl hπ)
    | size2MiB => exact .inl (by simpa [PageSize.toNat] using hπ)
    | size1GiB => exact .inr (.inr ⟨hgib rfl, by simpa [PageSize.toNat] using hπ⟩)

section Runs

variable {M : Machine} {root : ℕ} {st : State} {own : ℕ → Option (List ℕ)}

/-- In a tree without 1 GiB pages no translation is larger than 2 MiB. -/
theorem Tree.size_le_of_loose (hT : Tree M root (.loose false) st own) (v : ℕ) (l : Leaf)
    (hl : walk st root v = some l) : l.size ≤ PageSize.size2MiB.bytes := by
  obtain ⟨d, level, f, t, hd, hf, hmem, hsize, hcase⟩ :=
    hT.exists_leaf (Shape.loose_regular false) 3 0 root rfl hT.root_own hl
  have hle : level ≤ 1 := by
    rcases hcase with h0 | ⟨h2, hlarge⟩
    · omega
    · by_contra hgt
      obtain rfl : d = 1 := by omega
      rcases hT.large hf hmem hlarge with h | h | ⟨h, -⟩
      · cases h
      · cases h
      · cases h
  rw [hsize]
  exact Nat.pow_le_pow_right (by norm_num) (show 12 + 9 * level ≤ 21 by omega)

/-- A call that is one write keeps the tree. -/
theorem Tree.body_loose {gib : Bool} (hT : Tree M root (.loose gib) st own)
    (hM : FreshFrames M root)
    (hmode : M.mode = .fourLevel) {recur : MapFn} {v phys flags : ℕ} {size : PageSize}
    (hsmall : ∀ l, walk st root v = some l → l.size ≤ size.bytes)
    (hgib : size = .size1GiB → M.is1GibPageSupported = true ∧ gib = true) :
    Ensures (vmmMapBody M recur st root v phys flags size) fun st' =>
      ∃ own', Tree M root (.loose gib) st' own' := by
  rcases vmmMapBody_writes hT (Shape.loose_regular gib) hM hmode hsmall (fun h => (hgib h).1) recur
    phys flags with hmem | ⟨f, st1, own1, hT1, hf1, -, hwrite⟩
  · rw [hmem]
    exact .error _
  · have hle := size.toNat_le
    have hπ : ((pathOf v).take (3 - size.toNat)).length + size.toNat = 3 := by
      rw [List.length_take, show (pathOf v).length = 4 from rfl]
      omega
    rw [hwrite]
    refine (hT1.write_ensures hf1 (loose_takes_entryFor (fun h => (hgib h).2) hπ)).mono ?_
    rintro st' ⟨own', hT', -⟩
    exact ⟨own', hT'⟩

theorem Tree.call_loose (hT : Tree M root (.loose M.is1GibPageSupported) st own)
    (hM : FreshFrames M root) (hmode : M.mode = .fourLevel) {fuel : ℕ} (a : Args)
    (hns : ¬ a.Splits st root) :
    Ensures (vmmMap M fuel st root a.virt a.phys a.flags a.size) fun st' =>
      ∃ own', Tree M root (.loose M.is1GibPageSupported) st' own' := by
  cases fuel with
  | zero => exact .error _
  | succ fuel =>
    by_cases hpieces : a.size = .size1GiB ∧ M.is1GibPageSupported = false
    · -- the pieces meet no large page, for there are none of 1 GiB
      obtain ⟨hsize, hgib⟩ := hpieces
      rw [hgib] at hT ⊢
      rw [vmmMap, hsize]
      simp only [vmmMapBody, hmode, pure_bind]
      have hdown := descend hT (Shape.loose_regular false) hM (vmmMap M fuel) a.virt 0 2 .size1GiB 3
        rfl hT.root_own fun t ht => hT.root_not_isLarge (Shape.loose_regular false) ht _
      rcases hdown with hmem | ⟨⟨f3, st3⟩, hok, own3, hT3, -, -⟩
      · rw [hmem]
        exact .error _
      · have hloop : Ensures (mapLoop (vmmMap M fuel) root a.virt a.phys (a.flags ||| ptFlagValid)
            .size2MiB 0x200000 (0x40000000 / 0x200000) 0 st3) fun st' =>
              ∃ own', Tree M root (.loose false) st' own' := by
          refine Ensures.mapLoop (by norm_num) ?_ _ 0 le_rfl ⟨own3, hT3⟩
          rintro i _ st ⟨own, hT⟩
          cases fuel with
          | zero => exact .error _
          | succ fuel =>
            have hne : PageSize.size2MiB ≠ .size1GiB := by decide
            exact hT.body_loose hM hmode (hT.size_le_of_loose _) fun h => absurd h hne
        rw [hok]
        refine Ensures.bind (.ok rfl) ?_
        rintro _ rfl
        rw [if_pos trivial, hgib]
        exact hloop
    · refine hT.body_loose hM hmode (fun l hl => ?_) fun h => ?_
      · by_contra hlt
        exact hns ⟨l, hl, not_le.mp hlt⟩
      · simpa [h] using hpieces

/-- The tables of a state that was built without a split are a tree. -/
theorem Unsplit.tree (hM : FreshFrames M root) (hmode : M.mode = .fourLevel)
    (h : Unsplit M root st) :
    ∃ own, Tree M root (.loose M.is1GibPageSupported) st own := by
  induction h with
  | init => exact ⟨_, Tree.init _⟩
  | call a _ hns hok ih =>
    obtain ⟨own, hT⟩ := ih
    exact hT.call_loose hM hmode a hns _ hok

theorem Tree.withGib {S : Shape} (hT : Tree M root S st own) (gib : Bool) :
    Tree (M.withGib gib) root S st own :=
  ⟨hT.root_own, hT.owned, hT.inj, hT.alloc, hT.child, hT.large, hT.parent⟩

theorem FreshFrames.withGib (hM : FreshFrames M root) (gib : Bool) :
    FreshFrames (M.withGib gib) root := ⟨hM.inj, hM.frameAddr, hM.ne_root⟩

/-- Without 1 GiB pages in the tables the tree has the shape of a processor that has none. -/
theorem Tree.loose_of_noGib {gib : Bool} (hT : Tree M root (.loose gib) st own)
    (hno : NoGib st root) : Tree M root (.loose false) st own := by
  refine ⟨hT.root_own, hT.owned, hT.inj, hT.alloc, hT.child, fun {f π t i} hf hmem hlarge => ?_,
    hT.parent⟩
  rcases hT.large hf hmem hlarge with h | h | ⟨-, h⟩
  · exact .inl h
  · exact .inr (.inl h)
  · -- a table at depth 1 is the target of an entry of the root
    obtain ⟨j, rfl⟩ := List.length_eq_one_iff.mp h
    obtain ⟨hframe, f', t', hf', hmem', hent⟩ := hT.parent (π := []) hf
    obtain rfl := hT.inj hf' hT.root_own
    refine absurd hlarge (hno t' j t i hmem' ?_ ?_)
    · rw [hent]
      exact isTable_tableEntry hframe
    · rw [hent, addr_tableEntry hframe]
      exact hmem

theorem Tree.maps_both (hT : Tree M root (.loose false) st own) (hM : FreshFrames M root)
    (hmode : M.mode = .fourLevel) {c : Call} (hc : c.size = .size1GiB) {fuel : ℕ} (hfuel : 2 ≤ fuel)
    (gib : Bool) :
    MapsIn (M.withGib gib) root (.loose gib) c st (c.map (M.withGib gib) fuel root st) := by
  obtain ⟨n, rfl⟩ : ∃ n, fuel = n + 2 := ⟨fuel - 2, by omega⟩
  cases gib with
  | false =>
    exact maps_gib (Shape.loose_regular false) (hM.withGib false) hmode rfl hc n (hT.withGib false)
      hT.size_le_of_loose
  | true =>
    have hT' : Tree M root (.loose true) st own :=
      hT.mono (fun _ _ h => h) fun _ h => h.imp_right (Or.imp_right fun h => absurd h.1 (by decide))
    have hsmall : ∀ l, walk st root c.virt = some l → l.size ≤ c.size.bytes := by
      intro l hl
      rw [hc]
      exact (hT.size_le_of_loose _ l hl).trans (by decide)
    refine maps_leaf (hT'.withGib true) (Shape.loose_regular true) (hM.withGib true) hmode hsmall
      (fun _ => rfl) ?_ _
    rw [← entryFor_eq, hc]
    exact loose_takes_entryFor (fun _ => rfl) rfl

/-- **The fallback is equivalent.** In every state that was built without splitting a page and has
no 1 GiB pages, mapping one gives the same translations with such a processor and without. -/
theorem fallback_equivalent (M : Machine) (root : ℕ) (hM : FreshFrames M root)
    (hmode : M.mode = .fourLevel) {st : State} (hst : Unsplit M root st) (hno : NoGib st root)
    (c : Call) (hc : c.size = .size1GiB) (fuel : ℕ) (hfuel : 2 ≤ fuel)
    (hmem : ∀ gib, c.map (M.withGib gib) fuel root st ≠ .error .outOfMemory) :
    ∃ large small, c.map (M.withGib true) fuel root st = .ok large ∧
      c.map (M.withGib false) fuel root st = .ok small ∧
      ∀ v, (walk large root v).map Leaf.target = (walk small root v).map Leaf.target := by
  obtain ⟨own, hT⟩ := hst.tree hM hmode
  have hT := hT.loose_of_noGib hno
  obtain ⟨large, hlarge, -, -, hwalk⟩ :=
    (hT.maps_both hM hmode hc hfuel true).resolve_left (hmem true)
  obtain ⟨small, hsmall, -, -, hwalk'⟩ :=
    (hT.maps_both hM hmode hc hfuel false).resolve_left (hmem false)
  refine ⟨large, small, hlarge, hsmall, fun v => ?_⟩
  rw [hwalk v, hwalk' v, Call.install, Call.install]
  split_ifs <;> rfl

end Runs

/-! ## Calls that find their tables -/

/-- Entry `i` of the directory leads to the table `f`, if not by a table entry then by a leaf that
reads like one. -/
def State.Leads (st : State) (dir i f : ℕ) : Prop :=
  ∃ t, st.mem dir = some t ∧ isTable (t i) ∧ addr (t i) = f

section Leads

variable {M : Machine} {recur : MapFn} {st : State} {dir f f2 f3 v phys flags : ℕ}

theorem State.Leads.getNextLevel {size : PageSize} {arg i : ℕ} (h : st.Leads dir i f) :
    getNextLevel M recur st dir v size arg i = .ok (f, st) := by
  obtain ⟨t, hmem, htab, rfl⟩ := h
  simp only [Paging.getNextLevel, State.read_eq hmem, bind, Except.bind, if_pos htab]
  rfl

theorem State.Leads.put {i g j e : ℕ} {t : ℕ → ℕ} (h : st.Leads dir i f) (hne : dir ≠ g) :
    (st.put g t j e).Leads dir i f := by
  obtain ⟨t', hmem, htab⟩ := h
  exact ⟨t', (State.put_mem_of_ne hne e).trans hmem, htab⟩

variable (hmode : M.mode = .fourLevel) (h3 : st.Leads dir (tableIndex v 39) f3)

include hmode h3

theorem vmmMapBody_small (h2 : st.Leads f3 (tableIndex v 30) f2) :
    vmmMapBody M recur st dir v phys flags .size4KiB =
      getNextLevel M recur st f2 v .size4KiB 1 (tableIndex v 21) >>= fun r =>
        r.2.write r.1 (tableIndex v 12) (entryFor phys flags .size4KiB) := by
  have hsize : PageSize.size4KiB ≠ .size1GiB := nofun
  rw [vmmMapBody_eq hmode hsize, h3.getNextLevel]
  show fromPml3 M recur v phys flags .size4KiB st f3 = _
  rw [fromPml3, h2.getNextLevel]
  rfl

theorem vmmMapBody_mib {t2 : ℕ → ℕ} (h2 : st.Leads f3 (tableIndex v 30) f2)
    (hmem : st.mem f2 = some t2) :
    vmmMapBody M recur st dir v phys flags .size2MiB =
      .ok (st.put f2 t2 (tableIndex v 21) (entryFor phys flags .size2MiB)) := by
  have hsize : PageSize.size2MiB ≠ .size1GiB := nofun
  rw [vmmMapBody_eq hmode hsize, h3.getNextLevel]
  show fromPml3 M recur v phys flags .size2MiB st f3 = _
  rw [fromPml3, h2.getNextLevel]
  exact State.write_eq hmem _

/-- A 1 GiB page is a write into the table, or the loop over the pieces. -/
theorem vmmMapBody_gib : vmmMapBody M recur st dir v phys flags .size1GiB =
    if M.is1GibPageSupported then
      st.write f3 (tableIndex v 30) (entryFor phys flags .size1GiB)
    else
      mapLoop recur dir v phys (flags ||| ptFlagValid) .size2MiB 0x200000 512 0 st := by
  simp only [vmmMapBody, hmode, pure_bind, h3.getNextLevel]
  rfl

end Leads

theorem mapLoop_returns {recur : MapFn} {dir virt phys flags step bound : ℕ} {size : PageSize}
    {I : ℕ → State → Prop} (hstep : 0 < step)
    (h : ∀ i < bound, ∀ st, I i st →
      ∃ st', recur st dir (virt + i) (phys + i) flags size = .ok st' ∧ I (i + step) st')
    (turns i : ℕ) (hbound : i + turns * step ≤ bound) {st : State} (hst : I i st) :
    ∃ st', mapLoop recur dir virt phys flags size step turns i st = .ok st' ∧
      I (i + turns * step) st' := by
  induction turns generalizing i st with
  | zero => exact ⟨st, rfl, by simpa using hst⟩
  | succ turns ih =>
    rw [Nat.succ_mul] at hbound
    obtain ⟨st1, hok, hst1⟩ := h i (by omega) st hst
    obtain ⟨st2, hok2, hst2⟩ := ih (i + step) (by omega) hst1
    refine ⟨st2, ?_, ?_⟩
    · rw [mapLoop, hok]
      exact hok2
    · rw [Nat.succ_mul, Nat.add_comm (turns * step), ← Nat.add_assoc]
      exact hst2

section Pieces

variable {M : Machine} {st : State} {root f2 f3 v phys flags : ℕ}

theorem State.Leads.of_mem {st' : State} {dir i f : ℕ} (h : st.Leads dir i f)
    (hmem : st'.mem dir = st.mem dir) : st'.Leads dir i f := by
  obtain ⟨t, ht, htab⟩ := h
  exact ⟨t, hmem.trans ht, htab⟩

/-- The first `i` bytes of a 1 GiB page are entered into the table `f2`; no other has changed. -/
def Entered (f2 phys flags : ℕ) (st : State) (i : ℕ) (st' : State) : Prop :=
  (∀ g ≠ f2, st'.mem g = st.mem g) ∧ ∃ t, st'.mem f2 = some t ∧
    ∀ k < 512, 0x200000 * k < i → t k = entryFor (phys + 0x200000 * k) flags .size2MiB

theorem tableIndex_piece (hv : v % 0x40000000 = 0) {k : ℕ} (hk : k < 512) :
    tableIndex (v + 0x200000 * k) 39 = tableIndex v 39 ∧
      tableIndex (v + 0x200000 * k) 30 = tableIndex v 30 ∧
        tableIndex (v + 0x200000 * k) 21 = k := by
  simp only [tableIndex_eq]
  omega

variable (hmode : M.mode = .fourLevel) (hv : v % 0x40000000 = 0)
  (h3 : st.Leads root (tableIndex v 39) f3) (h2 : st.Leads f3 (tableIndex v 30) f2)
  (hroot : root ≠ f2) (hf3 : f3 ≠ f2)

include hmode hv h3 h2 hroot hf3

theorem Entered.step {k fuel : ℕ} {st' : State} (hk : k < 512)
    (h : Entered f2 phys flags st (0x200000 * k) st') :
    ∃ st'', vmmMap M (fuel + 1) st' root (v + 0x200000 * k) (phys + 0x200000 * k) flags .size2MiB =
      .ok st'' ∧ Entered f2 phys flags st (0x200000 * k + 0x200000) st'' := by
  obtain ⟨hkeep, t, hmem, hdone⟩ := h
  obtain ⟨h39, h30, h21⟩ := tableIndex_piece hv hk
  have h3' := h3.of_mem (hkeep root hroot)
  have h2' := h2.of_mem (hkeep f3 hf3)
  rw [← h39] at h3'
  rw [← h30] at h2'
  refine ⟨_, vmmMapBody_mib hmode h3' h2' hmem, fun g hg => ?_, _, State.put_mem_self _, ?_⟩
  · rw [State.put_mem_of_ne hg]
    exact hkeep g hg
  · intro j hj hlt
    rw [h21]
    by_cases hjk : j = k
    · rw [hjk, Function.update_self]
    · rw [Function.update_of_ne hjk]
      exact hdone j hj (by omega)

theorem pieces_entered (fuel : ℕ) (hmem : ∃ t, st.mem f2 = some t) :
    ∃ st', mapLoop (vmmMap M (fuel + 1)) root v phys flags .size2MiB 0x200000 512 0 st = .ok st' ∧
      Entered f2 phys flags st 0x40000000 st' := by
  have hturn : ∀ i < 0x40000000, ∀ st', (0x200000 ∣ i ∧ Entered f2 phys flags st i st') →
      ∃ st'', vmmMap M (fuel + 1) st' root (v + i) (phys + i) flags .size2MiB = .ok st'' ∧
        (0x200000 ∣ i + 0x200000 ∧ Entered f2 phys flags st (i + 0x200000) st'') := by
    rintro i hi st' ⟨⟨k, rfl⟩, hst'⟩
    obtain ⟨st'', hok, hst''⟩ := hst'.step hmode hv h3 h2 hroot hf3 (show k < 512 by omega)
    exact ⟨st'', hok, by omega, hst''⟩
  obtain ⟨t, ht⟩ := hmem
  have hstart : Entered f2 phys flags st 0 st :=
    ⟨fun _ _ => rfl, t, ht, fun _ _ h => absurd h (by omega)⟩
  obtain ⟨st', hok, -, hst'⟩ := mapLoop_returns (by norm_num) hturn 512 0 (by norm_num)
    ⟨⟨0, rfl⟩, hstart⟩
  exact ⟨st', hok, hst'⟩

/-- Where the tables are there, a 1 GiB page is mapped on every processor. -/
theorem gib_returns (fuel : ℕ) (hmem : ∃ t, st.mem f2 = some t) :
    ∃ st', vmmMap M (fuel + 2) st root v phys flags .size1GiB = .ok st' := by
  rw [vmmMap, vmmMapBody_gib hmode h3]
  split_ifs
  · obtain ⟨t, ht, -⟩ := h2
    exact ⟨_, State.write_eq ht _⟩
  · obtain ⟨st', hok, -⟩ := pieces_entered hmode hv h3 h2 hroot hf3 fuel hmem
    exact ⟨st', hok⟩

end Pieces

/-- A call with the given arguments. -/
def callOf (virt phys flags : ℕ) (size : PageSize) (h : virt < 2 ^ 64 ∧ virt % size.bytes = 0 ∧
    phys % size.bytes = 0 ∧ phys < 2 ^ 48 ∧ SubMask flags callerFlags) : Call where
  virt := virt
  phys := phys
  flags := flags
  size := size
  virt_lt := h.1
  virt_aligned := h.2.1
  phys_aligned := h.2.2.1
  phys_lt := h.2.2.2.1
  flags_sub := h.2.2.2.2

/-- A writable page of 1 GiB at address 0. -/
def lowGib : Call := callOf 0 0x40000000 ptFlagWrite .size1GiB (by decide)

/-- Over a 2 MiB page that is mapped there the two ways agree. -/
theorem fallback_equivalent_demo : ∃ st large small,
    mapAll (demoMachine false) 2 0x1000 (State.init 0x1000) [demoCall 0x400000 (by norm_num)] =
      .ok st ∧
    lowGib.map ((demoMachine false).withGib true) 2 0x1000 st = .ok large ∧
    lowGib.map ((demoMachine false).withGib false) 2 0x1000 st = .ok small ∧
    ∀ v, (walk large 0x1000 v).map Leaf.target = (walk small 0x1000 v).map Leaf.target := by
  obtain ⟨st, hst, h1, h2, h3⟩ : ∃ st,
      mapAll (demoMachine false) 2 0x1000 (State.init 0x1000) [demoCall 0x400000 (by norm_num)] =
        .ok st ∧ st.mem 0x1000 = some (Function.update (fun _ => 0) 0 0x2007) ∧
      st.mem 0x2000 = some (Function.update (fun _ => 0) 0 0x3007) ∧
      st.mem 0x3000 = some (Function.update (fun _ => 0) 1 0x400083) :=
    ⟨_, rfl, rfl, rfl, rfl⟩
  have hbuilt : Unsplit (demoMachine false) 0x1000 st := by
    simp only [mapAll, List.foldlM_cons, List.foldlM_nil, bind_pure] at hst
    refine .call ⟨0x200000, 0x400000, ptFlagWrite, .size2MiB⟩ .init ?_ hst
    rintro ⟨l, hl, -⟩
    cases hl
  have hno : NoGib st 0x1000 := by
    intro t i t3 j hmem htab hmem3
    obtain rfl := Option.some.inj (h1.symm.trans hmem)
    by_cases hi : i = 0
    · rw [hi, Function.update_self, show addr 0x2007 = 0x2000 by decide] at hmem3
      obtain rfl := Option.some.inj (h2.symm.trans hmem3)
      by_cases hj : j = 0
      · rw [hj, Function.update_self]
        decide
      · rw [Function.update_of_ne hj]
        decide
    · rw [Function.update_of_ne hi] at htab
      exact absurd htab (by decide)
  have hlead3 : st.Leads 0x1000 (tableIndex 0 39) 0x2000 := ⟨_, h1, by decide, by decide⟩
  have hlead2 : st.Leads 0x2000 (tableIndex 0 30) 0x3000 := ⟨_, h2, by decide, by decide⟩
  have hmem : ∀ gib, lowGib.map ((demoMachine false).withGib gib) 2 0x1000 st ≠
      .error .outOfMemory := by
    intro gib herr
    obtain ⟨st', hok⟩ := @gib_returns ((demoMachine false).withGib gib) st 0x1000 0x3000 0x2000 0
      0x40000000 ptFlagWrite rfl rfl hlead3 hlead2 (by decide) (by decide) 0 ⟨_, h3⟩
    cases hok.symm.trans herr
  obtain ⟨large, small, hlarge, hsmall, hwalk⟩ := fallback_equivalent (demoMachine false) 0x1000
    (demoMachine_fresh false) rfl hbuilt hno lowGib rfl 2 le_rfl hmem
  exact ⟨st, large, small, hst, hlarge, hsmall, hwalk⟩

/-! ## A page table that is mapped -/

/-- Two 4 KiB pages that lead to page tables, and a 2 MiB page next to them. The tables are the
first four frames: the root at `0x1000`, then one for each level on the path of address 0. -/
def aliasCalls : List Call :=
  [callOf 0 0x4000 0 .size4KiB (by decide), callOf 0x1000 0x2000 0 .size4KiB (by decide),
    callOf 0x200000 0 0 .size2MiB (by decide)]

/-- A 4 KiB page inside the 2 MiB page. -/
def aliasSplit : Call := callOf 0x200000 0x600000 0 .size4KiB (by decide)

/-- A writable page of 1 GiB. -/
def aliasGib : Call := callOf 0xC0000000 0x40000000 ptFlagWrite .size1GiB (by decide)

theorem aliasCalls_state : ∃ st,
    mapAll (demoMachine false) 3 0x1000 (State.init 0x1000) aliasCalls = .ok st ∧ st.next = 3 ∧
    st.mem 0x1000 = some (Function.update (fun _ => 0) 0 0x2007) ∧
    st.mem 0x2000 = some (Function.update (fun _ => 0) 0 0x3007) ∧
    (∃ t2, st.mem 0x3000 = some t2 ∧ t2 0 = 0x4007 ∧ t2 1 = 0x81) ∧
    st.mem 0x4000 = some (Function.update (Function.update (fun _ => 0) 0 0x4001) 1 0x2001) :=
  ⟨_, rfl, rfl, rfl, rfl, ⟨_, rfl, rfl, rfl⟩, rfl⟩

/-- What holds during the split, up to offset `i` of the large page. -/
structure Aliased (i : ℕ) (st : State) : Prop where
  root : st.mem 0x1000 = some (Function.update (fun _ => 0) 0 0x2007)
  first : st.Leads 0x3000 0 0x4000
  second : st.Leads 0x4000 0 0x4000
  third : st.Leads 0x4000 1 0x2000
  fresh : ∃ t, st.mem 0x5000 = some t
  target : ∃ t, st.mem 0x2000 = some t ∧ (∀ j, ¬ isLarge (t j)) ∧
    ∀ j < 512, 0x1000 * j < i → t j = 0x1000 * j ||| ptFlagValid

theorem tableIndex_small {i : ℕ} (hi : i < 0x200000) :
    tableIndex (0x200000 + i) 39 = 0 ∧ tableIndex (0x200000 + i) 30 = 0 ∧
      tableIndex (0x200000 + i) 21 = 1 ∧ tableIndex (0x200000 + i) 12 = i / 0x1000 := by
  simp only [tableIndex_eq]
  omega

theorem not_isLarge_page (j : ℕ) : ¬ isLarge (0x1000 * j ||| ptFlagValid) := by
  have hseven : (2 ^ 12 * j ||| ptFlagValid).testBit 7 = false := by
    rw [Nat.testBit_or, Nat.testBit_two_pow_mul]
    rfl
  intro h
  exact Bool.false_ne_true (hseven.symm.trans (isLarge_iff.mp h).2)

/-- One turn of the loop writes into the table of the second level. -/
theorem Aliased.step {j fuel : ℕ} {st : State} (h : Aliased (0x1000 * j) st) (hj : j < 512) :
    ∃ st', vmmMap (demoMachine false) (fuel + 1) st 0x3000 (0x200000 + 0x1000 * j)
        (0 + 0x1000 * j) 0
      .size4KiB = .ok st' ∧ Aliased (0x1000 * j + 0x1000) st' := by
  obtain ⟨h39, h30, h21, h12⟩ := tableIndex_small (show 0x1000 * j < 0x200000 by omega)
  obtain ⟨t, hmem, hlarge, hdone⟩ := h.target
  have hentry : entryFor (0 + 0x1000 * j) 0 .size4KiB = 0x1000 * j ||| ptFlagValid := by
    rw [Nat.zero_add]
    rfl
  refine ⟨st.put 0x2000 t j (0x1000 * j ||| ptFlagValid), ?_, ?_⟩
  · have hfirst := h.first
    have hsecond := h.second
    have hthird := h.third
    rw [← h39] at hfirst
    rw [← h30] at hsecond
    rw [← h21] at hthird
    rw [vmmMap, vmmMapBody_small rfl hfirst hsecond, hthird.getNextLevel, hentry, h12,
      Nat.mul_div_cancel_left j (by norm_num)]
    exact State.write_eq hmem _
  · refine ⟨(State.put_mem_of_ne (by decide) _).trans h.root, h.first.put (by decide),
      h.second.put (by decide), h.third.put (by decide), ?_, ⟨_, State.put_mem_self _, ?_, ?_⟩⟩
    · obtain ⟨n, hn⟩ := h.fresh
      exact ⟨n, (State.put_mem_of_ne (by decide) _).trans hn⟩
    · intro k
      by_cases hk : k = j
      · rw [hk, Function.update_self]
        exact not_isLarge_page j
      · rw [Function.update_of_ne hk]
        exact hlarge k
    · intro k hk hlt
      by_cases hkj : k = j
      · rw [hkj, Function.update_self]
      · rw [Function.update_of_ne hkj]
        exact hdone k hk (by omega)

section Aliases

variable {st : State} {t2 : ℕ → ℕ}

/-- The large page is replaced by the table at `0x5000`. -/
theorem linkTable_alias (hnext : st.next = 3) (h3 : st.mem 0x3000 = some t2) :
    linkTable (demoMachine false) st 0x3000 1 = .ok (0x5000, linked st 0x5000 0x3000 t2 1) := by
  have hframe : (demoMachine false).frames st.next = some 0x5000 := by
    rw [hnext]
    rfl
  have hmem : (pmmAlloc st 0x5000).mem 0x3000 = some t2 :=
    (pmmAlloc_mem_of_ne (by decide)).trans h3
  simp only [linkTable, hframe, State.write_eq hmem]
  rfl

theorem aliased_linked (h1 : st.mem 0x1000 = some (Function.update (fun _ => 0) 0 0x2007))
    (h2 : st.mem 0x2000 = some (Function.update (fun _ => 0) 0 0x3007))
    (h4 : st.mem 0x4000 = some (Function.update (Function.update (fun _ => 0) 0 0x4001) 1 0x2001))
    (ht : t2 0 = 0x4007) : Aliased 0 (linked st 0x5000 0x3000 t2 1) := by
  have hkeep : ∀ {f t}, f ≠ 0x5000 → f ≠ 0x3000 → st.mem f = some t →
      (linked st 0x5000 0x3000 t2 1).mem f = some t := fun hf hf' hmem =>
    (State.put_mem_of_ne hf' _).trans ((pmmAlloc_mem_of_ne hf).trans hmem)
  have h4' := hkeep (by decide) (by decide) h4
  refine ⟨hkeep (by decide) (by decide) h1, ⟨_, State.put_mem_self _, ?_, ?_⟩,
    ⟨_, h4', by decide, by decide⟩, ⟨_, h4', by decide, by decide⟩,
    ⟨_, (State.put_mem_of_ne (by decide) _).trans pmmAlloc_mem_self⟩,
    ⟨_, hkeep (by decide) (by decide) h2, fun j => ?_, fun j _ h => absurd h (by omega)⟩⟩
  · rw [Function.update_of_ne (by decide), ht]
    decide
  · rw [Function.update_of_ne (by decide), ht]
    decide
  · by_cases hj : j = 0
    · rw [hj, Function.update_self]
      decide
    · rw [Function.update_of_ne hj]
      decide

theorem Aliased.loop (h : Aliased 0 st) : ∃ st', mapLoop (vmmMap (demoMachine false) 2) 0x3000
    0x200000 0 0 .size4KiB 0x1000 512 0 st = .ok st' ∧ Aliased 0x200000 st' := by
  have hturn : ∀ i < 0x200000, ∀ st, (0x1000 ∣ i ∧ Aliased i st) →
      ∃ st', vmmMap (demoMachine false) 2 st 0x3000 (0x200000 + i) (0 + i) 0 .size4KiB = .ok st' ∧
        (0x1000 ∣ i + 0x1000 ∧ Aliased (i + 0x1000) st') := by
    rintro i hi st ⟨⟨j, rfl⟩, hst⟩
    obtain ⟨st', hok, hst'⟩ := hst.step (show j < 512 by omega)
    exact ⟨st', hok, by omega, hst'⟩
  obtain ⟨st', hok, -, hst'⟩ := mapLoop_returns (by norm_num) hturn 512 0 (by norm_num)
    ⟨⟨0, rfl⟩, h⟩
  exact ⟨st', hok, hst'⟩

end Aliases

/-- The split writes the addresses of small pages into the table of the second level, which then
seems to lead to page tables. -/
theorem aliasSplit_state : ∃ st,
    mapAll (demoMachine false) 3 0x1000 (State.init 0x1000) (aliasCalls ++ [aliasSplit]) = .ok st ∧
      Aliased 0x200000 st := by
  obtain ⟨st, hst, hnext, h1, h2, ⟨t2, h3, ht0, ht1⟩, h4⟩ := aliasCalls_state
  have hroot : st.Leads 0x1000 (tableIndex 0x200000 39) 0x2000 := ⟨_, h1, by decide, by decide⟩
  have hsecond : st.Leads 0x2000 (tableIndex 0x200000 30) 0x3000 := ⟨_, h2, by decide, by decide⟩
  obtain ⟨st1, hloop, hst1⟩ := (aliased_linked h1 h2 h4 ht0).loop
  obtain ⟨t5, h5⟩ := hst1.fresh
  have hlarge : getNextLevel (demoMachine false) (vmmMap (demoMachine false) 2) st 0x3000 0x200000
      .size4KiB 1 (tableIndex 0x200000 21) = .ok (0x5000, st1) := by
    rw [show tableIndex 0x200000 21 = 1 by decide, getNextLevel_large h3 (by rw [ht1]; decide), ht1]
    unfold splitLarge
    rw [linkTable_alias hnext h3]
    exact congrArg (fun r : Except Fault State => r >>= fun st => .ok (0x5000, st)) hloop
  refine ⟨st1.put 0x5000 t5 0 0x600001, ?_, ?_⟩
  · rw [mapAll_append, hst]
    show vmmMapBody (demoMachine false) (vmmMap (demoMachine false) 2) st 0x1000 0x200000 0x600000 0
      .size4KiB = _
    rw [vmmMapBody_small rfl hroot hsecond, hlarge]
    exact State.write_eq h5 _
  · exact ⟨(State.put_mem_of_ne (by decide) _).trans hst1.root, hst1.first.put (by decide),
      hst1.second.put (by decide), hst1.third.put (by decide), ⟨_, State.put_mem_self _⟩,
      hst1.target.imp fun t ht => ⟨(State.put_mem_of_ne (by decide) _).trans ht.1, ht.2⟩⟩

/-- The table of the second level, after the split: entry 3 leads to the table at `0x3000` and
grants no writes. -/
theorem Aliased.entry {st : State} (h : Aliased 0x200000 st) :
    ∃ t, st.mem 0x2000 = some t ∧ t 3 = 0x3001 := by
  obtain ⟨t, hmem, -, hdone⟩ := h.target
  exact ⟨t, hmem, hdone 3 (by norm_num) (by norm_num)⟩

theorem Aliased.noGib {st : State} (h : Aliased 0x200000 st) : NoGib st 0x1000 := by
  intro t i t3 j hmem htab hmem3
  obtain ⟨t', hmem', hlarge, -⟩ := h.target
  obtain rfl := Option.some.inj (h.root.symm.trans hmem)
  by_cases hi : i = 0
  · rw [hi, Function.update_self, show addr 0x2007 = 0x2000 by decide] at hmem3
    obtain rfl := Option.some.inj (hmem'.symm.trans hmem3)
    exact hlarge j
  · rw [Function.update_of_ne hi] at htab
    exact absurd htab (by decide)

/-- The walk of the first address of `aliasGib`, from the root to the table of the second level. -/
theorem walk_alias {st : State}
    (h : st.mem 0x1000 = some (Function.update (fun _ => 0) 0 0x2007)) :
    walk st 0x1000 0xC0000000 = walkFrom st 0xC0000000 3 0x2000 grantFlags 0 :=
  walkFrom_table ⟨by norm_num, by norm_num⟩ h (by decide)

theorem index_aliasGib : 0xC0000000 / 2 ^ (12 + 9 * 2) % 512 = 3 ∧
    0xC0000000 / 2 ^ (12 + 9 * 1) % 512 = 0 := by decide

/-- In pieces the page is read-only. -/
theorem Aliased.walk_pieces {st st' : State} (h : Aliased 0x200000 st)
    (hst' : Entered 0x3000 0x40000000 (ptFlagWrite ||| ptFlagValid) st 0x40000000 st') :
    walk st' 0x1000 0xC0000000 = some ⟨0x40000000, 0, 0x200000⟩ := by
  obtain ⟨hkeep, t', hmem', hdone⟩ := hst'
  obtain ⟨t, hmem, ht⟩ := h.entry
  obtain ⟨hthree, hzero⟩ := index_aliasGib
  have hpiece := hdone 0 (by norm_num) (by norm_num)
  have hlarge : isLarge (t' (0xC0000000 / 2 ^ (12 + 9 * 1) % 512)) := by
    rw [hzero, hpiece]
    decide
  have hlast := @walkFrom_large st' 0xC0000000 1 0x3000 (grantFlags &&& 0x3001)
    (0 ||| 0x3001 &&& ptFlagNx) t' hmem' hlarge le_rfl (by norm_num)
  rw [hzero, hpiece] at hlast
  rw [walk_alias ((hkeep _ (by decide)).trans h.root), walkFrom, (hkeep _ (by decide)).trans hmem]
  simp only [hthree, ht]
  rw [if_neg (by decide), if_neg (by decide), if_neg (by decide),
    show 0x3001 &&& frameMask = 0x3000 by decide, hlast]
  decide

/-- In one piece it is writable. -/
theorem walk_aliasGib {st : State} {t : ℕ → ℕ}
    (h : st.mem 0x1000 = some (Function.update (fun _ => 0) 0 0x2007)) :
    walk (st.put 0x2000 t 3 (entryFor 0x40000000 ptFlagWrite .size1GiB)) 0x1000 0xC0000000 =
      some ⟨0x40000000, ptFlagWrite, 0x40000000⟩ := by
  obtain ⟨hthree, -⟩ := index_aliasGib
  have hlarge : isLarge (Function.update t 3 (entryFor 0x40000000 ptFlagWrite .size1GiB)
      (0xC0000000 / 2 ^ (12 + 9 * 2) % 512)) := by
    rw [hthree, Function.update_self]
    decide
  rw [walk_alias ((State.put_mem_of_ne (by decide) _).trans h),
    walkFrom_large (State.put_mem_self _) hlarge (by norm_num) le_rfl, hthree, Function.update_self]
  decide

/-- After a split that wrote into a page table the two ways differ: mapped in pieces, the page is
not writable. -/
theorem fallback_not_equivalent : ∃ st large small,
    mapAll (demoMachine false) 3 0x1000 (State.init 0x1000) (aliasCalls ++ [aliasSplit]) = .ok st ∧
    NoGib st 0x1000 ∧
    aliasGib.map ((demoMachine false).withGib true) 3 0x1000 st = .ok large ∧
    aliasGib.map ((demoMachine false).withGib false) 3 0x1000 st = .ok small ∧
    (walk large 0x1000 0xC0000000).map Leaf.target = some (0x40000000, ptFlagWrite) ∧
    (walk small 0x1000 0xC0000000).map Leaf.target = some (0x40000000, 0) := by
  obtain ⟨st, hst, halias⟩ := aliasSplit_state
  obtain ⟨t, hmem, ht⟩ := halias.entry
  obtain ⟨t', hmem', -⟩ := halias.first
  have hlead : st.Leads 0x1000 (tableIndex 0xC0000000 39) 0x2000 :=
    ⟨_, halias.root, by decide, by decide⟩
  have hlead2 : st.Leads 0x2000 (tableIndex 0xC0000000 30) 0x3000 := by
    rw [show tableIndex 0xC0000000 30 = 3 by decide]
    exact ⟨t, hmem, by rw [ht]; decide, by rw [ht]; decide⟩
  obtain ⟨small, hsmall, hend⟩ := @pieces_entered ((demoMachine false).withGib false)
      st 0x1000 0x3000
    0x2000 0xC0000000 0x40000000 (ptFlagWrite ||| ptFlagValid) rfl rfl hlead hlead2 (by decide)
    (by decide) 1 ⟨t', hmem'⟩
  have hmap : ∀ gib, aliasGib.map ((demoMachine false).withGib gib) 3 0x1000 st =
      if gib then st.write 0x2000 3 (entryFor 0x40000000 ptFlagWrite .size1GiB)
      else mapLoop (vmmMap ((demoMachine false).withGib gib) 2) 0x1000 0xC0000000 0x40000000
        (ptFlagWrite ||| ptFlagValid) .size2MiB 0x200000 512 0 st := fun gib =>
    @vmmMapBody_gib ((demoMachine false).withGib gib) _ st 0x1000 0x2000 0xC0000000 0x40000000
      ptFlagWrite rfl hlead
  refine ⟨st, st.put 0x2000 t 3 (entryFor 0x40000000 ptFlagWrite .size1GiB), small, hst,
    halias.noGib, ?_, ?_, ?_, ?_⟩
  · exact (hmap true).trans (State.write_eq hmem _)
  · exact (hmap false).trans hsmall
  · rw [walk_aliasGib halias.root]
    rfl
  · rw [halias.walk_pieces hend]
    rfl

end CappuccinOS.Paging
