import CappuccinOS.Paging.Tree

/-!
# The last writer wins

An address space is a function from virtual addresses to translations, and mapping a page replaces
the translations of its addresses (`Call.install`). `vmmMap_refines`: as long as no large page has
to be split, `vmm_map` does just this to the address space that the processor sees.

1. `descend`: a step of `get_next_level` that meets no large page leaves all translations alone.
   Where it enters a new table, nothing was mapped and nothing is.
2. `write_leaf`: writing a leaf into the table at the end of the path changes the translations
   of the page and no others.
3. `vmmMap_leaf` and `vmmMap_gib` put these together, the latter for a 1 GiB page that has to be
   mapped in pieces of 2 MiB.
4. `lastWriter_wins` is the induction over the calls.
-/

namespace CappuccinOS.Paging

/-! ## Calls and address spaces -/

/-- The size of a page in bytes. -/
def PageSize.bytes (s : PageSize) : ℕ := pageSizes s.toNat

/-- The arguments of a call of `vmm_map`, as its callers choose them. -/
structure Call where
  virt : ℕ
  phys : ℕ
  flags : ℕ
  size : PageSize
  virt_lt : virt < 2 ^ 64
  virt_aligned : virt % size.bytes = 0
  phys_aligned : phys % size.bytes = 0
  phys_lt : phys < 2 ^ 48
  flags_sub : SubMask flags callerFlags

namespace Call

/-- The page of the call contains `v`; only the low 48 bits of virtual addresses count. -/
def Contains (c : Call) (v : ℕ) : Prop :=
  c.virt % 2 ^ 48 ≤ v % 2 ^ 48 ∧ v % 2 ^ 48 < c.virt % 2 ^ 48 + c.size.bytes

instance (c : Call) (v : ℕ) : Decidable (c.Contains v) := inferInstanceAs (Decidable (_ ∧ _))

/-- The size of the pages that the call is made with: a processor without 1 GiB pages gets 2 MiB
pages in their place. -/
def leafSize (gib : Bool) (c : Call) : ℕ :=
  if c.size = .size1GiB ∧ ¬ gib then PageSize.size2MiB.bytes else c.size.bytes

/-- The translation of an address in the page of the call. -/
def leaf (gib : Bool) (c : Call) (v : ℕ) : Leaf where
  phys := c.phys + (v % 2 ^ 48 - c.virt % 2 ^ 48)
  flags := c.flags
  size := c.leafSize gib

/-- The address space after the call. -/
def install (gib : Bool) (c : Call) (space : ℕ → Option Leaf) (v : ℕ) : Option Leaf :=
  if c.Contains v then some (c.leaf gib v) else space v

end Call

/-- The most recent call whose page contains `v`. -/
def lastWriter (cs : List Call) (v : ℕ) : Option Call :=
  cs.reverse.find? fun c => c.Contains v

/-- No call asks for a page inside a larger page that is mapped at that time. -/
def NoSplit (gib : Bool) (cs : List Call) : Prop :=
  ∀ before c after, cs = before ++ c :: after →
    ∀ w, lastWriter before c.virt = some w → w.leafSize gib ≤ c.size.bytes

/-- A zeroed root and nothing else. -/
def State.init (root : ℕ) : State :=
  ⟨Function.update (fun _ => none) root (some fun _ => 0), 0⟩

/-- The call. -/
def Call.map (M : Machine) (fuel root : ℕ) (st : State) (c : Call) : Except Fault State :=
  vmmMap M fuel st root c.virt c.phys c.flags c.size

/-- A sequence of calls. -/
def mapAll (M : Machine) (fuel root : ℕ) (st : State) (cs : List Call) : Except Fault State :=
  cs.foldlM (Call.map M fuel root) st

theorem PageSize.bytes_eq (s : PageSize) : s.bytes = 2 ^ (12 + 9 * s.toNat) := by
  cases s <;> rfl

theorem PageSize.toNat_le (s : PageSize) : s.toNat ≤ 2 := by
  cases s <;> decide

/-- Two page numbers agree when they agree in their last index and in what is above it. -/
theorem div_mod_eq_iff (v w a k : ℕ) :
    v / 2 ^ a % 2 ^ (9 + k) = w / 2 ^ a % 2 ^ (9 + k) ↔
      v / 2 ^ (a + 9) % 2 ^ k = w / 2 ^ (a + 9) % 2 ^ k ∧ v / 2 ^ a % 512 = w / 2 ^ a % 512 := by
  have hsplit : ∀ u, u / 2 ^ a % 2 ^ (9 + k) =
      u / 2 ^ a % 512 + 512 * (u / 2 ^ (a + 9) % 2 ^ k) := by
    intro u
    rw [pow_add, Nat.mod_mul, Nat.div_div_eq_div_mul, ← pow_add]
    rfl
  have hv : v / 2 ^ a % 512 < 512 := Nat.mod_lt _ (by norm_num)
  have hw : w / 2 ^ a % 512 < 512 := Nat.mod_lt _ (by norm_num)
  rw [hsplit v, hsplit w]
  generalize v / 2 ^ a % 512 = x at *
  generalize w / 2 ^ a % 512 = y at *
  omega

theorem pathOf_take_prefix_iff (v w : ℕ) :
    ((pathOf w).take 2 <+: pathOf v ↔ v / 2 ^ 30 % 2 ^ 18 = w / 2 ^ 30 % 2 ^ 18) ∧
      ((pathOf w).take 3 <+: pathOf v ↔ v / 2 ^ 21 % 2 ^ 27 = w / 2 ^ 21 % 2 ^ 27) ∧
      ((pathOf w).take 4 <+: pathOf v ↔ v / 2 ^ 12 % 2 ^ 36 = w / 2 ^ 12 % 2 ^ 36) := by
  have h2 := div_mod_eq_iff v w 30 9
  have h3 := div_mod_eq_iff v w 21 18
  have h4 := div_mod_eq_iff v w 12 27
  rw [h4, h3, h2]
  simp only [List.prefix_iff_eq_take, pathOf, List.length_take, List.length_cons, List.length_nil]
  simp
  tauto

theorem window_iff {x y s : ℕ} (hs : 0 < s) (hy : y % s = 0) :
    y ≤ x ∧ x < y + s ↔ x / s = y / s := by
  obtain ⟨k, rfl⟩ := Nat.dvd_of_mod_eq_zero hy
  rw [Nat.mul_div_cancel_left k hs, Nat.div_eq_iff hs, Nat.mul_comm s k]
  omega

theorem Call.contains_iff_div (c : Call) (v : ℕ) :
    c.Contains v ↔ v / c.size.bytes % 2 ^ (36 - 9 * c.size.toNat) =
      c.virt / c.size.bytes % 2 ^ (36 - 9 * c.size.toNat) := by
  have hle := c.size.toNat_le
  have h48 : 2 ^ 48 = c.size.bytes * 2 ^ (36 - 9 * c.size.toNat) := by
    rw [PageSize.bytes_eq, ← pow_add]
    congr 1
    omega
  have hpos : 0 < c.size.bytes := by
    rw [PageSize.bytes_eq]
    exact Nat.two_pow_pos _
  have hmod : c.virt % 2 ^ 48 % c.size.bytes = 0 := by
    rw [Nat.mod_mod_of_dvd _ ⟨_, h48⟩, c.virt_aligned]
  rw [Contains, window_iff hpos hmod, h48, Nat.mod_mul_right_div_self, Nat.mod_mul_right_div_self]

/-- The addresses of a page are those that share its first indices. -/
theorem Call.contains_iff (c : Call) (v : ℕ) :
    c.Contains v ↔ (pathOf c.virt).take (4 - c.size.toNat) <+: pathOf v := by
  obtain ⟨h2, h3, h4⟩ := pathOf_take_prefix_iff v c.virt
  rw [c.contains_iff_div]
  cases c.size with
  | size4KiB => exact h4.symm
  | size2MiB => exact h3.symm
  | size1GiB => exact h2.symm

/-- Inside the page the offset is the low bits of the address. -/
theorem Call.offset_eq {c : Call} {v : ℕ} (h : c.Contains v) :
    v % 2 ^ 48 - c.virt % 2 ^ 48 = v % c.size.bytes := by
  have halign := c.virt_aligned
  unfold Contains at h
  generalize c.virt = w at *
  cases hs : c.size with
  | size4KiB =>
    simp only [hs, PageSize.bytes, PageSize.toNat, pageSizes] at *
    omega
  | size2MiB =>
    simp only [hs, PageSize.bytes, PageSize.toNat, pageSizes] at *
    omega
  | size1GiB =>
    simp only [hs, PageSize.bytes, PageSize.toNat, pageSizes] at *
    omega

/-- An address that shares the first indices of `v` shares its paths down to there. -/
theorem take_pathOf_eq {u v d level : ℕ} (hd : d + level = 3)
    (h : (pathOf v).take (d + 1) <+: pathOf u) :
    (pathOf u).take (d + 1) = (pathOf v).take (d + 1) ∧
      (pathOf u).take d = (pathOf v).take d ∧
      u / 2 ^ (12 + 9 * level) % 512 = v / 2 ^ (12 + 9 * level) % 512 := by
  have hlen : ((pathOf v).take (d + 1)).length = d + 1 := by
    rw [List.length_take, show (pathOf v).length = 4 from rfl]
    omega
  have htake := List.prefix_iff_eq_take.mp h
  rw [hlen] at htake
  have hsplit := htake
  rw [take_pathOf_succ v hd, take_pathOf_succ u hd] at hsplit
  obtain ⟨h1, h2⟩ := List.append_inj' hsplit rfl
  exact ⟨htake.symm, h1.symm, by simpa using h2.symm⟩

/-! ## One level down -/

/-- Unless memory runs out, the result is a value with the property `Q`. -/
def Delivers {α : Type} (r : Except Fault α) (Q : α → Prop) : Prop :=
  r = .error .outOfMemory ∨ ∃ a, r = .ok a ∧ Q a

namespace Delivers

variable {α β : Type} {r : Except Fault α} {Q R : α → Prop}

theorem ok {a : α} (h : Q a) : Delivers (.ok a) Q := .inr ⟨a, rfl, h⟩

theorem mono (h : Delivers r Q) (hQ : ∀ a, Q a → R a) : Delivers r R := by
  rcases h with h | ⟨a, h, ha⟩
  · exact .inl h
  · exact .inr ⟨a, h, hQ a ha⟩

theorem bind {f : α → Except Fault β} {S : β → Prop} (h : Delivers r Q)
    (hf : ∀ a, Q a → Delivers (f a) S) : Delivers (r >>= f) S := by
  rcases h with rfl | ⟨a, rfl, ha⟩
  · exact .inl rfl
  · exact hf a ha

end Delivers

/-- The leaves that callers ask for: 4 KiB pages, with a physical address in `P`, in the tables of
the last level, and large pages in the two levels above. -/
def Shape.plain (P : ℕ → Prop) : Shape where
  leaf π a := π.length = 3 ∧ P a
  large π := π.length = 1 ∨ π.length = 2

/-- Leaves are where the walk expects them: none but large ones above the last level, none in the
root, and 2 MiB pages wherever a caller may ask for them. -/
structure Shape.Regular (S : Shape) : Prop where
  deep : S.Deep
  not_large_nil : ¬ S.large []
  large_of_two : ∀ π : List ℕ, π.length = 2 → S.large π

/-- The entry may stand in the table at path `π`. -/
def Shape.Takes (S : Shape) (π : List ℕ) (e : ℕ) : Prop :=
  (isTable e → S.leaf π (addr e)) ∧ (isLarge e → S.large π)

theorem Shape.plain_regular (P : ℕ → Prop) : (Shape.plain P).Regular where
  deep := fun _ _ h => h.1.ge
  not_large_nil := by
    rintro (h | h)
    · cases h
    · cases h
  large_of_two := fun _ h => .inr h

section Step

variable {M : Machine} {root : ℕ} {S : Shape} {st : State} {own : ℕ → Option (List ℕ)}

theorem testBit_zero_of_absent {e : ℕ} (h1 : ¬ isTable e) (h2 : ¬ isLarge e) :
    e.testBit 0 = false := by
  rw [isTable_iff] at h1
  rw [isLarge_iff] at h2
  cases h0 : e.testBit 0 with
  | false => rfl
  | true => cases h7 : e.testBit 7 <;> simp_all

variable (hT : Tree M root S st own) (hS : S.Regular) (hM : FreshFrames M root)

include hT hS hM

omit hM in
theorem Tree.root_not_isLarge {t : ℕ → ℕ} (ht : st.mem root = some t) (i : ℕ) : ¬ isLarge (t i) :=
  fun h => hS.not_large_nil (hT.large hT.root_own ht h)

/-- Entering a table where nothing is mapped changes no translation. -/
theorem walk_linked {v d level f g : ℕ} {t : ℕ → ℕ} (hg : M.frames st.next = some g)
    (hd : d + (level + 1) = 3) (hf : own f = some ((pathOf v).take d)) (hmem : st.mem f = some t)
    (htab : ¬ isTable (t (v / 2 ^ (12 + 9 * (level + 1)) % 512)))
    (hlarge : ¬ isLarge (t (v / 2 ^ (12 + 9 * (level + 1)) % 512))) (u : ℕ) :
    walk (linked st g f t (v / 2 ^ (12 + 9 * (level + 1)) % 512)) root u = walk st root u := by
  have hL := hT.link hM hg hf hmem htab
  by_cases hu : (pathOf v).take (d + 1) <+: pathOf u
  · -- before the call the walk ends at the free entry, after it in the new table
    obtain ⟨htake, htake', hidx⟩ := take_pathOf_eq hd hu
    have hbefore : walk st root u = none := by
      rw [hT.walk_descend u d (level + 1) f hd (htake' ▸ hf)]
      refine walkFrom_absent hmem ?_
      rw [hidx]
      exact testBit_zero_of_absent htab hlarge
    have hown : linkedOwn own g ((pathOf v).take d) (v / 2 ^ (12 + 9 * (level + 1)) % 512) g =
        some ((pathOf u).take (d + 1)) := by
      rw [htake, take_pathOf_succ v hd]
      exact Function.update_self ..
    rw [hbefore, hL.walk_descend u (d + 1) level _ (by omega) hown]
    exact walkFrom_absent
      ((State.put_mem_of_ne (hT.ne_next hM hg hf).symm _).trans pmmAlloc_mem_self)
      (Nat.zero_testBit 0)
  · rw [take_pathOf_succ v hd] at hu
    exact walk_eq_of_within hS.deep hT (hT.within_link hM hg hf hmem) hu

/-- `get_next_level` where it meets no large page: one level further down the path of `v`, with
the same translations. -/
theorem descend (recur : MapFn) (v d level : ℕ) {f : ℕ} (size : PageSize) (arg : ℕ)
    (hd : d + (level + 1) = 3) (hf : own f = some ((pathOf v).take d))
    (hlarge : ∀ t, st.mem f = some t → ¬ isLarge (t (v / 2 ^ (12 + 9 * (level + 1)) % 512))) :
    Delivers (getNextLevel M recur st f v size arg (tableIndex v (12 + 9 * (level + 1))))
      fun r => ∃ own', Tree M root S r.2 own' ∧
        own' r.1 = some ((pathOf v).take (d + 1)) ∧ ∀ u, walk r.2 root u = walk st root u := by
  obtain ⟨t, hmem⟩ := hT.owned hf
  have hlarge := hlarge t hmem
  rw [tableIndex_eq]
  simp only [getNextLevel, State.read_eq hmem, bind, Except.bind]
  by_cases htab : isTable (t (v / 2 ^ (12 + 9 * (level + 1)) % 512))
  · rw [if_pos htab]
    rcases hT.child hf hmem (Nat.mod_lt _ (by norm_num)) htab with ⟨g, hg, hent, hown⟩ | hleaf
    · rw [hent, addr_tableEntry hg]
      rw [← take_pathOf_succ v hd] at hown
      exact .ok ⟨own, hT, hown, fun _ => rfl⟩
    · have h3 := hS.deep _ _ hleaf
      have := List.length_take_le d (pathOf v)
      omega
  · rw [if_neg htab, if_neg hlarge]
    rcases hg : M.frames st.next with - | g
    · exact .inl (by simp only [linkTable, hg])
    · rw [hT.linkTable_eq hM hg hf hmem]
      refine .ok ⟨_, hT.link hM hg hf hmem htab, ?_,
        walk_linked hT hS hM hg hd hf hmem htab hlarge⟩
      rw [take_pathOf_succ v hd]
      exact Function.update_self ..

omit hM in
/-- Writing a leaf changes the translations of its page and no others. -/
theorem write_leaf {v f e : ℕ} (d level : ℕ) (hd : d + 1 + level = 3)
    (hf : own f = some ((pathOf v).take (d + 1)))
    (he : isLarge e ∧ 1 ≤ level ∨ isTable e ∧ level = 0)
    (htakes : S.Takes ((pathOf v).take (d + 1)) e) :
    ∃ st' own', st.write f (tableIndex v (12 + 9 * level)) e = .ok st' ∧
      Tree M root S st' own' ∧
      ∀ u, walk st' root u =
        if (pathOf v).take (d + 2) <+: pathOf u then some (leafAt u level e grantFlags 0)
        else walk st root u := by
  obtain ⟨t, hmem⟩ := hT.owned hf
  have hT' : Tree M root S (st.put f t (v / 2 ^ (12 + 9 * level) % 512) e)
      (prune own ((pathOf v).take (d + 1) ++ [v / 2 ^ (12 + 9 * level) % 512])) :=
    hT.setLeaf hf hmem htakes.1 htakes.2
  rw [tableIndex_eq]
  refine ⟨_, _, State.write_eq hmem e, hT', fun u => ?_⟩
  by_cases hu : (pathOf v).take (d + 2) <+: pathOf u
  · obtain ⟨-, htake, hidx⟩ := take_pathOf_eq hd hu
    have hf' : prune own ((pathOf v).take (d + 1) ++ [v / 2 ^ (12 + 9 * level) % 512]) f =
        some ((pathOf u).take (d + 1)) := by
      rw [htake]
      exact prune_eq_some.mpr ⟨hf, snoc_not_prefix_self _ _⟩
    have hentry : Function.update t (v / 2 ^ (12 + 9 * level) % 512) e
        (u / 2 ^ (12 + 9 * level) % 512) = e := by
      rw [hidx, Function.update_self]
    rw [if_pos hu, hT'.walk_descend u (d + 1) level f hd hf']
    rcases he with ⟨hl, h1⟩ | ⟨htab, rfl⟩
    · rw [walkFrom_large (State.put_mem_self e) (by rw [hentry]; exact hl) h1 (by omega), hentry]
    · rw [walkFrom_last (State.put_mem_self e) (by rw [hentry]; exact (isTable_iff.mp htab).1),
        hentry]
  · rw [if_neg hu]
    rw [take_pathOf_succ v hd] at hu
    exact walk_eq_of_within hS.deep hT (within_setLeaf e hf hmem) hu

omit hS hM in
/-- Where no page larger than `s` is mapped, the tables on the path have no larger leaf. -/
theorem not_isLarge_of_small {v s d level f : ℕ} {t : ℕ → ℕ}
    (hsmall : ∀ l, walk st root v = some l → l.size ≤ s) (hd : d + level = 3) (h1 : 1 ≤ level)
    (h2 : level ≤ 2) (hs : s < 2 ^ (12 + 9 * level)) (hf : own f = some ((pathOf v).take d))
    (hmem : st.mem f = some t) : ¬ isLarge (t (v / 2 ^ (12 + 9 * level) % 512)) := by
  intro hlarge
  have hwalk := hT.walk_descend v d level f hd hf
  rw [walkFrom_large hmem hlarge h1 h2] at hwalk
  have := hsmall _ hwalk
  simp only [leafAt] at this
  omega

end Step

/-! ## `vmm_map` -/

/-- The bits that mark an entry as a leaf of the given size. -/
def leafMark : PageSize → ℕ
  | .size4KiB => ptFlagValid
  | _ => ptFlagValid ||| ptFlagLarge

namespace Call

/-- The entry for the page of the call. -/
def entry (c : Call) : ℕ := c.phys ||| (c.flags ||| leafMark c.size)

variable (c : Call)

theorem frameAddr_phys : FrameAddr c.phys := by
  refine ⟨?_, c.phys_lt⟩
  have hdvd : 4096 ∣ c.size.bytes := by
    cases c.size <;> decide
  have := c.phys_aligned
  exact Nat.mod_eq_zero_of_dvd (hdvd.trans (Nat.dvd_of_mod_eq_zero this))

theorem testBit_seven_flags : c.flags.testBit 7 = false := by
  have hbit : callerFlags.testBit 7 = false := by decide
  rw [← c.flags_sub, Nat.testBit_and, hbit, Bool.and_false]

theorem testBit_entry_zero : c.entry.testBit 0 = true := by
  rw [entry, testBit_or_of_lt c.frameAddr_phys (by norm_num), Nat.testBit_or]
  cases c.size <;> simp [leafMark, ptFlagValid, ptFlagLarge]

theorem testBit_entry_seven : c.entry.testBit 7 = (leafMark c.size).testBit 7 := by
  rw [entry, testBit_or_of_lt c.frameAddr_phys (by norm_num), Nat.testBit_or,
    c.testBit_seven_flags, Bool.false_or]

theorem addr_entry : addr c.entry = c.phys := by
  refine addr_or c.frameAddr_phys ?_
  rw [Nat.and_or_distrib_right, c.flags_sub.and_eq_zero (by decide), Nat.zero_or]
  cases c.size <;> decide

theorem leafFlags_eq : leafFlags (c.flags ||| ptFlagValid) = c.flags ||| ptFlagValid := by
  refine if_neg (not_not_intro ?_)
  rw [Nat.and_or_distrib_right, c.flags_sub.and_eq_zero (by decide)]
  decide

/-- What the processor reads from the entry is what the call asks for. -/
theorem leafAt_entry {gib : Bool} (hgib : c.size = .size1GiB → gib = true) {u : ℕ}
    (hu : c.Contains u) : leafAt u c.size.toNat c.entry grantFlags 0 = c.leaf gib u := by
  have hmark : SubMask (leafMark c.size) (ptFlagValid ||| ptFlagLarge) := by
    cases c.size <;> decide
  have hsize : c.leafSize gib = c.size.bytes := by
    rw [leafSize, if_neg]
    rintro ⟨h, h'⟩
    exact h' (hgib h)
  have halign := c.phys_aligned
  rw [PageSize.bytes_eq] at halign
  rw [entry, Paging.leafAt_entry c.frameAddr_phys c.flags_sub hmark halign, leaf, offset_eq hu,
    hsize, PageSize.bytes_eq]

end Call

section Map

variable {M : Machine} {root : ℕ} {S : Shape} {st : State} {own : ℕ → Option (List ℕ)}
  {c : Call}

/-- What `vmm_map` is for, on trees of shape `S`: the tables stay a tree, and the address space
changes by the page. -/
def MapsIn (M : Machine) (root : ℕ) (S : Shape) (c : Call) (st : State)
    (r : Except Fault State) : Prop :=
  Delivers r fun st' => ∃ own', Tree M root S st' own' ∧
    ∀ u, walk st' root u = c.install M.is1GibPageSupported (walk st root) u

/-- What `vmm_map` is for: the tables stay a tree, and the address space changes by the page. -/
def Maps (M : Machine) (root : ℕ) (P : ℕ → Prop) (c : Call) (st : State)
    (r : Except Fault State) : Prop :=
  MapsIn M root (.plain P) c st r

/-- The last step: the entry of the page is written into the table at the end of the path. -/
theorem maps_write (hT : Tree M root S st own) (hS : S.Regular)
    (hgib : c.size = .size1GiB → M.is1GibPageSupported = true)
    (htakes : S.Takes ((pathOf c.virt).take (3 - c.size.toNat)) c.entry) {f : ℕ}
    (hf : own f = some ((pathOf c.virt).take (3 - c.size.toNat))) :
    MapsIn M root S c st (st.write f (tableIndex c.virt (12 + 9 * c.size.toNat)) c.entry) := by
  have hle := c.size.toNat_le
  have hmark : isLarge c.entry ∧ 1 ≤ c.size.toNat ∨ isTable c.entry ∧ c.size.toNat = 0 := by
    rw [isLarge_iff, isTable_iff, c.testBit_entry_zero, c.testBit_entry_seven]
    cases hs : c.size with
    | size4KiB => exact .inr ⟨⟨rfl, by decide⟩, rfl⟩
    | size2MiB => exact .inl ⟨⟨rfl, by decide⟩, by decide⟩
    | size1GiB => exact .inl ⟨⟨rfl, by decide⟩, by decide⟩
  obtain ⟨d, hd⟩ : ∃ d, 3 - c.size.toNat = d + 1 := ⟨2 - c.size.toNat, by omega⟩
  rw [hd] at hf htakes
  obtain ⟨st', own', hw, hT', hwalk⟩ :=
    write_leaf hT hS d c.size.toNat (by omega) hf hmark htakes
  rw [hw]
  refine .ok ⟨own', hT', fun u => ?_⟩
  rw [hwalk u, Call.install, show d + 2 = 4 - c.size.toNat by omega]
  by_cases hu : c.Contains u
  · rw [if_pos hu, if_pos ((c.contains_iff u).mp hu), c.leafAt_entry hgib hu]
  · rw [if_neg hu, if_neg fun h => hu ((c.contains_iff u).mpr h)]

theorem MapsIn.congr {st₁ : State} {r : Except Fault State}
    (hwalk : ∀ u, walk st₁ root u = walk st root u) (h : MapsIn M root S c st₁ r) :
    MapsIn M root S c st r := by
  refine h.mono ?_
  rintro st' ⟨own', hT', hw⟩
  refine ⟨own', hT', fun u => ?_⟩
  rw [hw u, Call.install, Call.install, hwalk u]

theorem Call.entry_large {s : PageSize} (hs : c.size = s) (h : s ≠ .size4KiB) :
    c.phys ||| (c.flags ||| ptFlagValid) ||| ptFlagLarge = c.entry := by
  subst hs
  rw [entry, Nat.or_assoc, Nat.or_assoc]
  cases hs : c.size with
  | size4KiB => exact absurd hs h
  | size2MiB => rfl
  | size1GiB => rfl

theorem Call.entry_small (hs : c.size = .size4KiB) :
    c.phys ||| leafFlags (c.flags ||| ptFlagValid) = c.entry := by
  rw [c.leafFlags_eq, entry, hs]
  rfl

/-- The entry that a page is given. -/
def entryFor (phys flags : ℕ) : PageSize → ℕ
  | .size4KiB => phys ||| leafFlags (flags ||| ptFlagValid)
  | _ => phys ||| (flags ||| ptFlagValid) ||| ptFlagLarge

theorem entryFor_eq (c : Call) : entryFor c.phys c.flags c.size = c.entry := by
  cases hs : c.size with
  | size4KiB => exact Call.entry_small hs
  | size2MiB => exact Call.entry_large hs (by decide)
  | size1GiB => exact Call.entry_large hs (by decide)

variable {v : ℕ} {size : PageSize}

/-- Unless memory runs out, the computation is a write of the entry `e` into the table on the path
of `v`, from a state with the same translations. -/
def Writes (M : Machine) (root : ℕ) (S : Shape) (v : ℕ) (size : PageSize) (e : ℕ) (st : State)
    (r : Except Fault State) : Prop :=
  r = .error .outOfMemory ∨ ∃ f st' own', Tree M root S st' own' ∧
    own' f = some ((pathOf v).take (3 - size.toNat)) ∧ (∀ u, walk st' root u = walk st root u) ∧
    r = st'.write f (tableIndex v (12 + 9 * size.toNat)) e

theorem Writes.bind {α : Type} {x : Except Fault α} {Q : α → Prop} {k : α → Except Fault State}
    {e : ℕ} (h : Delivers x Q) (hk : ∀ a, Q a → Writes M root S v size e st (k a)) :
    Writes M root S v size e st (x >>= k) := by
  rcases h with rfl | ⟨a, rfl, ha⟩
  · exact .inl rfl
  · exact hk a ha

theorem Writes.congr {st₁ : State} {e : ℕ} {r : Except Fault State}
    (hwalk : ∀ u, walk st₁ root u = walk st root u) (h : Writes M root S v size e st₁ r) :
    Writes M root S v size e st r := by
  rcases h with h | ⟨f, st', own', hT', hf, hw, h⟩
  · exact .inl h
  · exact .inr ⟨f, st', own', hT', hf, fun u => (hw u).trans (hwalk u), h⟩

variable (hT : Tree M root S st own) (hS : S.Regular) (hM : FreshFrames M root)
  (hmode : M.mode = .fourLevel)

include hT hS hM hmode

/-- A page of the processor's own sizes that splits no other is one write. -/
theorem vmmMapBody_writes (hsmall : ∀ l, walk st root v = some l → l.size ≤ size.bytes)
    (hgib : size = .size1GiB → M.is1GibPageSupported = true) (recur : MapFn) (phys flags : ℕ) :
    Writes M root S v size (entryFor phys flags size) st
      (vmmMapBody M recur st root v phys flags size) := by
  simp only [vmmMapBody, hmode, pure_bind]
  refine Writes.bind (descend hT hS hM recur v 0 2 size 3 rfl
    hT.root_own fun t ht => hT.root_not_isLarge hS ht _) ?_
  rintro ⟨f3, st3⟩ ⟨own3, hT3, hf3, hwalk3⟩
  refine Writes.congr hwalk3 ?_
  by_cases h1 : size = .size1GiB
  · subst h1
    rw [if_pos rfl, if_pos (hgib rfl)]
    exact .inr ⟨f3, st3, own3, hT3, hf3, fun _ => rfl, rfl⟩
  have hsmall3 : ∀ l, walk st3 root v = some l → l.size ≤ size.bytes := by
    intro l
    rw [hwalk3]
    exact hsmall l
  have hlt : size.bytes < 2 ^ (12 + 9 * 2) := by
    cases size with
    | size4KiB => decide
    | size2MiB => decide
    | size1GiB => exact absurd rfl h1
  rw [if_neg h1]
  refine Writes.bind (descend hT3 hS hM recur v 1 1 size 2 rfl
    hf3 fun t ht => not_isLarge_of_small hT3 hsmall3 rfl (by norm_num) le_rfl hlt hf3 ht) ?_
  rintro ⟨f2, st2⟩ ⟨own2, hT2, hf2, hwalk2⟩
  refine Writes.congr hwalk2 ?_
  by_cases h2 : size = .size2MiB
  · subst h2
    rw [if_pos rfl]
    exact .inr ⟨f2, st2, own2, hT2, hf2, fun _ => rfl, rfl⟩
  have h0 : size = .size4KiB := by
    cases size with
    | size4KiB => rfl
    | size2MiB => exact absurd rfl h2
    | size1GiB => exact absurd rfl h1
  subst h0
  have hsmall2 : ∀ l, walk st2 root v = some l → l.size ≤ PageSize.size4KiB.bytes := by
    intro l
    rw [hwalk2]
    exact hsmall3 l
  rw [if_neg h2]
  refine Writes.bind (descend hT2 hS hM recur v 2 0 .size4KiB 1 rfl
    hf2 fun t ht => not_isLarge_of_small hT2 hsmall2 rfl le_rfl (by norm_num) (by decide) hf2 ht) ?_
  rintro ⟨f1, st1⟩ ⟨own1, hT1, hf1, hwalk1⟩
  exact .inr ⟨f1, st1, own1, hT1, hf1, hwalk1, rfl⟩

/-- A page of the processor's own sizes is mapped without recursion. -/
theorem maps_leaf (hsmall : ∀ l, walk st root c.virt = some l → l.size ≤ c.size.bytes)
    (hgib : c.size = .size1GiB → M.is1GibPageSupported = true)
    (htakes : S.Takes ((pathOf c.virt).take (3 - c.size.toNat)) c.entry) (recur : MapFn) :
    MapsIn M root S c st (vmmMapBody M recur st root c.virt c.phys c.flags c.size) := by
  rcases vmmMapBody_writes hT hS hM hmode hsmall hgib recur c.phys c.flags with
    hmem | ⟨f, st1, own1, hT1, hf1, hwalk1, hwrite⟩
  · exact .inl hmem
  · rw [hwrite, entryFor_eq]
    exact MapsIn.congr hwalk1 (maps_write hT1 hS hgib htakes hf1)

end Map

/-! ### 1 GiB pages in pieces -/

namespace Call

/-- The call for the 2 MiB piece at offset `2 MiB * k` of a 1 GiB page. -/
def piece (c : Call) (h : c.size = .size1GiB) (k : ℕ) (hk : k < 512) : Call where
  virt := c.virt + 0x200000 * k
  phys := c.phys + 0x200000 * k
  flags := c.flags
  size := .size2MiB
  virt_lt := by
    have h1 := c.virt_lt
    have h2 := c.virt_aligned
    simp only [h, PageSize.bytes, PageSize.toNat, pageSizes] at h2
    omega
  virt_aligned := by
    have h2 := c.virt_aligned
    simp only [h, PageSize.bytes, PageSize.toNat, pageSizes] at h2 ⊢
    omega
  phys_aligned := by
    have h2 := c.phys_aligned
    simp only [h, PageSize.bytes, PageSize.toNat, pageSizes] at h2 ⊢
    omega
  phys_lt := by
    have h1 := c.phys_lt
    have h2 := c.phys_aligned
    simp only [h, PageSize.bytes, PageSize.toNat, pageSizes] at h2
    omega
  flags_sub := c.flags_sub

variable {c : Call} (h : c.size = .size1GiB) {k : ℕ} (hk : k < 512) {u : ℕ}

include h

theorem virt_add_mod (i : ℕ) (hi : i < 0x40000000) :
    (c.virt + i) % 2 ^ 48 = c.virt % 2 ^ 48 + i := by
  have h2 := c.virt_aligned
  simp only [h, PageSize.bytes, PageSize.toNat, pageSizes] at h2
  omega

theorem contains_piece_iff : (c.piece h k hk).Contains u ↔
    c.virt % 2 ^ 48 + 0x200000 * k ≤ u % 2 ^ 48 ∧
      u % 2 ^ 48 < c.virt % 2 ^ 48 + 0x200000 * (k + 1) := by
  have hmod := virt_add_mod h (0x200000 * k) (by omega)
  simp only [Contains, piece, hmod, PageSize.bytes, PageSize.toNat, pageSizes]
  omega

theorem leaf_piece (hu : (c.piece h k hk).Contains u) :
    (c.piece h k hk).leaf false u = c.leaf false u := by
  have hmod := virt_add_mod h (0x200000 * k) (by omega)
  rw [contains_piece_iff] at hu
  have hp : (c.piece h k hk).size ≠ .size1GiB := by simp [piece]
  simp only [leaf, leafSize, h, piece, hmod]
  simp
  omega

end Call

section Pieces

variable {M : Machine} {root : ℕ} {S : Shape} {st : State} {own : ℕ → Option (List ℕ)}
  {c : Call}

/-- The valid bit that a recursive call is given is set anyway. -/
theorem vmmMapBody_valid (recur : MapFn) (dir virt phys flags : ℕ) (size : PageSize) :
    vmmMapBody M recur st dir virt phys (flags ||| ptFlagValid) size =
      vmmMapBody M recur st dir virt phys flags size := by
  simp only [vmmMapBody, Nat.or_assoc, Nat.or_self]

/-- What is left of the page at piece `k` is this piece and what is left behind it. -/
theorem window_split {x y k : ℕ} (hk : k < 512) :
    (x + 0x200000 * k ≤ y ∧ y < x + 0x200000 * (k + 1) →
      ¬ (x + 0x200000 * (k + 1) ≤ y ∧ y < x + 0x40000000) ∧
        (x + 0x200000 * k ≤ y ∧ y < x + 0x40000000)) ∧
    (¬ (x + 0x200000 * k ≤ y ∧ y < x + 0x200000 * (k + 1)) →
      (x + 0x200000 * (k + 1) ≤ y ∧ y < x + 0x40000000 ↔
        x + 0x200000 * k ≤ y ∧ y < x + 0x40000000)) := by
  omega

variable (hS : S.Regular) (hM : FreshFrames M root) (hmode : M.mode = .fourLevel)
  (hgib : M.is1GibPageSupported = false) (h1 : c.size = .size1GiB)

include hS in
theorem Shape.Regular.takes_of_mib (h2 : c.size = .size2MiB) {π : List ℕ} (hπ : π.length = 2) :
    S.Takes π c.entry := by
  refine ⟨fun htab => ?_, fun _ => hS.large_of_two π hπ⟩
  rw [isTable_iff, c.testBit_entry_seven, h2] at htab
  exact absurd htab.2 (by decide)

include hS hM hmode hgib h1

theorem maps_pieces (fuel turns k : ℕ) (hk : k + turns = 512) (hT : Tree M root S st own)
    (hsmall : ∀ v l, walk st root v = some l → l.size ≤ PageSize.size2MiB.bytes) :
    Delivers (mapLoop (vmmMap M (fuel + 1)) root c.virt c.phys (c.flags ||| ptFlagValid)
        .size2MiB 0x200000 turns (0x200000 * k) st) fun st' =>
      ∃ own', Tree M root S st' own' ∧ ∀ u, walk st' root u =
        if c.virt % 2 ^ 48 + 0x200000 * k ≤ u % 2 ^ 48 ∧ u % 2 ^ 48 < c.virt % 2 ^ 48 + 0x40000000
        then some (c.leaf false u) else walk st root u := by
  induction turns generalizing k st own with
  | zero =>
    refine .ok ⟨own, hT, fun u => ?_⟩
    rw [if_neg (by omega)]
  | succ turns ih =>
    have hk' : k < 512 := by omega
    have hpiece : (c.piece h1 k hk').size = .size2MiB := rfl
    have hmap := maps_leaf (c := c.piece h1 k hk') hT hS hM hmode (fun l hl => hsmall _ l hl)
      (by rw [hpiece]; exact nofun) (hS.takes_of_mib hpiece rfl) (vmmMap M fuel)
    have hcall : vmmMap M (fuel + 1) st root (c.virt + 0x200000 * k) (c.phys + 0x200000 * k)
        (c.flags ||| ptFlagValid) .size2MiB = vmmMapBody M (vmmMap M fuel) st root
          (c.piece h1 k hk').virt (c.piece h1 k hk').phys (c.piece h1 k hk').flags .size2MiB := by
      rw [vmmMap, vmmMapBody_valid]
      rfl
    rw [mapLoop, hcall]
    refine Delivers.bind hmap ?_
    rintro st1 ⟨own1, hT1, hwalk1⟩
    rw [hgib] at hwalk1
    have hleaf2 : ∀ u, (c.leaf false u).size = PageSize.size2MiB.bytes := fun u =>
      if_pos ⟨h1, by simp⟩
    refine (ih (k + 1) (by omega) hT1 ?_).mono ?_
    · intro v l hl
      rw [hwalk1, Call.install] at hl
      split_ifs at hl with hv
      · rw [Call.leaf_piece h1 hk' hv] at hl
        obtain rfl := Option.some.inj hl
        exact (hleaf2 v).le
      · exact hsmall v l hl
    rintro st' ⟨own', hT', hwalk⟩
    refine ⟨own', hT', fun u => ?_⟩
    rw [hwalk u, hwalk1 u, Call.install]
    by_cases hpc : (c.piece h1 k hk').Contains u
    · rw [if_pos hpc, Call.leaf_piece h1 hk' hpc]
      rw [Call.contains_piece_iff h1 hk'] at hpc
      obtain ⟨hlater, hhere⟩ := (window_split hk').1 hpc
      rw [if_neg hlater, if_pos hhere]
    · rw [if_neg hpc]
      rw [Call.contains_piece_iff h1 hk'] at hpc
      simp only [(window_split hk').2 hpc]

/-- Without 1 GiB pages a page of this size is mapped in pieces. -/
theorem maps_gib (fuel : ℕ) (hT : Tree M root S st own)
    (hsmall : ∀ v l, walk st root v = some l → l.size ≤ PageSize.size2MiB.bytes) :
    MapsIn M root S c st
      (vmmMapBody M (vmmMap M (fuel + 1)) st root c.virt c.phys c.flags c.size) := by
  simp only [vmmMapBody, hmode, pure_bind]
  refine Delivers.bind (descend hT hS hM (vmmMap M (fuel + 1)) c.virt 0 2 c.size 3 rfl
    hT.root_own fun t ht => hT.root_not_isLarge hS ht _) ?_
  rintro ⟨f3, st3⟩ ⟨own3, hT3, -, hwalk3⟩
  refine MapsIn.congr hwalk3 ?_
  rw [if_pos h1, hgib]
  refine (maps_pieces hS hM hmode hgib h1 fuel 512 0 rfl hT3 fun v l => ?_).mono ?_
  · rw [hwalk3]
    exact hsmall v l
  rintro st' ⟨own', hT', hwalk⟩
  refine ⟨own', hT', fun u => ?_⟩
  rw [hwalk u, Call.install, hgib]
  simp only [Call.Contains, h1, PageSize.bytes, PageSize.toNat, pageSizes, Nat.mul_zero,
    Nat.add_zero]

end Pieces

/-! ## Sequences of calls -/

section Sequence

variable {M : Machine} {root : ℕ} {P : ℕ → Prop} {st : State} {own : ℕ → Option (List ℕ)}

/-- The entry of a call may stand where callers ask for it. -/
theorem Call.takes_entry {c : Call} {π : List ℕ} (hleaf : c.size = .size4KiB → P c.phys)
    (hπ : π.length + c.size.toNat = 3) : (Shape.plain P).Takes π c.entry := by
  unfold Shape.Takes
  rw [isLarge_iff, isTable_iff, c.testBit_entry_zero, c.testBit_entry_seven, c.addr_entry]
  simp only [Shape.plain]
  cases hs : c.size with
  | size4KiB =>
    rw [hs] at hπ
    exact ⟨fun _ => ⟨hπ, hleaf hs⟩, fun h => absurd h.2 (by decide)⟩
  | size2MiB =>
    rw [hs, PageSize.toNat] at hπ
    exact ⟨fun h => absurd h.2 (by decide), fun _ => by omega⟩
  | size1GiB =>
    rw [hs, PageSize.toNat] at hπ
    exact ⟨fun h => absurd h.2 (by decide), fun _ => by omega⟩

/-- `vmm_map` refines the update of the address space, as long as it does not have to split. -/
theorem vmmMap_refines (hM : FreshFrames M root) (hmode : M.mode = .fourLevel) {c : Call} {fuel : ℕ}
    (hfuel : 2 ≤ fuel ∨ M.is1GibPageSupported = true ∧ 1 ≤ fuel)
    (hT : Tree M root (.plain P) st own)
    (hsmall : ∀ l, walk st root c.virt = some l → l.size ≤ c.size.bytes)
    (hgib : M.is1GibPageSupported = false →
      ∀ v l, walk st root v = some l → l.size ≤ PageSize.size2MiB.bytes)
    (hleaf : c.size = .size4KiB → P c.phys) :
    Maps M root P c st (c.map M fuel root st) := by
  by_cases h : c.size = .size1GiB ∧ M.is1GibPageSupported = false
  · have h2 : 2 ≤ fuel := by
      rcases hfuel with h2 | ⟨hg, -⟩
      · exact h2
      · rw [h.2] at hg
        cases hg
    obtain ⟨n, rfl⟩ : ∃ n, fuel = n + 2 := ⟨fuel - 2, by omega⟩
    exact maps_gib (Shape.plain_regular P) hM hmode h.2 h.1 n hT (hgib h.2)
  · obtain ⟨n, rfl⟩ : ∃ n, fuel = n + 1 := ⟨fuel - 1, by omega⟩
    have hle := c.size.toNat_le
    refine maps_leaf hT (Shape.plain_regular P) hM hmode hsmall (fun h1 => ?_)
      (c.takes_entry hleaf ?_) (vmmMap M n)
    · simpa [h1] using h
    · rw [List.length_take, show (pathOf c.virt).length = 4 from rfl]
      omega

theorem lastWriter_append (cs : List Call) (c : Call) (v : ℕ) :
    lastWriter (cs ++ [c]) v = if c.Contains v then some c else lastWriter cs v := by
  unfold lastWriter
  rw [List.reverse_append, List.reverse_singleton, List.singleton_append, List.find?_cons]
  by_cases h : c.Contains v <;> simp [h]

theorem Call.leafSize_le_of_not_gib (c : Call) : c.leafSize false ≤ PageSize.size2MiB.bytes := by
  unfold leafSize
  cases hs : c.size with
  | size4KiB => decide
  | size2MiB => decide
  | size1GiB => exact le_rfl

/-- The state after the calls `cs`: the tables are a tree, and every address is translated by the
last call for it. -/
structure Holds (M : Machine) (root : ℕ) (P : ℕ → Prop) (cs : List Call) (st : State) :
    Prop where
  tree : ∃ own, Tree M root (.plain P) st own
  walk_eq : ∀ v, walk st root v = (lastWriter cs v).map fun c => c.leaf M.is1GibPageSupported v

/-- A zeroed root is a tree, whatever the shape. -/
theorem Tree.init (S : Shape) : Tree M root S (State.init root)
    fun f => if f = root then some [] else none := by
  have hmem : (State.init root).mem root = some fun _ => 0 := by simp [State.init]
  have hroot : ∀ {f t}, (State.init root).mem f = some t → f = root ∧ t = fun _ => 0 := by
    intro f t hf
    by_cases h : f = root
    · subst h
      exact ⟨rfl, (Option.some.inj (hmem.symm.trans hf)).symm⟩
    · simp [State.init, h] at hf
  have hown : ∀ {f π}, (if f = root then some ([] : List ℕ) else none) = some π →
      f = root ∧ π = [] := by
    intro f π hf
    split_ifs at hf with h
    exact ⟨h, (Option.some.inj hf).symm⟩
  refine ⟨if_pos rfl, fun hf => ?_, fun hf hg => ?_, fun hf => .inl (hroot hf).1,
    fun hf ht _ htab => ?_, fun hf ht hlarge => ?_, fun hg => ?_⟩
  · obtain ⟨rfl, -⟩ := hown hf
    exact ⟨_, hmem⟩
  · rw [(hown hf).1, (hown hg).1]
  · rw [(hroot ht).2] at htab
    exact absurd htab (show ¬ isTable 0 by decide)
  · rw [(hroot ht).2] at hlarge
    exact absurd hlarge (show ¬ isLarge 0 by decide)
  · exact absurd (hown hg).2 (by simp)

theorem Holds.init : Holds M root P [] (State.init root) := by
  have hmem : (State.init root).mem root = some fun _ => 0 := by simp [State.init]
  exact ⟨⟨_, Tree.init _⟩, fun v => walkFrom_absent hmem (Nat.zero_testBit 0)⟩

theorem Holds.step (hM : FreshFrames M root) (hmode : M.mode = .fourLevel) {fuel : ℕ}
    (hfuel : 2 ≤ fuel ∨ M.is1GibPageSupported = true ∧ 1 ≤ fuel) {cs : List Call} {c : Call}
    (h : Holds M root P cs st)
    (hsmall : ∀ w, lastWriter cs c.virt = some w →
      w.leafSize M.is1GibPageSupported ≤ c.size.bytes)
    (hleaf : c.size = .size4KiB → P c.phys) :
    Delivers (c.map M fuel root st) (Holds M root P (cs ++ [c])) := by
  obtain ⟨own, hT⟩ := h.tree
  have hsmall' : ∀ l, walk st root c.virt = some l → l.size ≤ c.size.bytes := by
    intro l hl
    rw [h.walk_eq] at hl
    obtain ⟨w, hw, rfl⟩ := Option.map_eq_some_iff.mp hl
    exact hsmall w hw
  have hgib : M.is1GibPageSupported = false →
      ∀ v l, walk st root v = some l → l.size ≤ PageSize.size2MiB.bytes := by
    intro hg v l hl
    rw [h.walk_eq] at hl
    obtain ⟨w, -, rfl⟩ := Option.map_eq_some_iff.mp hl
    rw [hg]
    exact w.leafSize_le_of_not_gib
  refine (vmmMap_refines hM hmode hfuel hT hsmall' hgib hleaf).mono ?_
  rintro st' ⟨own', hT', hwalk⟩
  refine ⟨⟨own', hT'⟩, fun v => ?_⟩
  rw [hwalk v, Call.install, lastWriter_append, h.walk_eq]
  split_ifs <;> rfl

theorem NoSplit.of_append {gib : Bool} {cs ds : List Call} (h : NoSplit gib (cs ++ ds)) :
    NoSplit gib cs := by
  rintro before c after rfl
  exact h before c (after ++ ds) (by simp)

theorem mapAll_append (fuel : ℕ) (cs : List Call) (c : Call) :
    mapAll M fuel root st (cs ++ [c]) = mapAll M fuel root st cs >>= fun st' =>
      c.map M fuel root st' := by
  simp only [mapAll, List.foldlM_append, List.foldlM_cons, List.foldlM_nil, bind_pure]

theorem mapAll_holds (hM : FreshFrames M root) (hmode : M.mode = .fourLevel) {fuel : ℕ}
    (hfuel : 2 ≤ fuel ∨ M.is1GibPageSupported = true ∧ 1 ≤ fuel) (cs : List Call)
    (hns : NoSplit M.is1GibPageSupported cs)
    (hleaf : ∀ c ∈ cs, c.size = .size4KiB → P c.phys) :
    Delivers (mapAll M fuel root (State.init root) cs) (Holds M root P cs) := by
  induction cs using List.reverseRecOn with
  | nil => exact .ok Holds.init
  | append_singleton cs c ih =>
    rw [mapAll_append]
    refine (ih hns.of_append fun c' hc' => hleaf c' (List.mem_append_left _ hc')).bind ?_
    intro st h
    exact h.step hM hmode hfuel (hns cs c [] rfl) (hleaf c (by simp))

/-- Unless memory runs out, every address is translated by the last call for it. -/
theorem lastWriter_wins (M : Machine) (root : ℕ) (hM : FreshFrames M root)
    (hmode : M.mode = .fourLevel) (cs : List Call) (hns : NoSplit M.is1GibPageSupported cs)
    (fuel : ℕ) (hfuel : 2 ≤ fuel)
    (hmem : mapAll M fuel root (State.init root) cs ≠ .error .outOfMemory) :
    ∃ st, mapAll M fuel root (State.init root) cs = .ok st ∧
      ∀ v, walk st root v = (lastWriter cs v).map fun c => c.leaf M.is1GibPageSupported v := by
  obtain ⟨st, hst, h⟩ := (mapAll_holds (P := fun _ => True) hM hmode (.inl hfuel) cs hns
    fun _ _ _ => trivial).resolve_left hmem
  exact ⟨st, hst, h.walk_eq⟩

/-- A processor without 1 GiB pages, and eight free frames behind the root's. -/
def demoMachine (gib : Bool) : Machine where
  mode := .fourLevel
  is1GibPageSupported := gib
  frames k := if k < 8 then some (0x2000 + 0x1000 * k) else none

theorem demoMachine_fresh (gib : Bool) : FreshFrames (demoMachine gib) 0x1000 := by
  have hframe : ∀ {k g}, (demoMachine gib).frames k = some g → k < 8 ∧ g = 0x2000 + 0x1000 * k := by
    intro k g h
    simp only [demoMachine] at h
    split_ifs at h with hk
    exact ⟨hk, (Option.some.inj h).symm⟩
  refine ⟨fun h1 h2 => ?_, fun h => ?_, fun h => ?_⟩
  · have := (hframe h1).2
    have := (hframe h2).2
    omega
  · obtain ⟨hk, rfl⟩ := hframe h
    constructor <;> omega
  · have := (hframe h).2
    omega

theorem demoVirt_lt : 0x200000 < 2 ^ 64 := by norm_num

theorem subMask_ptFlagWrite : SubMask ptFlagWrite callerFlags := by decide

/-- A 2 MiB page at `0x200000`. -/
def demoCall (phys : ℕ) (h : phys % 0x200000 = 0 ∧ phys < 2 ^ 48) : Call where
  virt := 0x200000
  phys := phys
  flags := ptFlagWrite
  size := .size2MiB
  virt_lt := demoVirt_lt
  virt_aligned := rfl
  phys_aligned := h.1
  phys_lt := h.2
  flags_sub := subMask_ptFlagWrite

theorem lastWriter_wins_demo :
    ∃ st, mapAll (demoMachine false) 2 0x1000 (State.init 0x1000)
        [demoCall 0x400000 (by norm_num), demoCall 0x600000 (by norm_num)] = .ok st ∧
      walk st 0x1000 0x200123 = some ⟨0x600123, ptFlagWrite, 0x200000⟩ ∧
      walk st 0x1000 0x400123 = none := by
  have hmem : mapAll (demoMachine false) 2 0x1000 (State.init 0x1000)
      [demoCall 0x400000 (by norm_num), demoCall 0x600000 (by norm_num)] ≠
        .error .outOfMemory := by
    intro h
    have hok : (mapAll (demoMachine false) 2 0x1000 (State.init 0x1000)
      [demoCall 0x400000 (by norm_num), demoCall 0x600000 (by norm_num)]).isOk = true := by
        decide +kernel
    rw [h] at hok
    cases hok
  -- both pages are of the same size
  have hns : NoSplit (demoMachine false).is1GibPageSupported
      [demoCall 0x400000 (by norm_num), demoCall 0x600000 (by norm_num)] := by
    intro before c after hcs w hw
    have hsize : ∀ c' ∈ before ++ c :: after, c'.size = .size2MiB := by
      rw [← hcs]
      simp [demoCall]
    have hmemw : w ∈ before := List.mem_reverse.mp (List.mem_of_find?_eq_some hw)
    rw [Call.leafSize, hsize w (List.mem_append_left _ hmemw),
      hsize c (List.mem_append_right _ List.mem_cons_self)]
    decide
  obtain ⟨st, hst, hwalk⟩ := lastWriter_wins (demoMachine false) 0x1000 (demoMachine_fresh false)
    rfl _ hns 2 le_rfl hmem
  exact ⟨st, hst, hwalk 0x200123, hwalk 0x400123⟩

end Sequence

end CappuccinOS.Paging
