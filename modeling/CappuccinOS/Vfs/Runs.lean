import CappuccinOS.Vfs.Tree

/-!
# What calls do to the node tree

All that `lookup` and `vfs_open` do to the state is to insert children that were looked up behind
the cache: `Caches` is one such insertion and `Fills` any number of them. What holds of the state
after every call is shown for these insertions, for a mount, and for the tree of a new root.

1. `lookup_cases`, `fills_vfsOpen` and `addVfs_cases` say what the calls can do.
2. `Wf`: the names in a map and the nodes below it are the same.
3. `Reaches` are the states that runs of calls come to.
-/

namespace CappuccinOS.Vfs

variable {Obj Fs : Type} {D : Drivers Obj Fs} {L : Layout} {N : Text → Prop}
  {st st' : State Obj Fs} {π ρ : Path} {name : Text} {self : TreeNode Obj} {vnode : VNode Obj}

/-! ## Updates -/

theorem State.modify_tree_self {f : TreeNode Obj → TreeNode Obj} (h : st.tree π = some self) :
    (st.modify π f).tree π = some (f self) := by
  simp only [modify, Function.update_self, h, Option.map_some]

theorem State.modify_tree_of_ne {f : TreeNode Obj → TreeNode Obj} (h : ρ ≠ π) :
    (st.modify π f).tree ρ = st.tree ρ := Function.update_of_ne h ..

theorem State.insert_tree_child : (st.insert L π name vnode).tree (name :: π) =
    some ⟨vnode, none, some (st.asPtr L π), []⟩ := Function.update_self ..

theorem State.insert_tree_self (h : st.tree π = some self) :
    (st.insert L π name vnode).tree π =
      some { self with children := self.children ++ [name] } := by
  have hne : π ≠ name :: π := fun h => by simpa using congrArg List.length h
  exact (Function.update_of_ne hne ..).trans (modify_tree_self h)

theorem State.insert_tree_of_ne (h : ρ ≠ π) (h' : ρ ≠ name :: π) :
    (st.insert L π name vnode).tree ρ = st.tree ρ :=
  (Function.update_of_ne h' ..).trans (modify_tree_of_ne h)

/-- A node after an insertion: the new one, or one that was there, with its fields but for the
names below it. -/
theorem State.insert_tree_cases {node : TreeNode Obj} (hself : st.tree π = some self)
    (h : (st.insert L π name vnode).tree ρ = some node) :
    ρ = name :: π ∧ node = ⟨vnode, none, some (st.asPtr L π), []⟩ ∨
      ρ ≠ name :: π ∧ ∃ old, st.tree ρ = some old ∧ node.vnode = old.vnode ∧
        node.vfsMountedHere = old.vfsMountedHere ∧ node.parent = old.parent ∧
        (ρ = π → node.children = old.children ++ [name]) ∧
        (ρ ≠ π → node.children = old.children) := by
  by_cases h1 : ρ = name :: π
  · subst h1
    rw [insert_tree_child] at h
    exact .inl ⟨rfl, (Option.some.inj h).symm⟩
  right
  by_cases h2 : ρ = π
  · subst h2
    rw [insert_tree_self hself] at h
    obtain rfl := Option.some.inj h
    exact ⟨h1, self, hself, rfl, rfl, rfl, fun _ => rfl, fun h => absurd rfl h⟩
  · rw [insert_tree_of_ne h2 h1] at h
    exact ⟨h1, node, h, rfl, rfl, rfl, fun h => absurd h h2, fun _ => rfl⟩

/-- A name below a node after an insertion: the new one, or one that was there. -/
theorem State.insert_children_cases {node : TreeNode Obj} {n : Text} (hself : st.tree π = some self)
    (h : (st.insert L π name vnode).tree ρ = some node) (hn : n ∈ node.children) :
    ρ = π ∧ n = name ∨ ∃ old, st.tree ρ = some old ∧ n ∈ old.children := by
  rcases State.insert_tree_cases hself h with ⟨-, rfl⟩ | ⟨-, old, hold, -, -, -, h1, h2⟩
  · cases hn
  by_cases hρ : ρ = π
  · rw [h1 hρ, List.mem_append, List.mem_singleton] at hn
    rcases hn with hn | hn
    · exact .inr ⟨old, hold, hn⟩
    · exact .inl ⟨hρ, hn⟩
  · rw [h2 hρ] at hn
    exact .inr ⟨old, hold, hn⟩

/-! ## Calls -/

/-- A child is cached, under a name that `N` allows. -/
inductive Caches (D : Drivers Obj Fs) (L : Layout) (N : Text → Prop) (st : State Obj Fs) :
    State Obj Fs → Prop
  | insert {π : Path} {self : TreeNode Obj} {name : Text} {vnode : VNode Obj}
      (hself : st.tree π = some self) (hnew : name ∉ self.children) (hdotdot : name ≠ dotdot)
      (hdot : name ≠ dot) (hN : N name) (hlookup : self.lookupVNode D st name = .ok vnode) :
      Caches D L N st (st.insert L π name vnode)

abbrev Fills (D : Drivers Obj Fs) (L : Layout) (N : Text → Prop) :
    State Obj Fs → State Obj Fs → Prop := Relation.ReflTransGen (Caches D L N)

theorem lookup_cases (st : State Obj Fs) (π : Path) (hN : N name) : (lookup D L st π name).2 = st ∨
    (lookup D L st π name).1 = .ok (name :: π) ∧ Caches D L N st (lookup D L st π name).2 := by
  unfold lookup
  rcases hself : st.tree π with - | self
  · exact .inl rfl
  simp only
  split_ifs with h1 h2 h3
  · left
    rcases self.parent with - | a
    · rfl
    · simp only
      rcases st.nodeAt L a with - | parent <;> rfl
  · exact .inl rfl
  · exact .inl rfl
  · rcases hv : self.lookupVNode D st name with e | vnode
    · exact .inl rfl
    · exact .inr ⟨rfl, .insert hself h3 h1 h2 hN hv⟩

theorem fills_lookup (st : State Obj Fs) (π : Path) (hN : N name) :
    Fills D L N st (lookup D L st π name).2 := by
  rcases lookup_cases (D := D) (L := L) st π hN with h | ⟨-, h⟩
  · rw [h]
  · exact .single h

theorem lookup_error {e : Stop} (h : lookup D L st π name = (.error e, st')) : st' = st := by
  rcases lookup_cases (D := D) (L := L) (N := fun _ => True) st π trivial with h' | ⟨h', -⟩
  · rw [← h', h]
  · rw [h] at h'
    cases h'

theorem fills_openLoop (parts : List Text) (hN : ∀ part ∈ parts, part ≠ [] → N part)
    (st : State Obj Fs) (cur : Path) : Fills D L N st (openLoop D L st cur parts).2 := by
  induction parts generalizing st cur with
  | nil => exact .refl
  | cons part parts ih =>
    have hrest := fun part' h => hN part' (List.mem_cons_of_mem part h)
    rw [openLoop]
    split_ifs with h1
    · exact ih hrest st cur
    · have hl := fills_lookup (D := D) (L := L) st cur (hN part List.mem_cons_self h1)
      rcases hr : lookup D L st cur part with ⟨e | new, st1⟩
      · rw [hr] at hl
        exact hl
      · rw [hr] at hl
        exact hl.trans (ih hrest st1 new)

theorem fills_vfsOpen (st : State Obj Fs) {path : Text}
    (hN : ∀ part ∈ split path, part ≠ [] → N part) :
    Fills D L N st (vfsOpen D L st path).2 := by
  unfold vfsOpen
  split_ifs
  · exact .refl
  · exact fills_openLoop _ hN st []

/-- The state after a root is mounted. -/
def State.ofRoot (D : Drivers Obj Fs) (vfsp : ℕ) (fs : Fs) : State Obj Fs :=
  ⟨[⟨vfsp, slash, fs⟩],
    Function.update (fun _ => none) [] (some ⟨⟨D.root fs, vfsp⟩, none, none, []⟩)⟩

/-- The state after a file system is mounted on a node. -/
def State.mount (st : State Obj Fs) (π : Path) (m : Mount Fs) : State Obj Fs :=
  { st.modify π fun node => { node with vfsMountedHere := some m.addr } with
    vfss := st.vfss ++ [m] }

theorem addVfs_cases {vfsp : ℕ} {mp : Text} {fs : Fs} {r : Except Stop Unit}
    (h : addVfs D L st vfsp mp fs = (r, st')) (hN : ∀ part ∈ split mp, part ≠ [] → N part) :
    (r ≠ .ok () ∧ Fills D L N st st') ∨
    (r = .ok () ∧ mp = slash ∧ st.vfss = [] ∧ st' = .ofRoot D vfsp fs) ∨
    (r = .ok () ∧ mp ≠ slash ∧ st.vfss ≠ [] ∧ ∃ st1 st2 π π', vfsOpen D L st mp = (.ok π', st1) ∧
      vfsOpen D L st1 mp = (.ok π, st2) ∧ Fills D L N st st2 ∧
      st' = st2.mount π ⟨vfsp, mp, fs⟩) := by
  unfold addVfs at h
  split_ifs at h with h1 h2 h3
  · cases h
    exact .inl ⟨nofun, .refl⟩
  · rw [not_not] at h2
    rw [h2] at h
    cases h
    subst h1
    exact .inr (.inl ⟨rfl, rfl, h2, rfl⟩)
  · cases h
    exact .inl ⟨nofun, .refl⟩
  have hopen1 := fills_vfsOpen (D := D) (L := L) st hN
  rcases ho1 : vfsOpen D L st mp with ⟨e | π', st1⟩
  · rw [ho1] at h hopen1
    cases h
    exact .inl ⟨nofun, hopen1⟩
  have hopen2 := fills_vfsOpen (D := D) (L := L) st1 hN
  rw [ho1] at h hopen1
  rcases ho2 : vfsOpen D L st1 mp with ⟨e | π, st2⟩
  · simp only [ho2] at h hopen2
    cases h
    exact .inl ⟨nofun, hopen1.trans hopen2⟩
  · simp only [ho2] at h hopen2
    cases h
    exact .inr (.inr ⟨rfl, h1, h3, st1, st2, π, π', rfl, ho2, hopen1.trans hopen2, rfl⟩)

theorem lookup_dot (hself : st.tree π = some self) : lookup D L st π dot = (.ok π, st) := by
  have hne : dot ≠ dotdot := by decide
  simp only [lookup, hself, if_neg hne, if_true]

/-- A name that is not cached is as the lookup behind the cache has it: the child is inserted, -/
theorem lookup_insert (hself : st.tree π = some self) (hnew : name ∉ self.children)
    (hdotdot : name ≠ dotdot) (hdot : name ≠ dot)
    (hlookup : self.lookupVNode D st name = .ok vnode) :
    lookup D L st π name = (.ok (name :: π), st.insert L π name vnode) := by
  simp only [lookup, hself, if_neg hdotdot, if_neg hdot, if_neg hnew, hlookup]

theorem lookup_missing {e : Stop} (hself : st.tree π = some self) (hnew : name ∉ self.children)
    (hdotdot : name ≠ dotdot) (hdot : name ≠ dot)
    (hlookup : self.lookupVNode D st name = .error e) :
    lookup D L st π name = (.error e, st) := by
  simp only [lookup, hself, if_neg hdotdot, if_neg hdot, if_neg hnew, hlookup]

/-! ## Well-formed trees -/

/-- The names in the map of a node are those of the nodes below it. They can be looked up and `N`
allows them. Just the root has no parent pointer. -/
structure Wf (N : Text → Prop) (st : State Obj Fs) : Prop where
  child : ∀ {name π node}, st.tree (name :: π) = some node →
    ∃ self, st.tree π = some self ∧ name ∈ self.children
  node : ∀ {π self name}, st.tree π = some self → name ∈ self.children →
    ∃ node, st.tree (name :: π) = some node
  nodup : ∀ {π self}, st.tree π = some self → self.children.Nodup
  proper : ∀ {π self name}, st.tree π = some self → name ∈ self.children →
    name ≠ dotdot ∧ name ≠ dot ∧ N name
  parent : ∀ {π self}, st.tree π = some self → (self.parent = none ↔ π = [])

namespace Wf

theorem init : Wf N (State.init : State Obj Fs) := ⟨nofun, nofun, nofun, nofun, nofun⟩

theorem ofRoot (vfsp : ℕ) (fs : Fs) : Wf N (.ofRoot D vfsp fs) := by
  have hroot : ∀ {π self}, (State.ofRoot D vfsp fs).tree π = some self →
      π = [] ∧ self.children = [] ∧ self.parent = none := by
    intro π self h
    by_cases hπ : π = []
    · subst hπ
      simp only [State.ofRoot, Function.update_self, Option.some.injEq] at h
      subst h
      exact ⟨rfl, rfl, rfl⟩
    · simp [State.ofRoot, hπ] at h
  refine ⟨fun h => ?_, fun h hname => ?_, fun h => ?_, fun h hname => ?_, fun h => ?_⟩
  · cases (hroot h).1
  · rw [(hroot h).2.1] at hname
    cases hname
  · rw [(hroot h).2.1]
    exact List.nodup_nil
  · rw [(hroot h).2.1] at hname
    cases hname
  · exact iff_of_true (hroot h).2.2 (hroot h).1

theorem tree_none (h : Wf N st) (hself : st.tree π = some self) (hnew : name ∉ self.children) :
    st.tree (name :: π) = none := by
  by_contra hne
  obtain ⟨node, hnode⟩ := Option.ne_none_iff_exists'.mp hne
  obtain ⟨self', hself', hmem⟩ := h.child hnode
  obtain rfl := Option.some.inj (hself.symm.trans hself')
  exact hnew hmem

theorem exists_of_mem_keys (h : Wf N st) (hmem : name ∈ st.keys π) :
    ∃ node, st.tree (name :: π) = some node := by
  unfold State.keys at hmem
  rcases hself : st.tree π with - | self
  · rw [hself] at hmem
    cases hmem
  · rw [hself] at hmem
    exact h.node hself hmem

theorem mem_keys (h : Wf N st) (hπ : st.tree (name :: π) = some self) : name ∈ st.keys π := by
  obtain ⟨q, hq, hmem⟩ := h.child hπ
  rwa [State.keys, hq]

/-- What an insertion leaves: all fields of the nodes but for new names. -/
theorem caches_keeps (hwf : Wf N st) (hc : Caches D L N st st') {node : TreeNode Obj}
    (h : st.tree ρ = some node) : ∃ node', st'.tree ρ = some node' ∧ node'.vnode = node.vnode ∧
      node'.vfsMountedHere = node.vfsMountedHere ∧ node.children ⊆ node'.children := by
  obtain @⟨π, self, name, vnode, hself, hnew, -, -, -, -⟩ := hc
  by_cases h1 : ρ = name :: π
  · rw [h1, hwf.tree_none hself hnew] at h
    cases h
  by_cases h2 : ρ = π
  · subst h2
    obtain rfl : node = self := Option.some.inj (h.symm.trans hself)
    exact ⟨_, State.insert_tree_self hself, rfl, rfl, List.subset_append_left ..⟩
  · exact ⟨node, (State.insert_tree_of_ne h2 h1).trans h, rfl, rfl, List.Subset.refl _⟩

theorem caches (h : Wf N st) (hc : Caches D L N st st') : Wf N st' := by
  have hkeep := fun {ρ old} (hold : st.tree ρ = some old) => h.caches_keeps hc hold
  obtain @⟨π, self, name, vnode, hself, hnew, hdotdot, hdot, hN, -⟩ := hc
  refine ⟨fun {n ρ node} hρ => ?_, fun {ρ node n} hρ hn => ?_, fun {ρ node} hρ => ?_,
    fun {ρ node n} hρ hn => ?_, fun {ρ node} hρ => ?_⟩
  · rcases State.insert_tree_cases hself hρ with ⟨heq, -⟩ | ⟨-, old, hold, -⟩
    · obtain ⟨rfl, rfl⟩ := List.cons.inj heq
      exact ⟨_, State.insert_tree_self hself, by simp⟩
    · obtain ⟨p, hp, hmem⟩ := h.child hold
      obtain ⟨p', hp', -, -, hsub⟩ := hkeep hp
      exact ⟨p', hp', hsub hmem⟩
  · rcases State.insert_children_cases hself hρ hn with ⟨rfl, rfl⟩ | ⟨old, hold, hn⟩
    · exact ⟨_, State.insert_tree_child⟩
    · obtain ⟨c, hc⟩ := h.node hold hn
      obtain ⟨c', hc', -⟩ := hkeep hc
      exact ⟨c', hc'⟩
  · rcases State.insert_tree_cases hself hρ with ⟨-, rfl⟩ | ⟨-, old, hold, -, -, -, h1, h2⟩
    · exact List.nodup_nil
    by_cases hρπ : ρ = π
    · subst hρπ
      obtain rfl : old = self := Option.some.inj (hold.symm.trans hself)
      rw [h1 rfl, ← List.concat_eq_append]
      exact (h.nodup hold).concat hnew
    · rw [h2 hρπ]
      exact h.nodup hold
  · rcases State.insert_children_cases hself hρ hn with ⟨-, rfl⟩ | ⟨old, hold, hn⟩
    · exact ⟨hdotdot, hdot, hN⟩
    · exact h.proper hold hn
  · rcases State.insert_tree_cases hself hρ with ⟨rfl, rfl⟩ | ⟨-, old, hold, -, -, hp, -⟩
    · exact iff_of_false nofun nofun
    · rw [hp]
      exact h.parent hold

theorem fills (h : Wf N st) (hf : Fills D L N st st') : Wf N st' := by
  induction hf with
  | refl => exact h
  | tail _ hc ih => exact ih.caches hc

theorem congr (h : Wf N st) (heq : ∀ π, (st'.tree π).map (fun n => (n.children, n.parent)) =
    (st.tree π).map fun n => (n.children, n.parent)) : Wf N st' := by
  have hto : ∀ {π n'}, st'.tree π = some n' → ∃ n, st.tree π = some n ∧ n.children = n'.children ∧
      n.parent = n'.parent := by
    intro π n' hn'
    have := heq π
    rw [hn', Option.map_some, eq_comm, Option.map_eq_some_iff] at this
    obtain ⟨n, hn, hp⟩ := this
    exact ⟨n, hn, congrArg Prod.fst hp, congrArg Prod.snd hp⟩
  have hfrom : ∀ {π n}, st.tree π = some n → ∃ n', st'.tree π = some n' ∧
      n.children = n'.children := by
    intro π n hn
    have := heq π
    rw [hn, Option.map_some, Option.map_eq_some_iff] at this
    obtain ⟨n', hn', hp⟩ := this
    exact ⟨n', hn', (congrArg Prod.fst hp).symm⟩
  refine ⟨fun hn => ?_, fun hn hmem => ?_, fun hn => ?_, fun hn hmem => ?_, fun hn => ?_⟩
  · obtain ⟨n, hn, -⟩ := hto hn
    obtain ⟨p, hp, hmem⟩ := h.child hn
    obtain ⟨p', hp', hc⟩ := hfrom hp
    exact ⟨p', hp', hc ▸ hmem⟩
  · obtain ⟨n, hn, hc, -⟩ := hto hn
    obtain ⟨c, hcn⟩ := h.node hn (hc ▸ hmem)
    obtain ⟨c', hc', -⟩ := hfrom hcn
    exact ⟨c', hc'⟩
  · obtain ⟨n, hn, hc, -⟩ := hto hn
    exact hc ▸ h.nodup hn
  · obtain ⟨n, hn, hc, -⟩ := hto hn
    exact h.proper hn (hc ▸ hmem)
  · obtain ⟨n, hn, -, hp⟩ := hto hn
    exact hp ▸ h.parent hn

theorem mount (h : Wf N st) (π : Path) (m : Mount Fs) : Wf N (st.mount π m) := by
  refine h.congr fun ρ => ?_
  by_cases hρ : ρ = π
  · subst hρ
    simp only [State.mount, State.modify, Function.update_self, Option.map_map]
    rfl
  · rw [show (st.mount π m).tree ρ = st.tree ρ from State.modify_tree_of_ne hρ]

theorem nodeAt_asPtr (h : Wf N st) (hπ : st.tree π = some self) :
    st.nodeAt L (st.asPtr L π) = some π := by
  cases π with
  | nil => rfl
  | cons name π =>
    obtain ⟨q, hq, hmem⟩ := h.child hπ
    have hkeys : st.keys π = q.children := by rw [State.keys, hq]
    have hfind : ((q.children).find? fun n =>
        L.slot q.children n = L.slot q.children name).isSome :=
      List.find?_isSome.mpr ⟨name, hmem, by simp⟩
    obtain ⟨n, hn⟩ := Option.isSome_iff_exists.mp hfind
    have hslot := List.find?_some hn
    have heq : n = name := L.inj (h.nodup hq) (List.mem_of_find?_eq_some hn)
        hmem (by simpa using hslot)
    simp only [State.asPtr, State.nodeAt, hkeys, hn, heq, Option.map_some]

/-- There are nodes at all addresses that lead somewhere, but for the root before it is made. -/
theorem exists_of_nodeAt (h : Wf N st) (hroot : st.tree [] ≠ none) {a : Addr}
    (ha : st.nodeAt L a = some ρ) : ∃ node, st.tree ρ = some node := by
  cases a with
  | root =>
    obtain rfl := Option.some.inj ha
    exact Option.ne_none_iff_exists'.mp hroot
  | slot π i =>
    obtain ⟨name, hname, rfl⟩ := Option.map_eq_some_iff.mp ha
    exact h.exists_of_mem_keys (List.mem_of_find?_eq_some hname)

theorem lookup_root (h : Wf N st) (hself : st.tree [] = some self) :
    lookup D L st [] dotdot = (.error .err, st) := by
  simp only [lookup, hself, if_true, (h.parent hself).mpr rfl]

/-- `..` leads up where the parent pointer is the address of the owner. -/
theorem lookup_dotdot (h : Wf N st) (hself : st.tree (name :: π) = some self)
    (hparent : self.parent = some (st.asPtr L π)) :
    lookup D L st (name :: π) dotdot = (.ok π, st) := by
  obtain ⟨q, hq, -⟩ := h.child hself
  simp only [lookup, hself, if_true, hparent, h.nodeAt_asPtr hq]

theorem lookup_cached (h : Wf N st) (hπ : st.tree π = some self) (hmem : name ∈ self.children) :
    lookup D L st π name = (.ok (name :: π), st) := by
  obtain ⟨hup, hdot, -⟩ := h.proper hπ hmem
  simp only [lookup, hπ, if_neg hup, if_neg hdot, if_pos hmem]

theorem lookup_node (h : Wf N st) (hroot : st.tree [] ≠ none)
    (hl : lookup D L st π name = (.ok ρ, st')) : ∃ node, st'.tree ρ = some node := by
  unfold lookup at hl
  rcases hself : st.tree π with - | self
  · rw [hself] at hl
    cases hl
  simp only [hself] at hl
  split_ifs at hl with h1 h2 h3
  · rcases hp : self.parent with - | a
    · rw [hp] at hl
      cases hl
    · rw [hp] at hl
      simp only at hl
      rcases ha : st.nodeAt L a with - | parent
      · rw [ha] at hl
        cases hl
      · rw [ha] at hl
        cases hl
        exact h.exists_of_nodeAt hroot ha
  · cases hl
    exact ⟨self, hself⟩
  · cases hl
    exact h.node hself h3
  · rcases hv : self.lookupVNode D st name with e | vnode
    · rw [hv] at hl
      cases hl
    · rw [hv] at hl
      cases hl
      exact ⟨_, State.insert_tree_child⟩

end Wf

theorem caches_tree_ne_none (hc : Caches D L N st st') (h : st.tree ρ ≠ none) :
    st'.tree ρ ≠ none := by
  obtain @⟨π, self, name, vnode, hself, -⟩ := hc
  by_cases h1 : ρ = name :: π
  · rw [h1, State.insert_tree_child]
    exact nofun
  by_cases h2 : ρ = π
  · rw [h2, State.insert_tree_self hself]
    exact nofun
  · rwa [State.insert_tree_of_ne h2 h1]

theorem fills_tree_ne_none (hf : Fills D L N st st') (h : st.tree ρ ≠ none) :
    st'.tree ρ ≠ none := by
  induction hf with
  | refl => exact h
  | tail _ hc ih => exact caches_tree_ne_none hc ih

theorem Wf.openLoop_node (h : Wf N st) (parts : List Text)
    (hN : ∀ part ∈ parts, part ≠ [] → N part) (hroot : st.tree [] ≠ none)
    (hπ : st.tree π = some self) (ho : openLoop D L st π parts = (.ok ρ, st')) :
    ∃ node, st'.tree ρ = some node := by
  induction parts generalizing st π self with
  | nil =>
    cases ho
    exact ⟨self, hπ⟩
  | cons part parts ih =>
    have hrest := fun part' h => hN part' (List.mem_cons_of_mem part h)
    rw [openLoop] at ho
    split_ifs at ho with h1
    · exact ih h hrest hroot hπ ho
    · have hf := fills_lookup (D := D) (L := L) st π (hN part List.mem_cons_self h1)
      rcases hl : lookup D L st π part with ⟨e | new, st1⟩
      · rw [hl] at ho
        cases ho
      · rw [hl] at ho hf
        obtain ⟨node, hnode⟩ := h.lookup_node hroot hl
        exact ih (h.fills hf) hrest (fills_tree_ne_none hf hroot) hnode ho

theorem Wf.vfsOpen_node (h : Wf N st) {path : Text} (hN : ∀ part ∈ split path, part ≠ [] → N part)
    (ho : vfsOpen D L st path = (.ok ρ, st')) : ∃ node, st'.tree ρ = some node := by
  unfold vfsOpen at ho
  split_ifs at ho with h1
  · cases ho
  · rw [not_or] at h1
    obtain ⟨self, hself⟩ := Option.ne_none_iff_exists'.mp h1.2
    exact h.openLoop_node _ hN h1.2 hself ho

/-! ## Runs -/

/-- The calls. -/
inductive Op (Fs : Type)
  | lookup (π : Path) (name : Text)
  | vfsOpen (path : Text)
  | addVfs (vfsp : ℕ) (mountPoint : Text) (fs : Fs)
  | delVfs (mountPoint : Text)

/-- The state after a call. -/
def step (D : Drivers Obj Fs) (L : Layout) (p : Profile) (st : State Obj Fs) :
    Op Fs → State Obj Fs
  | .lookup π name => (lookup D L st π name).2
  | .vfsOpen path => (vfsOpen D L st path).2
  | .addVfs vfsp mp fs => (addVfs D L st vfsp mp fs).2
  | .delVfs mp => (delVfs p st mp).2

/-- The names that a call can look up are allowed. -/
def Op.Named (N : Text → Prop) : Op Fs → Prop
  | .lookup _ name => N name
  | .vfsOpen path => ∀ part ∈ split path, part ≠ [] → N part
  | .addVfs _ mp _ => ∀ part ∈ split mp, part ≠ [] → N part
  | .delVfs _ => True

theorem Op.named_of_forall (h : ∀ name, N name) (op : Op Fs) : op.Named N := by
  cases op with
  | lookup π name => exact h name
  | vfsOpen path => exact fun part _ _ => h part
  | addVfs vfsp mp fs => exact fun part _ _ => h part
  | delVfs mp => trivial

/-- The states that runs of admitted calls come to. -/
inductive Reaches (D : Drivers Obj Fs) (L : Layout) (p : Profile)
    (A : State Obj Fs → Op Fs → Prop) :
    State Obj Fs → Prop
  | init : Reaches D L p A State.init
  | step {st : State Obj Fs} {op : Op Fs} (h : Reaches D L p A st) (hop : A st op) :
      Reaches D L p A (step D L p st op)

theorem Reaches.next {p : Profile} {A : State Obj Fs → Op Fs → Prop} (h : Reaches D L p A st)
    (op : Op Fs) (hop : A st op) : Reaches D L p A (Vfs.step D L p st op) := .step h hop

theorem delVfs_tree {p : Profile} {mp : Text} : (delVfs p st mp).2.tree = st.tree := by
  unfold delVfs
  split_ifs
  · rfl
  · rfl
  · rfl
  · rcases mountPointBusy p mp st.vfss with e | (- | -) <;> rfl

theorem Wf.step {p : Profile} (h : Wf N st) {op : Op Fs} (hop : op.Named N) :
    Wf N (Vfs.step D L p st op) := by
  cases op with
  | lookup π name => exact h.fills (fills_lookup st π hop)
  | vfsOpen path => exact h.fills (fills_vfsOpen st hop)
  | addVfs vfsp mp fs =>
    rw [Vfs.step]
    rcases hadd : Vfs.addVfs D L st vfsp mp fs with ⟨r, st'⟩
    rcases addVfs_cases hadd hop with
      ⟨-, hf⟩ | ⟨-, -, -, rfl⟩ | ⟨-, -, -, st1, st2, π, π', -, -, hf, rfl⟩
    · exact h.fills hf
    · exact ofRoot vfsp fs
    · exact (h.fills hf).mount π _
  | delVfs mp => exact h.congr fun π => by rw [Vfs.step, delVfs_tree]

theorem Reaches.wf {p : Profile} {A : State Obj Fs → Op Fs → Prop}
    (hA : ∀ st op, A st op → op.Named N) (h : Reaches D L p A st) : Wf N st := by
  induction h with
  | init => exact Wf.init
  | step _ hop ih => exact ih.step (hA _ _ hop)

end CappuccinOS.Vfs
