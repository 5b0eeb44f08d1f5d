import CappuccinOS.Vfs.Cache
import CappuccinOS.Vfs.Files

/-!
# What a mounted file system shows

A driver may change its volume with every call, and the VFS keeps what it has looked up for good. A
file system still shows the same files throughout when it has a `Content`: names and objects that do
not depend on what the volume has read so far.

1. `Content`: what a volume holds, over all states of the volume.
2. `Looked`: `vfs_open` is a sequence of lookups; `addVfs_change` says what `add_vfs` does beside.
3. `Grown`: the nodes are those of the names below their parents. Every call keeps this.
4. `Serving`: the volume is mounted, and the nodes on a way into it hold its objects. Every call
   keeps this as long as nothing is mounted on the way (`Serving.step`).
5. `Serving.vfsOpen_ok`: a path into the volume opens its object, in every such run.
6. `serving_root` and `serving_mount`: a mount serves its volume.
-/

namespace CappuccinOS.Vfs.Volumes

variable {Obj Fs : Type}

/-- What a volume holds: the objects behind the paths below its root, whatever it has read. -/
structure Content (ops : Ops Obj Fs) where
  /-- The states of the volume. -/
  Over : Fs → Prop
  Names : Path → Obj → Prop
  over_root : ∀ {fs o fs'}, Over fs → ops.root fs = .ok (o, fs') → Over fs'
  over_mount : ∀ {fs fs'}, Over fs → ops.mount fs = .ok fs' → Over fs'
  over_lookup : ∀ {fs}, Over fs → ∀ o name, Over (ops.lookup fs o name).2
  root : ∀ {o}, Names [] o → ∀ {fs}, Over fs → ∃ fs', ops.root fs = .ok (o, fs')
  entry : ∀ {name π o}, Names (name :: π) o →
    ∃ dir, Names π dir ∧ ∀ {fs}, Over fs → (ops.lookup fs dir name).1 = .ok o

variable {ops : Ops Obj Fs} {L : Layout} {p : Profile} {C : Content ops} {st st' : State Obj Fs}
  {self : TreeNode Obj} {a b : ℕ} {π ρ : Path} {name : Text} {o dir : Obj}

/-- The directories on the way to an object have names, too. -/
theorem Content.names_suffix (h : C.Names π o) (hρ : ρ <:+ π) : ∃ o', C.Names ρ o' := by
  induction π generalizing o with
  | nil => exact ⟨o, List.suffix_nil.mp hρ ▸ h⟩
  | cons name π ih =>
    rcases List.suffix_cons_iff.mp hρ with rfl | hρ
    · exact ⟨o, h⟩
    · obtain ⟨dir, hdir, -⟩ := C.entry h
      exact ih hdir hρ

/-! ## Volumes -/

theorem vfsAt_setFs_of_ne (h : b ≠ a) (fs : Fs) : (setFs st b fs).vfsAt a = st.vfsAt a := by
  unfold setFs State.vfsAt
  simp only
  induction st.vfss with
  | nil => rfl
  | cons v vfss ih =>
    by_cases hb : v.addr = b
    · simp [List.replaceF, hb, h]
    · simp [List.replaceF, hb, List.find?_cons, ih]

theorem vfsAt_setFs_self {m : Mount Fs} (h : st.vfsAt a = some m) (fs : Fs) :
    (setFs st a fs).vfsAt a = some { m with fs := fs } := by
  obtain ⟨vfss, tree⟩ := st
  unfold State.vfsAt at h
  unfold setFs State.vfsAt
  simp only at h ⊢
  induction vfss with
  | nil => cases h
  | cons v vfss ih =>
    rw [List.find?_cons] at h
    by_cases hv : v.addr = a
    · rw [decide_eq_true hv] at h
      obtain rfl := Option.some.inj h
      simp [List.replaceF, hv]
    · rw [decide_eq_false hv] at h
      simp [List.replaceF, hv, ih h]

/-- The volume at `a` is one of the content. -/
def Shows (C : Content ops) (a : ℕ) (st : State Obj Fs) : Prop :=
  ∃ m, st.vfsAt a = some m ∧ C.Over m.fs

theorem Shows.setFs (h : Shows C a st) {fs : Fs} (hfs : b = a → C.Over fs) :
    Shows C a (Volumes.setFs st b fs) := by
  obtain ⟨m, hm, hover⟩ := h
  by_cases hb : b = a
  · subst hb
    exact ⟨_, vfsAt_setFs_self hm fs, hfs rfl⟩
  · exact ⟨m, by rw [vfsAt_setFs_of_ne hb, hm], hover⟩

theorem Shows.lookupBelow (h : Shows C a st) (vnode : VNode Obj) (name : Text) :
    Shows C a (lookupBelow ops st vnode name).2 := by
  unfold Volumes.lookupBelow
  rcases hvfs : st.vfsAt vnode.parentVfs with - | vfs
  · exact h
  refine h.setFs fun heq => ?_
  obtain ⟨m, hm, hover⟩ := h
  rw [← heq, hvfs] at hm
  obtain rfl := Option.some.inj hm
  exact C.over_lookup hover vnode.inode name

theorem Shows.lookupVNode (h : Shows C a st) (self : TreeNode Obj) (name : Text) :
    Shows C a (lookupVNode ops st self name).2 := by
  unfold Volumes.lookupVNode
  rcases self.vfsMountedHere with - | vfsp
  · exact h.lookupBelow self.vnode name
  simp only
  rcases hvfs : st.vfsAt vfsp with - | vfs
  · exact h
  simp only
  rcases hroot : ops.root vfs.fs with e | ⟨root, fs⟩
  · exact h
  refine Shows.lookupBelow (h.setFs fun heq => ?_) ⟨root, vfsp⟩ name
  obtain ⟨m, hm, hover⟩ := h
  rw [← heq, hvfs] at hm
  obtain rfl := Option.some.inj hm
  exact C.over_root hover hroot

/-- A lookup in a directory of the content finds what the content has. -/
theorem Shows.lookupBelow_entry (h : Shows C a st)
    (hentry : ∀ {fs}, C.Over fs → (ops.lookup fs dir name).1 = .ok o) :
    (Volumes.lookupBelow ops st ⟨dir, a⟩ name).1 = .ok ⟨o, a⟩ := by
  obtain ⟨m, hm, hover⟩ := h
  unfold Volumes.lookupBelow
  simp only [hm, hentry hover]
  rfl

/-! ## What calls do -/

/-- A lookup changes nothing, or volumes, or it inserts what it has found behind the cache. -/
theorem lookup_change (ops : Ops Obj Fs) (L : Layout) (st : State Obj Fs) (π : Path) (name : Text) :
    (lookup ops L st π name).2 = st ∨
    ∃ self, st.tree π = some self ∧ name ≠ dotdot ∧ name ≠ dot ∧ name ∉ self.children ∧
      ((lookup ops L st π name).2 = (lookupVNode ops st self name).2 ∨
        ∃ vnode, (lookupVNode ops st self name).1 = .ok vnode ∧
          (lookup ops L st π name).2 = (lookupVNode ops st self name).2.insert L π name vnode) := by
  unfold lookup
  rcases hself : st.tree π with - | self
  · exact .inl rfl
  simp only
  split_ifs with h1 h2 h3
  · rcases self.parent with - | parent
    · exact .inl rfl
    · simp only
      rcases st.nodeAt L parent with - | π' <;> exact .inl rfl
  · exact .inl rfl
  · exact .inl rfl
  · refine .inr ⟨self, rfl, h1, h2, by simpa using h3, ?_⟩
    rcases hv : lookupVNode ops st self name with ⟨e | vnode, st'⟩
    · exact .inl rfl
    · exact .inr ⟨vnode, rfl, rfl⟩

/-- Lookups, one after the other. -/
abbrev Looked (ops : Ops Obj Fs) (L : Layout) : State Obj Fs → State Obj Fs → Prop :=
  Relation.ReflTransGen fun st st' => ∃ π name, st' = (lookup ops L st π name).2

theorem Looked.keeps {P : State Obj Fs → Prop}
    (hP : ∀ {st}, P st → ∀ π name, P (lookup ops L st π name).2) (h : Looked ops L st st')
    (hst : P st) : P st' := by
  induction h with
  | refl => exact hst
  | tail _ hstep ih =>
    obtain ⟨π, name, rfl⟩ := hstep
    exact hP ih π name

theorem looked_openLoop (ops : Ops Obj Fs) (L : Layout) (st : State Obj Fs) (cur : Path)
    (parts : List Text) : Looked ops L st (openLoop ops L st cur parts).2 := by
  induction parts generalizing st cur with
  | nil => exact .refl
  | cons part parts ih =>
    rw [openLoop]
    split_ifs
    · exact ih st cur
    · have hstep : Looked ops L st (lookup ops L st cur part).2 := .single ⟨cur, part, rfl⟩
      rcases hl : lookup ops L st cur part with ⟨e | new, st'⟩
      · rw [hl] at hstep
        exact hstep
      · rw [hl] at hstep
        exact hstep.trans (ih st' new)

theorem looked_vfsOpen (ops : Ops Obj Fs) (L : Layout) (st : State Obj Fs) (path : Text) :
    Looked ops L st (vfsOpen ops L st path).2 := by
  unfold vfsOpen
  split_ifs
  · exact .refl
  · exact looked_openLoop ops L st [] _

theorem Looked.boxes (h : Looked ops L st st') : boxes st' = boxes st :=
  h.keeps (P := fun s => Volumes.boxes s = Volumes.boxes st)
    (fun hs π name => (lookup_cases ops L _ π name).1.trans hs) rfl

/-- The file system at `b` covers the node at `π`, and is in the mount list if it was mounted. -/
def State.cover (st : State Obj Fs) (π : Path) (b : ℕ) (added : Option (Mount Fs)) : State Obj Fs :=
  { st.modify π fun node => { node with vfsMountedHere := some b } with
    vfss := st.vfss ++ added.toList }

theorem addVfs_change (ops : Ops Obj Fs) (L : Layout) (st : State Obj Fs) (b : ℕ) (mp : Text)
    (fs : Fs) : Looked ops L st (addVfs ops L st b mp fs).2 ∨
    (st.vfss = [] ∧ ∃ root vfss, (addVfs ops L st b mp fs).2 =
      ⟨vfss, Function.update (fun _ => none) [] (some ⟨⟨root, b⟩, none, none, []⟩)⟩) ∨
    ∃ st' π added, Looked ops L st st' ∧ (∀ m ∈ added, m.addr = b) ∧
      (addVfs ops L st b mp fs).2 = State.cover st' π b added := by
  unfold addVfs
  split_ifs with h1 h2 h3
  · exact .inl .refl
  · rcases ops.root fs with e | ⟨root, fs⟩
    · exact .inl .refl
    · refine .inr (.inl ⟨not_not.mp h2, root, ?_⟩)
      simp only [pushVfs]
      rcases ops.mount fs with e | fs <;> exact ⟨_, rfl⟩
  · exact .inl .refl
  have hl1 := looked_vfsOpen ops L st mp
  rcases ho1 : vfsOpen ops L st mp with ⟨e | π', st1⟩
  · rw [ho1] at hl1
    exact .inl hl1
  rw [ho1] at hl1
  have hl2 := looked_vfsOpen ops L st1 mp
  rcases ho2 : vfsOpen ops L st1 mp with ⟨e | π, st2⟩
  · rw [ho2] at hl2
    simp only [ho2]
    exact .inl (hl1.trans hl2)
  · rw [ho2] at hl2
    simp only [ho2, pushVfs]
    refine .inr (.inr ⟨st2, π, ?_⟩)
    rcases ops.mount fs with e | fs
    · refine ⟨none, hl1.trans hl2, by simp, ?_⟩
      simp [State.cover, State.modify]
    · refine ⟨some ⟨b, mp, fs⟩, hl1.trans hl2, ?_, rfl⟩
      rintro m ⟨⟩
      rfl

theorem delVfs_sublist (p : Profile) (st : State Obj Fs) (mp : Text) :
    (delVfs p st mp).2.vfss.Sublist st.vfss := by
  unfold delVfs
  split_ifs
  · exact .refl _
  · exact .refl _
  · exact List.nil_sublist _
  · rcases mountPointBusy p mp st.vfss with e | (_ | _)
    · exact .refl _
    · exact List.eraseP_sublist
    · exact .refl _

/-! ## Trees -/

/-- The nodes are those of the names in the maps, and these can be looked up. -/
structure Grown (st : State Obj Fs) : Prop where
  above : ∀ {name π node}, st.tree (name :: π) = some node →
    name ≠ dotdot ∧ name ≠ dot ∧ ∃ self, st.tree π = some self ∧ name ∈ self.children
  node : ∀ {π self name}, st.tree π = some self → name ∈ self.children →
    ∃ node, st.tree (name :: π) = some node

namespace Grown

/-- What stands in the tree stays, with other names below it. -/
theorem tree_none (h : Grown st) (hself : st.tree π = some self) (hnew : name ∉ self.children) :
    st.tree (name :: π) = none := by
  by_contra hne
  obtain ⟨node, hnode⟩ := Option.ne_none_iff_exists'.mp hne
  obtain ⟨-, -, self', hself', hmem⟩ := h.above hnode
  obtain rfl := Option.some.inj (hself.symm.trans hself')
  exact hnew hmem

theorem init : Grown (State.init : State Obj Fs) :=
  ⟨fun h => absurd h.symm (Option.some_ne_none _), fun h => absurd h.symm (Option.some_ne_none _)⟩

theorem ofRoot (vfss : List (Mount Fs)) (vnode : VNode Obj) : Grown (⟨vfss,
    Function.update (fun _ => none) [] (some ⟨vnode, none, none, []⟩)⟩ : State Obj Fs) := by
  refine ⟨fun {name π node} hnode => ?_, fun {π self name} hself hname => ?_⟩
  · simp at hnode
  by_cases hπ : π = []
  · subst hπ
    simp only [Function.update_self, Option.some.injEq] at hself
    rw [← hself] at hname
    cases hname
  · simp [hπ] at hself

theorem congr (h : Grown st) (htree : st'.tree = st.tree) : Grown st' := by
  refine ⟨?_, ?_⟩
  · rw [htree]
    exact h.above
  · rw [htree]
    exact h.node

/-- A node that was there is there after an insertion, with the names below it. -/
theorem insert_of_some (h : Grown st) (hself : st.tree π = some self) (hnew : name ∉ self.children)
    (vnode : VNode Obj) {old : TreeNode Obj} (hold : st.tree ρ = some old) :
    ∃ node, (st.insert L π name vnode).tree ρ = some node ∧ node.vnode = old.vnode ∧
      node.vfsMountedHere = old.vfsMountedHere ∧ old.children ⊆ node.children := by
  by_cases hπ : ρ = π
  · subst hπ
    obtain rfl := Option.some.inj (hself.symm.trans hold)
    exact ⟨_, State.insert_tree_self hself, rfl, rfl, List.subset_append_left _ _⟩
  · have hne : ρ ≠ name :: π := by
      rintro rfl
      rw [h.tree_none hself hnew] at hold
      cases hold
    exact ⟨old, (State.insert_tree_of_ne hπ hne).trans hold, rfl, rfl, fun _ h => h⟩

theorem insert (h : Grown st) (hself : st.tree π = some self) (hdotdot : name ≠ dotdot)
    (hdot : name ≠ dot) (hnew : name ∉ self.children) (vnode : VNode Obj) :
    Grown (st.insert L π name vnode) := by
  constructor
  · intro n ρ node hnode
    rcases State.insert_tree_cases hself hnode with ⟨heq, -⟩ | ⟨-, old, hold, -⟩
    · obtain ⟨rfl, rfl⟩ := List.cons.inj heq
      exact ⟨hdotdot, hdot, _, State.insert_tree_self hself, by simp⟩
    · obtain ⟨h1, h2, self', hself', hmem⟩ := h.above hold
      obtain ⟨node', hnode', -, -, hsub⟩ := h.insert_of_some (L := L) hself hnew vnode hself'
      exact ⟨h1, h2, node', hnode', hsub hmem⟩
  · intro ρ self' n hself' hn
    rcases State.insert_children_cases hself hself' hn with ⟨rfl, rfl⟩ | ⟨old, hold, hmem⟩
    · exact ⟨_, State.insert_tree_child⟩
    · obtain ⟨node, hnode⟩ := h.node hold hmem
      obtain ⟨node', hnode', -⟩ := h.insert_of_some (L := L) hself hnew vnode hnode
      exact ⟨node', hnode'⟩

theorem lookup (h : Grown st) (π : Path) (name : Text) :
    Grown (Volumes.lookup ops L st π name).2 := by
  rcases lookup_change ops L st π name with heq | ⟨self, hself, hdotdot, hdot, hnew, hchange⟩
  · rw [heq]
    exact h
  have htree := (lookupVNode_frame ops st self name).1
  rcases hchange with heq | ⟨vnode, -, heq⟩
  · rw [heq]
    exact h.congr htree
  · rw [heq]
    exact (h.congr htree).insert (by rw [htree, hself]) hdotdot hdot hnew vnode

end Grown

theorem tree_cover_of_ne {added : Option (Mount Fs)} (h : ρ ≠ π) :
    (State.cover st π b added).tree ρ = st.tree ρ := State.modify_tree_of_ne h

theorem tree_cover (st : State Obj Fs) (π : Path) (b : ℕ) (added : Option (Mount Fs)) (ρ : Path) :
    (State.cover st π b added).tree ρ = st.tree ρ ∨ ∃ old, st.tree ρ = some old ∧
      (State.cover st π b added).tree ρ = some { old with vfsMountedHere := some b } := by
  by_cases hρ : ρ = π
  · subst hρ
    rcases hold : st.tree ρ with - | old
    · exact .inl (by simp [State.cover, State.modify, hold])
    · exact .inr ⟨old, rfl, State.modify_tree_self hold⟩
  · exact .inl (tree_cover_of_ne hρ)

theorem exists_of_tree_cover {added : Option (Mount Fs)} {node : TreeNode Obj}
    (h : (State.cover st π b added).tree ρ = some node) :
    ∃ old, st.tree ρ = some old ∧ node.vnode = old.vnode ∧ node.children = old.children := by
  rcases tree_cover st π b added ρ with heq | ⟨old, hold, heq⟩
  · exact ⟨node, by rw [← heq, h], rfl, rfl⟩
  · rw [heq] at h
    obtain rfl := Option.some.inj h
    exact ⟨old, hold, rfl, rfl⟩

theorem tree_cover_of_some (π : Path) (b : ℕ) (added : Option (Mount Fs)) {old : TreeNode Obj}
    (h : st.tree ρ = some old) : ∃ node, (State.cover st π b added).tree ρ = some node ∧
      node.vnode = old.vnode ∧ node.children = old.children := by
  rcases tree_cover st π b added ρ with heq | ⟨old', hold, heq⟩
  · exact ⟨old, by rw [heq, h], rfl, rfl⟩
  · obtain rfl := Option.some.inj (h.symm.trans hold)
    exact ⟨_, heq, rfl, rfl⟩

theorem Grown.cover (h : Grown st) (π : Path) (b : ℕ) (added : Option (Mount Fs)) :
    Grown (State.cover st π b added) := by
  constructor
  · intro n ρ node hnode
    obtain ⟨old, hold, -, -⟩ := exists_of_tree_cover hnode
    obtain ⟨h1, h2, self, hself, hmem⟩ := h.above hold
    obtain ⟨node', hnode', -, hchildren⟩ := tree_cover_of_some π b added hself
    exact ⟨h1, h2, node', hnode', by rw [hchildren]; exact hmem⟩
  · intro ρ self n hself hn
    obtain ⟨old, hold, -, hchildren⟩ := exists_of_tree_cover hself
    rw [hchildren] at hn
    obtain ⟨node, hnode⟩ := h.node hold hn
    obtain ⟨node', hnode', -⟩ := tree_cover_of_some π b added hnode
    exact ⟨node', hnode'⟩

theorem Grown.looked (h : Grown st) (hl : Looked ops L st st') : Grown st' :=
  hl.keeps (fun h π name => h.lookup π name) h

theorem Grown.step (h : Grown st) (op : Op Fs) : Grown (Volumes.step ops L p st op) := by
  cases op with
  | lookup π name => exact h.lookup π name
  | vfsOpen path => exact h.looked (looked_vfsOpen ops L st path)
  | addVfs b mp fs =>
    rcases addVfs_change ops L st b mp fs with
      hl | ⟨-, root, vfss, heq⟩ | ⟨st', π, added, hl, -, heq⟩
    · exact h.looked hl
    · rw [Volumes.step, heq]
      exact .ofRoot vfss _
    · rw [Volumes.step, heq]
      exact (h.looked hl).cover π b added
  | delVfs mp => exact h.congr delVfs_tree

theorem Reaches.grown (h : Reaches ops L p st) : Grown st := by
  induction h with
  | init => exact .init
  | step _ op ih => exact ih.step op

/-! ## A way into a volume -/

/-- The volume at `a` is mounted below `base`, or it is the root's, and the nodes on the way into it
hold its objects. Nothing else is mounted on the way. -/
structure Serving (C : Content ops) (a : ℕ) (base : Path) (mounted : Option ℕ) (way : Path)
    (st : State Obj Fs) : Prop where
  grown : Grown st
  nodup : (boxes st).Nodup
  shows : Shows C a st
  enters : ∃ self, st.tree base = some self ∧ self.vfsMountedHere = mounted ∧
    (mounted = some a ∨ mounted = none ∧ ∀ {o}, C.Names [] o → self.vnode = ⟨o, a⟩)
  clear : ∀ ρ, ρ <:+ way → ρ ≠ [] → ρ ≠ way → ∀ {self}, st.tree (ρ ++ base) = some self →
    self.vfsMountedHere = none
  node : ∀ ρ, ρ <:+ way → ρ ≠ [] → ∀ {o}, C.Names ρ o → ∀ {self},
    st.tree (ρ ++ base) = some self → self.vnode = ⟨o, a⟩

/-- What a call must leave: the volume where it is mounted, and the way into it without a mount. -/
structure Clear (a : ℕ) (base : Path) (mounted : Option ℕ) (way : Path) (st : State Obj Fs) :
    Prop where
  kept : st.vfsAt a ≠ none
  covered : ∀ {self}, st.tree base = some self → self.vfsMountedHere = mounted
  way : ∀ ρ, ρ <:+ way → ρ ≠ [] → ρ ≠ way → ∀ {self}, st.tree (ρ ++ base) = some self →
    self.vfsMountedHere = none

/-- A new box is none of those in use. -/
def NewBox (st : State Obj Fs) : Op Fs → Prop
  | .addVfs b _ _ => b ∉ boxes st
  | _ => True

/-- The runs of calls that leave the way into the volume at `a` as it is. -/
inductive Undisturbed (ops : Ops Obj Fs) (L : Layout) (p : Profile) (a : ℕ) (base : Path)
    (mounted : Option ℕ) (way : Path) (st₀ : State Obj Fs) : State Obj Fs → Prop
  | refl : Undisturbed ops L p a base mounted way st₀ st₀
  | step {st : State Obj Fs} (h : Undisturbed ops L p a base mounted way st₀ st) (op : Op Fs)
      (hnew : NewBox st op) (hclear : Clear a base mounted way (Volumes.step ops L p st op)) :
      Undisturbed ops L p a base mounted way st₀ (Volumes.step ops L p st op)

theorem vfsAt_of_sublist (hnodup : (boxes st).Nodup) (hsub : st'.vfss.Sublist st.vfss)
    (hne : st'.vfsAt a ≠ none) : st'.vfsAt a = st.vfsAt a := by
  obtain ⟨m', hm'⟩ := Option.ne_none_iff_exists'.mp hne
  have hmem' := hsub.subset (List.mem_of_find?_eq_some hm')
  have haddr' : m'.addr = a := vfsAt_addr hm'
  obtain ⟨m, hm⟩ := exists_of_mem_boxes (List.mem_map.mpr ⟨m', hmem', haddr'⟩)
  have heq := List.inj_on_of_nodup_map hnodup (List.mem_of_find?_eq_some hm) hmem'
    ((vfsAt_addr hm).trans haddr'.symm)
  rw [hm, hm', heq]

theorem vfsAt_cover (π : Path) (b : ℕ) (added : Option (Mount Fs)) {m : Mount Fs}
    (h : st.vfsAt a = some m) : (State.cover st π b added).vfsAt a = some m := by
  unfold State.vfsAt State.cover at *
  simp only
  rw [List.find?_append, h]
  rfl

theorem nodup_cover {added : Option (Mount Fs)} (hnodup : (boxes st).Nodup)
    (hadded : ∀ m ∈ added, m.addr = b) (hnew : b ∉ boxes st) :
    (boxes (State.cover st π b added)).Nodup := by
  have hboxes : boxes (State.cover st π b added) =
      boxes st ++ added.toList.map (·.addr) := List.map_append
  rw [hboxes]
  rcases added with - | m
  · simpa using hnodup
  · rw [← hadded m rfl] at hnew
    refine List.nodup_append.mpr ⟨hnodup, List.nodup_singleton _, fun x hx y hy hxy => ?_⟩
    obtain rfl := List.mem_singleton.mp hy
    rw [hxy] at hx
    exact hnew hx

namespace Serving

variable {base way : Path} {mounted : Option ℕ}

theorem congr (h : Serving C a base mounted way st) (htree : st'.tree = st.tree)
    (hboxes : boxes st' = boxes st) (hshows : Shows C a st') :
    Serving C a base mounted way st' where
  grown := h.grown.congr htree
  nodup := hboxes ▸ h.nodup
  shows := hshows
  enters := by rw [htree]; exact h.enters
  clear := by rw [htree]; exact h.clear
  node := by rw [htree]; exact h.node

/-- On the way, a lookup behind the cache finds the next object. -/
theorem lookupVNode_eq (h : Serving C a base mounted way st)
    (hself : st.tree (ρ ++ base) = some self) (hρ : name :: ρ <:+ way)
    (hn : C.Names (name :: ρ) o) :
    (lookupVNode ops st self name).1 = .ok ⟨o, a⟩ := by
  obtain ⟨dir, hdir, hentry⟩ := C.entry hn
  have hsuf : ρ <:+ way := (List.suffix_cons name ρ).trans hρ
  by_cases hnil : ρ = []
  · subst hnil
    obtain ⟨self', hself', hmounted, hmode⟩ := h.enters
    obtain rfl := Option.some.inj (hself.symm.trans hself')
    unfold lookupVNode
    rcases hmode with rfl | ⟨rfl, hroot⟩
    · -- the volume is entered by its root
      obtain ⟨m, hm, hover⟩ := h.shows
      obtain ⟨fs', hroot⟩ := C.root hdir hover
      rw [hmounted]
      simp only [hm, hroot]
      exact (h.shows.setFs fun _ => C.over_root hover hroot).lookupBelow_entry hentry
    · rw [hmounted, hroot hdir]
      exact h.shows.lookupBelow_entry hentry
  · have hne : ρ ≠ way := by
      rintro rfl
      have := hρ.length_le
      simp at this
    unfold lookupVNode
    rw [h.clear ρ hsuf hnil hne hself, h.node ρ hsuf hnil hdir hself]
    exact h.shows.lookupBelow_entry hentry

theorem insert (h : Serving C a base mounted way st) (hself : st.tree π = some self)
    (hdotdot : name ≠ dotdot) (hdot : name ≠ dot) (hnew : name ∉ self.children) {vnode : VNode Obj}
    (hvnode : ∀ ρ, name :: ρ <:+ way → π = ρ ++ base → ∀ {o}, C.Names (name :: ρ) o →
      vnode = ⟨o, a⟩) : Serving C a base mounted way (st.insert L π name vnode) where
  grown := h.grown.insert hself hdotdot hdot hnew vnode
  nodup := h.nodup
  shows := h.shows
  enters := by
    obtain ⟨self', hself', hmounted, hmode⟩ := h.enters
    obtain ⟨node, hnode, hvn, hmt, -⟩ := h.grown.insert_of_some (L := L) hself hnew vnode hself'
    refine ⟨node, hnode, hmt.trans hmounted, ?_⟩
    rw [hvn]
    exact hmode
  clear ρ hρ hnil hne node hnode := by
    rcases State.insert_tree_cases hself hnode with ⟨-, rfl⟩ | ⟨-, old, hold, -, hmt, -⟩
    · rfl
    · rw [hmt]
      exact h.clear ρ hρ hnil hne hold
  node ρ hρ hnil o hn node hnode := by
    rcases State.insert_tree_cases hself hnode with ⟨heq, rfl⟩ | ⟨-, old, hold, hvn, -⟩
    · obtain ⟨n, ρ, rfl⟩ := List.exists_cons_of_ne_nil hnil
      obtain ⟨rfl, rfl⟩ := List.cons.inj heq
      exact hvnode ρ hρ rfl hn
    · rw [hvn]
      exact h.node ρ hρ hnil hn hold

theorem lookup (h : Serving C a base mounted way st) (π : Path) (name : Text) :
    Serving C a base mounted way (Volumes.lookup ops L st π name).2 := by
  rcases lookup_change ops L st π name with heq | ⟨self, hself, hdotdot, hdot, hnew, hchange⟩
  · rw [heq]
    exact h
  obtain ⟨htree, hboxes⟩ := lookupVNode_frame ops st self name
  have hvolumes := h.congr htree hboxes (h.shows.lookupVNode self name)
  rcases hchange with heq | ⟨vnode, hv, heq⟩
  · rw [heq]
    exact hvolumes
  · rw [heq]
    refine hvolumes.insert (by rw [htree, hself]) hdotdot hdot hnew ?_
    rintro ρ hρ rfl o hn
    rw [h.lookupVNode_eq hself hρ hn] at hv
    exact (Except.ok.inj hv).symm

theorem looked (h : Serving C a base mounted way st) (hl : Looked ops L st st') :
    Serving C a base mounted way st' := hl.keeps (fun h π name => h.lookup π name) h

theorem cover (h : Serving C a base mounted way st) {added : Option (Mount Fs)}
    (hadded : ∀ m ∈ added, m.addr = b) (hnew : b ∉ boxes st)
    (hclear : Clear a base mounted way (State.cover st π b added)) :
    Serving C a base mounted way (State.cover st π b added) where
  grown := h.grown.cover π b added
  nodup := nodup_cover h.nodup hadded hnew
  shows := by
    obtain ⟨m, hm, hover⟩ := h.shows
    exact ⟨m, vfsAt_cover π b added hm, hover⟩
  enters := by
    obtain ⟨self, hself, -, hmode⟩ := h.enters
    obtain ⟨node, hnode, hvn, -⟩ := tree_cover_of_some π b added hself
    refine ⟨node, hnode, hclear.covered hnode, ?_⟩
    rw [hvn]
    exact hmode
  clear := hclear.way
  node ρ hρ hnil o hn node hnode := by
    obtain ⟨old, hold, hvn, -⟩ := exists_of_tree_cover hnode
    rw [hvn]
    exact h.node ρ hρ hnil hn hold

theorem step (h : Serving C a base mounted way st) (op : Op Fs) (hnew : NewBox st op)
    (hclear : Clear a base mounted way (Volumes.step ops L p st op)) :
    Serving C a base mounted way (Volumes.step ops L p st op) := by
  cases op with
  | lookup π name => exact h.lookup π name
  | vfsOpen path => exact h.looked (looked_vfsOpen ops L st path)
  | addVfs b mp fs =>
    rcases addVfs_change ops L st b mp fs with hl | ⟨hnil, -⟩ | ⟨st', π, added, hl, hadded, heq⟩
    · exact h.looked hl
    · obtain ⟨m, hm, -⟩ := h.shows
      rw [State.vfsAt, hnil] at hm
      cases hm
    · rw [Volumes.step, heq] at hclear ⊢
      refine (h.looked hl).cover hadded ?_ hclear
      rw [hl.boxes]
      exact hnew
  | delVfs mp =>
    have hsub := delVfs_sublist p st mp
    have htree : (delVfs p st mp).2.tree = st.tree := delVfs_tree
    refine ⟨h.grown.congr htree, h.nodup.sublist (hsub.map _), ?_, ?_, ?_, ?_⟩
    · obtain ⟨m, hm, hover⟩ := h.shows
      exact ⟨m, (vfsAt_of_sublist h.nodup hsub hclear.kept).trans hm, hover⟩
    · change ∃ self, (delVfs p st mp).2.tree base = some self ∧ _
      rw [htree]
      exact h.enters
    · exact hclear.way
    · change ∀ ρ, ρ <:+ way → ρ ≠ [] → ∀ {o}, C.Names ρ o → ∀ {self},
        (delVfs p st mp).2.tree (ρ ++ base) = some self → _
      rw [htree]
      exact h.node

theorem undisturbed (h : Serving C a base mounted way st)
    (hrun : Undisturbed ops L p a base mounted way st st') :
    Serving C a base mounted way st' := by
  induction hrun with
  | refl => exact h
  | step _ op hnew hclear ih => exact ih.step op hnew hclear

/-! ## Opening a path -/

/-- On the way, the next node is found, in the cache or behind it. -/
theorem lookup_ok (h : Serving C a base mounted way st) (hself : st.tree (ρ ++ base) = some self)
    (hρ : name :: ρ <:+ way) (hn : C.Names (name :: ρ) o) (hdotdot : name ≠ dotdot)
    (hdot : name ≠ dot) : ∃ st' node,
      Volumes.lookup ops L st (ρ ++ base) name = (.ok (name :: (ρ ++ base)), st') ∧
      st'.tree (name :: (ρ ++ base)) = some node := by
  unfold Volumes.lookup
  simp only [hself, if_neg hdotdot, if_neg hdot]
  by_cases hmem : self.children.contains name
  · obtain ⟨node, hnode⟩ := h.grown.node hself (by simpa using hmem)
    exact ⟨st, node, by rw [if_pos hmem], hnode⟩
  · have hv := h.lookupVNode_eq hself hρ hn
    rcases hl : lookupVNode ops st self name with ⟨e | vnode, st'⟩
    · rw [hl] at hv
      cases hv
    · rw [if_neg hmem]
      exact ⟨_, _, rfl, State.insert_tree_child⟩

/-- From the mount point on, the names of the way are walked. -/
theorem openLoop_way (h : Serving C a base mounted way st) (hn : C.Names way o)
    (hway : ∀ name ∈ way, name ≠ [] ∧ name ≠ dot ∧ name ≠ dotdot) (hρ : ρ <:+ way) :
    ∃ st' node, openLoop ops L st base ρ.reverse = (.ok (ρ ++ base), st') ∧
      Serving C a base mounted way st' ∧ st'.tree (ρ ++ base) = some node := by
  induction ρ with
  | nil =>
    obtain ⟨self, hself, -⟩ := h.enters
    exact ⟨st, self, rfl, h, hself⟩
  | cons name ρ ih =>
    obtain ⟨st₁, self, hopen, h₁, hself⟩ := ih ((List.suffix_cons name ρ).trans hρ)
    obtain ⟨hempty, hdot, hdotdot⟩ := hway name (hρ.subset List.mem_cons_self)
    obtain ⟨o', hn'⟩ := C.names_suffix hn hρ
    obtain ⟨st₂, node, hlookup, hnode⟩ := h₁.lookup_ok (L := L) hself hρ hn' hdotdot hdot
    have h₂ := h₁.lookup (L := L) (ρ ++ base) name
    rw [hlookup] at h₂
    refine ⟨st₂, node, ?_, h₂, hnode⟩
    rw [List.reverse_cons, openLoop_append, hopen]
    simp only [openLoop, if_neg hempty, hlookup, List.cons_append]

end Serving

theorem Grown.openLoop_node (h : Grown st) (hπ : st.tree π = some self)
    (hne : ∀ name ∈ π, name ≠ []) : openLoop ops L st [] π.reverse = (.ok π, st) := by
  induction π generalizing self with
  | nil => rfl
  | cons name π ih =>
    obtain ⟨hdotdot, hdot, parent, hparent, hmem⟩ := h.above hπ
    have hempty := hne name List.mem_cons_self
    have hcached : parent.children.contains name := by simpa using hmem
    have hlookup : Volumes.lookup ops L st π name = (.ok (name :: π), st) := by
      simp only [Volumes.lookup, hparent, if_neg hdotdot, if_neg hdot, if_pos hcached]
    rw [List.reverse_cons, openLoop_append,
      ih hparent fun n hn => hne n (List.mem_cons_of_mem _ hn)]
    simp only [openLoop, if_neg hempty, hlookup]

theorem Grown.root (h : Grown st) (hπ : st.tree π = some self) : st.tree [] ≠ none := by
  induction π generalizing self with
  | nil =>
    rw [hπ]
    exact Option.some_ne_none _
  | cons name π ih =>
    obtain ⟨-, -, parent, hparent, -⟩ := h.above hπ
    exact ih hparent

/-- A path into a served volume opens the object that the content has there. -/
theorem Serving.vfsOpen_ok {base way : Path} {mounted : Option ℕ}
    (h : Serving C a base mounted way st) (hn : C.Names way o) (hne : way ≠ [])
    (hway : ∀ name ∈ way, name ≠ dot ∧ name ≠ dotdot) {path : Text}
    (hpath : components path = (way ++ base).reverse) :
    ∃ st' self, vfsOpen ops L st path = (.ok (way ++ base), st') ∧
      st'.tree (way ++ base) = some self ∧ self.vnode = ⟨o, a⟩ := by
  obtain ⟨node, hnode, -⟩ := h.enters
  have hempty : ∀ name ∈ way ++ base, name ≠ [] := fun name hmem =>
    ne_nil_of_mem_components (by rw [hpath]; exact List.mem_reverse.mpr hmem)
  have hmounts : ¬ (st.vfss = [] ∨ st.tree [] = none) := by
    rintro (hnil | hnone)
    · obtain ⟨m, hm, -⟩ := h.shows
      rw [State.vfsAt, hnil] at hm
      cases hm
    · exact h.grown.root hnode hnone
  have hbase : openLoop ops L st [] base.reverse = (.ok base, st) :=
    h.grown.openLoop_node hnode fun name hmem =>
      hempty name (List.mem_append_right _ hmem)
  obtain ⟨st', self, hopen, h', hself⟩ := h.openLoop_way (L := L) hn
    (fun name hmem => ⟨hempty name (List.mem_append_left _ hmem), hway name hmem⟩) List.suffix_rfl
  refine ⟨st', self, ?_, hself, h'.node way List.suffix_rfl hne hn hself⟩
  unfold vfsOpen
  rw [if_neg hmounts, ← openLoop_filter, show (split path).filter (· ≠ []) = _ from hpath,
    List.reverse_append, openLoop_append, hbase]
  exact hopen

/-! ## Mounting -/

/-- The first mount, at the root: there is its node and no other. -/
theorem addVfs_init {fs : Fs} (hadd : addVfs ops L .init a slash fs = (.ok (), st)) :
    ∃ root fs₁ fs₂, ops.root fs = .ok (root, fs₁) ∧ ops.mount fs₁ = .ok fs₂ ∧
      st = ⟨[⟨a, slash, fs₂⟩],
        Function.update (fun _ => none) [] (some ⟨⟨root, a⟩, none, none, []⟩)⟩ := by
  unfold addVfs at hadd
  rw [if_pos rfl, if_neg (by simp [State.init])] at hadd
  rcases hroot : ops.root fs with e | ⟨root, fs₁⟩
  · rw [hroot] at hadd
    cases hadd
  rw [hroot] at hadd
  simp only [pushVfs] at hadd
  rcases hmount : ops.mount fs₁ with e | fs₂
  · rw [hmount] at hadd
    cases hadd
  rw [hmount] at hadd
  exact ⟨root, fs₁, fs₂, rfl, hmount, (Prod.mk.inj hadd).2.symm⟩

theorem tree_of_addVfs_init {fs : Fs} (hadd : addVfs ops L .init a slash fs = (.ok (), st))
    (hρ : ρ ≠ []) : st.tree ρ = none := by
  obtain ⟨root, fs₁, fs₂, -, -, rfl⟩ := addVfs_init hadd
  simp [hρ]

theorem serving_root {fs : Fs} (hover : C.Over fs) (way : Path)
    (hadd : addVfs ops L .init a slash fs = (.ok (), st)) : Serving C a [] none way st := by
  have hnone := fun {ρ : Path} => @tree_of_addVfs_init _ _ ops L st a ρ fs hadd
  obtain ⟨root, fs₁, fs₂, hroot, hmount, rfl⟩ := addVfs_init hadd
  refine ⟨.ofRoot _ _, List.nodup_singleton _, ⟨⟨a, slash, fs₂⟩, ?_, ?_⟩, ?_, ?_, ?_⟩
  · simp [State.vfsAt]
  · exact C.over_mount (C.over_root hover hroot) hmount
  · refine ⟨⟨⟨root, a⟩, none, none, []⟩, by simp, rfl, .inr ⟨rfl, fun hn => ?_⟩⟩
    obtain ⟨fs', hroot'⟩ := C.root hn hover
    rw [hroot] at hroot'
    rw [(Prod.mk.inj (Except.ok.inj hroot')).1]
  · intro ρ _ hnil _ self hself
    rw [List.append_nil, hnone hnil] at hself
    cases hself
  · intro ρ _ hnil o _ self hself
    rw [List.append_nil, hnone hnil] at hself
    cases hself

theorem Serving.addVfs_ok {way : Path} (h : Serving C a [] none way st) (hn : C.Names way o)
    (hne : way ≠ []) (hway : ∀ name ∈ way, name ≠ dot ∧ name ≠ dotdot) {mp : Text}
    (hmp : components mp = way.reverse) {fs fs' : Fs} (hmount : ops.mount fs = .ok fs') :
    ∃ st', addVfs ops L st b mp fs = (.ok (), st') := by
  have hslash : mp ≠ slash := by
    rintro rfl
    exact hne (List.reverse_eq_nil_iff.mp hmp.symm)
  have hpath : components mp = (way ++ []).reverse := by rw [List.append_nil, hmp]
  have hmounts : ¬ st.vfss = [] := by
    intro hnil
    obtain ⟨m, hm, -⟩ := h.shows
    rw [State.vfsAt, hnil] at hm
    cases hm
  obtain ⟨st₁, self₁, hopen₁, -⟩ := h.vfsOpen_ok (L := L) hn hne hway hpath
  have h₁ := h.looked (looked_vfsOpen ops L st mp)
  rw [hopen₁] at h₁
  obtain ⟨st₂, self₂, hopen₂, -⟩ := h₁.vfsOpen_ok (L := L) hn hne hway hpath
  unfold addVfs
  rw [if_neg hslash, if_neg hmounts, hopen₁]
  simp only [hopen₂, pushVfs, hmount]
  exact ⟨_, rfl⟩

end CappuccinOS.Vfs.Volumes
