import CappuccinOS.Vfs.Route

/-!
# The node tree is a cache

`uncached` is what the names on a path lead to when every one of them is looked up anew, and `walk`
goes along the components of a path in this way.

1. `Cached`: every node of the tree holds what its path leads to. Lookups keep this, through
   whatever pointers they come to a node, and so do mounts on nodes without children.
2. `route_walk`: the routes through such a tree are the uncached walks.
3. `vfsOpen_transparent`: as long as the parent pointers that are followed are current, `vfs_open`
   goes the same way as `walk`.
-/

namespace CappuccinOS.Vfs

variable {Obj Fs : Type} {D : Drivers Obj Fs} {L : Layout} {N : Text → Prop} {p : Profile}
  {st st' : State Obj Fs} {π ρ : Path} {name : Text} {self : TreeNode Obj} {vnode : VNode Obj}

/-! ## The walk without a cache -/

/-- `vfs_mounted_here` of a node. -/
def State.mountedHere (st : State Obj Fs) (π : Path) : Option ℕ :=
  (st.tree π).bind (·.vfsMountedHere)

/-- The file system mounted on a node. -/
def State.mountOf (st : State Obj Fs) (π : Path) : Option (Mount Fs) :=
  (st.tree π).bind fun node => node.vfsMountedHere.bind st.vfsAt

/-- Where names below a node are looked up: in the root of the mounted file system, if there is
one, else in the node's own object. -/
def State.dirOf (D : Drivers Obj Fs) (st : State Obj Fs) (π : Path) (vnode : VNode Obj) :
    VNode Obj :=
  match st.mountOf π with
  | some m => ⟨D.root m.fs, m.addr⟩
  | none => vnode

/-- What a path leads to, each name looked up anew. -/
def uncached (D : Drivers Obj Fs) (st : State Obj Fs) : Path → Option (VNode Obj)
  | [] => (st.tree []).map (·.vnode)
  | name :: π =>
    match uncached D st π with
    | none => none
    | some vnode =>
      match D.lookup (st.dirOf D π vnode).inode name with
      | .ok inode => some ⟨inode, (st.dirOf D π vnode).parentVfs⟩
      | .error _ => none

/-- The walk of the components of a path. -/
def walk (D : Drivers Obj Fs) (st : State Obj Fs) : Path → List Text → Option Path
  | π, [] => some π
  | π, name :: names =>
    if name = dotdot then
      match π with
      | [] => none
      | _ :: parent => walk D st parent names
    else if name = dot then walk D st π names
    else match uncached D st (name :: π) with
      | none => none
      | some _ => walk D st (name :: π) names

theorem walk_cons (names : List Text) : walk D st π (name :: names) =
    if name = dotdot then
      match π with
      | [] => none
      | _ :: parent => walk D st parent names
    else if name = dot then walk D st π names
    else match uncached D st (name :: π) with
      | none => none
      | some _ => walk D st (name :: π) names := by
  cases π <;> rfl

/-- The walk of a path from the root. -/
def walkPath (D : Drivers Obj Fs) (st : State Obj Fs) (path : Text) : Option Path :=
  match uncached D st [] with
  | none => none
  | some _ => walk D st [] ((split path).filter (· ≠ []))

/-! ## The invariant -/

/-- The pointers to file systems lead somewhere. -/
structure Live (N : Text → Prop) (st : State Obj Fs) : Prop extends Wf N st where
  mounted : ∀ {π node a}, st.tree π = some node → node.vfsMountedHere = some a →
    ∃ m, st.vfsAt a = some m
  parentVfs : ∀ {π node}, st.tree π = some node → ∃ m, st.vfsAt node.vnode.parentVfs = some m

/-- Moreover every node holds what its path leads to. -/
structure Cached (D : Drivers Obj Fs) (N : Text → Prop) (st : State Obj Fs) : Prop extends
    Live N st where
  uncached : ∀ {π node}, st.tree π = some node → uncached D st π = some node.vnode

theorem vfsAt_addr {a : ℕ} {m : Mount Fs} (h : st.vfsAt a = some m) : m.addr = a := by
  simpa using List.find?_some h

/-- The uncached walk depends on the root and on the mounts only. -/
theorem uncached_congr (hroot : (st'.tree []).map (·.vnode) = (st.tree []).map (·.vnode))
    (hmount : ∀ n σ, n :: σ <:+ π → st'.mountOf σ = st.mountOf σ) :
    uncached D st' π = uncached D st π := by
  induction π with
  | nil => exact hroot
  | cons name π ih =>
    have hπ := hmount name π List.suffix_rfl
    rw [uncached, uncached, ih fun n σ hσ => hmount n σ (hσ.trans (List.suffix_cons ..))]
    unfold State.dirOf
    rw [hπ]

theorem State.mountOf_eq : st.mountOf π = (st.mountedHere π).bind st.vfsAt := by
  unfold mountOf mountedHere
  rw [Option.bind_assoc]

theorem State.mountedHere_of_tree (h : st.tree π = some self) :
    st.mountedHere π = self.vfsMountedHere := by
  rw [mountedHere, h]
  rfl

theorem Live.exists_of_mountedHere (h : Live N st) {a : ℕ} (ha : st.mountedHere π = some a) :
    ∃ m, st.vfsAt a = some m := by
  obtain ⟨node, hnode, hm⟩ := Option.bind_eq_some_iff.mp ha
  exact h.mounted hnode hm

/-- What is looked up behind the cache is what the uncached walk comes to. -/
theorem Live.uncached_of_lookupVNode (h : Live N st) (hu : Vfs.uncached D st π = some self.vnode)
    (hmounted : self.vfsMountedHere = st.mountedHere π)
    (hparent : ∃ m, st.vfsAt self.vnode.parentVfs = some m) (name : Text) :
    (match self.lookupVNode D st name with
      | .ok vnode => some vnode
      | .error _ => none) = Vfs.uncached D st (name :: π) := by
  rw [Vfs.uncached, hu]
  unfold TreeNode.lookupVNode State.dirOf
  rw [State.mountOf_eq, hmounted]
  rcases hm : st.mountedHere π with - | a
  · obtain ⟨m, hv⟩ := hparent
    simp only [VNode.lookup, hv, Option.bind_none]
    rcases D.lookup self.vnode.inode name with e | inode <;> rfl
  · obtain ⟨m, hv⟩ := h.exists_of_mountedHere hm
    simp only [VNode.lookup, hv, Option.bind_some, vfsAt_addr hv]
    rcases D.lookup (D.root m.fs) name with e | inode <;> rfl

/-- A node that is looked up is of the file system that was asked. -/
theorem TreeNode.exists_of_lookupVNode (h : self.lookupVNode D st name = .ok vnode) :
    ∃ m, st.vfsAt vnode.parentVfs = some m := by
  have hlookup : ∀ {v : VNode Obj}, v.lookup D st name = .ok vnode →
      ∃ m, st.vfsAt vnode.parentVfs = some m := by
    intro v hv
    unfold VNode.lookup at hv
    rcases hm : st.vfsAt v.parentVfs with - | m
    · rw [hm] at hv
      cases hv
    · rw [hm] at hv
      obtain ⟨o, -, ho⟩ := bind_eq_ok.mp hv
      exact ⟨m, pure_eq_ok.mp ho ▸ hm⟩
  unfold TreeNode.lookupVNode at h
  rcases hm : self.vfsMountedHere with - | a
  · rw [hm] at h
    exact hlookup h
  · rw [hm] at h
    rcases hv : st.vfsAt a with - | m
    · simp only [hv] at h
      cases h
    · simp only [hv] at h
      exact hlookup h

/-- Which pointers to mounted file systems the nodes have. A new node has none. -/
theorem caches_mountedHere (h : Wf N st) (hc : Caches D L N st st') :
    st'.mountedHere = st.mountedHere := by
  obtain @⟨π, self, name, vnode, hself, hnew, -, -, -, -⟩ := hc
  funext ρ
  unfold State.mountedHere
  by_cases h1 : ρ = name :: π
  · rw [h1, State.insert_tree_child, h.tree_none hself hnew]
    rfl
  by_cases h2 : ρ = π
  · rw [h2, State.insert_tree_self hself, hself]
    rfl
  · rw [State.insert_tree_of_ne h2 h1]

theorem caches_mountOf (h : Wf N st) (hc : Caches D L N st st') : st'.mountOf = st.mountOf := by
  have hmounted := caches_mountedHere h hc
  obtain ⟨-⟩ := hc
  funext ρ
  rw [State.mountOf_eq, State.mountOf_eq, hmounted]
  rfl

theorem caches_uncached (h : Wf N st) (hc : Caches D L N st st') :
    Vfs.uncached D st' = Vfs.uncached D st := by
  have hmount := caches_mountOf h hc
  funext ρ
  refine uncached_congr ?_ fun _ σ _ => congrFun hmount σ
  obtain @⟨π, self, name, vnode, hself, -⟩ := hc
  rcases hroot : (st.insert L π name vnode).tree [] with - | node
  · by_cases hπ : ([] : Path) = π
    · rw [← hπ] at hself hroot
      rw [State.insert_tree_self hself] at hroot
      cases hroot
    · rw [State.insert_tree_of_ne hπ nofun] at hroot
      rw [hroot]
  · rcases State.insert_tree_cases hself hroot with ⟨heq, -⟩ | ⟨-, old, hold, hv, -⟩
    · cases heq
    · rw [hold, Option.map_some, Option.map_some, hv]

theorem Live.caches (h : Live N st) (hc : Caches D L N st st') : Live N st' := by
  have hwf := h.toWf.caches hc
  obtain @⟨π, self, name, vnode, hself, -, -, -, -, hlookup⟩ := hc
  refine ⟨hwf, fun hρ hm => ?_, fun {ρ node} hρ => ?_⟩
  · rcases State.insert_tree_cases hself hρ with ⟨-, rfl⟩ | ⟨-, old, hold, -, heq, -⟩
    · cases hm
    · exact h.mounted hold (heq ▸ hm)
  · rcases State.insert_tree_cases hself hρ with ⟨-, rfl⟩ | ⟨-, old, hold, heq, -⟩
    · exact TreeNode.exists_of_lookupVNode hlookup
    · rw [heq]
      exact h.parentVfs hold

theorem Live.fills (h : Live N st) (hf : Fills D L N st st') : Live N st' := by
  induction hf with
  | refl => exact h
  | tail _ hc ih => exact ih.caches hc

theorem Cached.caches (h : Cached D N st) (hc : Caches D L N st st') : Cached D N st' := by
  have hu := caches_uncached h.toWf hc
  have hlive := h.toLive.caches hc
  obtain @⟨π, self, name, vnode, hself, -, -, -, -, hlookup⟩ := hc
  refine ⟨hlive, fun hρ => ?_⟩
  rw [hu]
  rcases State.insert_tree_cases hself hρ with ⟨rfl, rfl⟩ | ⟨-, old, hold, heq, -⟩
  · rw [← h.uncached_of_lookupVNode (h.uncached hself) (State.mountedHere_of_tree hself).symm
      (h.parentVfs hself) name, hlookup]
  · rw [heq]
    exact h.uncached hold

theorem Cached.fills (h : Cached D N st) (hf : Fills D L N st st') :
    Cached D N st' ∧ Vfs.uncached D st' = Vfs.uncached D st := by
  induction hf with
  | refl => exact ⟨h, rfl⟩
  | tail _ hc ih => exact ⟨ih.1.caches hc, (caches_uncached ih.1.toWf hc).trans ih.2⟩

theorem Live.init : Live N (State.init : State Obj Fs) := ⟨Wf.init, nofun, nofun⟩

theorem Cached.init : Cached D N (State.init : State Obj Fs) := ⟨Live.init, nofun⟩

theorem State.ofRoot_tree {vfsp : ℕ} {fs : Fs} (h : (State.ofRoot D vfsp fs).tree π = some self) :
    π = [] ∧ self = ⟨⟨D.root fs, vfsp⟩, none, none, []⟩ := by
  by_cases hπ : π = []
  · subst hπ
    simp only [State.ofRoot, Function.update_self, Option.some.injEq] at h
    exact ⟨rfl, h.symm⟩
  · simp [State.ofRoot, hπ] at h

theorem Live.ofRoot (vfsp : ℕ) (fs : Fs) : Live N (.ofRoot D vfsp fs) := by
  refine ⟨Wf.ofRoot vfsp fs, fun hπ hm => ?_, fun hπ => ?_⟩
  · obtain ⟨-, rfl⟩ := State.ofRoot_tree hπ
    cases hm
  · obtain ⟨-, rfl⟩ := State.ofRoot_tree hπ
    exact ⟨⟨vfsp, slash, fs⟩, by simp [State.vfsAt, State.ofRoot]⟩

theorem Cached.ofRoot (vfsp : ℕ) (fs : Fs) : Cached D N (.ofRoot D vfsp fs) := by
  refine ⟨Live.ofRoot vfsp fs, fun hπ => ?_⟩
  obtain ⟨rfl, rfl⟩ := State.ofRoot_tree hπ
  rw [Vfs.uncached, hπ]
  rfl

/-! ### Mounts -/

theorem Wf.ancestor (h : Wf N st) {node : TreeNode Obj} (hρ : st.tree ρ = some node)
    (hσ : π <:+ ρ) : ∃ node, st.tree π = some node := by
  induction ρ generalizing node with
  | nil =>
    rw [List.suffix_nil.mp hσ]
    exact ⟨node, hρ⟩
  | cons name ρ ih =>
    rcases List.suffix_cons_iff.mp hσ with rfl | hσ
    · exact ⟨node, hρ⟩
    · obtain ⟨q, hq, -⟩ := h.child hρ
      exact ih hq hσ

theorem State.mount_tree_cases {m : Mount Fs} {node : TreeNode Obj}
    (h : (st.mount π m).tree ρ = some node) : ∃ old, st.tree ρ = some old ∧
      node.vnode = old.vnode ∧ node.children = old.children ∧ node.parent = old.parent ∧
      (ρ = π → node.vfsMountedHere = some m.addr) ∧
      (ρ ≠ π → node.vfsMountedHere = old.vfsMountedHere) := by
  by_cases hρ : ρ = π
  · subst hρ
    simp only [State.mount, State.modify, Function.update_self] at h
    obtain ⟨old, hold, rfl⟩ := Option.map_eq_some_iff.mp h
    exact ⟨old, hold, rfl, rfl, rfl, fun _ => rfl, fun h => absurd rfl h⟩
  · rw [show (st.mount π m).tree ρ = st.tree ρ from modify_tree_of_ne hρ] at h
    exact ⟨node, h, rfl, rfl, rfl, fun h => absurd h hρ, fun _ => rfl⟩

theorem State.mount_tree_vnode {m : Mount Fs} :
    ((st.mount π m).tree ρ).map (·.vnode) = (st.tree ρ).map (·.vnode) := by
  by_cases hρ : ρ = π
  · subst hρ
    simp only [State.mount, State.modify, Function.update_self, Option.map_map]
    rfl
  · rw [show (st.mount π m).tree ρ = st.tree ρ from modify_tree_of_ne hρ]

theorem State.mount_vfsAt_of_some {m m' : Mount Fs} {a : ℕ} (h : st.vfsAt a = some m') :
    (st.mount π m).vfsAt a = some m' := by
  unfold vfsAt mount at *
  rw [List.find?_append, h]
  rfl

theorem State.mount_vfsAt_self {m : Mount Fs} (h : st.vfsAt m.addr = none) :
    (st.mount π m).vfsAt m.addr = some m := by
  unfold vfsAt mount at *
  rw [List.find?_append, h]
  simp

theorem Live.mount (h : Live N st) {m : Mount Fs} (hm : st.vfsAt m.addr = none) (π : Path) :
    Live N (st.mount π m) := by
  refine ⟨h.toWf.mount π m, fun {ρ node a} hρ ha => ?_, fun hρ => ?_⟩
  · obtain ⟨old, hold, -, -, -, h1, h2⟩ := State.mount_tree_cases hρ
    by_cases hρπ : ρ = π
    · obtain rfl := Option.some.inj ((h1 hρπ).symm.trans ha)
      exact ⟨m, State.mount_vfsAt_self hm⟩
    · obtain ⟨m', hm'⟩ := h.mounted hold ((h2 hρπ).symm.trans ha)
      exact ⟨m', State.mount_vfsAt_of_some hm'⟩
  · obtain ⟨old, hold, hv, -⟩ := State.mount_tree_cases hρ
    obtain ⟨m', hm'⟩ := h.parentVfs hold
    exact ⟨m', State.mount_vfsAt_of_some (hv ▸ hm')⟩

theorem Cached.mount (h : Cached D N st) {m : Mount Fs} (hm : st.vfsAt m.addr = none)
    (hempty : st.keys π = []) : Cached D N (st.mount π m) := by
  have hmountOf : ∀ σ, σ ≠ π → (st.mount π m).mountOf σ = st.mountOf σ := by
    intro σ hσ
    unfold State.mountOf
    rw [show (st.mount π m).tree σ = st.tree σ from State.modify_tree_of_ne hσ]
    rcases hn : st.tree σ with - | node
    · rfl
    · rw [Option.bind_some, Option.bind_some]
      rcases ha : node.vfsMountedHere with - | a
      · rfl
      · obtain ⟨m', hm'⟩ := h.mounted hn ha
        rw [Option.bind_some, Option.bind_some, hm', State.mount_vfsAt_of_some hm']
  refine ⟨h.toLive.mount hm π, fun {ρ node} hρ => ?_⟩
  obtain ⟨old, hold, hv, -⟩ := State.mount_tree_cases hρ
  rw [hv, ← h.uncached hold]
  refine uncached_congr State.mount_tree_vnode fun n σ hσ => hmountOf σ ?_
  -- nothing is cached below the mount point
  rintro rfl
  obtain ⟨child, hchild⟩ := h.ancestor hold hσ
  obtain ⟨self, hself, hmem⟩ := h.child hchild
  simp only [State.keys, hself] at hempty
  rw [hempty] at hmem
  cases hmem

/-! ## Runs -/

/-- Any lookups, and mounts at nodes below which nothing was looked up. -/
def MountsFirst (D : Drivers Obj Fs) (L : Layout) (st : State Obj Fs) : Op Fs → Prop
  | .lookup _ _ => True
  | .vfsOpen _ => True
  | .addVfs vfsp mp _ => st.vfsAt vfsp = none ∧
    ∀ π st', vfsOpen D L (vfsOpen D L st mp).2 mp = (.ok π, st') → st'.keys π = []
  | .delVfs _ => False

theorem fills_vfsAt (hf : Fills D L N st st') : st'.vfsAt = st.vfsAt := by
  induction hf with
  | refl => rfl
  | tail _ hc ih =>
    obtain ⟨-⟩ := hc
    exact ih

theorem Reaches.cached (h : Reaches D L p (MountsFirst D L) st) : Cached D (fun _ => True) st := by
  induction h with
  | init => exact Cached.init
  | @step st op _ hop ih =>
    cases op with
    | lookup π name => exact (ih.fills (fills_lookup st π trivial)).1
    | vfsOpen path => exact (ih.fills (fills_vfsOpen st fun _ _ _ => trivial)).1
    | addVfs vfsp mp fs =>
      rw [Vfs.step]
      rcases hadd : addVfs D L st vfsp mp fs with ⟨r, st'⟩
      rcases addVfs_cases hadd (N := fun _ => True) fun _ _ _ => trivial with
        ⟨-, hf⟩ | ⟨-, -, -, rfl⟩ | ⟨-, -, -, st1, st2, π, π', h1, h2, hf, rfl⟩
      · exact (ih.fills hf).1
      · exact Cached.ofRoot vfsp fs
      · refine (ih.fills hf).1.mount ?_ (hop.2 π st2 (by rw [h1]; exact h2))
        rw [fills_vfsAt hf]
        exact hop.1
    | delVfs mp => exact hop.elim

/-! ## Walks -/

/-- The uncached walk comes to the node that is cached or would be made. -/
theorem Cached.uncached_of_nodeOf (h : Cached D N st) (π : Path) :
    match nodeOf D st π with
    | .error _ => Vfs.uncached D st π = none
    | .ok node => Vfs.uncached D st π = some node.vnode ∧
        node.vfsMountedHere = st.mountedHere π ∧ ∃ m, st.vfsAt node.vnode.parentVfs = some m := by
  have hcached : ∀ {π node}, st.tree π = some node → Vfs.uncached D st π = some node.vnode ∧
      node.vfsMountedHere = st.mountedHere π ∧ ∃ m, st.vfsAt node.vnode.parentVfs = some m :=
    fun hn => ⟨h.uncached hn, (State.mountedHere_of_tree hn).symm, h.parentVfs hn⟩
  induction π with
  | nil =>
    rcases hn : st.tree [] with - | node
    · rw [nodeOf, hn, Vfs.uncached, hn]
      rfl
    · rw [nodeOf_of_tree hn]
      exact @hcached _ node hn
  | cons name π ih =>
    rcases hn : st.tree (name :: π) with - | node
    · rw [nodeOf_of_none hn]
      rcases hself : nodeOf D st π with e | self
      · rw [hself] at ih
        show Vfs.uncached D st (name :: π) = none
        rw [Vfs.uncached, ih]
      · rw [hself] at ih
        have hu := h.uncached_of_lookupVNode ih.1 ih.2.1 ih.2.2 name
        rcases hv : self.lookupVNode D st name with e | vnode
        · rw [hv] at hu
          simp only [bind, Except.bind, hv]
          exact hu.symm
        · rw [hv] at hu
          simp only [bind, Except.bind, hv]
          refine ⟨hu.symm, ?_, TreeNode.exists_of_lookupVNode hv⟩
          rw [State.mountedHere, hn]
          rfl
    · rw [nodeOf_of_tree hn]
      exact @hcached _ node hn

theorem Cached.route_walk (h : Cached D N st) (parts : List Text) (π ρ : Path) :
    route D st π parts = .ok ρ ↔ walk D st π (parts.filter (· ≠ [])) = some ρ := by
  induction parts generalizing π with
  | nil => rw [route, List.filter_nil, walk, Except.ok.injEq, Option.some.injEq]
  | cons part parts ih =>
    rw [route_cons]
    by_cases hempty : part = []
    · rw [if_pos hempty, List.filter_cons_of_neg (by simpa using hempty)]
      exact ih π
    rw [if_neg hempty, List.filter_cons_of_pos (by simpa using hempty), walk_cons]
    by_cases hup : part = dotdot
    · rw [if_pos hup, if_pos hup]
      cases π with
      | nil => exact ⟨nofun, nofun⟩
      | cons last parent => exact ih parent
    rw [if_neg hup, if_neg hup]
    by_cases hdot : part = dot
    · rw [if_pos hdot, if_pos hdot]
      exact ih π
    rw [if_neg hdot, if_neg hdot]
    have hu := h.uncached_of_nodeOf (part :: π)
    rcases hn : nodeOf D st (part :: π) with e | node
    · rw [hn] at hu
      rw [hu]
      exact ⟨nofun, nofun⟩
    · rw [hn] at hu
      rw [hu.1]
      exact ih (part :: π)

/-- The next `vfs_open` succeeds just when the uncached walk does, and comes to the object that the
walk comes to. A lookup that fails adds no child. -/
theorem vfsOpen_transparent (D : Drivers Obj Fs) (L : Layout) (p : Profile) (st : State Obj Fs)
    (hst : Reaches D L p (MountsFirst D L) st) (path : Text)
    (hcur : CurrentAlong D L st [] (split path)) :
    (∀ ρ, (vfsOpen D L st path).1 = .ok ρ ↔ walkPath D st path = some ρ) ∧
    (∀ ρ, (vfsOpen D L st path).1 = .ok ρ → ∃ node, (vfsOpen D L st path).2.tree ρ = some node ∧
      uncached D st ρ = some node.vnode) ∧
    ∀ π name e st', lookup D L st π name = (.error e, st') → st' = st := by
  have h := hst.cached
  have hroot : st.vfss = [] ∨ st.tree [] = none ↔ st.tree [] = none := by
    refine ⟨fun hor => hor.elim (fun hnil => ?_) id, .inr⟩
    by_contra hne
    obtain ⟨node, hnode⟩ := Option.ne_none_iff_exists'.mp hne
    obtain ⟨m, hm⟩ := h.parentVfs hnode
    rw [State.vfsAt, hnil] at hm
    cases hm
  refine ⟨fun ρ => ?_, fun ρ hρ => ?_, fun π name e st' => lookup_error⟩
  · unfold vfsOpen walkPath
    simp only [hroot]
    rcases hnode : st.tree [] with - | root
    · rw [uncached, hnode]
      exact ⟨nofun, nofun⟩
    · rw [h.uncached hnode, if_neg nofun]
      rw [h.openLoop_route _ (by rw [hnode]; exact nofun) hnode hcur]
      exact h.route_walk _ [] ρ
  · rcases ho : vfsOpen D L st path with ⟨r, st'⟩
    rw [ho] at hρ
    cases hρ
    obtain ⟨node, hnode⟩ := h.toWf.vfsOpen_node (fun _ _ _ => trivial) ho
    have hf := fills_vfsOpen (D := D) (L := L) st
      (show ∀ part ∈ split path, part ≠ [] → (fun _ => True) part from fun _ _ _ => trivial)
    rw [ho] at hf
    obtain ⟨h', hu⟩ := h.fills hf
    exact ⟨node, hnode, hu ▸ h'.uncached hnode⟩

/-- A root directory with `a` and `b`, and `x` in `b`. -/
def demoDrivers : Drivers ℕ Unit where
  root _ := 0
  lookup dir name :=
    if dir = 0 ∧ name = ['a'] then .ok 1
    else if dir = 0 ∧ name = ['b'] then .ok 2
    else if dir = 2 ∧ name = ['x'] then .ok 3
    else .error .err

/-- The root is mounted, then `/b/x` is opened. -/
def demoState : State ℕ Unit :=
  (vfsOpen demoDrivers .leaf (addVfs demoDrivers .leaf .init 1 slash ()).2
    ['/', 'b', '/', 'x']).2

theorem demoState_reaches : Reaches demoDrivers .leaf .dev (MountsFirst demoDrivers .leaf)
    demoState := by
  have h1 : Reaches demoDrivers .leaf .dev (MountsFirst demoDrivers .leaf)
      (addVfs demoDrivers .leaf .init 1 slash ()).2 :=
    Reaches.init.next (.addVfs 1 slash ()) ⟨rfl, nofun⟩
  exact h1.next (.vfsOpen ['/', 'b', '/', 'x']) trivial

theorem vfsOpen_transparent_demo :
    (vfsOpen demoDrivers .leaf demoState ['b', '/', 'x', '/', '.', '.']).1 = .ok [['b']] := by
  refine ((vfsOpen_transparent demoDrivers .leaf .dev demoState demoState_reaches
    ['b', '/', 'x', '/', '.', '.'] ?_).1 _).mpr rfl
  refine ⟨nofun, nofun, fun _ node hnode => ?_, trivial⟩
  obtain rfl := Option.some.inj hnode
  rfl

/-- After `/a` is opened, `/b/x/..` leads to `a`. -/
theorem vfsOpen_stale_parent :
    ∃ st, Reaches demoDrivers .leaf .dev (MountsFirst demoDrivers .leaf) st ∧
      (vfsOpen demoDrivers .leaf st ['/', 'b', '/', 'x', '/', '.', '.']).1 = .ok [['a']] ∧
      walkPath demoDrivers st ['/', 'b', '/', 'x', '/', '.', '.'] = some [['b']] ∧
      uncached demoDrivers st [['a']] = some ⟨1, 1⟩ ∧
      uncached demoDrivers st [['b']] = some ⟨2, 1⟩ :=
  ⟨_, demoState_reaches.next (.vfsOpen ['/', 'a']) trivial, rfl, rfl, rfl, rfl⟩

end CappuccinOS.Vfs
