import CappuccinOS.Vfs.Cache

/-!
# Parent pointers and file descriptors

A parent pointer and the descriptor of a `File` hold the address of a node at the time they were
made. An insertion into the map a node lies in can move it, and then what points to it is stale:
the parent pointers of its own children, and the descriptors of its files.

1. `asPtr_insert`: an insertion changes the addresses of the names it moves, and no others.
2. `insert_linksValid_iff`: links that were valid stay so exactly when no moved node has children
   or live files (`Harmless`).
3. `linksValid_of_reached`: over runs of `lookup`, `vfs_open` and `open`.
-/

namespace CappuccinOS.Vfs

variable {Obj Fs : Type}

/-- `File`: the node it was opened on, and the address `descriptor` holds. -/
structure File where
  node : Path
  descriptor : Addr
  deriving DecidableEq, Repr

/-- The two statics and the live files. -/
structure Session (Obj Fs : Type) where
  st : State Obj Fs
  files : List File

/-- The calls. -/
inductive LinkOp
  | lookup (π : Path) (name : Text)
  | vfsOpen (path : Text)
  | openNode (π : Path)

/-- `TreeNode::open` on the node at `π`. -/
def Session.openNode (L : Layout) (s : Session Obj Fs) (π : Path) : Session Obj Fs :=
  match s.st.tree π with
  | none => s
  | some _ => { s with files := ⟨π, s.st.asPtr L π⟩ :: s.files }

/-- The session after a call. -/
def Session.step (D : Drivers Obj Fs) (L : Layout) (s : Session Obj Fs) : LinkOp → Session Obj Fs
  | .lookup π name => { s with st := (Vfs.lookup D L s.st π name).2 }
  | .vfsOpen path => { s with st := (Vfs.vfsOpen D L s.st path).2 }
  | .openNode π => s.openNode L π

/-- Every parent pointer holds the address of the node that owns the child, so `..` leads there,
and every file's descriptor that of the node it was opened on. -/
structure LinksValid (D : Drivers Obj Fs) (L : Layout) (s : Session Obj Fs) : Prop where
  parent : ∀ {name π node}, s.st.tree (name :: π) = some node →
    node.parent = some (s.st.asPtr L π)
  dotdot : ∀ {name π node}, s.st.tree (name :: π) = some node →
    lookup D L s.st (name :: π) dotdot = (.ok π, s.st)
  files : ∀ f ∈ s.files, f.descriptor = s.st.asPtr L f.node

/-- Inserting `name` below `π` moves no node that has children or live files. -/
def Harmless (L : Layout) (s : Session Obj Fs) (π : Path) (name : Text) : Prop :=
  ∀ n ∈ s.st.keys π, L.slot (s.st.keys π ++ [name]) n ≠ L.slot (s.st.keys π) n →
    s.st.keys (n :: π) = [] ∧ ∀ f ∈ s.files, f.node ≠ n :: π

/-- A lookup that inserts is harmless: the name is not cached, and the file system knows it. -/
def HarmlessLookup (D : Drivers Obj Fs) (L : Layout) (s : Session Obj Fs) (π : Path) (name : Text) :
    Prop :=
  ∀ self vnode, s.st.tree π = some self → name ∉ self.children → name ≠ dotdot → name ≠ dot →
    self.lookupVNode D s.st name = .ok vnode → Harmless L s π name

/-- Every lookup of the loop of `vfs_open` is. -/
def HarmlessOpen (D : Drivers Obj Fs) (L : Layout) (s : Session Obj Fs) (cur : Path) :
    List Text → Prop
  | [] => True
  | part :: parts =>
    if part = [] then HarmlessOpen D L s cur parts
    else HarmlessLookup D L s cur part ∧
      match lookup D L s.st cur part with
      | (.ok new, st') => HarmlessOpen D L { s with st := st' } new parts
      | (.error _, _) => True

/-- Every insertion of a call is harmless. -/
def HarmlessOp (D : Drivers Obj Fs) (L : Layout) (s : Session Obj Fs) : LinkOp → Prop
  | .lookup π name => HarmlessLookup D L s π name
  | .vfsOpen path => HarmlessOpen D L s [] (split path)
  | .openNode _ => True

/-- The sessions that runs of harmless calls come to. -/
inductive Undisturbed (D : Drivers Obj Fs) (L : Layout) (s₀ : Session Obj Fs) :
    Session Obj Fs → Prop
  | init : Undisturbed D L s₀ s₀
  | step {s : Session Obj Fs} {op : LinkOp} : Undisturbed D L s₀ s → HarmlessOp D L s op →
      Undisturbed D L s₀ (s.step D L op)

/-! ## One insertion -/

section Insert

variable {D : Drivers Obj Fs} {L : Layout} {s : Session Obj Fs} {π ρ : Path} {name : Text}
  {self : TreeNode Obj} {vnode : VNode Obj}

theorem State.keys_insert {st : State Obj Fs} (hself : st.tree π = some self) :
    (st.insert L π name vnode).keys π = st.keys π ++ [name] := by
  unfold State.keys
  rw [State.insert_tree_self hself, hself]

theorem State.keys_insert_of_ne {st : State Obj Fs} (hchild : st.tree (name :: π) = none)
    (hρ : ρ ≠ π) : (st.insert L π name vnode).keys ρ = st.keys ρ := by
  unfold State.keys
  by_cases h : ρ = name :: π
  · rw [h, State.insert_tree_child, hchild]
  · rw [State.insert_tree_of_ne hρ h]

/-- The address of a node after an insertion: only the names of that map can move. -/
theorem State.asPtr_insert {st : State Obj Fs} (hself : st.tree π = some self)
    (hchild : st.tree (name :: π) = none) (n : Text) (ρ : Path) :
    (st.insert L π name vnode).asPtr L (n :: ρ) =
      if ρ = π then .slot π (L.slot (st.keys π ++ [name]) n) else st.asPtr L (n :: ρ) := by
  simp only [State.asPtr]
  by_cases hρ : ρ = π
  · rw [if_pos hρ, hρ, State.keys_insert hself]
  · rw [if_neg hρ, State.keys_insert_of_ne hchild hρ]

/-- A node that the insertion does not move keeps its address. -/
theorem State.asPtr_insert_of_not_moved {st : State Obj Fs} (hself : st.tree π = some self)
    (hchild : st.tree (name :: π) = none)
    (hmoved : ∀ n, ρ = n :: π → L.slot (st.keys π ++ [name]) n = L.slot (st.keys π) n) :
    (st.insert L π name vnode).asPtr L ρ = st.asPtr L ρ := by
  cases ρ with
  | nil => rfl
  | cons n ρ =>
    rw [State.asPtr_insert hself hchild]
    by_cases hρ : ρ = π
    · subst hρ
      rw [if_pos rfl, hmoved n rfl]
      rfl
    · rw [if_neg hρ]

/-- A well-formed tree, and files on nodes of it. -/
structure Session.Wf (s : Session Obj Fs) : Prop where
  tree : Vfs.Wf (fun _ => True) s.st
  files : ∀ f ∈ s.files, s.st.tree f.node ≠ none

/-- An insertion leaves the nodes two levels below as they are. -/
theorem State.insert_tree_below {st : State Obj Fs} (m n : Text) :
    (st.insert L π name vnode).tree (m :: n :: π) = st.tree (m :: n :: π) := by
  refine State.insert_tree_of_ne (fun e => ?_) fun e => ?_
  · have := congrArg List.length e
    simp only [List.length_cons] at this
    omega
  · have := congrArg List.length e
    simp only [List.length_cons] at this
    omega

/-- A moved node with children or a live file leaves a link to its old address. -/
theorem harmless_of_linksValid (hwf : s.Wf) (hlinks : LinksValid D L s)
    (hself : s.st.tree π = some self) (hnew : name ∉ self.children)
    (h : LinksValid D L { s with st := s.st.insert L π name vnode }) : Harmless L s π name := by
  intro n hn hmoved
  have hold : s.st.asPtr L (n :: π) ≠ (s.st.insert L π name vnode).asPtr L (n :: π) := by
    rw [State.asPtr_insert hself (hwf.tree.tree_none hself hnew), if_pos rfl]
    intro e
    exact hmoved (Addr.slot.inj e).2.symm
  refine ⟨?_, fun f hf hnode => ?_⟩
  · by_contra hne
    obtain ⟨m, hm⟩ := List.exists_mem_of_ne_nil _ hne
    obtain ⟨leaf, hleaf⟩ := hwf.tree.exists_of_mem_keys hm
    have h1 := hlinks.parent hleaf
    rw [h.parent ((State.insert_tree_below m n).trans hleaf)] at h1
    exact hold (Option.some.inj h1).symm
  · have h1 := hlinks.files f hf
    have h2 := h.files f hf
    rw [hnode] at h1 h2
    exact hold (h1.symm.trans h2)

/-- Where nothing is moved that a link leads to, the links of all nodes and files stay valid. -/
theorem Harmless.linksValid (h : Harmless L s π name) (hwf : s.Wf) (hlinks : LinksValid D L s)
    (hself : s.st.tree π = some self) (hnew : name ∉ self.children)
    (hwf' : Vfs.Wf (fun _ => True) (s.st.insert L π name vnode)) :
    LinksValid D L { s with st := s.st.insert L π name vnode } := by
  have hchild := hwf.tree.tree_none hself hnew
  have hparent : ∀ {n ρ node}, (s.st.insert L π name vnode).tree (n :: ρ) = some node →
      node.parent = some ((s.st.insert L π name vnode).asPtr L ρ) := by
    intro n ρ node hnode
    rcases State.insert_tree_cases hself hnode with ⟨heq, rfl⟩ | ⟨-, old, hold, -, -, hpar, -⟩
    · obtain ⟨rfl, rfl⟩ := List.cons.inj heq
      rw [State.asPtr_insert_of_not_moved hself hchild]
      intro n' e
      exact absurd (congrArg List.length e) (by simp)
    · rw [hpar, hlinks.parent hold, State.asPtr_insert_of_not_moved hself hchild]
      rintro n' rfl
      by_contra hmoved
      obtain ⟨mid, hmid, -⟩ := hwf.tree.child hold
      have hmem := hwf.tree.mem_keys hold
      rw [(h n' (hwf.tree.mem_keys hmid) hmoved).1] at hmem
      cases hmem
  refine ⟨hparent, fun hnode => hwf'.lookup_dotdot hnode (hparent hnode), fun f hf => ?_⟩
  rw [hlinks.files f hf]
  refine (State.asPtr_insert_of_not_moved hself hchild ?_).symm
  intro n hnode
  by_contra hmoved
  obtain ⟨node, hn⟩ := Option.ne_none_iff_exists'.mp (hwf.files f hf)
  rw [hnode] at hn
  exact (h n (hwf.tree.mem_keys hn) hmoved).2 f hf hnode

/-- **One insertion.** Valid links stay valid exactly when no node that has children or live files
is moved. -/
theorem insert_linksValid_iff (hwf : s.Wf) (hlinks : LinksValid D L s)
    (hself : s.st.tree π = some self) (hnew : name ∉ self.children)
    (hwf' : Vfs.Wf (fun _ => True) (s.st.insert L π name vnode)) :
    LinksValid D L { s with st := s.st.insert L π name vnode } ↔ Harmless L s π name :=
  ⟨harmless_of_linksValid hwf hlinks hself hnew,
    fun h => h.linksValid hwf hlinks hself hnew hwf'⟩

/-! ## Runs -/

theorem Session.Wf.caches {st' : State Obj Fs} (h : s.Wf)
    (hc : Caches D L (fun _ => True) s.st st') : Session.Wf { s with st := st' } :=
  ⟨h.tree.caches hc, fun f hf => caches_tree_ne_none hc (h.files f hf)⟩

theorem lookup_eq_self {st : State Obj Fs}
    (h : ¬ ∃ self vnode, st.tree π = some self ∧ name ∉ self.children ∧ name ≠ dotdot ∧
      name ≠ dot ∧ self.lookupVNode D st name = .ok vnode) :
    (lookup D L st π name).2 = st := by
  unfold lookup
  rcases hself : st.tree π with - | self
  · rfl
  simp only
  split_ifs with h1 h2 h3
  · rcases self.parent with - | a
    · rfl
    · simp only
      rcases st.nodeAt L a with - | parent <;> rfl
  · rfl
  · rfl
  · rcases hv : self.lookupVNode D st name with e | vnode
    · rfl
    · exact absurd ⟨self, vnode, hself, h3, h1, h2, hv⟩ h

/-- What a lookup that is harmless keeps; and only such a one keeps valid links. -/
theorem lookup_links (hwf : s.Wf) (hlinks : LinksValid D L s) (π : Path) (name : Text) :
    Session.Wf { s with st := (lookup D L s.st π name).2 } ∧
      (LinksValid D L { s with st := (lookup D L s.st π name).2 } ↔
        HarmlessLookup D L s π name) := by
  by_cases h : ∃ self vnode, s.st.tree π = some self ∧ name ∉ self.children ∧ name ≠ dotdot ∧
      name ≠ dot ∧ self.lookupVNode D s.st name = .ok vnode
  · obtain ⟨self, vnode, hself, hnew, hdotdot, hdot, hlookup⟩ := h
    have hc : Caches D L (fun _ => True) s.st (s.st.insert L π name vnode) :=
      .insert hself hnew hdotdot hdot trivial hlookup
    rw [lookup_insert hself hnew hdotdot hdot hlookup]
    refine ⟨hwf.caches hc, ?_⟩
    rw [insert_linksValid_iff hwf hlinks hself hnew (hwf.tree.caches hc)]
    exact ⟨fun hh _ _ _ _ _ _ _ => hh, fun hh => hh self vnode hself hnew hdotdot hdot hlookup⟩
  · rw [lookup_eq_self h]
    refine ⟨hwf, fun _ => ?_, fun _ => hlinks⟩
    intro self vnode hself hnew hdotdot hdot hlookup
    exact absurd ⟨self, vnode, hself, hnew, hdotdot, hdot, hlookup⟩ h

theorem openLoop_links (parts : List Text) {cur : Path} (hwf : s.Wf) (hlinks : LinksValid D L s)
    (h : HarmlessOpen D L s cur parts) :
    Session.Wf { s with st := (openLoop D L s.st cur parts).2 } ∧
      LinksValid D L { s with st := (openLoop D L s.st cur parts).2 } := by
  induction parts generalizing s cur with
  | nil => exact ⟨hwf, hlinks⟩
  | cons part parts ih =>
    unfold HarmlessOpen at h
    unfold openLoop
    by_cases hempty : part = []
    · rw [if_pos hempty] at h ⊢
      exact ih hwf hlinks h
    · rw [if_neg hempty] at h ⊢
      obtain ⟨hlookup, hrest⟩ := h
      obtain ⟨hwf', hiff⟩ := lookup_links hwf hlinks cur part
      have hlinks' := hiff.mpr hlookup
      rcases hl : lookup D L s.st cur part with ⟨e | new, st'⟩
      · rw [hl] at hwf' hlinks'
        exact ⟨hwf', hlinks'⟩
      · rw [hl] at hwf' hlinks' hrest
        exact ih hwf' hlinks' hrest

theorem openNode_links (hwf : s.Wf) (hlinks : LinksValid D L s) (π : Path) :
    (s.openNode L π).Wf ∧ LinksValid D L (s.openNode L π) := by
  unfold Session.openNode
  match hπ : s.st.tree π with
  | none => exact ⟨hwf, hlinks⟩
  | some node =>
    refine ⟨⟨hwf.tree, fun f hf => ?_⟩, hlinks.parent, hlinks.dotdot, fun f hf => ?_⟩
    · rcases List.mem_cons.mp hf with rfl | hf
      · rw [hπ]
        exact nofun
      · exact hwf.files f hf
    · rcases List.mem_cons.mp hf with rfl | hf
      · rfl
      · exact hlinks.files f hf

theorem step_links {op : LinkOp} (hwf : s.Wf) (hlinks : LinksValid D L s)
    (h : HarmlessOp D L s op) : (s.step D L op).Wf ∧ LinksValid D L (s.step D L op) := by
  cases op with
  | lookup π name =>
    obtain ⟨hwf', hiff⟩ := lookup_links hwf hlinks π name
    exact ⟨hwf', hiff.mpr h⟩
  | vfsOpen path =>
    unfold Session.step vfsOpen
    simp only
    split_ifs
    · exact ⟨hwf, hlinks⟩
    · exact openLoop_links (split path) hwf hlinks h
  | openNode π => exact openNode_links hwf hlinks π

theorem undisturbed_links {s₀ : Session Obj Fs} (hwf : s₀.Wf) (hlinks : LinksValid D L s₀)
    (h : Undisturbed D L s₀ s) : s.Wf ∧ LinksValid D L s := by
  induction h with
  | init => exact ⟨hwf, hlinks⟩
  | step _ hop ih => exact step_links ih.1 ih.2 hop

end Insert

/-- **Tree links along undisturbed runs.** From any well-formed tree with valid links and no open
files: in every state that calls come to whose insertions move no node with children or live files,
every parent pointer and every descriptor is current and `..` leads to the true parent; and from
every such state a further lookup keeps this exactly when it, too, moves no such node. -/
theorem linksValid_of_undisturbed {D : Drivers Obj Fs} {L : Layout} {st₀ : State Obj Fs}
    (hwf : Wf (fun _ => True) st₀) (hlinks : LinksValid D L ⟨st₀, []⟩) {s : Session Obj Fs}
    (h : Undisturbed D L ⟨st₀, []⟩ s) :
    LinksValid D L s ∧ ∀ π name,
      LinksValid D L (s.step D L (.lookup π name)) ↔ HarmlessLookup D L s π name := by
  have hwf₀ : Session.Wf (⟨st₀, []⟩ : Session Obj Fs) := ⟨hwf, nofun⟩
  obtain ⟨hs, hvalid⟩ := undisturbed_links hwf₀ hlinks h
  exact ⟨hvalid, fun π name => (lookup_links hs hvalid π name).2⟩

/-- In a map of one leaf, an insertion moves the names behind the new one. -/
theorem Layout.leaf_moved_iff (keys : List Text) (name n : Text) :
    Layout.leaf.slot (keys ++ [name]) n ≠ Layout.leaf.slot keys n ↔ name < n := by
  simp only [Layout.leaf, List.countP_append, List.countP_singleton, decide_eq_true_eq]
  split_ifs with h <;> simp [h]

theorem linksValid_ofRoot (D : Drivers Obj Fs) (L : Layout) (vfsp : ℕ) (fs : Fs) :
    LinksValid D L ⟨.ofRoot D vfsp fs, []⟩ := by
  have hnone : ∀ {name : Text} {π : Path}, (State.ofRoot D vfsp fs).tree (name :: π) = none := by
    intro name π
    simp [State.ofRoot]
  refine ⟨fun h => ?_, fun h => ?_, fun f hf => absurd hf List.not_mem_nil⟩
  · rw [hnone] at h
    cases h
  · rw [hnone] at h
    cases h

/-- `/a` is opened, then `/b/x`: the later name moves nothing. -/
theorem linksValid_of_undisturbed_demo :
    ∃ s : Session ℕ Unit, Undisturbed demoDrivers .leaf ⟨.ofRoot demoDrivers 1 (), []⟩ s ∧
      s.files = [⟨[['a']], .slot [] 0⟩] ∧
      LinksValid demoDrivers .leaf s ∧ ∀ π name,
        LinksValid demoDrivers .leaf (s.step demoDrivers .leaf (.lookup π name)) ↔
          HarmlessLookup demoDrivers .leaf s π name := by
  have h1 : HarmlessOp demoDrivers .leaf ⟨.ofRoot demoDrivers 1 (), []⟩ (.vfsOpen ['/', 'a']) :=
    ⟨fun _ _ _ _ _ _ _ n hn => absurd hn List.not_mem_nil, trivial⟩
  have h2 : HarmlessOp demoDrivers .leaf
      ((Session.step demoDrivers .leaf ⟨.ofRoot demoDrivers 1 (), []⟩ (.vfsOpen ['/', 'a'])).step
        demoDrivers .leaf (.openNode [['a']])) (.vfsOpen ['/', 'b', '/', 'x']) := by
    refine ⟨fun _ _ _ _ _ _ _ n hn hmoved => ?_,
      fun _ _ _ _ _ _ _ n hn => absurd hn List.not_mem_nil, trivial⟩
    obtain rfl := List.mem_singleton.mp hn
    exact absurd ((Layout.leaf_moved_iff _ _ _).mp hmoved) (by decide)
  have hrun : Undisturbed demoDrivers .leaf ⟨.ofRoot demoDrivers 1 (), []⟩ _ :=
    .step (.step (.step .init h1) (show HarmlessOp demoDrivers .leaf _ (.openNode [['a']]) from
      trivial)) h2
  exact ⟨_, hrun, rfl, linksValid_of_undisturbed (Wf.ofRoot 1 ()) (linksValid_ofRoot _ _ 1 ()) hrun⟩

/-- `/b/x` is looked up and `/b` opened, then `/a` is looked up: `b` moves to the next slot, and
`..` from `x` and the file's descriptor both lead to `a`. -/
theorem links_stale :
    ∃ s : Session ℕ Unit,
      s = ([.vfsOpen ['/', 'b', '/', 'x'], .openNode [['b']], .vfsOpen ['/', 'a']].foldl
        (Session.step demoDrivers .leaf) ⟨.ofRoot demoDrivers 1 (), []⟩) ∧
      ¬ LinksValid demoDrivers .leaf s ∧
      (lookup demoDrivers .leaf s.st [['x'], ['b']] dotdot).1 = .ok [['a']] ∧
      s.files.map (fun f => (f.node, s.st.nodeAt .leaf f.descriptor)) =
        [([['b']], some [['a']])] := by
  refine ⟨_, rfl, fun h => ?_, rfl, rfl⟩
  have := h.files ⟨[['b']], .slot [] 0⟩ (List.mem_singleton.mpr rfl)
  revert this
  decide

end CappuccinOS.Vfs
