import CappuccinOS.Vfs.Cache

/-!
# Mounting and unmounting

A mount is a pointer in the node of the mount point. Names that were cached below this node before
the mount are still found there, and `del_vfs` takes the file system from the mount list but leaves
the pointer.

1. `openLoop_replay`: a walk that was successful is so again, and changes nothing.
2. `mountVisible_iff`: a name below a mount point is found in the new file system just if it was not
   cached there before.
3. `unmount_not_undone`: after a mount is undone, its node points to a file system that is gone.
-/

namespace CappuccinOS.Vfs

variable {Obj Fs : Type} {D : Drivers Obj Fs} {L : Layout} {N : Text → Prop} {p : Profile}
  {st st' st₁ : State Obj Fs} {π ρ : Path} {name : Text} {self : TreeNode Obj}

/-! ## Paths -/

theorem split_ne_nil (path : Text) : split path ≠ [] := by
  cases path with
  | nil => exact nofun
  | cons c cs =>
    rw [split]
    split_ifs
    · exact nofun
    · rcases split cs with - | ⟨part, parts⟩ <;> exact nofun

theorem split_append_slash (a b : Text) : split (a ++ '/' :: b) = split a ++ split b := by
  induction a with
  | nil => rfl
  | cons c a ih =>
    rw [List.cons_append, split, split, ih]
    by_cases hc : c = '/'
    · rw [if_pos hc, if_pos hc, List.cons_append]
    · rw [if_neg hc, if_neg hc]
      rcases hs : split a with - | ⟨part, parts⟩
      · exact absurd hs (split_ne_nil a)
      · rfl

theorem split_of_not_mem {name : Text} (h : '/' ∉ name) : split name = [name] := by
  induction name with
  | nil => rfl
  | cons c name ih =>
    rw [List.mem_cons, not_or] at h
    rw [split, if_neg (Ne.symm h.1), ih h.2]

/-! ## Walks -/

/-- Nodes stay, with what they hold, and names below them. -/
def Later (st st' : State Obj Fs) : Prop :=
  ∀ π node, st.tree π = some node → ∃ node', st'.tree π = some node' ∧
    node'.vnode = node.vnode ∧ node.children ⊆ node'.children

theorem Later.refl (st : State Obj Fs) : Later st st := fun _ _ h =>
  ⟨_, h, rfl, List.Subset.refl _⟩

theorem Later.trans (h : Later st st₁) (h' : Later st₁ st') : Later st st' := by
  intro π node hn
  obtain ⟨node₁, hn₁, hv₁, hsub₁⟩ := h π node hn
  obtain ⟨node₂, hn₂, hv₂, hsub₂⟩ := h' π node₁ hn₁
  exact ⟨node₂, hn₂, hv₂.trans hv₁, List.Subset.trans hsub₁ hsub₂⟩

theorem fills_keeps (hf : Fills D L N st st') (hwf : Wf N st) {node : TreeNode Obj}
    (h : st.tree ρ = some node) : ∃ node', st'.tree ρ = some node' ∧ node'.vnode = node.vnode ∧
      node'.vfsMountedHere = node.vfsMountedHere ∧ node.children ⊆ node'.children := by
  induction hf with
  | refl => exact ⟨node, h, rfl, rfl, List.Subset.refl _⟩
  | tail hf hc ih =>
    obtain ⟨node₁, h₁, hv₁, hm₁, hsub₁⟩ := ih
    obtain ⟨node₂, h₂, hv₂, hm₂, hsub₂⟩ := (hwf.fills hf).caches_keeps hc h₁
    exact ⟨node₂, h₂, hv₂.trans hv₁, hm₂.trans hm₁, List.Subset.trans hsub₁ hsub₂⟩

theorem Fills.later (hf : Fills D L N st st') (hwf : Wf N st) : Later st st' := by
  intro π node h
  obtain ⟨node', h', hv, -, hsub⟩ := fills_keeps hf hwf h
  exact ⟨node', h', hv, hsub⟩

/-- A lookup comes to the parent, to the node itself, or to a name that is cached from then on. -/
theorem Wf.lookup_ok (h : Wf N st) (hπ : st.tree π = some self)
    (hcur : name = dotdot → Current L st π) (hl : lookup D L st π name = (.ok ρ, st₁)) :
    (name = dotdot ∧ ∃ last, π = last :: ρ) ∨ (name = dot ∧ ρ = π) ∨
      (name ≠ dotdot ∧ name ≠ dot ∧ ρ = name :: π ∧
        ∃ node, st₁.tree π = some node ∧ name ∈ node.children) := by
  by_cases hup : name = dotdot
  · subst hup
    cases π with
    | nil =>
      rw [h.lookup_root hπ] at hl
      cases hl
    | cons last π =>
      rw [h.lookup_dotdot hπ (hcur rfl self hπ)] at hl
      cases hl
      exact .inl ⟨rfl, last, rfl⟩
  by_cases hdot : name = dot
  · subst hdot
    rw [lookup_dot hπ] at hl
    cases hl
    exact .inr (.inl ⟨rfl, rfl⟩)
  refine .inr (.inr ⟨hup, hdot, ?_⟩)
  by_cases hmem : name ∈ self.children
  · rw [h.lookup_cached hπ hmem] at hl
    cases hl
    exact ⟨rfl, self, hπ, hmem⟩
  · rcases hv : self.lookupVNode D st name with e | vnode
    · rw [lookup_missing hπ hmem hup hdot hv] at hl
      cases hl
    · rw [lookup_insert hπ hmem hup hdot hv] at hl
      cases hl
      exact ⟨rfl, _, State.insert_tree_self hπ, by simp⟩

/-- The walk comes to `ρ` and changes nothing on the way. -/
def Steady (D : Drivers Obj Fs) (L : Layout) (st : State Obj Fs) : Path → List Text → Path → Prop
  | cur, [], ρ => ρ = cur
  | cur, part :: parts, ρ =>
    if part = [] then Steady D L st cur parts ρ
    else ∃ new, lookup D L st cur part = (.ok new, st) ∧ Steady D L st new parts ρ

theorem Steady.openLoop {parts : List Text} (h : Steady D L st π parts ρ) :
    openLoop D L st π parts = (.ok ρ, st) := by
  induction parts generalizing π with
  | nil =>
    cases h
    rfl
  | cons part parts ih =>
    rw [Steady] at h
    rw [Vfs.openLoop]
    split_ifs at h ⊢
    · exact ih h
    · obtain ⟨new, hl, h⟩ := h
      rw [hl]
      exact ih h

/-- A walk that was successful is so at any later time, and changes nothing any more. -/
theorem Wf.openLoop_replay (h : Wf N st) (h' : Wf N st') (parts : List Text)
    (hN : ∀ part ∈ parts, part ≠ [] → N part) (hroot : st.tree [] ≠ none)
    (hπ : st.tree π = some self) (ho : openLoop D L st π parts = (.ok ρ, st₁))
    (hcur : CurrentAlong D L st π parts) (hlater : Later st₁ st')
    (hcur' : CurrentAlong D L st' π parts) : Steady D L st' π parts ρ := by
  induction parts generalizing st π self with
  | nil =>
    cases ho
    rfl
  | cons part parts ih =>
    have hrest := fun part' h => hN part' (List.mem_cons_of_mem part h)
    rw [openLoop] at ho
    rw [CurrentAlong] at hcur hcur'
    rw [Steady]
    by_cases hempty : part = []
    · rw [if_pos hempty] at ho hcur hcur' ⊢
      exact ih h hrest hroot hπ ho hcur hcur'
    rw [if_neg hempty] at ho hcur hcur' ⊢
    have hf := fills_lookup (D := D) (L := L) st π (hN part List.mem_cons_self hempty)
    rcases hl : lookup D L st π part with ⟨e | new, st₂⟩
    · rw [hl] at ho
      cases ho
    rw [hl] at ho hf hcur
    have hf₂ := fills_openLoop (D := D) (L := L) parts hrest st₂ new
    rw [show openLoop D L st₂ new parts = (.ok ρ, st₁) from ho] at hf₂
    have hlater₂ : Later st₂ st' := (hf₂.later (h.fills hf)).trans hlater
    obtain ⟨self', hπ', -⟩ := ((hf.later h).trans hlater₂) π self hπ
    -- the lookup gives the same node again
    have hl' : lookup D L st' π part = (.ok new, st') := by
      rcases h.lookup_ok hπ hcur.1 hl with
        ⟨hup, last, rfl⟩ | ⟨hdot, rfl⟩ | ⟨hup, hdot, rfl, q, hq, hmem⟩
      · rw [hup, h'.lookup_dotdot hπ' (hcur'.1 hup self' hπ')]
      · rw [hdot, lookup_dot hπ']
      · obtain ⟨q', hq', -, hsub⟩ := hlater₂ _ q hq
        exact h'.lookup_cached hq' (hsub hmem)
    obtain ⟨node, hnode⟩ := h.lookup_node hroot hl
    rw [hl'] at hcur'
    exact ⟨new, hl', ih (h.fills hf) hrest (fills_tree_ne_none hf hroot) hnode ho hcur.2 hcur'.2⟩

/-- A mount does not change where a name that is found in the tree leads. -/
theorem Wf.lookup_mount (h : Wf N st) (m : Mount Fs) (σ : Path)
    (hl : lookup D L st π name = (.ok ρ, st)) :
    lookup D L (st.mount σ m) π name = (.ok ρ, st.mount σ m) := by
  have hkeys : (st.mount σ m).keys = st.keys := by
    funext τ
    unfold State.keys
    by_cases hτ : τ = σ
    · subst hτ
      simp only [State.mount, State.modify, Function.update_self]
      rcases st.tree τ with - | node <;> rfl
    · rw [show (st.mount σ m).tree τ = st.tree τ from State.modify_tree_of_ne hτ]
  have hnodeAt : ∀ a, (st.mount σ m).nodeAt L a = st.nodeAt L a := by
    intro a
    cases a with
    | root => rfl
    | slot τ i => rw [State.nodeAt, State.nodeAt, hkeys]
  rcases hπ : st.tree π with - | self
  · simp only [lookup, hπ] at hl
    cases hl
  obtain ⟨self', hself', hparent, hchildren⟩ : ∃ self', (st.mount σ m).tree π = some self' ∧
      self'.parent = self.parent ∧ self'.children = self.children := by
    by_cases hσ : π = σ
    · subst hσ
      exact ⟨_, State.modify_tree_self hπ, rfl, rfl⟩
    · exact ⟨self, (State.modify_tree_of_ne hσ).trans hπ, rfl, rfl⟩
  simp only [lookup, hπ] at hl
  simp only [lookup, hself', hparent, hchildren, hnodeAt]
  split_ifs at hl ⊢ with h1 h2 h3
  · rcases hp : self.parent with - | a
    · rw [hp] at hl
      cases hl
    · rw [hp] at hl
      rcases ha : st.nodeAt L a with - | parent
      · simp only [ha] at hl
        cases hl
      · simp only [ha] at hl ⊢
        cases hl
        rfl
  · cases hl
    rfl
  · cases hl
    rfl
  · -- an insertion would have changed the state
    rcases hv : self.lookupVNode D st name with e | vnode
    · rw [hv] at hl
      cases hl
    · rw [hv] at hl
      have hst : st.insert L π name vnode = st := congrArg Prod.snd hl
      have hchild : (st.insert L π name vnode).tree (name :: π) = some _ := State.insert_tree_child
      rw [hst] at hchild
      obtain ⟨q, hq, hmem⟩ := h.child hchild
      obtain rfl : q = self := Option.some.inj (hq.symm.trans hπ)
      exact absurd hmem h3

theorem Wf.steady_mount (h : Wf N st) (m : Mount Fs) (σ : Path) {parts : List Text}
    (hs : Steady D L st π parts ρ) : Steady D L (st.mount σ m) π parts ρ := by
  induction parts generalizing π with
  | nil => exact hs
  | cons part parts ih =>
    rw [Steady] at hs ⊢
    split_ifs at hs ⊢
    · exact ih hs
    · obtain ⟨new, hl, hs⟩ := hs
      exact ⟨new, h.lookup_mount m σ hl, ih hs⟩

theorem openLoop_append (st : State Obj Fs) (π : Path) (ps qs : List Text) :
    openLoop D L st π (ps ++ qs) =
      match openLoop D L st π ps with
      | (.ok new, st) => openLoop D L st new qs
      | (.error e, st) => (.error e, st) := by
  induction ps generalizing st π with
  | nil => rfl
  | cons part ps ih =>
    rw [List.cons_append, openLoop, openLoop]
    split_ifs
    · exact ih st π
    · rcases lookup D L st π part with ⟨e | new, st₁⟩
      · rfl
      · exact ih st₁ new

/-! ## Mounts -/

/-- Any calls but unmounts; a new box is not at the address of another. -/
def NoUnmount (st : State Obj Fs) : Op Fs → Prop
  | .lookup _ _ => True
  | .vfsOpen _ => True
  | .addVfs vfsp _ _ => st.vfsAt vfsp = none
  | .delVfs _ => False

theorem Reaches.live (h : Reaches D L p NoUnmount st) : Live (fun _ => True) st := by
  induction h with
  | init => exact Live.init
  | @step st op _ hop ih =>
    cases op with
    | lookup π name => exact ih.fills (fills_lookup st π trivial)
    | vfsOpen path => exact ih.fills (fills_vfsOpen st fun _ _ _ => trivial)
    | addVfs vfsp mp fs =>
      rw [Vfs.step]
      rcases hadd : addVfs D L st vfsp mp fs with ⟨r, st'⟩
      rcases addVfs_cases hadd (N := fun _ => True) fun _ _ _ => trivial with
        ⟨-, hf⟩ | ⟨-, -, -, rfl⟩ | ⟨-, -, -, st1, st2, π, π', -, -, hf, rfl⟩
      · exact ih.fills hf
      · exact Live.ofRoot vfsp fs
      · refine (ih.fills hf).mount ?_ π
        rw [fills_vfsAt hf]
        exact hop
    | delVfs mp => exact hop.elim

/-- The name below the mount point leads to the entry of the mounted file system, if there is one,
and nowhere else. -/
def MountVisible (D : Drivers Obj Fs) (L : Layout) (st : State Obj Fs) (vfsp : ℕ) (mp : Text)
    (fs : Fs) (name : Text) : Prop :=
  ((∃ ρ, (vfsOpen D L st (mp ++ '/' :: name)).1 = .ok ρ) ↔
    ∃ o, D.lookup (D.root fs) name = .ok o) ∧
  ∀ ρ, (vfsOpen D L st (mp ++ '/' :: name)).1 = .ok ρ → ∃ o node,
    D.lookup (D.root fs) name = .ok o ∧
    (vfsOpen D L st (mp ++ '/' :: name)).2.tree ρ = some node ∧ node.vnode = ⟨o, vfsp⟩

/-- The name is in the map of the node that `mp` leads to. -/
def CachedBelow (D : Drivers Obj Fs) (L : Layout) (st : State Obj Fs) (mp name : Text) : Prop :=
  ∃ π, (vfsOpen D L st mp).1 = .ok π ∧ name ∈ (vfsOpen D L st mp).2.keys π

/-- A name with which a component of a path can be looked up. -/
structure Component (name : Text) : Prop where
  ne_nil : name ≠ []
  no_slash : '/' ∉ name
  ne_dot : name ≠ dot
  ne_dotdot : name ≠ dotdot

theorem vfsOpen_below {mp : Text} (hname : Component name) (hvfss : st.vfss ≠ [])
    (hroot : st.tree [] ≠ none) (ho : openLoop D L st [] (split mp) = (.ok π, st)) :
    vfsOpen D L st (mp ++ '/' :: name) = lookup D L st π name := by
  rw [vfsOpen, if_neg (by tauto), split_append_slash, split_of_not_mem hname.no_slash,
    openLoop_append, ho]
  simp only [openLoop, if_neg hname.ne_nil]
  rcases lookup D L st π name with ⟨e | new, st₁⟩ <;> rfl

theorem vfsOpen_ok {path : Text} (h : vfsOpen D L st path = (.ok ρ, st')) :
    st.vfss ≠ [] ∧ st.tree [] ≠ none ∧ openLoop D L st [] (split path) = (.ok ρ, st') := by
  unfold vfsOpen at h
  split_ifs at h with hor
  · cases h
  · rw [not_or] at hor
    exact ⟨hor.1, hor.2, h⟩

/-- What a successful mount has done, when the parent pointers on the way were current: the walk to
the mount point changes nothing any more, and its node has the new file system. -/
theorem addVfs_ok (hwf : Wf N st) {vfsp : ℕ} {mp : Text} (hmp : mp ≠ slash) {fs : Fs}
    (hN : ∀ part ∈ split mp, part ≠ [] → N part)
    (hadd : addVfs D L st vfsp mp fs = (.ok (), st'))
    (hcur : CurrentAlong D L st [] (split mp))
    (hcur' : CurrentAlong D L (vfsOpen D L st mp).2 [] (split mp)) :
    ∃ st₁ π self, vfsOpen D L st mp = (.ok π, st₁) ∧ Fills D L N st st₁ ∧
      st' = st₁.mount π ⟨vfsp, mp, fs⟩ ∧ st₁.tree π = some self ∧ st'.vfss ≠ [] ∧
      st'.tree [] ≠ none ∧ Steady D L st' [] (split mp) π := by
  rcases addVfs_cases hadd hN with
    ⟨h, -⟩ | ⟨-, h, -⟩ | ⟨-, -, hvfss, st1, st2, π, π', h1, h2, -, rfl⟩
  · exact absurd rfl h
  · exact absurd h hmp
  have hf := fills_vfsOpen (D := D) (L := L) st hN
  rw [h1] at hf hcur'
  obtain ⟨-, hroot, ho1⟩ := vfsOpen_ok h1
  obtain ⟨-, hroot1, ho2⟩ := vfsOpen_ok h2
  obtain ⟨root, hrootn⟩ := Option.ne_none_iff_exists'.mp hroot
  have hwf1 := hwf.fills hf
  -- the second walk is as the first and finds everything cached
  have hs := hwf.openLoop_replay hwf1 _ hN hroot hrootn ho1 hcur (Later.refl _) hcur'
  obtain ⟨heq, rfl⟩ := Prod.ext_iff.mp (hs.openLoop.symm.trans ho2)
  obtain rfl := Except.ok.inj heq
  obtain ⟨self, hself⟩ := hwf.vfsOpen_node hN h1
  refine ⟨_, _, self, h1, hf, rfl, hself, fun h => ?_, ?_, hwf1.steady_mount _ _ hs⟩
  · exact List.append_ne_nil_of_right_ne_nil _ (List.cons_ne_nil _ _) h
  · obtain ⟨node, hnode⟩ := Option.ne_none_iff_exists'.mp hroot1
    by_cases hπ : ([] : Path) = π'
    · subst hπ
      rw [show (State.mount _ _ _).tree [] = _ from State.modify_tree_self hnode]
      exact nofun
    · rw [show (State.mount _ _ _).tree [] = _ from State.modify_tree_of_ne hπ, hnode]
      exact nofun

/-- After a mount, the names that were not cached below the mount point lead into the mounted file
system, and just these. -/
theorem mountVisible_iff (D : Drivers Obj Fs) (L : Layout) (p : Profile) (st : State Obj Fs)
    (hst : Reaches D L p NoUnmount st) (vfsp : ℕ) (hfresh : st.vfsAt vfsp = none) (mp : Text)
    (hmp : mp ≠ slash) (fs : Fs) (st' : State Obj Fs)
    (hadd : addVfs D L st vfsp mp fs = (.ok (), st'))
    (hcur : CurrentAlong D L st [] (split mp))
    (hcur' : CurrentAlong D L (vfsOpen D L st mp).2 [] (split mp)) (name : Text)
    (hname : Component name) :
    MountVisible D L st' vfsp mp fs name ↔ ¬ CachedBelow D L st mp name := by
  have hlive := hst.live
  obtain ⟨st₁, π, self, h1, hf, rfl, hself, hvfss, hroot, hs⟩ :=
    addVfs_ok hlive.toWf hmp (fun _ _ _ => trivial) hadd hcur hcur'
  have hlive1 := hlive.fills hf
  have hself' : (st₁.mount π ⟨vfsp, mp, fs⟩).tree π =
      some { self with vfsMountedHere := some vfsp } := State.modify_tree_self hself
  have hfresh1 : st₁.vfsAt vfsp = none := by rw [fills_vfsAt hf, hfresh]
  have hwf' := hlive1.toWf.mount π ⟨vfsp, mp, fs⟩
  have hbelow : CachedBelow D L st mp name ↔ name ∈ self.children := by
    unfold CachedBelow
    rw [h1]
    simp [State.keys, hself]
  rw [hbelow, MountVisible, vfsOpen_below hname hvfss hroot hs.openLoop]
  by_cases hmem : name ∈ self.children
  · -- the cached node is of another file system
    rw [hwf'.lookup_cached hself' hmem]
    refine iff_of_false (fun hv => ?_) (not_not_intro hmem)
    obtain ⟨o, node, -, hnode, hvnode⟩ := hv.2 _ rfl
    obtain ⟨old, hold, heq, -⟩ := State.mount_tree_cases hnode
    obtain ⟨m, hm⟩ := hlive1.parentVfs hold
    rw [← heq, hvnode, hfresh1] at hm
    cases hm
  · refine iff_of_true ?_ hmem
    have hat : (st₁.mount π ⟨vfsp, mp, fs⟩).vfsAt vfsp = some ⟨vfsp, mp, fs⟩ :=
      State.mount_vfsAt_self hfresh1
    simp only [lookup, hself', if_neg hname.ne_dotdot, if_neg hname.ne_dot, if_neg hmem,
      TreeNode.lookupVNode, hat, VNode.lookup]
    rcases hl : D.lookup (D.root fs) name with e | o
    · refine ⟨⟨?_, ?_⟩, fun ρ hρ => ?_⟩
      · rintro ⟨ρ, hρ⟩
        cases hρ
      · rintro ⟨o, ho⟩
        cases ho
      · cases hρ
    · refine ⟨⟨fun _ => ⟨o, rfl⟩, fun _ => ⟨_, rfl⟩⟩, ?_⟩
      rintro ρ ⟨⟩
      exact ⟨o, _, rfl, State.insert_tree_child, rfl⟩

/-- A root with `b`, and `x` in `b`; a second file system with another `x`, and `y`. -/
def mountDrivers : Drivers ℕ Bool where
  root fs := if fs then 10 else 0
  lookup dir name :=
    if dir = 0 ∧ name = ['b'] then .ok 2
    else if dir = 2 ∧ name = ['x'] then .ok 3
    else if dir = 10 ∧ name = ['x'] then .ok 11
    else if dir = 10 ∧ name = ['y'] then .ok 12
    else .error .err

/-- The root is mounted and `/b/x` is opened. -/
def mountState : State ℕ Bool :=
  (vfsOpen mountDrivers .leaf (addVfs mountDrivers .leaf .init 1 slash false).2
    ['/', 'b', '/', 'x']).2

theorem mountState_reaches : Reaches mountDrivers .leaf .dev NoUnmount mountState := by
  have h1 : Reaches mountDrivers .leaf .dev NoUnmount
      (addVfs mountDrivers .leaf .init 1 slash false).2 :=
    Reaches.init.next (.addVfs 1 slash false) rfl
  exact h1.next (.vfsOpen ['/', 'b', '/', 'x']) trivial

theorem mountVisible_iff_demo :
    MountVisible mountDrivers .leaf (addVfs mountDrivers .leaf mountState 2 ['/', 'b'] true).2 2
      ['/', 'b'] true ['y'] := by
  refine (mountVisible_iff mountDrivers .leaf .dev mountState mountState_reaches 2 rfl ['/', 'b']
    (by decide) true _ rfl ⟨nofun, trivial⟩ ⟨nofun, trivial⟩ ['y']
    ⟨by decide, by decide, by decide, by decide⟩).mpr ?_
  rintro ⟨π, ⟨⟩, hmem⟩
  exact absurd hmem (by decide)

/-- `/b/x` was opened before the second file system was mounted on `/b`, so it still leads to the
`x` of the covered directory. -/
theorem mount_shadowed : ∃ st st', Reaches mountDrivers .leaf .dev NoUnmount st ∧
    addVfs mountDrivers .leaf st 2 ['/', 'b'] true = (.ok (), st') ∧
    (vfsOpen mountDrivers .leaf st' ['/', 'b', '/', 'x']).1 = .ok [['x'], ['b']] ∧
    (st'.tree [['x'], ['b']]).map (·.vnode) = some ⟨3, 1⟩ ∧
    mountDrivers.lookup (mountDrivers.root true) ['x'] = .ok 11 ∧
    ¬ MountVisible mountDrivers .leaf st' 2 ['/', 'b'] true ['x'] := by
  refine ⟨mountState, _, mountState_reaches, rfl, rfl, rfl, rfl, fun h => ?_⟩
  obtain ⟨o, node, -, hnode, hv⟩ := h.2 [['x'], ['b']] rfl
  obtain rfl := Option.some.inj hnode
  cases hv

/-! ## Unmounts -/

/-- Any calls; a new box is not at the address of another. -/
def FreshBoxes (st : State Obj Fs) : Op Fs → Prop
  | .addVfs vfsp _ _ => st.vfsAt vfsp = none
  | _ => True

/-- What a path leads to. -/
def opened (D : Drivers Obj Fs) (L : Layout) (st : State Obj Fs) (path : Text) :
    Except Stop (VNode Obj) :=
  match vfsOpen D L st path with
  | (.error e, _) => .error e
  | (.ok ρ, st') =>
    match st'.tree ρ with
    | none => .error .dangling
    | some node => .ok node.vnode

/-- In `st'` every path leads where it leads in `st`, and all mounts are in the list. -/
structure Undone (D : Drivers Obj Fs) (L : Layout) (st st' : State Obj Fs) : Prop where
  same : ∀ path, opened D L st' path = opened D L st path
  mounted : ∀ π node a, st'.tree π = some node → node.vfsMountedHere = some a →
    ∃ m, st'.vfsAt a = some m

/-- The state after some paths are opened. -/
def openAll (D : Drivers Obj Fs) (L : Layout) (st : State Obj Fs) (paths : List Text) :
    State Obj Fs := paths.foldl (fun st path => (vfsOpen D L st path).2) st

theorem fills_openAll (paths : List Text) (st : State Obj Fs) :
    Fills D L (fun _ => True) st (openAll D L st paths) := by
  induction paths generalizing st with
  | nil => exact .refl
  | cons path paths ih => exact (fills_vfsOpen st fun _ _ _ => trivial).trans (ih _)

theorem fills_vfss (hf : Fills D L N st st') : st'.vfss = st.vfss := by
  induction hf with
  | refl => rfl
  | tail _ hc ih =>
    obtain ⟨-⟩ := hc
    exact ih

theorem delVfs_ok {mp : Text} (hmp : mp ≠ slash) (h : delVfs p st mp = (.ok (), st')) :
    st' = { st with vfss := dropVfs mp st.vfss } := by
  unfold delVfs at h
  split_ifs at h with h1
  · cases h
  · rcases hb : mountPointBusy p mp st.vfss with e | (- | -)
    · rw [hb] at h
      cases h
    · rw [hb] at h
      cases h
      rfl
    · rw [hb] at h
      cases h

theorem dropVfs_append_self {vfss : List (Mount Fs)} {m : Mount Fs}
    (h : ∀ m' ∈ vfss, m'.mountPoint ≠ m.mountPoint) :
    dropVfs m.mountPoint (vfss ++ [m]) = vfss := by
  unfold dropVfs
  rw [List.eraseP_append_right _ fun m' hm' => by simpa using h m' hm']
  simp

/-- An unmount never undoes a mount: the node of the mount point keeps its pointer. -/
theorem unmount_not_undone (D : Drivers Obj Fs) (L : Layout) (p : Profile) (st : State Obj Fs)
    (hst : Reaches D L p FreshBoxes st) (vfsp : ℕ) (hfresh : st.vfsAt vfsp = none) (mp : Text)
    (hmp : mp ≠ slash) (hfree : ∀ m ∈ st.vfss, m.mountPoint ≠ mp) (fs : Fs) (st₁ : State Obj Fs)
    (hadd : addVfs D L st vfsp mp fs = (.ok (), st₁)) (paths : List Text) (st₂ : State Obj Fs)
    (hdel : delVfs p (openAll D L st₁ paths) mp = (.ok (), st₂)) : ¬ Undone D L st st₂ := by
  intro h
  have hwf : Wf (fun _ => True) st := hst.wf fun _ op _ => op.named_of_forall fun _ => trivial
  rcases addVfs_cases hadd (N := fun _ => True) fun _ _ _ => trivial with
    ⟨h, -⟩ | ⟨-, h, -⟩ | ⟨-, -, -, st1, st2, π, π', h1, h2, hf, rfl⟩
  · exact absurd rfl h
  · exact absurd h hmp
  -- the node of the mount point, right behind the mount and at the end
  have hwf1 : Wf (fun _ => True) st1 := by
    have := fills_vfsOpen (D := D) (L := L) (N := fun _ => True)
        st fun part (_ : part ∈ split mp) _ =>
      trivial
    rw [h1] at this
    exact hwf.fills this
  obtain ⟨self, hself⟩ := hwf1.vfsOpen_node (fun _ _ _ => trivial) h2
  have hopen := fills_openAll (D := D) (L := L) paths (st2.mount π ⟨vfsp, mp, fs⟩)
  obtain ⟨node, hnode, -, hmounted, -⟩ := fills_keeps hopen ((hwf.fills hf).mount π _)
    (show (st2.mount π ⟨vfsp, mp, fs⟩).tree π = some { self with vfsMountedHere := some vfsp } from
      State.modify_tree_self hself)
  have hst₂ := delVfs_ok hmp hdel
  have hvfss : st₂.vfss = st.vfss := by
    rw [hst₂, fills_vfss hopen]
    show dropVfs mp (st2.vfss ++ [⟨vfsp, mp, fs⟩]) = st.vfss
    rw [fills_vfss hf]
    exact dropVfs_append_self (m := ⟨vfsp, mp, fs⟩) hfree
  obtain ⟨m, hm⟩ := h.mounted π node vfsp (by rw [hst₂]; exact hnode) hmounted
  rw [State.vfsAt, hvfss] at hm
  cases hfresh.symm.trans hm

/-- The root of `mountDrivers`, with nothing looked up yet. -/
def rootState : State ℕ Bool := (addVfs mountDrivers .leaf .init 1 slash false).2

theorem rootState_reaches : Reaches mountDrivers .leaf .dev FreshBoxes rootState :=
  Reaches.init.next (.addVfs 1 slash false) rfl

theorem unmount_not_undone_demo :
    ¬ Undone mountDrivers .leaf rootState
      (delVfs .dev (openAll mountDrivers .leaf
        (addVfs mountDrivers .leaf rootState 2 ['/', 'b'] true).2 [['/', 'b', '/', 'x']])
        ['/', 'b']).2 :=
  unmount_not_undone mountDrivers .leaf .dev rootState rootState_reaches 2 rfl ['/', 'b']
    (by decide) (by decide) true _ rfl [['/', 'b', '/', 'x']] _ rfl

/-- After the unmount `/b/x` still leads to the `x` of the file system that is gone, and the node of
`/b` to nothing. -/
theorem unmount_leaves_pointer : ∃ st₁ st₂ st₃,
    addVfs mountDrivers .leaf rootState 2 ['/', 'b'] true = (.ok (), st₁) ∧
    vfsOpen mountDrivers .leaf st₁ ['/', 'b', '/', 'x'] = (.ok [['x'], ['b']], st₂) ∧
    delVfs .dev st₂ ['/', 'b'] = (.ok (), st₃) ∧
    opened mountDrivers .leaf rootState ['/', 'b', '/', 'x'] = .ok ⟨3, 1⟩ ∧
    opened mountDrivers .leaf st₃ ['/', 'b', '/', 'x'] = .ok ⟨11, 2⟩ ∧
    opened mountDrivers .leaf st₃ ['/', 'b', '/', 'y'] = .error .dangling ∧
    ¬ Undone mountDrivers .leaf rootState st₃ := by
  refine ⟨_, _, _, rfl, rfl, rfl, rfl, rfl, rfl, fun h => ?_⟩
  cases (h.same ['/', 'b', '/', 'x']).symm.trans rfl

end CappuccinOS.Vfs
