import CappuccinOS.Fat.Lookup
import CappuccinOS.Vfs.Volumes

/-!
# Paths that go on below a regular file

`vfs_open` looks every component up in the node it has come to, whatever this node is, and on a
regular file both drivers panic. SquashFS's `find_entry_in_directory` would return `Err` for an
inode that is no directory, but `Inode::lookup` does not call it then.

1. `Bare`: nothing is cached below a regular file on which no file system is mounted. Every call
   keeps this, since a lookup that fails caches nothing.
2. `openLoop_append` and `vfsOpen_eq`: a path is walked by its components, and a longer path from
   where a shorter one leads.
3. `vfsOpen_through_file`: a path with a name below a regular file is never `Err`. As long as the
   file's file system is mounted, it is a panic.
-/

namespace CappuccinOS.Vfs.Volumes

section Invariant

variable {Obj Fs : Type} {ops : Ops Obj Fs} {L : Layout} {p : Profile} {Regular : Obj → Prop}
  {st st' : State Obj Fs} {self : TreeNode Obj} {name : Text}

/-! ## The mount list -/

/-- The addresses of the mounted file systems. -/
def boxes (st : State Obj Fs) : List ℕ := st.vfss.map (·.addr)

theorem exists_of_mem_boxes {a : ℕ} (h : a ∈ boxes st) : ∃ m, st.vfsAt a = some m := by
  obtain ⟨m, hm, ha⟩ := List.mem_map.mp h
  exact Option.isSome_iff_exists.mp (List.find?_isSome.mpr ⟨m, hm, decide_eq_true ha⟩)

theorem boxes_setFs (a : ℕ) (fs : Fs) : boxes (setFs st a fs) = boxes st := by
  unfold boxes setFs
  induction st.vfss with
  | nil => rfl
  | cons v vfss ih =>
    simp only [List.replaceF] at ih ⊢
    by_cases hv : v.addr = a
    · simp [hv]
    · simp [hv, ih]

theorem lookupBelow_frame (ops : Ops Obj Fs) (st : State Obj Fs) (vnode : VNode Obj) (name : Text) :
    (lookupBelow ops st vnode name).2.tree = st.tree ∧
      boxes (lookupBelow ops st vnode name).2 = boxes st := by
  unfold lookupBelow
  rcases st.vfsAt vnode.parentVfs with - | m
  · exact ⟨rfl, rfl⟩
  · exact ⟨rfl, boxes_setFs _ _⟩

theorem lookupVNode_frame (ops : Ops Obj Fs) (st : State Obj Fs) (self : TreeNode Obj)
    (name : Text) :
    (lookupVNode ops st self name).2.tree = st.tree ∧
      boxes (lookupVNode ops st self name).2 = boxes st := by
  unfold lookupVNode
  rcases self.vfsMountedHere with - | vfsp
  · exact lookupBelow_frame ops st self.vnode name
  simp only
  rcases st.vfsAt vfsp with - | m
  · exact ⟨rfl, rfl⟩
  simp only
  rcases ops.root m.fs with e | ⟨root, fs⟩
  · exact ⟨rfl, rfl⟩
  · obtain ⟨htree, hboxes⟩ := lookupBelow_frame ops (setFs st vfsp fs) ⟨root, vfsp⟩ name
    exact ⟨htree, hboxes.trans (boxes_setFs _ _)⟩

/-! ## What a lookup does to the tree -/

/-- A lookup leaves the tree as it is, or inserts what was looked up behind the cache. -/
theorem lookup_cases (ops : Ops Obj Fs) (L : Layout) (st : State Obj Fs) (π : Path) (name : Text) :
    boxes (lookup ops L st π name).2 = boxes st ∧
    ((lookup ops L st π name).2.tree = st.tree ∨
      ∃ (self : TreeNode Obj) (vnode : VNode Obj) (st' : State Obj Fs),
        st.tree π = some self ∧ st'.tree = st.tree ∧
        (lookupVNode ops st self name).1 = .ok vnode ∧
        (lookup ops L st π name).2 = st'.insert L π name vnode) := by
  unfold lookup
  rcases hself : st.tree π with - | self
  · exact ⟨rfl, .inl rfl⟩
  simp only
  split_ifs with h1 h2 h3
  · rcases self.parent with - | a
    · exact ⟨rfl, .inl rfl⟩
    · simp only
      rcases st.nodeAt L a with - | parent <;> exact ⟨rfl, .inl rfl⟩
  · exact ⟨rfl, .inl rfl⟩
  · exact ⟨rfl, .inl rfl⟩
  · obtain ⟨htree, hboxes⟩ := lookupVNode_frame ops st self name
    rcases hv : lookupVNode ops st self name with ⟨e | vnode, st'⟩
    · rw [hv] at htree hboxes
      exact ⟨hboxes, .inl htree⟩
    · rw [hv] at htree hboxes
      exact ⟨hboxes, .inr ⟨self, vnode, st', rfl, htree, by rw [hv], rfl⟩⟩

/-! ## Nothing is cached below a regular file -/

/-- Nothing is cached below a regular file, unless a file system was mounted on it. -/
def Bare (Regular : Obj → Prop) (st : State Obj Fs) : Prop :=
  ∀ π node, st.tree π = some node → Regular node.vnode.inode → node.vfsMountedHere = none →
    node.children = []

theorem Bare.congr (h : Bare Regular st) (htree : st'.tree = st.tree) : Bare Regular st' := by
  unfold Bare
  rw [htree]
  exact h

/-- The stop that a lookup on a regular file comes to. -/
def fileStop (st : State Obj Fs) (vnode : VNode Obj) : Stop :=
  match st.vfsAt vnode.parentVfs with
  | none => .dangling
  | some _ => .panic

theorem fileStop_ne_err (st : State Obj Fs) (vnode : VNode Obj) : fileStop st vnode ≠ .err := by
  unfold fileStop
  rcases st.vfsAt vnode.parentVfs with - | m <;> exact nofun

theorem fileStop_mounted {vnode : VNode Obj} (h : vnode.parentVfs ∈ boxes st) :
    fileStop st vnode = .panic := by
  obtain ⟨m, hm⟩ := exists_of_mem_boxes h
  rw [fileStop, hm]

theorem lookupVNode_file
    (hops : ∀ fs o name, Regular o → (ops.lookup fs o name).1 = .error .panic)
    (hfile : Regular self.vnode.inode) (hmount : self.vfsMountedHere = none) :
    (lookupVNode ops st self name).1 = .error (fileStop st self.vnode) := by
  unfold lookupVNode fileStop
  rw [hmount]
  simp only [lookupBelow]
  rcases st.vfsAt self.vnode.parentVfs with - | m
  · rfl
  · simp only [hops m.fs self.vnode.inode name hfile]
    rfl

section Step

variable (hops : ∀ fs o name, Regular o → (ops.lookup fs o name).1 = .error .panic)
include hops

theorem Bare.lookup (h : Bare Regular st) (π : Path) (name : Text) :
    Bare Regular (Volumes.lookup ops L st π name).2 := by
  rcases (lookup_cases ops L st π name).2 with
    htree | ⟨self, vnode, st', hself, htree, hlookup, heq⟩
  · exact h.congr htree
  rw [heq]
  intro ρ node hnode hfile hmount
  rw [← htree] at hself
  rcases State.insert_tree_cases hself hnode with
    ⟨-, rfl⟩ | ⟨-, old, hold, hvnode, hmounted, -, hin, hout⟩
  · rfl
  rw [hvnode] at hfile
  rw [hmounted] at hmount
  by_cases hρ : ρ = π
  · -- the lookup that was inserted was not in a regular file
    subst hρ
    obtain rfl := Option.some.inj (hself.symm.trans hold)
    rw [lookupVNode_file hops hfile hmount] at hlookup
    cases hlookup
  · rw [hout hρ]
    rw [htree] at hold
    exact h ρ old hold hfile hmount

theorem Bare.openLoop (h : Bare Regular st) (cur : Path) (parts : List Text) :
    Bare Regular (Volumes.openLoop ops L st cur parts).2 := by
  induction parts generalizing st cur with
  | nil => exact h
  | cons part parts ih =>
    rw [Volumes.openLoop]
    split_ifs
    · exact ih h cur
    · have hl := h.lookup (L := L) hops cur part
      rcases hr : Volumes.lookup ops L st cur part with ⟨e | new, st'⟩
      · rw [hr] at hl
        exact hl
      · rw [hr] at hl
        exact ih hl new

theorem Bare.vfsOpen (h : Bare Regular st) (path : Text) :
    Bare Regular (Volumes.vfsOpen ops L st path).2 := by
  unfold Volumes.vfsOpen
  split_ifs
  · exact h
  · exact h.openLoop hops [] _

omit hops in
theorem Bare.pushVfs (h : Bare Regular st) (vfsp : ℕ) (mp : Text) (fs : Fs) :
    Bare Regular (Volumes.pushVfs ops st vfsp mp fs).2 := by
  unfold Volumes.pushVfs
  rcases ops.mount fs with e | fs
  · exact h
  · exact h.congr rfl

omit hops in
theorem Bare.mountHere (h : Bare Regular st) (π : Path) (vfsp : ℕ) :
    Bare Regular (st.modify π fun node => { node with vfsMountedHere := some vfsp }) := by
  intro ρ node hnode hfile hmount
  by_cases hρ : ρ = π
  · subst hρ
    simp only [State.modify, Function.update_self] at hnode
    obtain ⟨old, -, rfl⟩ := Option.map_eq_some_iff.mp hnode
    cases hmount
  · rw [State.modify_tree_of_ne hρ] at hnode
    exact h ρ node hnode hfile hmount

theorem Bare.addVfs (h : Bare Regular st) (vfsp : ℕ) (mp : Text) (fs : Fs) :
    Bare Regular (Volumes.addVfs ops L st vfsp mp fs).2 := by
  unfold Volumes.addVfs
  split_ifs
  · exact h
  · rcases ops.root fs with e | ⟨root, fs⟩
    · exact h
    · refine Bare.pushVfs (fun ρ node hnode _ _ => ?_) vfsp mp fs
      by_cases hρ : ρ = []
      · subst hρ
        simp only [Function.update_self, Option.some.injEq] at hnode
        rw [← hnode]
      · simp [hρ] at hnode
  · exact h
  have h1 := h.vfsOpen (L := L) hops mp
  rcases ho1 : Volumes.vfsOpen ops L st mp with ⟨e | π', st1⟩
  · rw [ho1] at h1
    exact h1
  rw [ho1] at h1
  have h2 := h1.vfsOpen (L := L) hops mp
  rcases ho2 : Volumes.vfsOpen ops L st1 mp with ⟨e | π, st2⟩
  · rw [ho2] at h2
    simp only [ho2]
    exact h2
  · rw [ho2] at h2
    simp only [ho2]
    exact (h2.mountHere π vfsp).pushVfs vfsp mp fs

theorem Bare.step (h : Bare Regular st) (op : Op Fs) :
    Bare Regular (Volumes.step ops L p st op) := by
  cases op with
  | lookup π name => exact h.lookup hops π name
  | vfsOpen path => exact h.vfsOpen hops path
  | addVfs vfsp mp fs => exact h.addVfs hops vfsp mp fs
  | delVfs mp => exact h.congr delVfs_tree

theorem Reaches.bare (h : Reaches ops L p st) : Bare Regular st := by
  induction h with
  | init => exact fun _ _ hnode => by cases hnode
  | step _ op ih => exact ih.step hops op

end Step

/-! ## Walks -/

/-- The components of a path that are looked up. -/
def components (path : Text) : List Text := (split path).filter (· ≠ [])

theorem ne_nil_of_mem_components {path part : Text} (h : part ∈ components path) : part ≠ [] := by
  simpa using (List.mem_filter.mp h).2

theorem openLoop_filter (st : State Obj Fs) (π : Path) (parts : List Text) :
    openLoop ops L st π (parts.filter (· ≠ [])) = openLoop ops L st π parts := by
  induction parts generalizing st π with
  | nil => rfl
  | cons part parts ih =>
    by_cases hempty : part = []
    · rw [List.filter_cons_of_neg (by simpa using hempty), openLoop, if_pos hempty, ih]
    · rw [List.filter_cons_of_pos (by simpa using hempty), openLoop, openLoop, if_neg hempty,
        if_neg hempty]
      rcases lookup ops L st π part with ⟨e | new, st'⟩
      · rfl
      · exact ih st' new

theorem openLoop_append (st : State Obj Fs) (π : Path) (ps qs : List Text) :
    openLoop ops L st π (ps ++ qs) =
      match openLoop ops L st π ps with
      | (.ok new, st) => openLoop ops L st new qs
      | (.error e, st) => (.error e, st) := by
  induction ps generalizing st π with
  | nil => rfl
  | cons part ps ih =>
    rw [List.cons_append, openLoop, openLoop]
    split_ifs
    · exact ih st π
    · rcases lookup ops L st π part with ⟨e | new, st'⟩
      · rfl
      · exact ih st' new

theorem openLoop_boxes (ops : Ops Obj Fs) (L : Layout) (st : State Obj Fs) (π : Path)
    (parts : List Text) :
    boxes (openLoop ops L st π parts).2 = boxes st := by
  induction parts generalizing st π with
  | nil => rfl
  | cons part parts ih =>
    rw [openLoop]
    split_ifs
    · exact ih st π
    · have hl := (lookup_cases ops L st π part).1
      rcases hr : lookup ops L st π part with ⟨e | new, st'⟩
      · rw [hr] at hl
        exact hl
      · rw [hr] at hl
        exact (ih st' new).trans hl

theorem vfsOpen_eq {path pre : Text} {rest : List Text}
    (hpath : components path = components pre ++ rest) {ρ : Path}
    (hopen : vfsOpen ops L st pre = (.ok ρ, st')) :
    vfsOpen ops L st path = openLoop ops L st' ρ rest ∧ boxes st' = boxes st := by
  unfold vfsOpen at hopen ⊢
  split_ifs at hopen ⊢ with hnone
  · cases hopen
  have hboxes := openLoop_boxes ops L st [] (split pre)
  rw [hopen] at hboxes
  rw [← openLoop_filter] at hopen ⊢
  rw [show (split path).filter (· ≠ []) = _ from hpath, openLoop_append,
    show openLoop ops L st [] (components pre) = _ from hopen]
  exact ⟨rfl, hboxes⟩

/-- The node that a path leads to. -/
def opened (ops : Ops Obj Fs) (L : Layout) (st : State Obj Fs) (path : Text) :
    Option (TreeNode Obj) :=
  match vfsOpen ops L st path with
  | (.ok ρ, st') => st'.tree ρ
  | (.error _, _) => none

theorem opened_eq_some {path : Text} (h : opened ops L st path = some self) :
    ∃ ρ st', vfsOpen ops L st path = (.ok ρ, st') ∧ st'.tree ρ = some self := by
  unfold opened at h
  rcases ho : vfsOpen ops L st path with ⟨e | ρ, st'⟩
  · rw [ho] at h
    cases h
  · rw [ho] at h
    exact ⟨ρ, st', rfl, h⟩

theorem lookup_file (hops : ∀ fs o name, Regular o → (ops.lookup fs o name).1 = .error .panic)
    (hbare : Bare Regular st) {π : Path} (hself : st.tree π = some self)
    (hfile : Regular self.vnode.inode) (hmount : self.vfsMountedHere = none)
    (hdot : name ≠ dot) (hdotdot : name ≠ dotdot) :
    (lookup ops L st π name).1 = .error (fileStop st self.vnode) := by
  have hnone : ¬ self.children.contains name := by
    rw [hbare π self hself hfile hmount]
    exact nofun
  have hlookup : (lookupVNode ops st self name).1 = _ := lookupVNode_file hops hfile hmount
  unfold lookup
  simp only [hself, if_neg hdotdot, if_neg hdot, if_neg hnone]
  rcases hv : lookupVNode ops st self name with ⟨e | vnode, st'⟩
  · rw [hv] at hlookup
    cases hlookup
    rfl
  · rw [hv] at hlookup
    cases hlookup

/-- A path that goes on below a regular file comes to the stop of a lookup on it. -/
theorem vfsOpen_below (hops : ∀ fs o name, Regular o → (ops.lookup fs o name).1 = .error .panic)
    (hst : Reaches ops L p st) {path pre next : Text} {rest : List Text}
    (hpath : components path = components pre ++ next :: rest) (hdot : next ≠ dot)
    (hdotdot : next ≠ dotdot) (hopened : opened ops L st pre = some self)
    (hfile : Regular self.vnode.inode) (hmount : self.vfsMountedHere = none) :
    ∃ st' : State Obj Fs, boxes st' = boxes st ∧
      (vfsOpen ops L st path).1 = .error (fileStop st' self.vnode) := by
  obtain ⟨ρ, st', hopen, hself⟩ := opened_eq_some hopened
  have hbare : Bare Regular st' := by
    have hbare := (Reaches.bare hops hst).vfsOpen (L := L) hops pre
    rwa [hopen] at hbare
  obtain ⟨heq, hboxes⟩ := vfsOpen_eq hpath hopen
  have hmem : next ∈ components path := by simp [hpath]
  have hnext := ne_nil_of_mem_components hmem
  have hlookup := lookup_file (L := L) hops hbare hself hfile hmount hdot hdotdot
  refine ⟨st', hboxes, ?_⟩
  rw [heq, openLoop, if_neg hnext]
  rcases hl : lookup ops L st' ρ next with ⟨e | new, st''⟩
  · rw [hl] at hlookup
    exact hlookup
  · rw [hl] at hlookup
    cases hlookup

end Invariant

/-! ## SquashFS and FAT -/

section Files

variable {p : Profile} {features : Fat.KernelFeatures} {Z : Squashfs.Decompressor} {fuel : ℕ}
  {t : CaseTable} {L : Layout} {st : State Object Volume}

theorem lookup_regular (fs : Volume) (o : Object) (name : Text) (h : o.Regular) :
    ((volumeOps p features Z fuel t).lookup fs o name).1 = .error .panic := by
  match o, h with
  | .inode (.basicFile file), _ => cases fs <;> rfl
  | .file (.archive entry), _ => cases fs <;> rfl

/-- The path resolves to a regular file: its node holds one, and no file system is mounted on it, in
whose root the names below it would be looked up. -/
structure ResolvesToFile (ops : Ops Object Volume) (L : Layout) (st : State Object Volume)
    (path : Text) (file : TreeNode Object) : Prop where
  opened : opened ops L st path = some file
  regular : file.vnode.inode.Regular
  uncovered : file.vfsMountedHere = none

/-- When some of the components of a path, but not all, resolve to a regular file, and the next one
is neither `.` nor `..`, then `vfs_open` never returns `Err`. It panics, as long as the file system
of the file is mounted. -/
theorem vfsOpen_through_file (hst : Reaches (volumeOps p features Z fuel t) L p st)
    (path pre next : Text) (rest : List Text)
    (hpath : components path = components pre ++ next :: rest) (hdot : next ≠ dot)
    (hdotdot : next ≠ dotdot) {file : TreeNode Object}
    (hfile : ResolvesToFile (volumeOps p features Z fuel t) L st pre file) :
    (vfsOpen (volumeOps p features Z fuel t) L st path).1 ≠ .error .err ∧
      (file.vnode.parentVfs ∈ boxes st →
        (vfsOpen (volumeOps p features Z fuel t) L st path).1 = .error .panic) := by
  obtain ⟨st', hboxes, hstop⟩ :=
    vfsOpen_below lookup_regular hst hpath hdot hdotdot hfile.opened hfile.regular hfile.uncovered
  rw [hstop]
  constructor
  · intro h
    exact fileStop_ne_err st' file.vnode (Except.error.inj h)
  · intro h
    rw [← hboxes] at h
    rw [fileStop_mounted h]

end Files

/-! ## Two volumes with a file each -/

/-- The inode of an empty file, then that of a directory with one entry. -/
def imageInodes : Squashfs.MetaBlock fun _ => .error .err :=
  Squashfs.storedBlock _ ([2, 0] ++ List.replicate 30 0 ++
    ([1, 0] ++ List.replicate 22 0 ++ [24] ++ List.replicate 7 0)) (by decide) (by decide)

/-- A SquashFS image with the file `a`. -/
def imageVolume : Volume :=
  .squashfs 32 ⟨Squashfs.fresh [imageInodes], Squashfs.fresh [Squashfs.oneDirectoryBlock]⟩

/-- A FAT volume with the file `A`. -/
def fatVolume : Volume := .fat (Fat.oneCluster [Fat.plainFile 0x41 (by decide)])

def demoOps : Ops Object Volume := volumeOps .dev ⟨false⟩ (fun _ => .error .err) 4 .ascii

/-- The image is mounted. -/
def imageState : State Object Volume := (addVfs demoOps .leaf .init 1 slash imageVolume).2

/-- Then the FAT volume is mounted on `/a`. -/
def fatState : State Object Volume := (addVfs demoOps .leaf imageState 2 ['/', 'a'] fatVolume).2

theorem imageState_reaches : Reaches demoOps .leaf .dev imageState :=
  Reaches.init.step (.addVfs 1 slash imageVolume)

theorem fatState_reaches : Reaches demoOps .leaf .dev fatState :=
  imageState_reaches.step (.addVfs 2 ['/', 'a'] fatVolume)

/-- The node of `/a` in the image. -/
def imageFile : TreeNode Object :=
  ⟨⟨.inode (.basicFile ⟨⟨.basicFile, 0, 0⟩, 0, 0, 0, 0⟩), 1⟩, none, some .root, []⟩

/-- The node of `/a/A` in the FAT volume. -/
def fatFile : TreeNode Object :=
  ⟨⟨.file (.archive ⟨0, 0, 0⟩), 2⟩, none, some (.slot [] 0), []⟩

theorem imageFile_resolves : ResolvesToFile demoOps .leaf imageState ['/', 'a'] imageFile :=
  ⟨by decide +kernel, trivial, rfl⟩

theorem fatFile_resolves : ResolvesToFile demoOps .leaf fatState ['/', 'a', '/', 'A'] fatFile :=
  ⟨by decide +kernel, trivial, rfl⟩

theorem vfsOpen_through_fatFile :
    (vfsOpen demoOps .leaf fatState ['/', 'a', '/', 'A', '/', 'x']).1 ≠ .error .err ∧
      (2 ∈ boxes fatState →
        (vfsOpen demoOps .leaf fatState ['/', 'a', '/', 'A', '/', 'x']).1 = .error .panic) :=
  vfsOpen_through_file fatState_reaches ['/', 'a', '/', 'A', '/', 'x'] ['/', 'a', '/', 'A'] ['x'] []
    (by decide) (by decide) (by decide) fatFile_resolves

/-- `/a/x` in the image and `/a/A/x` in the FAT volume. -/
theorem below_file_panics :
    (Reaches demoOps .leaf .dev imageState ∧
      ResolvesToFile demoOps .leaf imageState ['/', 'a'] imageFile ∧
      (vfsOpen demoOps .leaf imageState ['/', 'a', '/', 'x']).1 = .error .panic) ∧
    Reaches demoOps .leaf .dev fatState ∧
      ResolvesToFile demoOps .leaf fatState ['/', 'a', '/', 'A'] fatFile ∧
      (vfsOpen demoOps .leaf fatState ['/', 'a', '/', 'A', '/', 'x']).1 = .error .panic := by
  refine ⟨⟨imageState_reaches, imageFile_resolves, ?_⟩, fatState_reaches, fatFile_resolves, ?_⟩
  · decide +kernel
  · decide +kernel

end CappuccinOS.Vfs.Volumes
