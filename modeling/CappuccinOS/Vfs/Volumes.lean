import CappuccinOS.Fat.Directory
import CappuccinOS.Fat.Root
import CappuccinOS.Squashfs.Directory
import CappuccinOS.Vfs.Runs

/-!
# The node tree over SquashFS and FAT volumes

A driver reaches its volume through the mount of its object, and a call may change it: SquashFS
keeps the metadata blocks that it has decompressed. `Ops` are the calls that the VFS makes of a
driver, with the volume before and after them, and the calls of `drivers/fs/vfs.rs` are here those
of the node tree with the volumes in the mount list kept up to date.

1. `vfsOpen` and `addVfs` with volumes that change, and `Reaches`, the states of all runs;
2. `step_ofDrivers`: when the drivers leave the volumes as they are, these are the calls on the node
   tree alone;
3. `volumeOps`: the drivers of SquashFS (`drivers/fs/initramfs/mod.rs`) and FAT
   (`drivers/fs/fat.rs`).
-/

namespace CappuccinOS.Vfs.Volumes

/-- `FsOps::root`, `FsOps::mount` and `VNodeOperations::lookup`, each with the volume after it. -/
structure Ops (Obj Fs : Type) where
  root : Fs → Except Stop (Obj × Fs)
  mount : Fs → Except Stop Fs
  lookup : Fs → Obj → Text → Except Stop Obj × Fs

variable {Obj Fs : Type}

/-- The volume of the mount at `a` is `fs` from now on. -/
def setFs (st : State Obj Fs) (a : ℕ) (fs : Fs) : State Obj Fs :=
  { st with vfss := st.vfss.replaceF fun v =>
      if v.addr = a then some { v with fs := fs } else none }

/-! ## Calls -/

section Calls

variable (ops : Ops Obj Fs) (L : Layout)

/-- `VNode::lookup`. -/
def lookupBelow (st : State Obj Fs) (vnode : VNode Obj) (name : Text) :
    Except Stop (VNode Obj) × State Obj Fs :=
  match st.vfsAt vnode.parentVfs with
  | none => (.error .dangling, st)
  | some vfs =>
    let (inode, fs) := ops.lookup vfs.fs vnode.inode name
    (inode.map (⟨·, vnode.parentVfs⟩), setFs st vnode.parentVfs fs)

/-- The lookup behind the cache. -/
def lookupVNode (st : State Obj Fs) (self : TreeNode Obj) (name : Text) :
    Except Stop (VNode Obj) × State Obj Fs :=
  match self.vfsMountedHere with
  | some vfsp =>
    match st.vfsAt vfsp with
    | none => (.error .dangling, st)
    | some vfs =>
      match ops.root vfs.fs with
      | .error e => (.error e, st)
      | .ok (root, fs) => lookupBelow ops (setFs st vfsp fs) ⟨root, vfsp⟩ name
  | none => lookupBelow ops st self.vnode name

/-- `TreeNode::lookup` on the node at `π`. -/
def lookup (st : State Obj Fs) (π : Path) (name : Text) : Except Stop Path × State Obj Fs :=
  match st.tree π with
  | none => (.error .dangling, st)
  | some self =>
    if name = dotdot then
      match self.parent with
      | none => (.error .err, st)
      | some a =>
        match st.nodeAt L a with
        | none => (.error .dangling, st)
        | some parent => (.ok parent, st)
    else if name = dot then (.ok π, st)
    else if self.children.contains name then (.ok (name :: π), st)
    else
      match lookupVNode ops st self name with
      | (.error e, st) => (.error e, st)
      | (.ok vnode, st) => (.ok (name :: π), st.insert L π name vnode)

/-- The loop of `vfs_open`. -/
def openLoop (st : State Obj Fs) (cur : Path) : List Text → Except Stop Path × State Obj Fs
  | [] => (.ok cur, st)
  | part :: parts =>
    if part = [] then openLoop st cur parts
    else match lookup ops L st cur part with
      | (.ok new, st) => openLoop st new parts
      | (.error e, st) => (.error e, st)

def vfsOpen (st : State Obj Fs) (path : Text) : Except Stop Path × State Obj Fs :=
  if st.vfss = [] ∨ st.tree [] = none then (.error .err, st)
  else openLoop ops L st [] (split path)

/-- The end of `add_vfs`. -/
def pushVfs (st : State Obj Fs) (vfsp : ℕ) (mountPoint : Text) (fs : Fs) :
    Except Stop Unit × State Obj Fs :=
  match ops.mount fs with
  | .error e => (.error e, st)
  | .ok fs => (.ok (), { st with vfss := st.vfss ++ [⟨vfsp, mountPoint, fs⟩] })

/-- `add_vfs`; the new box is at `vfsp`. -/
def addVfs (st : State Obj Fs) (vfsp : ℕ) (mountPoint : Text) (fs : Fs) :
    Except Stop Unit × State Obj Fs :=
  if mountPoint = slash then
    if st.vfss ≠ [] then (.error .err, st)
    else match ops.root fs with
      | .error e => (.error e, st)
      | .ok (root, fs) =>
        let nodeTree : TreeNode Obj := ⟨⟨root, vfsp⟩, none, none, []⟩
        pushVfs ops ⟨st.vfss, Function.update (fun _ => none) [] (some nodeTree)⟩ vfsp mountPoint fs
  else if st.vfss = [] then (.error .err, st)
  else match vfsOpen ops L st mountPoint with
    | (.error e, st) => (.error e, st)
    | (.ok _, st) =>
      match vfsOpen ops L st mountPoint with
      | (.error e, st) => (.error e, st)
      | (.ok file, st) =>
        let st := st.modify file fun node => { node with vfsMountedHere := some vfsp }
        pushVfs ops st vfsp mountPoint fs

/-- The state after a call. -/
def step (p : Profile) (st : State Obj Fs) : Op Fs → State Obj Fs
  | .lookup π name => (lookup ops L st π name).2
  | .vfsOpen path => (vfsOpen ops L st path).2
  | .addVfs vfsp mp fs => (addVfs ops L st vfsp mp fs).2
  | .delVfs mp => (delVfs p st mp).2

/-- The states that runs of calls come to. -/
inductive Reaches (p : Profile) : State Obj Fs → Prop
  | init : Reaches p State.init
  | step {st : State Obj Fs} (h : Reaches p st) (op : Op Fs) : Reaches p (step ops L p st op)

end Calls

/-! ## Volumes that do not change -/

/-- Drivers that leave their volumes as they are. -/
def Ops.ofDrivers (D : Drivers Obj Fs) : Ops Obj Fs where
  root fs := .ok (D.root fs, fs)
  mount := .ok
  lookup fs o name := (D.lookup o name, fs)

section OfDrivers

variable {D : Drivers Obj Fs} {L : Layout} {p : Profile}

theorem setFs_self {st : State Obj Fs} {a : ℕ} {m : Mount Fs} (h : st.vfsAt a = some m) :
    setFs st a m.fs = st := by
  obtain ⟨vfss, tree⟩ := st
  unfold State.vfsAt at h
  unfold setFs
  simp only [State.mk.injEq, and_true]
  induction vfss with
  | nil => cases h
  | cons v vfss ih =>
    rw [List.find?_cons] at h
    rw [List.replaceF]
    by_cases hv : v.addr = a
    · rw [decide_eq_true hv] at h
      obtain rfl := Option.some.inj h
      rw [if_pos hv]
    · rw [decide_eq_false hv] at h
      rw [if_neg hv, ih h]

theorem lookupBelow_ofDrivers (st : State Obj Fs) (vnode : VNode Obj) (name : Text) :
    lookupBelow (.ofDrivers D) st vnode name = (vnode.lookup D st name, st) := by
  unfold lookupBelow VNode.lookup
  rcases h : st.vfsAt vnode.parentVfs with - | m
  · rfl
  · simp only [Ops.ofDrivers, setFs_self h]
    rcases D.lookup vnode.inode name with e | inode <;> rfl

theorem lookupVNode_ofDrivers (st : State Obj Fs) (self : TreeNode Obj) (name : Text) :
    lookupVNode (.ofDrivers D) st self name = (self.lookupVNode D st name, st) := by
  unfold lookupVNode TreeNode.lookupVNode
  rcases self.vfsMountedHere with - | vfsp
  · exact lookupBelow_ofDrivers st self.vnode name
  · rcases h : st.vfsAt vfsp with - | m
    · simp only [h]
    · simp only [h, Ops.ofDrivers, setFs_self h]
      exact lookupBelow_ofDrivers st _ name

theorem lookup_ofDrivers (st : State Obj Fs) (π : Path) (name : Text) :
    lookup (.ofDrivers D) L st π name = Vfs.lookup D L st π name := by
  unfold lookup Vfs.lookup
  rcases st.tree π with - | self
  · rfl
  · simp only [lookupVNode_ofDrivers, List.contains_iff_mem]
    rcases self.lookupVNode D st name with e | vnode <;> rfl

theorem openLoop_ofDrivers (st : State Obj Fs) (π : Path) (parts : List Text) :
    openLoop (.ofDrivers D) L st π parts = Vfs.openLoop D L st π parts := by
  induction parts generalizing st π with
  | nil => rfl
  | cons part parts ih =>
    rw [openLoop, Vfs.openLoop, lookup_ofDrivers, ih]
    rcases Vfs.lookup D L st π part with ⟨e | new, st'⟩
    · rfl
    · simp only [ih]

theorem vfsOpen_ofDrivers (st : State Obj Fs) (path : Text) :
    vfsOpen (.ofDrivers D) L st path = Vfs.vfsOpen D L st path := by
  unfold vfsOpen Vfs.vfsOpen
  rw [openLoop_ofDrivers]

theorem addVfs_ofDrivers (st : State Obj Fs) (vfsp : ℕ) (mp : Text) (fs : Fs) :
    addVfs (.ofDrivers D) L st vfsp mp fs = Vfs.addVfs D L st vfsp mp fs := by
  unfold addVfs Vfs.addVfs
  simp only [vfsOpen_ofDrivers]
  rfl

theorem step_ofDrivers (st : State Obj Fs) (op : Op Fs) :
    step (.ofDrivers D) L p st op = Vfs.step D L p st op := by
  cases op with
  | lookup π name => rw [step, Vfs.step, lookup_ofDrivers]
  | vfsOpen path => rw [step, Vfs.step, vfsOpen_ofDrivers]
  | addVfs vfsp mp fs => rw [step, Vfs.step, addVfs_ofDrivers]
  | delVfs mp => rfl

theorem reaches_ofDrivers {st : State Obj Fs} :
    Reaches (.ofDrivers D) L p st ↔ Vfs.Reaches D L p (fun _ _ => True) st := by
  constructor
  · intro h
    induction h with
    | init => exact .init
    | step _ op ih =>
      rw [step_ofDrivers]
      exact ih.step trivial
  · intro h
    induction h with
    | init => exact .init
    | @step st op _ _ ih =>
      rw [← step_ofDrivers]
      exact ih.step op

end OfDrivers

/-! ## The drivers -/

/-- A volume: `Squashfs`, with the reference of its root inode and its tables, or `FatFs`. -/
inductive Volume
  | squashfs (rootInode : ℕ) (tables : Squashfs.Tables)
  | fat (fs : Fat.FatFs)

deriving instance DecidableEq for Fat.FileEntry, Fat.File

/-- The objects behind the nodes. -/
inductive Object
  | inode (inode : Squashfs.Inode)
  | file (file : Fat.File)
  deriving DecidableEq

/-- The objects whose nodes are `VNodeType::Regular`. -/
def Object.Regular : Object → Prop
  | .inode (.basicFile _) => True
  | .file (.archive _) => True
  | _ => False

/-- How a driver call ends for the VFS. A search that has no end is counted with the panics. -/
def stop : Fault → Stop
  | .err => .err
  | _ => .panic

section Drivers

variable (p : Profile) (features : Fat.KernelFeatures) (Z : Squashfs.Decompressor) (fuel : ℕ)
  (t : CaseTable)

def inodeLookup (tables : Squashfs.Tables) (inode : Squashfs.Inode) (name : Text) :
    Except Fault Squashfs.Found :=
  match inode with
  | .basicDirectory _ => Squashfs.findEntryInDirectory p Z fuel tables inode (toUtf8 name)
  | .extendedDirectory _ => Squashfs.findEntryInDirectory p Z fuel tables inode (toUtf8 name)
  | .basicFile _ => .error (.panic .assertion)

/-- The drivers of the kernel. -/
def volumeOps : Ops Object Volume where
  root
    | .squashfs rootInode tables =>
      match Squashfs.readInode p Z fuel tables.inodeTable rootInode with
      | .error e => .error (stop e)
      | .ok (rootDir, inodeTable) =>
        .ok (.inode rootDir, .squashfs rootInode { tables with inodeTable := inodeTable })
    | .fat fs =>
      match fs.rootCluster p with
      | .error e => .error (stop e)
      | .ok rootCluster => .ok (.file (.dir rootCluster), .fat fs)
  mount
    | .squashfs rootInode tables => .ok (.squashfs rootInode tables)
    | .fat fs =>
      match fs.mount p features with
      | .error e => .error (stop e)
      | .ok fs => .ok (.fat fs)
  lookup fs o name :=
    match o, fs with
    | .inode inode, .squashfs rootInode tables =>
      match inodeLookup p Z fuel tables inode name with
      | .error e => (.error (stop e), .squashfs rootInode tables)
      | .ok ⟨none, _, tables⟩ => (.error .err, .squashfs rootInode tables)
      | .ok ⟨some inode, _, tables⟩ => (.ok (.inode inode), .squashfs rootInode tables)
    | .file file, .fat fs =>
      match file.lookup p t name fs with
      | .error e => (.error (stop e), .fat fs)
      | .ok file => (.ok (.file file), .fat fs)
    -- only a directory follows the `data` pointer, here to a volume of the other kind
    | .inode (.basicFile _), fs => (.error .panic, fs)
    | .file (.archive _), fs => (.error .panic, fs)
    | _, fs => (.error .dangling, fs)

end Drivers

end CappuccinOS.Vfs.Volumes
