import CappuccinOS.Lib.Word

/-!
# The node tree and the mount list (`drivers/fs/vfs.rs`)

`NODE_TREE` is a tree of `TreeNode`s that is filled as names are looked up. A node is named here by
its path, the innermost name first; it keeps this name for good, but not its address. Children are
stored inline in the `BTreeMap` of their parent, and the map moves them when names are inserted:
`Layout` says which slot a name has after the names of the map were inserted in the given order.
The `parent` pointer of a node holds an address that was right when the node was made.

The mount list behind `ROOT_VFS` is a list of boxes with their addresses. A pointer to a box that
is not in the list any more, or to a slot without a node, is `Stop.dangling` when it is followed.
-/

namespace CappuccinOS.Vfs

/-- `str`, as its characters. -/
abbrev Text := List Char

/-- How a call ends other than with a value: `Err(())`, a panic, or a pointer that leads nowhere. -/
inductive Stop
  | err
  | panic
  | dangling
  deriving DecidableEq, Repr

/-! ## Paths -/

def slash : Text := ['/']
def dot : Text := ['.']
def dotdot : Text := ['.', '.']

def split : Text → List Text
  | [] => [[]]
  | c :: cs =>
    if c = '/' then [] :: split cs
    else match split cs with
      | [] => [[c]]
      | part :: parts => (c :: part) :: parts

/-- `path.split_terminator('/')`: an empty last part is dropped. -/
def splitTerminator (path : Text) : List Text :=
  if (split path).getLast? = some [] then (split path).dropLast else split path

/-- The path of a node: its name in the map of its parent, then its parent's. -/
abbrev Path := List Text

/-! ## State -/

/-- `FsOps::root` and `VNodeOperations::lookup`, for objects of any kind. -/
structure Drivers (Obj Fs : Type) where
  root : Fs → Obj
  lookup : Obj → Text → Except Stop Obj

/-- The slots of the values in a `BTreeMap`, given its keys in the order of their insertion. -/
structure Layout where
  slot : List Text → Text → ℕ
  inj : ∀ {keys a b}, keys.Nodup → a ∈ keys → b ∈ keys → slot keys a = slot keys b → a = b

/-- The names before `a` are fewer than those before a later name. -/
theorem countP_lt_countP {keys : List Text} {a b : Text} (hab : a < b) (ha : a ∈ keys) :
    keys.countP (fun n => decide (n < a)) < keys.countP fun n => decide (n < b) := by
  have hmono : ∀ l : List Text,
      l.countP (fun n => decide (n < a)) ≤ l.countP fun n => decide (n < b) := by
    refine fun l => List.countP_mono_left fun n _ hn => ?_
    simp only [decide_eq_true_eq] at hn ⊢
    exact lt_trans hn hab
  obtain ⟨l₁, l₂, rfl⟩ := List.append_of_mem ha
  have h1 := hmono l₁
  have h2 := hmono l₂
  simp only [List.countP_append, List.countP_cons, lt_irrefl, hab, decide_true, decide_false,
    Bool.false_eq_true, if_false, if_true]
  omega

/-- The layout of a map with one leaf, that is with at most eleven names: they are in order, and an
insertion moves the later ones to the next slot. -/
def Layout.leaf : Layout where
  slot keys name := keys.countP fun n => decide (n < name)
  inj := by
    intro keys a b _ ha hb h
    rcases lt_trichotomy a b with hab | hab | hab
    · exact absurd h (countP_lt_countP hab ha).ne
    · exact hab
    · exact absurd h.symm (countP_lt_countP hab hb).ne

/-- The address of a node: that of `NODE_TREE`, or a slot in the map of another node. -/
inductive Addr
  | root
  | slot (owner : Path) (i : ℕ)
  deriving DecidableEq, Repr

/-- `VNode`: its object, and the address of the file system it came from. -/
structure VNode (Obj : Type) where
  inode : Obj
  parentVfs : ℕ
  deriving DecidableEq, Repr

/-- `TreeNode`, with the names of its children in the order of their insertion. -/
structure TreeNode (Obj : Type) where
  vnode : VNode Obj
  vfsMountedHere : Option ℕ
  parent : Option Addr
  children : List Text
  deriving DecidableEq, Repr

/-- `Vfs`, with the address of its box. -/
structure Mount (Fs : Type) where
  addr : ℕ
  mountPoint : Text
  fs : Fs

/-- The two statics: the list behind `ROOT_VFS`, and `NODE_TREE`. -/
structure State (Obj Fs : Type) where
  vfss : List (Mount Fs)
  tree : Path → Option (TreeNode Obj)

variable {Obj Fs : Type}

/-- Nothing is mounted. -/
def State.init : State Obj Fs := ⟨[], fun _ => none⟩

/-- The file system behind a pointer. -/
def State.vfsAt (st : State Obj Fs) (p : ℕ) : Option (Mount Fs) := st.vfss.find? fun v => v.addr = p

/-- The names below a node. -/
def State.keys (st : State Obj Fs) (π : Path) : List Text :=
  match st.tree π with
  | some node => node.children
  | none => []

/-- `TreeNode::as_ptr`. -/
def State.asPtr (L : Layout) (st : State Obj Fs) : Path → Addr
  | [] => .root
  | name :: π => .slot π (L.slot (st.keys π) name)

/-- The node at an address. -/
def State.nodeAt (L : Layout) (st : State Obj Fs) : Addr → Option Path
  | .root => some []
  | .slot π i => ((st.keys π).find? fun name => L.slot (st.keys π) name = i).map (· :: π)

/-- The state after a field of a node is changed. -/
def State.modify (st : State Obj Fs) (π : Path) (f : TreeNode Obj → TreeNode Obj) : State Obj Fs :=
  { st with tree := Function.update st.tree π ((st.tree π).map f) }

/-- `self.children.insert(name, child_node)`. -/
def State.insert (L : Layout) (st : State Obj Fs) (π : Path) (name : Text) (vnode : VNode Obj) :
    State Obj Fs :=
  let st' := st.modify π fun self => { self with children := self.children ++ [name] }
  let childNode : TreeNode Obj := ⟨vnode, none, some (st.asPtr L π), []⟩
  { st' with tree := Function.update st'.tree (name :: π) (some childNode) }

/-! ## Lookup -/

section Lookup

variable (D : Drivers Obj Fs) (L : Layout)

/-- `VNode::lookup`. The drivers reach their file system through `parent_vfs`. -/
def VNode.lookup (st : State Obj Fs) (vnode : VNode Obj) (name : Text) : Except Stop (VNode Obj) :=
  match st.vfsAt vnode.parentVfs with
  | none => .error .dangling
  | some _ => do
    let inode ← D.lookup vnode.inode name
    pure ⟨inode, vnode.parentVfs⟩

/-- The lookup behind the cache: in the root of the mounted file system, if there is one. -/
def TreeNode.lookupVNode (st : State Obj Fs) (self : TreeNode Obj) (name : Text) :
    Except Stop (VNode Obj) :=
  match self.vfsMountedHere with
  | some vfsp =>
    match st.vfsAt vfsp with
    | none => .error .dangling
    | some vfs => VNode.lookup D st ⟨D.root vfs.fs, vfsp⟩ name
  | none => self.vnode.lookup D st name

/-- `TreeNode::lookup` on the node at `π`. -/
def lookup (st : State Obj Fs) (π : Path) (name : Text) : Except Stop Path × State Obj Fs :=
  match st.tree π with
  | none => (.error .dangling, st)
  | some self =>
    if name = dotdot then
      match self.parent with
      | none => (.error .err, st)
      | some a =>
        match st.nodeAt L a with
        | none => (.error .dangling, st)
        | some parent => (.ok parent, st)
    else if name = dot then (.ok π, st)
    else if name ∈ self.children then (.ok (name :: π), st)
    else
      match self.lookupVNode D st name with
      | .error e => (.error e, st)
      | .ok vnode => (.ok (name :: π), st.insert L π name vnode)

/-- The loop of `vfs_open`. -/
def openLoop (st : State Obj Fs) (cur : Path) : List Text → Except Stop Path × State Obj Fs
  | [] => (.ok cur, st)
  | part :: parts =>
    if part = [] then openLoop st cur parts
    else match lookup D L st cur part with
      | (.ok new, st) => openLoop st new parts
      | (.error e, st) => (.error e, st)

def vfsOpen (st : State Obj Fs) (path : Text) : Except Stop Path × State Obj Fs :=
  if st.vfss = [] ∨ st.tree [] = none then (.error .err, st)
  else openLoop D L st [] (split path)

/-! ## Mounting -/

/-- `add_vfs`; the new box is at `vfsp`. -/
def addVfs (st : State Obj Fs) (vfsp : ℕ) (mountPoint : Text) (fs : Fs) :
    Except Stop Unit × State Obj Fs :=
  if mountPoint = slash then
    if st.vfss ≠ [] then (.error .err, st)
    else (.ok (), ⟨st.vfss ++ [⟨vfsp, mountPoint, fs⟩],
      Function.update (fun _ => none) [] (some ⟨⟨D.root fs, vfsp⟩, none, none, []⟩)⟩)
  else if st.vfss = [] then (.error .err, st)
  else match vfsOpen D L st mountPoint with
    | (.error e, st) => (.error e, st)
    | (.ok _, st) =>
      match vfsOpen D L st mountPoint with
      | (.error e, st) => (.error e, st)
      | (.ok file, st) =>
        let st := st.modify file fun node => { node with vfsMountedHere := some vfsp }
        (.ok (), { st with vfss := st.vfss ++ [⟨vfsp, mountPoint, fs⟩] })

end Lookup

/-- The comparison loop of `mount_point_busy`, from component `i` on. -/
def busyLoop (p : Profile) (mountParts : List Text) : ℕ → List Text → Except Panic Bool
  | _, [] => .ok false
  | i, part :: parts => do
    let last ← p.sub mountParts.length 1
    if last < i then pure true
    else match mountParts[i]? with
      | none => .error .bounds
      | some other => if part = other then busyLoop p mountParts (i + 1) parts else pure false

def mountPointBusy (p : Profile) (mountPoint : Text) : List (Mount Fs) → Except Panic Bool
  | [] => .ok false
  | vfs :: vfss =>
    if vfs.mountPoint = mountPoint then mountPointBusy p mountPoint vfss
    else do
      let mountParts := (splitTerminator mountPoint).filter (· ≠ [])
      let parts := (splitTerminator vfs.mountPoint).filter (· ≠ [])
      if ← busyLoop p mountParts 0 parts then pure true else mountPointBusy p mountPoint vfss

/-- `Vfs::del_vfs`: the first entry with this mount point is dropped. -/
def dropVfs (target : Text) (vfss : List (Mount Fs)) : List (Mount Fs) :=
  vfss.eraseP fun vfs => vfs.mountPoint = target

def delVfs (p : Profile) (st : State Obj Fs) (mountPoint : Text) :
    Except Stop Unit × State Obj Fs :=
  if st.vfss = [] then (.error .err, st)
  else if mountPoint = slash then
    if 1 < st.vfss.length then (.error .err, st) else (.ok (), { st with vfss := [] })
  else match mountPointBusy p mountPoint st.vfss with
    | .error _ => (.error .panic, st)
    | .ok true => (.error .err, st)
    | .ok false => (.ok (), { st with vfss := dropVfs mountPoint st.vfss })

end CappuccinOS.Vfs
