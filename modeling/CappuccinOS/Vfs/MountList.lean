import CappuccinOS.Vfs.Tree

/-!
# The mount list in memory (`Vfs::add_vfs`, `Vfs::del_vfs`)

The list behind `ROOT_VFS` is doubly linked: a node owns its successor through the box in `next`
and points back with the raw pointer `prev`. Memory here is a partial map from addresses to nodes;
a box has the address it was made at until it is dropped.

1. `Chain m a l`: behind the node at `a`, following `next` visits the nodes `l` and then ends, and
   each of them points back to the node before it.
2. `addVfs_spec`, `delVfs_spec`: the two methods keep a chain, and do to `l` what `l ++ [·]` and
   `eraseP` do. Both go by induction on `l`, with the node in front of it as the root.
3. `mounts_linked`: a run of calls from the lone root is the same run on lists.
-/

namespace CappuccinOS.MountList

open CappuccinOS.Vfs (Text)

/-- How a call ends other than with a value: a pointer that leads nowhere, `unwrap` of `None`, or
a loop that was given fewer turns than it takes. -/
inductive Halt
  | dangling
  | unwrap
  | fuel
  deriving DecidableEq, Repr

/-- `Vfs`. `rest` is what neither method looks at: `fs`, `vnode_covered`, `flags`, `block_size` and
`data`. -/
structure Vfs (R : Type) where
  mountPoint : Option Text
  next : Option ℕ
  prev : Option ℕ
  rest : R
  deriving DecidableEq, Repr

variable {R : Type}

/-- The nodes by their addresses. -/
abbrev Mem (R : Type) := ℕ → Option (Vfs R)

/-- Following a pointer. -/
def load (m : Mem R) (a : ℕ) : Except Halt (Vfs R) :=
  match m a with
  | some v => .ok v
  | none => .error .dangling

/-- Assigning to a field behind a pointer. -/
def modify (m : Mem R) (a : ℕ) (f : Vfs R → Vfs R) : Except Halt (Mem R) := do
  let v ← load m a
  pure (Function.update m a (some (f v)))

/-- The loop of `add_vfs`: the last node, from `current` on. -/
def last (m : Mem R) : ℕ → ℕ → Except Halt ℕ
  | 0, _ => .error .fuel
  | fuel + 1, current => do
    let v ← load m current
    match v.next with
    | some next => last m fuel next
    | none => pure current

/-- `Vfs::add_vfs`; the box is at `a`. -/
def addVfs (fuel : ℕ) (m : Mem R) (self a : ℕ) (vfs : Vfs R) : Except Halt (Mem R) := do
  let current ← last m fuel self
  let m := Function.update m a (some { vfs with prev := some current })
  modify m current fun v => { v with next := some a }

/-- Dropping a box drops what it owns. -/
def dropBox : ℕ → Mem R → ℕ → Except Halt (Mem R)
  | 0, _, _ => .error .fuel
  | fuel + 1, m, a => do
    let v ← load m a
    let m := Function.update m a none
    match v.next with
    | some next => dropBox fuel m next
    | none => pure m

/-- `next_node.prev = node.prev`, if there is a next node. -/
def relink (m : Mem R) (next prev : Option ℕ) : Except Halt (Mem R) :=
  match next with
  | some next => modify m next fun w => { w with prev := prev }
  | none => pure m

/-- `*p.next = tail`: the box that was there is dropped. -/
def assignNext (fuel : ℕ) (m : Mem R) (p : ℕ) (tail : Option ℕ) : Except Halt (Mem R) := do
  let v ← load m p
  let m := Function.update m p (some { v with next := tail })
  match v.next with
  | some old => dropBox fuel m old
  | none => pure m

/-- The body of `del_vfs` for the node that matches: `node.next` is taken before the node itself
is dropped by the assignment. -/
def unlink (fuel : ℕ) (m : Mem R) (node : ℕ) : Except Halt (Mem R) := do
  let v ← load m node
  let m ← relink m v.next v.prev
  let m ← modify m node fun w => { w with next := none }
  match v.prev with
  | none => .error .unwrap
  | some p => assignNext fuel m p v.next

/-- The loop of `del_vfs`. -/
def delFrom (m : Mem R) (target : Text) : ℕ → Option ℕ → Except Halt (Mem R)
  | _, none => pure m
  | 0, some _ => .error .fuel
  | fuel + 1, some node => do
    let v ← load m node
    if v.mountPoint = some target then unlink (fuel + 1) m node
    else delFrom m target fuel v.next

def delVfs (fuel : ℕ) (m : Mem R) (self : ℕ) (target : Text) : Except Halt (Mem R) := do
  let v ← load m self
  delFrom m target fuel v.next

/-! ## Lists of nodes -/

/-- A node as the list shows it: its address and the fields that are not links. -/
structure Node (R : Type) where
  addr : ℕ
  mountPoint : Option Text
  rest : R
  deriving DecidableEq, Repr

/-- The addresses of a list of nodes. -/
def addrs (l : List (Node R)) : List ℕ := l.map Node.addr

/-- Following `next` from the node at `a` visits `l` and ends; every node of `l` has its fields and
points back to the one before it. -/
def Chain (m : Mem R) : ℕ → List (Node R) → Prop
  | a, [] => ∃ v, m a = some v ∧ v.next = none
  | a, n :: l => (∃ v, m a = some v ∧ v.next = some n.addr) ∧
      (∃ v, m n.addr = some v ∧ v.prev = some a ∧ v.mountPoint = n.mountPoint ∧ v.rest = n.rest) ∧
      Chain m n.addr l

theorem Chain.exists_node {m : Mem R} {a : ℕ} {l : List (Node R)} (h : Chain m a l) :
    ∃ v, m a = some v ∧ v.next = (l.head?).map Node.addr := by
  cases l with
  | nil =>
    obtain ⟨v, hv, hn⟩ := h
    exact ⟨v, hv, hn⟩
  | cons n l =>
    obtain ⟨v, hv, hn⟩ := h.1
    exact ⟨v, hv, hn⟩

/-- A chain sees its first node only through `next`, and no address outside of itself. -/
theorem Chain.congr {m m' : Mem R} {a : ℕ} {l : List (Node R)} (h : Chain m a l)
    (ha : ∃ v, m' a = some v ∧ v.next = (l.head?).map Node.addr)
    (hl : ∀ x ∈ addrs l, m' x = m x) : Chain m' a l := by
  induction l generalizing a with
  | nil =>
    obtain ⟨v, hv, hn⟩ := ha
    exact ⟨v, hv, hn⟩
  | cons n l ih =>
    obtain ⟨-, ⟨w, hw, hfields⟩, hrest⟩ := h
    have hn : m' n.addr = m n.addr := hl n.addr List.mem_cons_self
    refine ⟨ha, ⟨w, hn.trans hw, hfields⟩, ih hrest ?_ fun x hx => hl x (List.mem_cons_of_mem _ hx)⟩
    rw [hn]
    exact hrest.exists_node

/-! ## Appending -/

/-- The node at `a` is there before and after, and at most its `next` has changed. -/
def SameBut (m m' : Mem R) (a : ℕ) : Prop :=
  ∃ v next, m a = some v ∧ m' a = some { v with next := next }

theorem addVfs_cons {m : Mem R} {a b fuel : ℕ} {n : Node R} {vfs : Vfs R}
    (h : ∃ v, m a = some v ∧ v.next = some n.addr) :
    addVfs (fuel + 1) m a b vfs = addVfs fuel m n.addr b vfs := by
  obtain ⟨v, hv, hnext⟩ := h
  have hlast : last m (fuel + 1) a = last m fuel n.addr := by
    rw [last, load, hv]
    show (match v.next with
      | some next => last m fuel next
      | none => pure a) = _
    rw [hnext]
  unfold addVfs
  rw [hlast]

theorem addVfs_spec {m : Mem R} {a b fuel : ℕ} {l : List (Node R)} {vfs : Vfs R}
    (h : Chain m a l) (hnodup : (a :: addrs l).Nodup) (hb : b ∉ a :: addrs l)
    (hvfs : vfs.next = none) (hfuel : l.length < fuel) :
    ∃ m', addVfs fuel m a b vfs = .ok m' ∧
      Chain m' a (l ++ [⟨b, vfs.mountPoint, vfs.rest⟩]) ∧ SameBut m m' a ∧
      ∀ x, x ∉ a :: addrs l → x ≠ b → m' x = m x := by
  induction l generalizing a fuel with
  | nil =>
    obtain ⟨v, hv, hnext⟩ := h
    obtain ⟨fuel, rfl⟩ : ∃ k, fuel = k + 1 := ⟨fuel - 1, by omega⟩
    have hab : a ≠ b := fun e => hb (by rw [e]; exact List.mem_cons_self)
    have hlast : last m (fuel + 1) a = .ok a := by
      rw [last, load, hv]
      show (match v.next with
        | some next => last m fuel next
        | none => pure a) = _
      rw [hnext]
      rfl
    set m₁ := Function.update m b (some { vfs with prev := some a }) with hm₁
    have hload : m₁ a = some v := by rw [hm₁, Function.update_of_ne hab, hv]
    set m' := Function.update m₁ a (some { v with next := some b }) with hm'
    have hma : m' a = some { v with next := some b } := Function.update_self ..
    have hmb : m' b = some { vfs with prev := some a } := by
      rw [hm', Function.update_of_ne hab.symm, hm₁, Function.update_self]
    refine ⟨m', ?_, ?_, ⟨v, some b, hv, hma⟩, fun x hx hxb => ?_⟩
    · unfold addVfs modify load
      rw [hlast]
      simp only [bind, Except.bind]
      rw [← hm₁, hload]
      rfl
    · exact ⟨⟨_, hma, rfl⟩, ⟨_, hmb, rfl, rfl, rfl⟩, _, hmb, hvfs⟩
    · have hxa : x ≠ a := fun e => hx (by rw [e]; exact List.mem_cons_self)
      rw [hm', Function.update_of_ne hxa, hm₁, Function.update_of_ne hxb]
  | cons n l ih =>
    obtain ⟨hnext, ⟨w, hw, hprev, hmp, hrest⟩, hchain⟩ := h
    obtain ⟨fuel, rfl⟩ : ∃ k, fuel = k + 1 := ⟨fuel - 1, by omega⟩
    obtain ⟨ha, hnodup'⟩ := List.nodup_cons.mp hnodup
    have hb' : b ∉ n.addr :: addrs l := fun hmem => hb (List.mem_cons_of_mem _ hmem)
    have hab : a ≠ b := fun e => hb (by rw [e]; exact List.mem_cons_self)
    have hlen : l.length < fuel := by rw [List.length_cons] at hfuel; omega
    obtain ⟨m', hok, hchain', ⟨u, next, hu, hu'⟩, hframe⟩ := ih hchain hnodup' hb' hlen
    obtain rfl := Option.some.inj (hu.symm.trans hw)
    have hma : m' a = m a := hframe a ha hab
    refine ⟨m', ?_, ⟨?_, ?_, hchain'⟩, ?_, fun x hx hxb => ?_⟩
    · rw [addVfs_cons hnext, hok]
    · rw [hma]
      exact hnext
    · exact ⟨_, hu', hprev, hmp, hrest⟩
    · obtain ⟨v, hv, -⟩ := hnext
      exact ⟨v, v.next, hv, hma.trans hv⟩
    · exact hframe x (fun hmem => hx (List.mem_cons_of_mem _ hmem)) hxb

/-! ## Removing -/

/-- The successor of a node is made to point back to `a`. Whatever memory agrees with the result
on the rest of the chain and has `a` in front of it is a chain from `a` on. -/
theorem relink_spec {m : Mem R} {a : ℕ} {n : Node R} {l : List (Node R)} {w : Vfs R}
    (hw : m n.addr = some w) (h : Chain m n.addr l) (ha : a ∉ addrs l)
    (hnodup : (n.addr :: addrs l).Nodup) :
    ∃ m', relink m w.next (some a) = .ok m' ∧ (∀ x, x ∉ addrs l → m' x = m x) ∧
      ∀ m'' : Mem R, (∀ x ∈ addrs l, m'' x = m' x) → (∃ u, m'' a = some u ∧ u.next = w.next) →
        Chain m'' a l := by
  obtain ⟨hn, hl⟩ := List.nodup_cons.mp hnodup
  cases l with
  | nil =>
    obtain ⟨w', hw', hnone⟩ := h
    obtain rfl := Option.some.inj (hw.symm.trans hw')
    refine ⟨m, by rw [hnone]; rfl, fun _ _ => rfl, fun m'' _ ⟨u, hu, hnext⟩ => ?_⟩
    exact ⟨u, hu, hnext.trans hnone⟩
  | cons k l =>
    obtain ⟨⟨w', hw', hnext⟩, ⟨u, hu, hfields⟩, hrest⟩ := h
    obtain rfl := Option.some.inj (hw.symm.trans hw')
    obtain ⟨hk, -⟩ := List.nodup_cons.mp hl
    refine ⟨Function.update m k.addr (some { u with prev := some a }), ?_, fun x hx => ?_,
      fun m'' hagree hfirst => ?_⟩
    · rw [hnext]
      show modify m k.addr _ = _
      unfold modify load
      rw [hu]
      rfl
    · exact Function.update_of_ne (fun e => hx (by rw [e]; exact List.mem_cons_self)) ..
    · have hmk : m'' k.addr = some { u with prev := some a } := by
        rw [hagree k.addr List.mem_cons_self, Function.update_self]
      rw [hnext] at hfirst
      refine ⟨hfirst, ⟨_, hmk, rfl, hfields.2⟩, hrest.congr ⟨_, hmk, ?_⟩ fun x hx => ?_⟩
      · obtain ⟨u', hu', hnext'⟩ := hrest.exists_node
        obtain rfl := Option.some.inj (hu.symm.trans hu')
        exact hnext'
      · rw [hagree x (List.mem_cons_of_mem _ hx)]
        exact Function.update_of_ne (fun e => hk (by rw [← e]; exact hx)) ..

/-- The chain's second node goes: its successor points back to the first, and the first one's box
holds that successor. -/
theorem unlink_spec {m : Mem R} {a : ℕ} (fuel : ℕ) {n : Node R} {l : List (Node R)}
    (h : Chain m a (n :: l)) (hnodup : (a :: addrs (n :: l)).Nodup) :
    ∃ m', unlink (fuel + 1) m n.addr = .ok m' ∧ Chain m' a l ∧ SameBut m m' a ∧
      ∀ x, x ∉ a :: addrs (n :: l) → m' x = m x := by
  obtain ⟨⟨v, hv, hvnext⟩, ⟨w, hw, hwprev, -, -⟩, hchain⟩ := h
  obtain ⟨ha, hnodup'⟩ := List.nodup_cons.mp hnodup
  obtain ⟨hn, -⟩ := List.nodup_cons.mp hnodup'
  have han : a ≠ n.addr := fun e => ha (by rw [e]; exact List.mem_cons_self)
  have hal : a ∉ addrs l := fun hmem => ha (List.mem_cons_of_mem _ hmem)
  obtain ⟨m₁, hok₁, hframe, hrebuild⟩ := relink_spec hw hchain hal hnodup'
  have hw₁ : m₁ n.addr = some w := (hframe _ hn).trans hw
  have hv₁ : m₁ a = some v := (hframe _ hal).trans hv
  set m₂ := Function.update m₁ n.addr (some { w with next := none }) with hm₂
  have hv₂ : m₂ a = some v := by rw [hm₂, Function.update_of_ne han, hv₁]
  set m₃ := Function.update m₂ a (some { v with next := w.next }) with hm₃
  have hw₃ : m₃ n.addr = some { w with next := none } := by
    rw [hm₃, Function.update_of_ne han.symm, hm₂, Function.update_self]
  set m₄ := Function.update m₃ n.addr none with hm₄
  have hv₄ : m₄ a = some { v with next := w.next } := by
    rw [hm₄, Function.update_of_ne han, hm₃, Function.update_self]
  have hother : ∀ x, x ≠ a → x ≠ n.addr → m₄ x = m₁ x := by
    intro x hxa hxn
    rw [hm₄, Function.update_of_ne hxn, hm₃, Function.update_of_ne hxa, hm₂,
      Function.update_of_ne hxn]
  refine ⟨m₄, ?_, ?_, ⟨v, w.next, hv, hv₄⟩, fun x hx => ?_⟩
  · have hassign : assignNext (fuel + 1) m₂ a w.next = .ok m₄ := by
      unfold assignNext load
      rw [hv₂]
      simp only [bind, Except.bind]
      rw [hvnext, ← hm₃]
      simp only [dropBox, load, hw₃, bind, Except.bind]
      rfl
    have hload : load m n.addr = .ok w := by
      unfold load
      rw [hw]
    have htake : modify m₁ n.addr (fun u => { u with next := none }) = .ok m₂ := by
      unfold modify load
      rw [hw₁]
      rfl
    unfold unlink
    simp only [bind, Except.bind, hload, hwprev, hok₁, htake]
    exact hassign
  · refine hrebuild m₄ (fun x hx => ?_) ⟨_, hv₄, rfl⟩
    exact hother x (fun e => hal (by rw [← e]; exact hx)) fun e => hn (by rw [← e]; exact hx)
  · rw [List.mem_cons, not_or] at hx
    obtain ⟨hxa, hx⟩ := hx
    have hxn : x ≠ n.addr := fun e => hx (by rw [e]; exact List.mem_cons_self)
    rw [hother x hxa hxn]
    exact hframe x fun hmem => hx (List.mem_cons_of_mem _ hmem)

/-- What `del_vfs` looks for. -/
def Node.Matches (target : Text) (n : Node R) : Bool := n.mountPoint = some target

theorem delFrom_spec {m : Mem R} {a fuel : ℕ} {l : List (Node R)} (target : Text)
    (h : Chain m a l) (hnodup : (a :: addrs l).Nodup) (hfuel : l.length ≤ fuel) :
    ∃ m', delFrom m target fuel (l.head?.map Node.addr) = .ok m' ∧
      Chain m' a (l.eraseP (Node.Matches target)) ∧ SameBut m m' a ∧
      ∀ x, x ∉ a :: addrs l → m' x = m x := by
  induction l generalizing a fuel with
  | nil =>
    obtain ⟨v, hv, -⟩ := h.exists_node
    exact ⟨m, by unfold delFrom; cases fuel <;> rfl, h, ⟨v, v.next, hv, hv⟩, fun _ _ => rfl⟩
  | cons n l ih =>
    obtain ⟨fuel, rfl⟩ : ∃ k, fuel = k + 1 := ⟨fuel - 1, by rw [List.length_cons] at hfuel; omega⟩
    obtain ⟨hnext, ⟨w, hw, hprev, hmp, hrest⟩, hchain⟩ := h
    have hdel : delFrom m target (fuel + 1) (some n.addr) =
        if n.mountPoint = some target then unlink (fuel + 1) m n.addr
        else delFrom m target fuel w.next := by
      rw [delFrom, load, hw, ← hmp]
      rfl
    rw [List.head?_cons, Option.map_some, hdel]
    by_cases hmatch : n.mountPoint = some target
    · rw [if_pos hmatch, List.eraseP_cons_of_pos (by simpa [Node.Matches] using hmatch)]
      exact unlink_spec fuel ⟨hnext, ⟨w, hw, hprev, hmp, hrest⟩, hchain⟩ hnodup
    · rw [if_neg hmatch, List.eraseP_cons_of_neg (by simpa [Node.Matches] using hmatch)]
      obtain ⟨ha, hnodup'⟩ := List.nodup_cons.mp hnodup
      obtain ⟨w', hw', hwnext⟩ := hchain.exists_node
      obtain rfl := Option.some.inj (hw.symm.trans hw')
      have hlen : l.length ≤ fuel := by rw [List.length_cons] at hfuel; omega
      obtain ⟨m', hok, hchain', ⟨u, next, hu, hu'⟩, hframe⟩ := ih hchain hnodup' hlen
      obtain rfl := Option.some.inj (hu.symm.trans hw)
      have hma : m' a = m a := hframe a ha
      obtain ⟨v, hv, hv'⟩ := hnext
      refine ⟨m', by rw [hwnext]; exact hok, ⟨⟨v, hma.trans hv, hv'⟩, ⟨_, hu', hprev, hmp, hrest⟩,
        hchain'⟩, ⟨v, v.next, hv, hma.trans hv⟩, fun x hx => ?_⟩
      exact hframe x fun hmem => hx (List.mem_cons_of_mem _ hmem)

theorem delVfs_spec {m : Mem R} {a fuel : ℕ} {l : List (Node R)} (target : Text)
    (h : Chain m a l) (hnodup : (a :: addrs l).Nodup) (hfuel : l.length ≤ fuel) :
    ∃ m', delVfs fuel m a target = .ok m' ∧
      Chain m' a (l.eraseP (Node.Matches target)) ∧ SameBut m m' a := by
  obtain ⟨v, hv, hnext⟩ := h.exists_node
  obtain ⟨m', hok, hchain, hsame, -⟩ := delFrom_spec target h hnodup hfuel
  refine ⟨m', ?_, hchain, hsame⟩
  unfold delVfs load
  rw [hv]
  show delFrom m target fuel v.next = _
  rw [hnext, hok]

/-! ## Runs -/

/-- A call of one of the two methods on the root node. A box handed to `add_vfs` is at an address
of its own and has no successor, as `Vfs::new` makes it. -/
inductive Op (R : Type)
  | addVfs (a : ℕ) (mountPoint : Option Text) (rest : R)
  | delVfs (target : Text)

/-- A call in memory. -/
def step (fuel root : ℕ) (m : Mem R) : Op R → Except Halt (Mem R)
  | .addVfs a mountPoint rest => MountList.addVfs fuel m root a ⟨mountPoint, none, none, rest⟩
  | .delVfs target => MountList.delVfs fuel m root target

/-- The same call on the list of the nodes behind the root. -/
def Op.mounts (l : List (Node R)) : Op R → List (Node R)
  | .addVfs a mountPoint rest => l ++ [⟨a, mountPoint, rest⟩]
  | .delVfs target => l.eraseP (Node.Matches target)

/-- Every new box is at an address where there is no node of the list at that time. -/
def Fresh (root : ℕ) : List (Node R) → List (Op R) → Prop
  | _, [] => True
  | l, op :: ops => (∀ a mp rest, op = .addVfs a mp rest → a ∉ root :: addrs l) ∧
      Fresh root (op.mounts l) ops

/-- `Vfs::null()` at the root's address, and nothing else. -/
def lone (root : ℕ) (rest : R) : Mem R :=
  Function.update (fun _ => none) root (some ⟨none, none, none, rest⟩)

/-- The list in memory behind the root: finite, with every node pointing back to its predecessor,
no address twice, and the root as it was but for its `next`. -/
structure Listed (root : ℕ) (rest : R) (m : Mem R) (l : List (Node R)) : Prop where
  chain : Chain m root l
  nodup : (root :: addrs l).Nodup
  root : ∃ next, m root = some ⟨none, next, none, rest⟩

theorem Listed.root_of_sameBut {root : ℕ} {rest : R} {m m' : Mem R} {l : List (Node R)}
    (h : Listed root rest m l) (hsame : SameBut m m' root) :
    ∃ next, m' root = some ⟨none, next, none, rest⟩ := by
  obtain ⟨next, hroot⟩ := h.root
  obtain ⟨v, next', hv, hv'⟩ := hsame
  obtain rfl := Option.some.inj (hv.symm.trans hroot)
  exact ⟨next', hv'⟩

theorem step_listed {root fuel : ℕ} {rest : R} {m : Mem R} {l : List (Node R)} {op : Op R}
    (h : Listed root rest m l) (hfuel : l.length < fuel)
    (hfresh : ∀ a mp r, op = .addVfs a mp r → a ∉ root :: addrs l) :
    ∃ m', step fuel root m op = .ok m' ∧ Listed root rest m' (op.mounts l) := by
  cases op with
  | addVfs a mp r =>
    have ha := hfresh a mp r rfl
    have hnext : (⟨mp, none, none, r⟩ : Vfs R).next = none := rfl
    obtain ⟨m', hok, hchain, hsame, -⟩ := addVfs_spec h.chain h.nodup ha hnext hfuel
    refine ⟨m', hok, hchain, ?_, h.root_of_sameBut hsame⟩
    show (root :: addrs (l ++ [_])).Nodup
    unfold addrs
    rw [List.map_append, ← List.cons_append]
    refine List.nodup_append.mpr ⟨h.nodup, List.nodup_singleton _, ?_⟩
    rintro x hx y hy rfl
    obtain rfl := List.mem_singleton.mp hy
    exact ha hx
  | delVfs target =>
    obtain ⟨m', hok, hchain, hsame⟩ := delVfs_spec target h.chain h.nodup (le_of_lt hfuel)
    refine ⟨m', hok, hchain, ?_, h.root_of_sameBut hsame⟩
    exact h.nodup.sublist ((List.eraseP_sublist.map Node.addr).cons_cons root)

theorem length_mounts_le (l : List (Node R)) (op : Op R) : (op.mounts l).length ≤ l.length + 1 := by
  cases op with
  | addVfs a mp r => exact (List.length_append ..).le
  | delVfs target => exact le_trans List.eraseP_sublist.length_le (Nat.le_succ _)

theorem run_listed {root fuel : ℕ} {rest : R} {ops : List (Op R)} {m : Mem R} {l : List (Node R)}
    (h : Listed root rest m l) (hfuel : l.length + ops.length < fuel) (hfresh : Fresh root l ops) :
    ∃ m', ops.foldlM (step fuel root) m = .ok m' ∧ Listed root rest m' (ops.foldl Op.mounts l) := by
  induction ops generalizing m l with
  | nil => exact ⟨m, rfl, h⟩
  | cons op ops ih =>
    rw [List.length_cons] at hfuel
    have hlen := length_mounts_le l op
    have hfirst : l.length < fuel := by omega
    obtain ⟨m₁, hok₁, h₁⟩ := step_listed h hfirst hfresh.1
    obtain ⟨m', hok', h'⟩ := ih h₁ (by omega) hfresh.2
    refine ⟨m', ?_, h'⟩
    rw [List.foldlM_cons, hok₁]
    exact hok'

/-- **The mount list is well formed along every run.** From the lone root, every sequence of
`add_vfs` of boxes at fresh addresses and `del_vfs` returns, and leaves a list in memory: following
`next` from the root visits finitely many nodes, each pointing back to its predecessor, and they
are the nodes that appending at the end and erasing the first match leave, with all their fields. -/
theorem mounts_linked (root : ℕ) (rest : R) (ops : List (Op R)) (hfresh : Fresh root [] ops)
    {fuel : ℕ} (hfuel : ops.length < fuel) :
    ∃ m, ops.foldlM (step fuel root) (lone root rest) = .ok m ∧
      Listed root rest m (ops.foldl Op.mounts []) := by
  have hroot : lone root rest root = some ⟨none, none, none, rest⟩ := Function.update_self ..
  have h : Listed root rest (lone root rest) [] :=
    ⟨⟨_, hroot, rfl⟩, List.nodup_singleton _, none, hroot⟩
  exact run_listed h (by simpa using hfuel) hfresh

/-- Three mounts, of which the middle one goes. -/
def demoOps : List (Op ℕ) :=
  [.addVfs 8 (some ['a']) 1, .addVfs 16 (some ['b']) 2, .addVfs 24 (some ['c']) 3, .delVfs ['b']]

theorem mounts_linked_demo :
    ∃ m, demoOps.foldlM (step 5 4) (lone 4 0) = .ok m ∧
      Listed 4 0 m [⟨8, some ['a'], 1⟩, ⟨24, some ['c'], 3⟩] := by
  refine mounts_linked 4 0 demoOps ?_ (show demoOps.length < 5 by decide)
  refine ⟨?_, ?_, ?_, ?_, trivial⟩ <;> rintro a mp rest h <;> cases h <;> decide

end CappuccinOS.MountList
