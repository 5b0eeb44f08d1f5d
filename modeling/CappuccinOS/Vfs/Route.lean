import CappuccinOS.Vfs.Runs

/-!
# Routes through the node tree

`nodeOf` is the node a path leads to, whether it is cached already or is still to be made, and
`route` goes along the components of a path in this way.

1. `fills_nodeOf`: what is cached is what was to be made, so caching changes no route.
2. `openLoop_route`: as long as the parent pointers that are followed are current, `vfs_open` takes
   the route.
-/

namespace CappuccinOS.Vfs

variable {Obj Fs : Type} {D : Drivers Obj Fs} {L : Layout} {N : Text → Prop}
  {st st' : State Obj Fs} {π ρ : Path} {name : Text} {self : TreeNode Obj}

/-! ## Nodes, cached or not -/

/-- A node without its links. -/
def TreeNode.bare (node : TreeNode Obj) : TreeNode Obj :=
  { node with parent := none, children := [] }

/-- The node that a path leads to: the cached one, else the one that a lookup would make. -/
def nodeOf (D : Drivers Obj Fs) (st : State Obj Fs) : Path → Except Stop (TreeNode Obj)
  | [] =>
    match st.tree [] with
    | none => .error .dangling
    | some node => .ok node.bare
  | name :: π =>
    match st.tree (name :: π) with
    | none => do
      let self ← nodeOf D st π
      let vnode ← self.lookupVNode D st name
      pure ⟨vnode, none, none, []⟩
    | some node => .ok node.bare

theorem nodeOf_of_tree (h : st.tree π = some self) : nodeOf D st π = .ok self.bare := by
  cases π with
  | nil => rw [nodeOf, h]
  | cons name π => rw [nodeOf, h]

theorem nodeOf_root : nodeOf D st [] = .error .dangling ↔ st.tree [] = none := by
  rw [nodeOf]
  rcases st.tree [] with - | node
  · exact iff_of_true rfl rfl
  · exact iff_of_false nofun nofun

theorem nodeOf_of_none (h : st.tree (name :: π) = none) : nodeOf D st (name :: π) = (do
    let self ← nodeOf D st π
    let vnode ← self.lookupVNode D st name
    pure ⟨vnode, none, none, []⟩) := by
  rw [nodeOf, h]

/-- Below a cached node, the lookup behind the cache decides. -/
theorem nodeOf_below (hself : st.tree π = some self) (h : st.tree (name :: π) = none) :
    nodeOf D st (name :: π) = (self.lookupVNode D st name).map fun v => ⟨v, none, none, []⟩ := by
  rw [nodeOf_of_none h, nodeOf_of_tree hself]
  show self.lookupVNode D st name >>= _ = _
  rcases self.lookupVNode D st name with e | vnode <;> rfl

theorem TreeNode.lookupVNode_congr (h : st'.vfsAt = st.vfsAt) :
    self.lookupVNode D st' name = self.lookupVNode D st name := by
  unfold TreeNode.lookupVNode VNode.lookup
  rw [h]

/-- The nodes are the same when this is so wherever the tree differs. -/
theorem nodeOf_congr (hvfs : st'.vfsAt = st.vfsAt)
    (h : ∀ ρ, nodeOf D st' ρ = nodeOf D st ρ ∨ st'.tree ρ = st.tree ρ) :
    nodeOf D st' = nodeOf D st := by
  funext ρ
  induction ρ with
  | nil =>
    rcases h [] with h | h
    · exact h
    · rw [nodeOf, nodeOf, h]
  | cons name ρ ih =>
    rcases h (name :: ρ) with h | h
    · exact h
    · rw [nodeOf, nodeOf, h, ih]
      simp only [TreeNode.lookupVNode_congr hvfs]

/-- A child that is cached is the one that was to be made. -/
theorem caches_nodeOf (h : Wf N st) (hc : Caches D L N st st') : nodeOf D st' = nodeOf D st := by
  obtain @⟨π, self, name, vnode, hself, hnew, -, -, -, hlookup⟩ := hc
  refine nodeOf_congr rfl fun ρ => ?_
  by_cases h1 : ρ = name :: π
  · left
    subst h1
    rw [nodeOf_of_tree State.insert_tree_child,
      nodeOf_below hself (h.tree_none hself hnew), hlookup]
    rfl
  by_cases h2 : ρ = π
  · left
    subst h2
    rw [nodeOf_of_tree (State.insert_tree_self hself), nodeOf_of_tree hself]
    rfl
  · exact .inr (State.insert_tree_of_ne h2 h1)

theorem fills_nodeOf (h : Wf N st) (hf : Fills D L N st st') : nodeOf D st' = nodeOf D st := by
  induction hf with
  | refl => rfl
  | tail hf hc ih => exact (caches_nodeOf (h.fills hf) hc).trans ih

/-! ## Routes -/

/-- The way along the components of a path, where `..` leads to the path without its last name. -/
def route (D : Drivers Obj Fs) (st : State Obj Fs) : Path → List Text → Except Stop Path
  | π, [] => .ok π
  | π, part :: parts =>
    if part = [] then route D st π parts
    else if part = dotdot then
      match π with
      | [] => .error .err
      | _ :: parent => route D st parent parts
    else if part = dot then route D st π parts
    else match nodeOf D st (part :: π) with
      | .error e => .error e
      | .ok _ => route D st (part :: π) parts

theorem route_cons (part : Text) (parts : List Text) : route D st π (part :: parts) =
    if part = [] then route D st π parts
    else if part = dotdot then
      match π with
      | [] => .error .err
      | _ :: parent => route D st parent parts
    else if part = dot then route D st π parts
    else match nodeOf D st (part :: π) with
      | .error e => .error e
      | .ok _ => route D st (part :: π) parts := by
  cases π <;> rfl

theorem route_congr (h : nodeOf D st' = nodeOf D st) : route D st' = route D st := by
  funext π parts
  induction parts generalizing π with
  | nil => rfl
  | cons part parts ih =>
    rw [route_cons, route_cons, h]
    simp only [ih]

/-! ## Going up -/

/-- The parent pointer of the node holds the address of the node that owns it. -/
def Current (L : Layout) (st : State Obj Fs) : Path → Prop
  | [] => True
  | name :: π => ∀ node, st.tree (name :: π) = some node → node.parent = some (st.asPtr L π)

/-- Every `..` of the walk starts at a node whose parent pointer is current. -/
def CurrentAlong (D : Drivers Obj Fs) (L : Layout) (st : State Obj Fs) (cur : Path) :
    List Text → Prop
  | [] => True
  | part :: parts =>
    if part = [] then CurrentAlong D L st cur parts
    else (part = dotdot → Current L st cur) ∧
      match lookup D L st cur part with
      | (.ok new, st') => CurrentAlong D L st' new parts
      | (.error _, _) => True

theorem Wf.lookup_route (h : Wf N st) (hπ : st.tree π = some self) (hname : name ≠ [])
    (hcur : name = dotdot → Current L st π) (parts : List Text) :
    (∃ new st₁, lookup D L st π name = (.ok new, st₁) ∧
      route D st π (name :: parts) = route D st new parts) ∨
    ∃ e, lookup D L st π name = (.error e, st) ∧ route D st π (name :: parts) = .error e := by
  rw [route_cons, if_neg hname]
  by_cases hup : name = dotdot
  · rw [if_pos hup]
    subst hup
    cases π with
    | nil => exact .inr ⟨.err, h.lookup_root hπ, rfl⟩
    | cons last π => exact .inl ⟨π, st, h.lookup_dotdot hπ (hcur rfl self hπ), rfl⟩
  rw [if_neg hup]
  by_cases hdot : name = dot
  · rw [if_pos hdot]
    subst hdot
    exact .inl ⟨π, st, lookup_dot hπ, rfl⟩
  rw [if_neg hdot]
  by_cases hmem : name ∈ self.children
  · obtain ⟨node, hnode⟩ := h.node hπ hmem
    rw [nodeOf_of_tree hnode]
    exact .inl ⟨name :: π, st, h.lookup_cached hπ hmem, rfl⟩
  · rw [nodeOf_below hπ (h.tree_none hπ hmem)]
    rcases hv : self.lookupVNode D st name with e | vnode
    · exact .inr ⟨e, lookup_missing hπ hmem hup hdot hv, rfl⟩
    · exact .inl ⟨name :: π, _, lookup_insert hπ hmem hup hdot hv, rfl⟩

theorem Wf.openLoop_route (h : Wf (fun _ => True) st) (parts : List Text)
    (hroot : st.tree [] ≠ none) (hπ : st.tree π = some self)
    (hcur : CurrentAlong D L st π parts) :
    (openLoop D L st π parts).1 = route D st π parts := by
  induction parts generalizing st π self with
  | nil => rfl
  | cons part parts ih =>
    rw [openLoop]
    rw [CurrentAlong] at hcur
    by_cases hempty : part = []
    · rw [if_pos hempty] at hcur ⊢
      rw [route_cons, if_pos hempty]
      exact ih h hroot hπ hcur
    rw [if_neg hempty] at hcur ⊢
    rcases h.lookup_route hπ hempty hcur.1 parts with ⟨new, st₁, hl, hr⟩ | ⟨e, hl, hr⟩
    · have hf := @fills_lookup _ _ D L (fun _ => True) part st π trivial
      obtain ⟨node, hnode⟩ := h.lookup_node hroot hl
      rw [hl] at hcur hf ⊢
      rw [hr, ← route_congr (fills_nodeOf h hf)]
      exact ih (h.fills hf) (fills_tree_ne_none hf hroot) hnode hcur.2
    · rw [hl, hr]

end CappuccinOS.Vfs
