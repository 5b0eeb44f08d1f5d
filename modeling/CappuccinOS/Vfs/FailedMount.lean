import CappuccinOS.Vfs.Mount

/-!
# A mount that fails

`add_vfs` opens its mount point before it changes anything else, so a call that fails leaves nodes
in the tree that were not there before.

1. `opened_eq`: what a path leads to is what its route leads to, as long as the parent pointers that
   are followed are current.
2. `failedMount_unchanged`: the nodes that a failed call caches change no route. A pointer that is
   not current can lead elsewhere after the call (`failedMount_stale_parent`).
-/

namespace CappuccinOS.Vfs

variable {Obj Fs : Type} {D : Drivers Obj Fs} {L : Layout} {N : Text → Prop} {p : Profile}
  {st st' : State Obj Fs} {π : Path}

theorem Wf.opened_eq (h : Wf (fun _ => True) st) {path : Text}
    (hcur : CurrentAlong D L st [] (split path)) : opened D L st path =
      if st.vfss = [] ∨ st.tree [] = none then .error .err
      else (do
        let ρ ← route D st [] (split path)
        let node ← nodeOf D st ρ
        pure node.vnode) := by
  unfold opened vfsOpen
  split_ifs with hor
  · rfl
  rw [not_or] at hor
  obtain ⟨root, hroot⟩ := Option.ne_none_iff_exists'.mp hor.2
  have hr := h.openLoop_route (split path) hor.2 hroot hcur
  have hf := @fills_openLoop _ _ D L (fun _ => True) (split path) (fun _ _ _ => trivial) st []
  rcases ho : openLoop D L st [] (split path) with ⟨e | ρ, st₁⟩
  · rw [ho] at hr
    rw [← hr]
    rfl
  · rw [ho] at hr hf
    obtain ⟨node, hnode⟩ := h.openLoop_node _ (fun _ _ _ => trivial) hor.2 hroot ho
    have hnodeOf : nodeOf D st ρ = .ok node.bare := by
      rw [← fills_nodeOf h hf, nodeOf_of_tree hnode]
    rw [← hr]
    show _ = nodeOf D st ρ >>= fun node => pure node.vnode
    rw [hnodeOf]
    simp only [hnode]
    rfl

theorem currentAlong_of_dotdot_not_mem {parts : List Text} (h : dotdot ∉ parts) :
    CurrentAlong D L st π parts := by
  induction parts generalizing st π with
  | nil => trivial
  | cons part parts ih =>
    rw [List.mem_cons, not_or] at h
    rw [CurrentAlong]
    split_ifs
    · exact ih h.2
    · refine ⟨fun heq => absurd heq.symm h.1, ?_⟩
      rcases lookup D L st π part with ⟨e | new, st₁⟩
      · trivial
      · exact ih h.2

/-! ## The failed call -/

/-- The state after a mount point is opened as `add_vfs` does, twice if the first time succeeds. -/
def walked (D : Drivers Obj Fs) (L : Layout) (st : State Obj Fs) (mountPoint : Text) :
    State Obj Fs :=
  match vfsOpen D L st mountPoint with
  | (.error _, st) => st
  | (.ok _, st) => (vfsOpen D L st mountPoint).2

theorem walked_of_same {mp : Text} (h : (vfsOpen D L st mp).2 = st) : walked D L st mp = st := by
  unfold walked
  rcases ho : vfsOpen D L st mp with ⟨e | π, st₁⟩
  · rw [ho] at h
    exact h
  · rw [ho] at h
    subst h
    simp only [ho]

theorem vfsOpen_slash : (vfsOpen D L st slash).2 = st := by
  unfold vfsOpen
  split_ifs <;> rfl

theorem addVfs_error {vfsp : ℕ} {mp : Text} {fs : Fs} {e : Stop}
    (h : addVfs D L st vfsp mp fs = (.error e, st')) : st' = walked D L st mp := by
  unfold addVfs at h
  split_ifs at h with h1 h2 h3
  · cases h
    rw [h1, walked_of_same vfsOpen_slash]
  · cases h
  · cases h
    refine (walked_of_same ?_).symm
    rw [vfsOpen, if_pos (.inl h3)]
  · unfold walked
    rcases ho1 : vfsOpen D L st mp with ⟨e₁ | π₁, st₁⟩
    · rw [ho1] at h
      cases h
      rfl
    · rw [ho1] at h
      rcases ho2 : vfsOpen D L st₁ mp with ⟨e₂ | π₂, st₂⟩
      · simp only [ho2] at h ⊢
        cases h
        rfl
      · simp only [ho2] at h
        cases h

theorem fills_mountedHere (h : Wf N st) (hf : Fills D L N st st') :
    st'.mountedHere = st.mountedHere := by
  induction hf with
  | refl => rfl
  | tail hf hc ih => exact (caches_mountedHere (h.fills hf) hc).trans ih

theorem Wf.opened_fills (h : Wf (fun _ => True) st) (hf : Fills D L (fun _ => True) st st')
    {path : Text} (hcur : CurrentAlong D L st [] (split path))
    (hcur' : CurrentAlong D L st' [] (split path)) :
    opened D L st' path = opened D L st path := by
  have hnode := fills_nodeOf h hf
  have hroot : st'.tree [] = none ↔ st.tree [] = none := by
    rw [← @nodeOf_root _ _ D st', hnode, nodeOf_root]
  rw [(h.fills hf).opened_eq hcur', h.opened_eq hcur, fills_vfss hf, route_congr hnode, hnode]
  simp only [hroot]

/-- A mount that fails changes no mount and, where the parent pointers that are followed are
current, no path. -/
theorem failedMount_unchanged (D : Drivers Obj Fs) (L : Layout) (p : Profile)
    (A : State Obj Fs → Op Fs → Prop) (st : State Obj Fs) (hst : Reaches D L p A st) (vfsp : ℕ)
    (mp : Text) (fs : Fs) (e : Stop) (st' : State Obj Fs)
    (hadd : addVfs D L st vfsp mp fs = (.error e, st')) :
    st'.vfss = st.vfss ∧ (∀ π, st'.mountedHere π = st.mountedHere π) ∧
    ∀ path, CurrentAlong D L st [] (split path) →
      CurrentAlong D L (walked D L st mp) [] (split path) →
      opened D L st' path = opened D L st path := by
  have hwf : Wf (fun _ => True) st := hst.wf fun _ op _ => op.named_of_forall fun _ => trivial
  have hf : Fills D L (fun _ => True) st st' := by
    rcases addVfs_cases hadd fun _ _ _ => trivial with ⟨-, hf⟩ | ⟨hok, -⟩ | ⟨hok, -⟩
    · exact hf
    · cases hok
    · cases hok
  refine ⟨fills_vfss hf, congrFun (fills_mountedHere hwf hf), fun path hcur hcur' => ?_⟩
  rw [← addVfs_error hadd] at hcur'
  exact hwf.opened_fills hf hcur hcur'

/-- The mount on `/a/q`, which does not exist, leaves `/b/x` as it is. -/
theorem failedMount_unchanged_demo :
    opened demoDrivers .leaf (addVfs demoDrivers .leaf demoState 2 ['/', 'a', '/', 'q'] ()).2
      ['/', 'b', '/', 'x'] = .ok ⟨3, 1⟩ := by
  refine ((failedMount_unchanged demoDrivers .leaf .dev _ demoState demoState_reaches 2
    ['/', 'a', '/', 'q'] () .err _ rfl).2.2 ['/', 'b', '/', 'x'] ?_ ?_).trans rfl
  · exact currentAlong_of_dotdot_not_mem (by decide)
  · exact currentAlong_of_dotdot_not_mem (by decide)

/-- But `/a` is cached by then, before `/b`, so `/b/x/..` leads to `/a`. -/
theorem failedMount_stale_parent : ∃ st st',
    Reaches demoDrivers .leaf .dev (MountsFirst demoDrivers .leaf) st ∧
    addVfs demoDrivers .leaf st 2 ['/', 'a', '/', 'q'] () = (.error .err, st') ∧
    opened demoDrivers .leaf st ['/', 'b', '/', 'x', '/', '.', '.'] = .ok ⟨2, 1⟩ ∧
    opened demoDrivers .leaf st' ['/', 'b', '/', 'x', '/', '.', '.'] = .ok ⟨1, 1⟩ :=
  ⟨demoState, _, demoState_reaches, rfl, rfl, rfl⟩

end CappuccinOS.Vfs
