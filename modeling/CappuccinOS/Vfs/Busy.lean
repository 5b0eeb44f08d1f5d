import CappuccinOS.Vfs.Mount

/-!
# Busy mount points, and what `del_vfs` reports

`mount_point_busy` compares paths by their components, while the removal from the mount list goes by
the string of the mount point.

1. `busyLoop_eq`: the comparison of two component lists finds proper prefixes.
2. `busy_iff`: a mount point that has a component is busy just if something is mounted strictly
   below it.
3. `mountPointBusy_of_bare`: without a component the first step below zero is a panic, at the first
   other mount that has one.
4. `delVfs_truth_iff`: when `del_vfs` reports what it did.
-/

namespace CappuccinOS.Vfs

variable {Obj Fs : Type} {p : Profile} {mp : Text} {vfss : List (Mount Fs)}

/-- The non-empty components of a path. -/
def components (path : Text) : List Text := (split path).filter (· ≠ [])

/-- The part that `split_terminator` drops is an empty one. -/
theorem filter_splitTerminator (path : Text) :
    (splitTerminator path).filter (· ≠ []) = components path := by
  unfold splitTerminator components
  split_ifs with hlast
  · conv_rhs => rw [← List.dropLast_append_getLast? _ hlast, List.filter_append]
    exact (List.append_nil _).symm
  · rfl

/-- `a` is a proper prefix of `b`. -/
def StrictlyBelow (b a : List Text) : Prop := a <+: b ∧ a ≠ b

instance (b a : List Text) : Decidable (StrictlyBelow b a) := inferInstanceAs (Decidable (_ ∧ _))

theorem strictlyBelow_cons {a b : Text} {as bs : List Text} :
    StrictlyBelow (b :: bs) (a :: as) ↔ a = b ∧ StrictlyBelow bs as := by
  unfold StrictlyBelow
  rw [List.cons_prefix_cons, Ne, List.cons.injEq]
  tauto

theorem strictlyBelow_nil {b : Text} {bs : List Text} : StrictlyBelow (b :: bs) [] :=
  ⟨List.nil_prefix, nofun⟩

theorem not_strictlyBelow_nil {as : List Text} : ¬ StrictlyBelow [] as :=
  fun h => h.2 (List.prefix_nil.mp h.1)

/-- The loop is at component `i` of the mount point: it looks for the rest of it as a proper
prefix. -/
theorem busyLoop_eq {mountParts : List Text} (hne : mountParts ≠ []) {i : ℕ}
    (hi : i ≤ mountParts.length) (parts : List Text) :
    busyLoop p mountParts i parts = .ok (decide (StrictlyBelow parts (mountParts.drop i))) := by
  have hpos := List.length_pos_iff_ne_nil.mpr hne
  induction parts generalizing i with
  | nil => rw [busyLoop, decide_eq_false not_strictlyBelow_nil]
  | cons part parts ih =>
    rw [busyLoop, Profile.sub_of_le p hpos]
    simp only [bind, Except.bind]
    by_cases hend : mountParts.length - 1 < i
    · rw [if_pos hend, List.drop_eq_nil_of_le (by omega), decide_eq_true strictlyBelow_nil]
      rfl
    · have hlt : i < mountParts.length := by omega
      rw [if_neg hend, List.getElem?_eq_getElem hlt, List.drop_eq_getElem_cons hlt]
      dsimp only
      by_cases hpart : part = mountParts[i]
      · rw [if_pos hpart, ih hlt]
        congr 1
        exact decide_eq_decide.mpr (by rw [strictlyBelow_cons, hpart]; tauto)
      · rw [if_neg hpart, decide_eq_false (by rw [strictlyBelow_cons]; tauto)]
        rfl

/-- Something is mounted strictly below the mount point. -/
def MountedBelow (mp : Text) (vfss : List (Mount Fs)) : Prop :=
  ∃ vfs ∈ vfss, StrictlyBelow (components vfs.mountPoint) (components mp)

theorem mountPointBusy_eq (hmp : components mp ≠ []) (vfss : List (Mount Fs)) :
    ∃ b, mountPointBusy p mp vfss = .ok b ∧ (b = true ↔ MountedBelow mp vfss) := by
  induction vfss with
  | nil => exact ⟨false, rfl, by simp [MountedBelow]⟩
  | cons vfs vfss ih =>
    obtain ⟨b, hb, hiff⟩ := ih
    have hcons : MountedBelow mp (vfs :: vfss) ↔
        StrictlyBelow (components vfs.mountPoint) (components mp) ∨ MountedBelow mp vfss :=
      List.exists_mem_cons_iff ..
    rw [mountPointBusy]
    by_cases hself : vfs.mountPoint = mp
    · refine ⟨b, by rw [if_pos hself, hb], ?_⟩
      rw [hcons, hiff, hself]
      exact (or_iff_right fun h => h.2 rfl).symm
    · rw [if_neg hself, filter_splitTerminator, filter_splitTerminator]
      dsimp only
      rw [busyLoop_eq hmp (Nat.zero_le _), List.drop_zero]
      by_cases hbelow : StrictlyBelow (components vfs.mountPoint) (components mp)
      · exact ⟨true, by rw [decide_eq_true hbelow]; rfl, by simp [hcons, hbelow]⟩
      · refine ⟨b, by rw [decide_eq_false hbelow]; exact hb, ?_⟩
        rw [hcons, hiff, or_iff_right hbelow]

/-- **A mount point is busy** exactly when something is mounted strictly below it. -/
theorem busy_iff (p : Profile) (mp : Text) (hmp : components mp ≠ []) (vfss : List (Mount Fs)) :
    ∃ b, mountPointBusy p mp vfss = .ok b ∧
      (b = true ↔ ∃ vfs ∈ vfss, components mp <+: components vfs.mountPoint ∧
        components mp ≠ components vfs.mountPoint) := mountPointBusy_eq hmp vfss

/-- With something mounted at `/b/c`, `/b` is busy. -/
theorem busy_below : components ['/', 'b'] ≠ [] ∧
    mountPointBusy .dev ['/', 'b'] [⟨1, slash, ()⟩, ⟨2, ['/', 'b', '/', 'c'], ()⟩] = .ok true := by
  obtain ⟨b, hb, hiff⟩ := busy_iff .dev ['/', 'b'] (by decide)
    [⟨1, slash, ()⟩, ⟨2, ['/', 'b', '/', 'c'], ()⟩]
  have hbusy : b = true := hiff.mpr
    ⟨_, List.mem_cons_of_mem _ List.mem_cons_self, by decide, by decide⟩
  rw [hbusy] at hb
  exact ⟨by decide, hb⟩

/-! ## Mount points without a component -/

/-- Only mounts without a component, or with the very string, can be compared with a mount point
that has none. -/
def BareMounts (mp : Text) (vfss : List (Mount Fs)) : Prop :=
  ∀ vfs ∈ vfss, vfs.mountPoint ≠ mp → components vfs.mountPoint = []

theorem busyLoop_nil {part : Text} {parts : List Text} (r : Bool) :
    busyLoop p [] 0 (part :: parts) ≠ .ok r := by
  cases p with
  | dev => exact nofun
  | release => exact nofun

theorem mountPointBusy_of_bare (h : BareMounts mp vfss) :
    mountPointBusy p mp vfss = .ok false := by
  induction vfss with
  | nil => rfl
  | cons vfs vfss ih =>
    have ih := ih fun v hv => h v (List.mem_cons_of_mem _ hv)
    rw [mountPointBusy]
    by_cases hself : vfs.mountPoint = mp
    · rw [if_pos hself, ih]
    · rw [if_neg hself, filter_splitTerminator, filter_splitTerminator,
        h vfs List.mem_cons_self hself]
      exact ih

theorem bare_of_mountPointBusy {b : Bool} (hmp : components mp = [])
    (h : mountPointBusy p mp vfss = .ok b) : BareMounts mp vfss := by
  induction vfss with
  | nil => exact nofun
  | cons vfs vfss ih =>
    rw [mountPointBusy] at h
    by_cases hself : vfs.mountPoint = mp
    · rw [if_pos hself] at h
      intro v hv hne
      rcases List.mem_cons.mp hv with rfl | hv
      · exact absurd hself hne
      · exact ih h v hv hne
    · rw [if_neg hself, filter_splitTerminator, filter_splitTerminator, hmp] at h
      obtain ⟨r, hloop, h⟩ := bind_eq_ok.mp h
      cases hparts : components vfs.mountPoint with
      | cons part parts =>
        rw [hparts] at hloop
        exact absurd hloop (busyLoop_nil r)
      | nil =>
        rw [hparts] at hloop
        obtain rfl : false = r := Except.ok.inj hloop
        intro v hv hne
        rcases List.mem_cons.mp hv with rfl | hv
        · exact hparts
        · exact ih h v hv hne

/-! ## `del_vfs` -/

/-- One file system is taken from the list. -/
def RemovedOne (vfss vfss' : List (Mount Fs)) : Prop :=
  ∃ before vfs behind, vfss = before ++ vfs :: behind ∧ vfss' = before ++ behind

theorem not_removedOne_self : ¬ RemovedOne vfss vfss := by
  rintro ⟨before, vfs, behind, h, h'⟩
  have hlen := congrArg List.length (h.symm.trans h')
  simp at hlen

/-- `del_vfs` returns, and its result says whether it took one file system from the list or left
the list as it was. -/
structure Truthful (p : Profile) (st : State Obj Fs) (mp : Text) : Prop where
  returns : (delVfs p st mp).1 = .ok () ∨ (delVfs p st mp).1 = .error .err
  ok_iff : (delVfs p st mp).1 = .ok () ↔ RemovedOne st.vfss (delVfs p st mp).2.vfss
  err : (delVfs p st mp).1 = .error .err → (delVfs p st mp).2.vfss = st.vfss

/-- The string is one of those in the mount list. -/
def Mounted (mp : Text) (vfss : List (Mount Fs)) : Prop := ∃ vfs ∈ vfss, vfs.mountPoint = mp

theorem removedOne_dropVfs : RemovedOne vfss (dropVfs mp vfss) ↔ Mounted mp vfss := by
  constructor
  · intro h
    by_contra hnone
    refine @not_removedOne_self _ vfss ?_
    rwa [dropVfs, List.eraseP_of_forall_not] at h
    intro vfs hvfs heq
    exact hnone ⟨vfs, hvfs, of_decide_eq_true heq⟩
  · rintro ⟨vfs, hvfs, hmp⟩
    obtain ⟨v, before, behind, -, -, hsplit, herase⟩ :=
      @List.exists_of_eraseP _ (fun vfs : Mount Fs => vfs.mountPoint = mp) _ _ hvfs
        (decide_eq_true hmp)
    exact ⟨before, v, behind, hsplit, herase⟩

/-- The calls of `del_vfs` that end as they say. -/
def Reported (st : State Obj Fs) (mp : Text) : Prop :=
  st.vfss = [] ∨ mp = slash ∨
    (components mp ≠ [] ∧ (MountedBelow mp st.vfss ∨ Mounted mp st.vfss)) ∨
      (components mp = [] ∧ BareMounts mp st.vfss ∧ Mounted mp st.vfss)

section Delete

variable {st : State Obj Fs}

theorem Truthful.of_err (h : delVfs p st mp = (.error .err, st)) : Truthful p st mp where
  returns := .inr (by rw [h])
  ok_iff := by
    rw [h]
    exact iff_of_false nofun not_removedOne_self
  err _ := by rw [h]

/-- A call that returns `Ok` is judged by what it did to the list. -/
theorem truthful_iff_of_ok {vfss : List (Mount Fs)}
    (h : delVfs p st mp = (.ok (), { st with vfss := vfss })) :
    Truthful p st mp ↔ RemovedOne st.vfss vfss := by
  constructor
  · intro ht
    have hone := ht.ok_iff.mp (by rw [h])
    rwa [h] at hone
  · intro hone
    refine ⟨.inl (by rw [h]), ?_, fun herr => ?_⟩
    · rw [h]
      exact iff_of_true rfl hone
    · rw [h] at herr
      cases herr

theorem not_truthful_of_panic (h : (delVfs p st mp).1 = .error .panic) : ¬ Truthful p st mp := by
  intro ht
  rcases ht.returns with hr | hr <;> cases h.symm.trans hr

/-- `del_vfs` when its checks of the list and of the root are passed. -/
theorem delVfs_eq (hne : st.vfss ≠ []) (hmp : mp ≠ slash) : delVfs p st mp =
    match mountPointBusy p mp st.vfss with
    | .error _ => (.error .panic, st)
    | .ok true => (.error .err, st)
    | .ok false => (.ok (), { st with vfss := dropVfs mp st.vfss }) := by
  exact (if_neg hne).trans (if_neg hmp)

theorem truthful_slash (hne : st.vfss ≠ []) : Truthful p st slash := by
  by_cases hlen : 1 < st.vfss.length
  · exact .of_err (by rw [delVfs, if_neg hne, if_pos rfl, if_pos hlen])
  · rw [truthful_iff_of_ok (by rw [delVfs, if_neg hne, if_pos rfl, if_neg hlen])]
    obtain ⟨vfs, hvfs⟩ : ∃ vfs, st.vfss = [vfs] := by
      have := List.length_pos_iff_ne_nil.mpr hne
      exact List.length_eq_one_iff.mp (by omega)
    exact ⟨[], vfs, [], hvfs, rfl⟩

theorem truthful_of_components (hne : st.vfss ≠ []) (hmp : mp ≠ slash)
    (hparts : components mp ≠ []) :
    Truthful p st mp ↔ MountedBelow mp st.vfss ∨ Mounted mp st.vfss := by
  obtain ⟨b, hb, hiff⟩ := @mountPointBusy_eq _ p mp hparts st.vfss
  have hdel := @delVfs_eq _ _ p mp st hne hmp
  rw [hb] at hdel
  cases b with
  | true => exact iff_of_true (.of_err hdel) (.inl (hiff.mp rfl))
  | false =>
    rw [truthful_iff_of_ok hdel, removedOne_dropVfs]
    exact (or_iff_right fun h => absurd (hiff.mpr h) Bool.false_ne_true).symm

theorem truthful_of_bare (hne : st.vfss ≠ []) (hmp : mp ≠ slash) (hparts : components mp = []) :
    Truthful p st mp ↔ BareMounts mp st.vfss ∧ Mounted mp st.vfss := by
  have hdel := @delVfs_eq _ _ p mp st hne hmp
  by_cases hbare : BareMounts mp st.vfss
  · rw [mountPointBusy_of_bare hbare] at hdel
    rw [truthful_iff_of_ok hdel, removedOne_dropVfs, and_iff_right hbare]
  · refine iff_of_false ?_ fun h => hbare h.1
    cases hbusy : mountPointBusy p mp st.vfss with
    | ok b => exact absurd (bare_of_mountPointBusy hparts hbusy) hbare
    | error e =>
      rw [hbusy] at hdel
      exact not_truthful_of_panic (by rw [hdel])

end Delete

/-- **`del_vfs` reports what it did** exactly when the list is empty, the root is asked for, or the
mount point is busy or in the list under this very string; a mount point without a component also
needs that no other mount has one. -/
theorem delVfs_truth_iff (p : Profile) (st : State Obj Fs) (mp : Text) :
    Truthful p st mp ↔ Reported st mp := by
  unfold Reported
  by_cases hne : st.vfss = []
  · exact iff_of_true (.of_err (by rw [delVfs, if_pos hne])) (.inl hne)
  by_cases hmp : mp = slash
  · subst hmp
    exact iff_of_true (truthful_slash hne) (.inr (.inl rfl))
  by_cases hparts : components mp = []
  · rw [truthful_of_bare hne hmp hparts]
    tauto
  · rw [truthful_of_components hne hmp hparts]
    tauto

/-- A name at which nothing is mounted: `del_vfs` returns `Ok` and removes nothing. -/
theorem delVfs_untrue : Reaches mountDrivers .leaf .dev FreshBoxes rootState ∧
    ¬ Truthful .dev rootState ['/', 'b'] := by
  refine ⟨rootState_reaches, fun h => ?_⟩
  have hdel : delVfs .dev rootState ['/', 'b'] = (.ok (), rootState) := rfl
  have hone := h.ok_iff.mp (by rw [hdel])
  rw [hdel] at hone
  exact not_removedOne_self hone

end CappuccinOS.Vfs
