import CappuccinOS.Lib.Word

/-!
# Open counts (`TreeNode::open`, `TreeNode::close`, `Drop for File`)

`TreeNode::open` hands out a `File` and calls the file system's `open` when `ref_count` was 0;
dropping the `File` calls `close`, which calls the file system's `close` when `ref_count` is 0
again. Nodes are at stable addresses here, so a handle finds the node it was opened on.

1. `Ledger` is what the counter stands for: the live handles and the calls that each first handle
   and each last one should make, with no counter at all.
2. `step_refines`: a call keeps `ref_count` equal to the number of live handles, and then calls the
   file system exactly when the ledger does.
3. `balanced_step`: in the ledger the calls on one node alternate, and `open` was the last of
   them exactly while the node has a live handle.
-/

namespace CappuccinOS.OpenCount

/-- A call into the file system: `VNodeOperations::open` or `close`, with its flags. -/
inductive Kind
  | opened
  | closed
  deriving DecidableEq, Repr

/-- The call, the vnode it is made on, its flags and credentials. -/
structure Call (N C : Type) where
  kind : Kind
  node : N
  flags : ℕ
  cred : C

structure File (N C : Type) where
  descriptor : N
  userCred : C

/-- The counters, the live handles and the calls made so far. -/
structure State (N C : Type) where
  refCount : N → ℕ
  files : List (File N C)
  calls : List (Call N C)

variable {N C : Type} [DecidableEq N]

/-- `TreeNode::open(f, c)`; `ref_count` is a `u32`. -/
def openNode (p : Profile) (st : State N C) (node : N) (f : ℕ) (c : C) :
    Except Panic (State N C) := do
  let calls := if st.refCount node = 0 then st.calls ++ [⟨.opened, node, f, c⟩] else st.calls
  let refCount ← p.fit 32 (st.refCount node + 1)
  pure ⟨Function.update st.refCount node refCount, ⟨node, c⟩ :: st.files, calls⟩

def close (p : Profile) (st : State N C) (node : N) (f : ℕ) (c : C) : Except Panic (State N C) := do
  let refCount ← p.subFit 32 (st.refCount node) 1
  let calls := if refCount = 0 then st.calls ++ [⟨.closed, node, f, c⟩] else st.calls
  pure { st with refCount := Function.update st.refCount node refCount, calls := calls }

/-- `drop` of the `i`-th live handle. -/
def dropFile (p : Profile) (st : State N C) (i : ℕ) : Except Panic (State N C) :=
  match st.files[i]? with
  | none => pure st
  | some file => close p { st with files := st.files.eraseIdx i } file.descriptor 0 file.userCred

/-- A step of the interleaving. -/
inductive Op (N C : Type)
  | openNode (node : N) (f : ℕ) (c : C)
  | dropFile (i : ℕ)

/-- The state after a step. -/
def step (p : Profile) (st : State N C) : Op N C → Except Panic (State N C)
  | .openNode node f c => OpenCount.openNode p st node f c
  | .dropFile i => OpenCount.dropFile p st i

/-- Nothing is open. -/
def State.init : State N C := ⟨fun _ => 0, [], []⟩

/-! ## The ledger -/

/-- The live handles of a node. -/
def live (files : List (File N C)) (node : N) : ℕ :=
  files.countP fun file => file.descriptor = node

/-- The live handles, and the calls due so far. -/
structure Ledger (N C : Type) where
  files : List (File N C)
  calls : List (Call N C)

/-- `open` is due with the first handle of a node, `close` with its last. -/
def Ledger.step (s : Ledger N C) : Op N C → Ledger N C
  | .openNode node f c =>
    ⟨⟨node, c⟩ :: s.files,
      if live s.files node = 0 then s.calls ++ [⟨.opened, node, f, c⟩] else s.calls⟩
  | .dropFile i =>
    match s.files[i]? with
    | none => s
    | some file => ⟨s.files.eraseIdx i,
        if live s.files file.descriptor = 1 then
          s.calls ++ [⟨.closed, file.descriptor, 0, file.userCred⟩]
        else s.calls⟩

/-- No node ever has `2 ^ 32` live handles. -/
def Bounded : Ledger N C → List (Op N C) → Prop
  | _, [] => True
  | s, op :: ops => (∀ node, live (s.step op).files node < 2 ^ 32) ∧ Bounded (s.step op) ops

/-- The calls on a node alternate, the first one being `open`. -/
def Alternates (calls : List (Call N C)) (node : N) : Prop :=
  ∀ i call, (calls.filter fun call => call.node = node)[i]? = some call →
    (call.kind = .opened ↔ i % 2 = 0)

@[simp] theorem live_cons (file : File N C) (files : List (File N C)) (node : N) :
    live (file :: files) node = live files node + if file.descriptor = node then 1 else 0 := by
  unfold live
  rw [List.countP_cons]
  simp only [decide_eq_true_eq]

theorem live_eraseIdx {files : List (File N C)} {i : ℕ} {file : File N C}
    (h : files[i]? = some file) (node : N) :
    live files node = live (files.eraseIdx i) node + if file.descriptor = node then 1 else 0 := by
  induction files generalizing i with
  | nil => cases h
  | cons a rest ih =>
    cases i with
    | zero =>
      cases h
      rw [List.eraseIdx_cons_zero, live_cons]
    | succ i =>
      rw [List.getElem?_cons_succ] at h
      rw [List.eraseIdx_cons_succ, live_cons, live_cons, ih h]
      omega

/-! ## The counter keeps the ledger -/

/-- The state's counters stand for the ledger's handles. -/
structure Refines (st : State N C) (s : Ledger N C) : Prop where
  count : ∀ node, st.refCount node = live s.files node
  files : st.files = s.files
  calls : st.calls = s.calls

theorem openNode_eq (p : Profile) {st : State N C} {node : N} (f : ℕ) (c : C)
    (h : st.refCount node + 1 < 2 ^ 32) :
    openNode p st node f c =
      .ok ⟨Function.update st.refCount node (st.refCount node + 1), ⟨node, c⟩ :: st.files,
        if st.refCount node = 0 then st.calls ++ [⟨.opened, node, f, c⟩] else st.calls⟩ := by
  unfold openNode
  rw [Profile.fit_of_lt p h]
  rfl

theorem close_eq (p : Profile) {st : State N C} {node : N} (f : ℕ) (c : C)
    (h : 1 ≤ st.refCount node) :
    close p st node f c =
      .ok ⟨Function.update st.refCount node (st.refCount node - 1), st.files,
        if st.refCount node - 1 = 0 then st.calls ++ [⟨.closed, node, f, c⟩] else st.calls⟩ := by
  have hsub : p.subFit 32 (st.refCount node) 1 = .ok (st.refCount node - 1) := if_pos h
  unfold close
  rw [hsub]
  rfl

theorem Ledger.dropFile_none {s : Ledger N C} {i : ℕ} (h : s.files[i]? = none) :
    s.step (.dropFile i) = s := by
  unfold Ledger.step
  simp only [h]

theorem Ledger.dropFile_some {s : Ledger N C} {i : ℕ} {file : File N C}
    (h : s.files[i]? = some file) :
    s.step (.dropFile i) = ⟨s.files.eraseIdx i,
      if live s.files file.descriptor = 1 then
        s.calls ++ [⟨.closed, file.descriptor, 0, file.userCred⟩] else s.calls⟩ := by
  unfold Ledger.step
  simp only [h]

theorem step_refines (p : Profile) {st : State N C} {s : Ledger N C} {op : Op N C}
    (h : Refines st s) (hb : ∀ node, live (s.step op).files node < 2 ^ 32) :
    ∃ st', step p st op = .ok st' ∧ Refines st' (s.step op) := by
  obtain ⟨hcount, hfiles, hcalls⟩ := h
  cases op with
  | openNode node f c =>
    have hlt : st.refCount node + 1 < 2 ^ 32 := by
      have := hb node
      rw [Ledger.step, live_cons, if_pos rfl] at this
      rw [hcount]
      exact this
    refine ⟨_, openNode_eq p f c hlt, fun x => ?_, by rw [hfiles]; rfl, ?_⟩
    · rw [Ledger.step, live_cons]
      show Function.update st.refCount node (st.refCount node + 1) x = _
      by_cases hx : node = x
      · subst hx
        rw [Function.update_self, hcount, if_pos rfl]
      · rw [Function.update_of_ne (Ne.symm hx), hcount, if_neg hx, Nat.add_zero]
    · simp only [Ledger.step, hcount, hcalls]
  | dropFile i =>
    rw [step, dropFile, hfiles]
    match hi : s.files[i]? with
    | none =>
      rw [Ledger.dropFile_none hi]
      exact ⟨st, rfl, hcount, hfiles, hcalls⟩
    | some file =>
      rw [Ledger.dropFile_some hi]
      have hlive := live_eraseIdx hi
      have hpos : 1 ≤ st.refCount file.descriptor := by
        have := hlive file.descriptor
        rw [if_pos rfl] at this
        rw [hcount]
        omega
      have hzero : st.refCount file.descriptor - 1 = 0 ↔ live s.files file.descriptor = 1 := by
        rw [hcount] at hpos ⊢
        omega
      refine ⟨_, close_eq p 0 file.userCred hpos, fun x => ?_, rfl, by simp only [hcalls, hzero]⟩
      have := hlive x
      show Function.update st.refCount file.descriptor (st.refCount file.descriptor - 1) x =
        live (s.files.eraseIdx i) x
      by_cases hx : file.descriptor = x
      · subst hx
        rw [if_pos rfl] at this
        rw [Function.update_self, hcount]
        omega
      · rw [if_neg hx] at this
        rw [Function.update_of_ne (Ne.symm hx), hcount]
        exact this

theorem run_refines (p : Profile) {ops : List (Op N C)} {st : State N C} {s : Ledger N C}
    (h : Refines st s) (hb : Bounded s ops) :
    ∃ st', ops.foldlM (step p) st = .ok st' ∧ Refines st' (ops.foldl Ledger.step s) := by
  induction ops generalizing st s with
  | nil => exact ⟨st, rfl, h⟩
  | cons op ops ih =>
    obtain ⟨st₁, hok₁, h₁⟩ := step_refines p h hb.1
    obtain ⟨st', hok', h'⟩ := ih h₁ hb.2
    refine ⟨st', ?_, h'⟩
    rw [List.foldlM_cons, hok₁]
    exact hok'

/-! ## The calls alternate -/

/-- The calls on a node. -/
def callsOn (calls : List (Call N C)) (node : N) : List (Call N C) :=
  calls.filter fun call => call.node = node

theorem callsOn_append (calls : List (Call N C)) (call : Call N C) (node : N) :
    callsOn (calls ++ [call]) node =
      if call.node = node then callsOn calls node ++ [call] else callsOn calls node := by
  unfold callsOn
  rw [List.filter_append]
  by_cases h : call.node = node
  · rw [if_pos h, List.filter_cons_of_pos (by simpa using h), List.filter_nil]
  · rw [if_neg h, List.filter_cons_of_neg (by simpa using h), List.filter_nil, List.append_nil]

/-- In the ledger the calls on a node alternate, and their number is odd while it is open. -/
structure Balanced (s : Ledger N C) (node : N) : Prop where
  alternates : Alternates s.calls node
  parity : (callsOn s.calls node).length % 2 = if live s.files node = 0 then 0 else 1

theorem alternates_append {calls : List (Call N C)} {node : N} {call : Call N C}
    (h : Alternates calls node) (hnode : call.node = node)
    (hkind : call.kind = .opened ↔ (callsOn calls node).length % 2 = 0) :
    Alternates (calls ++ [call]) node := by
  intro i c hc
  change (callsOn (calls ++ [call]) node)[i]? = some c at hc
  rw [callsOn_append, if_pos hnode] at hc
  rcases Nat.lt_trichotomy i (callsOn calls node).length with hi | hi | hi
  · rw [List.getElem?_append_left hi] at hc
    exact h i c hc
  · rw [hi, List.getElem?_concat_length] at hc
    obtain rfl := Option.some.inj hc
    rw [hi]
    exact hkind
  · rw [List.getElem?_eq_none (by rw [List.length_append, List.length_singleton]; omega)] at hc
    cases hc

theorem alternates_append_of_ne {calls : List (Call N C)} {node : N} {call : Call N C}
    (h : Alternates calls node) (hnode : call.node ≠ node) : Alternates (calls ++ [call]) node := by
  intro i c hc
  change (callsOn (calls ++ [call]) node)[i]? = some c at hc
  rw [callsOn_append, if_neg hnode] at hc
  exact h i c hc

/-- A step that calls nothing on the node, and leaves it live or not as it was. -/
theorem Balanced.frame {s s' : Ledger N C} {node : N} (h : Balanced s node)
    (hcalls : s'.calls = s.calls ∨ ∃ call, call.node ≠ node ∧ s'.calls = s.calls ++ [call])
    (hlive : live s'.files node = 0 ↔ live s.files node = 0) : Balanced s' node := by
  obtain ⟨halt, hpar⟩ := h
  rcases hcalls with hcalls | ⟨call, hnode, hcalls⟩
  · refine ⟨by rwa [hcalls], ?_⟩
    simp only [hcalls, hlive]
    exact hpar
  · refine ⟨by rw [hcalls]; exact alternates_append_of_ne halt hnode, ?_⟩
    simp only [hcalls, callsOn_append, if_neg hnode, hlive]
    exact hpar

/-- A step that makes the call that is due, and turns the node from not live to live or back. -/
theorem Balanced.call {s s' : Ledger N C} {node : N} {call : Call N C} (h : Balanced s node)
    (hcalls : s'.calls = s.calls ++ [call]) (hnode : call.node = node)
    (hkind : call.kind = .opened ↔ live s.files node = 0)
    (hlive : live s'.files node = 0 ↔ live s.files node ≠ 0) : Balanced s' node := by
  obtain ⟨halt, hpar⟩ := h
  have hdue : live s.files node = 0 ↔ (callsOn s.calls node).length % 2 = 0 := by
    split_ifs at hpar <;> omega
  refine ⟨by rw [hcalls]; exact alternates_append halt hnode (hkind.trans hdue), ?_⟩
  rw [hcalls, callsOn_append, if_pos hnode, List.length_append, List.length_singleton]
  split_ifs at hpar ⊢ <;> omega

theorem balanced_step {s : Ledger N C} (op : Op N C) (node : N) (h : Balanced s node) :
    Balanced (s.step op) node := by
  cases op with
  | openNode v f c =>
    have hlive := live_cons ⟨v, c⟩ s.files node
    rw [Ledger.step]
    by_cases hv : v = node
    · subst hv
      rw [if_pos rfl] at hlive
      by_cases hzero : live s.files v = 0
      · simp only [if_pos hzero]
        exact h.call rfl rfl (by simp [hzero]) (by simp only; omega)
      · simp only [if_neg hzero]
        exact h.frame (.inl rfl) (by simp only; omega)
    · rw [if_neg hv, Nat.add_zero] at hlive
      by_cases hzero : live s.files v = 0
      · simp only [if_pos hzero]
        exact h.frame (.inr ⟨_, hv, rfl⟩) (by simp only [hlive])
      · simp only [if_neg hzero]
        exact h.frame (.inl rfl) (by simp only [hlive])
  | dropFile i =>
    match hi : s.files[i]? with
    | none =>
      rw [Ledger.dropFile_none hi]
      exact h
    | some file =>
      rw [Ledger.dropFile_some hi]
      have hlive := live_eraseIdx hi node
      by_cases hv : file.descriptor = node
      · subst hv
        rw [if_pos rfl] at hlive
        by_cases hone : live s.files file.descriptor = 1
        · simp only [if_pos hone]
          exact h.call rfl rfl (by simp [hone]) (by simp only; omega)
        · simp only [if_neg hone]
          exact h.frame (.inl rfl) (by simp only; omega)
      · rw [if_neg hv, Nat.add_zero] at hlive
        by_cases hone : live s.files file.descriptor = 1
        · simp only [if_pos hone]
          exact h.frame (.inr ⟨_, hv, rfl⟩) (by simp only [hlive])
        · simp only [if_neg hone]
          exact h.frame (.inl rfl) (by simp only [hlive])

theorem balanced_run (ops : List (Op N C)) (node : N) {s : Ledger N C} (h : Balanced s node) :
    Balanced (ops.foldl Ledger.step s) node := by
  induction ops generalizing s with
  | nil => exact h
  | cons op ops ih => exact ih (balanced_step op node h)

/-- **Open counts over whole runs.** For every interleaving of opens and drops with fewer than
`2 ^ 32` live handles per node: no counter overflows or underflows, each `ref_count` is the number
of the node's live handles, the file system is called exactly where the ledger says, at each first
and each last handle of a node, and these calls alternate on each node, `open` first. -/
theorem open_counts (p : Profile) (ops : List (Op N C)) (hb : Bounded (⟨[], []⟩ : Ledger N C) ops) :
    ∃ st, ops.foldlM (step p) State.init = .ok st ∧
      (∀ node, st.refCount node = live st.files node) ∧
      ⟨st.files, st.calls⟩ = ops.foldl Ledger.step (⟨[], []⟩ : Ledger N C) ∧
      ∀ node, Alternates st.calls node := by
  have hinit : Refines (State.init : State N C) ⟨[], []⟩ := ⟨fun _ => rfl, rfl, rfl⟩
  obtain ⟨st, hok, hcount, hfiles, hcalls⟩ := run_refines p hinit hb
  refine ⟨st, hok, fun node => by rw [hcount, hfiles], by rw [hfiles, hcalls], fun node => ?_⟩
  have hnone : Alternates ([] : List (Call N C)) node := by
    intro i call hcall
    simp at hcall
  rw [hcalls]
  exact (balanced_run ops node ⟨hnone, rfl⟩).alternates

/-- Two handles on node 1 and one on node 2, dropped in another order. -/
def demoOps : List (Op ℕ Unit) :=
  [.openNode 1 0 (), .openNode 1 0 (), .openNode 2 0 (), .dropFile 2, .dropFile 0, .dropFile 0]

theorem open_counts_demo :
    ∃ st, demoOps.foldlM (step .release) State.init = .ok st ∧
      (∀ node, st.refCount node = live st.files node) ∧
      ⟨st.files, st.calls⟩ = demoOps.foldl Ledger.step (⟨[], []⟩ : Ledger ℕ Unit) ∧
      ∀ node, Alternates st.calls node := by
  refine open_counts .release demoOps ?_
  have hle : ∀ (files : List (File ℕ Unit)) (node : ℕ), files.length ≤ 3 →
      live files node < 2 ^ 32 := by
    intro files node h
    have := List.countP_le_length (p := fun file : File ℕ Unit => decide (file.descriptor = node))
      (l := files)
    unfold live
    omega
  exact ⟨fun _ => hle _ _ (by decide), fun _ => hle _ _ (by decide), fun _ => hle _ _ (by decide),
    fun _ => hle _ _ (by decide), fun _ => hle _ _ (by decide),
    fun _ => hle _ _ (by decide), trivial⟩

end CappuccinOS.OpenCount
