import CappuccinOS.Heap.Profiles
import CappuccinOS.Sync.Mutex

/-!
# The heap behind its lock (`GlobalAlloc for Mutex<LinkedListAllocator>`)

`alloc` and `dealloc` take the lock, call `inner_alloc` or `inner_dealloc` and drop the guard.
Any number of threads do so at once. How the two functions access the free list under the lock is
left open: `code` may cut them into accesses in any way, as long as it computes the same when it is
left alone.

A thread that gives a block back must hold it, and holds it no longer from the call on; without
overflow checks no request may be so large that the search leaves the word (`Disciplined`). Then
the blocks that threads hold are apart at any time, also while other threads are in the middle of a
call (`shared_heap_conservation`): the lock turns the run into one of calls in a row, and `Serves`
follows the heap along it.
-/

namespace CappuccinOS.Heap

open Cover Simulation
open Sync (Event SpecStep Spec)

/-! ## Requests -/

/-- `alloc` and `dealloc`. -/
inductive Request where
  | alloc (layout : Layout)
  | dealloc (b : Block)

/-- What a request does to the allocator: the address returned (0 also for `dealloc`) and the
allocator after it, or a panic. -/
def Request.serve (p : Profile) (a : LinkedListAllocator) :
    Request → Option (ℕ × LinkedListAllocator)
  | .alloc layout =>
    match innerAlloc p a layout with
    | .ok r => some r
    | .error _ => none
  | .dealloc b =>
    match innerDealloc p a b.ptr b.layout with
    | .ok a => some (0, a)
    | .error _ => none

theorem serve_alloc {p : Profile} {a a' : LinkedListAllocator} {layout : Layout} {ptr : ℕ}
    (h : (Request.alloc layout).serve p a = some (ptr, a')) :
    innerAlloc p a layout = .ok (ptr, a') := by
  unfold Request.serve at h
  cases hr : innerAlloc p a layout with
  | error e => simp [hr] at h
  | ok r =>
    simp only [hr, Option.some.injEq] at h
    rw [h]

theorem serve_dealloc {p : Profile} {a a' : LinkedListAllocator} {b : Block} {v : ℕ}
    (h : (Request.dealloc b).serve p a = some (v, a')) :
    innerDealloc p a b.ptr b.layout = .ok a' := by
  unfold Request.serve at h
  cases hr : innerDealloc p a b.ptr b.layout with
  | error e => simp [hr] at h
  | ok r =>
    simp only [hr, Option.some.injEq, Prod.mk.injEq] at h
    rw [h.2]

variable {T : Type*} [DecidableEq T]

/-- The blocks that threads hold after one more event: a block is taken over when `alloc` returns,
and given up when `dealloc` is called. -/
def holdStep (held : List Block) : Event T Request ℕ → List Block
  | .ret _ (.alloc layout) ptr => if ptr = 0 then held else ⟨ptr, layout⟩ :: held
  | .call _ (.dealloc b) => held.erase b
  | _ => held

/-- The blocks that threads hold. -/
def held (es : List (Event T Request ℕ)) : List Block := es.foldl holdStep []

/-- A thread asks for at least one byte, and without overflow checks for no more than there is room
for behind the heap; it gives back a block that is held. -/
def Allowed (p : Profile) (H : Place) (held : List Block) : Event T Request ℕ → Prop
  | .call _ (.alloc layout) => 1 ≤ layout.size ∧ (p = .release → H.Room layout)
  | .call _ (.dealloc b) => b ∈ held
  | .ret _ _ _ => True

/-- Every call of the run is allowed. -/
def Disciplined (p : Profile) (H : Place) (es : List (Event T Request ℕ)) : Prop :=
  ∀ before e after, es = before ++ e :: after → Allowed p H (held before) e

omit [DecidableEq T] in
theorem held_append (es : List (Event T Request ℕ)) (e : Event T Request ℕ) :
    held (es ++ [e]) = holdStep (held es) e := by
  rw [held, List.foldl_append]
  rfl

omit [DecidableEq T] in
theorem Disciplined.of_append {p : Profile} {H : Place} {es es' : List (Event T Request ℕ)}
    (h : Disciplined p H (es ++ es')) : Disciplined p H es := by
  rintro before e after rfl
  exact h before e (after ++ es') (by rw [List.append_assoc, List.cons_append])

/-! ## The heap along a run -/

/-- The object's allocator is the heap's, with the blocks that threads hold or are giving back. -/
structure Serves (p : Profile) (H : Place) (es : List (Event T Request ℕ))
    (a : Spec T Request LinkedListAllocator) (giving : List (T × Block)) : Prop where
  inv : Inv H ⟨a.data, held es ++ giving.map Prod.snd⟩
  nodup : giving.Nodup
  mem_iff : ∀ t b, (t, b) ∈ giving ↔ a.pending t = some (.dealloc b)
  room : ∀ t layout, a.pending t = some (.alloc layout) → p = .release → H.Room layout

theorem Inv.perm {H : Place} {a : LinkedListAllocator} {l l' : List Block} (h : Inv H ⟨a, l⟩)
    (hp : l.Perm l') : Inv H ⟨a, l'⟩ := by
  refine ⟨h.head, h.sorted, h.ok, fun x => ?_⟩
  have hx := h.cover x
  simp only [State.owned, cover_append] at hx ⊢
  rw [← hx, cover_perm (hp.map Block.interval)]

section Run

variable {p : Profile} {H : Place} {code : Request → Prog LinkedListAllocator ℕ}
  {es : List (Event T Request ℕ)} {a : Spec T Request LinkedListAllocator}
  {giving : List (T × Block)} {t : T}

theorem pending_update {ρ : Type*} {p : T → Option ρ} {o : Option ρ} {u : T} {r : ρ}
    (h : Function.update p t o u = some r) : u = t ∧ o = some r ∨ u ≠ t ∧ p u = some r := by
  by_cases hu : u = t
  · subst hu
    rw [Function.update_self] at h
    exact .inl ⟨rfl, h⟩
  · rw [Function.update_of_ne hu] at h
    exact .inr ⟨hu, h⟩

/-- A call: a block that is given back goes from those held to those being given. -/
theorem serves_call (h : Serves p H es a giving) {r : Request} (hfree : a.pending t = none)
    (hallowed : Allowed p H (held es) (Event.call (α := ℕ) t r)) :
    ∃ giving', Serves p H (es ++ [.call t r])
      ⟨a.data, Function.update a.pending t (some r)⟩ giving' := by
  have hnot : ∀ b, (t, b) ∉ giving := fun b hb => by
    rw [h.mem_iff, hfree] at hb
    cases hb
  have hother : ∀ {u b}, u ≠ t →
      ((u, b) ∈ giving ↔ Function.update a.pending t (some r) u = some (.dealloc b)) := by
    intro u b hu
    rw [Function.update_of_ne hu, h.mem_iff]
  cases r with
  | alloc layout =>
    refine ⟨giving, by rw [held_append]; exact h.inv, h.nodup, fun u b => ?_, fun u l hl => ?_⟩
    · show _ ↔ Function.update a.pending t _ u = _
      by_cases hu : u = t
      · subst hu
        rw [Function.update_self]
        exact ⟨fun hb => absurd hb (hnot b), nofun⟩
      · exact hother hu
    · rcases pending_update hl with ⟨-, hr⟩ | ⟨-, hp⟩
      · cases hr
        exact hallowed.2
      · exact h.room u l hp
  | dealloc b =>
    refine ⟨(t, b) :: giving, ?_, List.nodup_cons.mpr ⟨hnot b, h.nodup⟩, fun u c => ?_,
      fun u l hl => ?_⟩
    · rw [held_append]
      refine h.inv.perm ?_
      show (held es ++ giving.map Prod.snd).Perm ((held es).erase b ++ b :: giving.map Prod.snd)
      refine ((List.perm_cons_erase hallowed).append_right _).trans ?_
      exact List.perm_middle.symm
    · show _ ↔ Function.update a.pending t _ u = _
      by_cases hu : u = t
      · subst hu
        rw [Function.update_self, List.mem_cons]
        constructor
        · rintro (heq | hmem)
          · rw [(Prod.mk.inj heq).2]
          · exact absurd hmem (hnot c)
        · intro heq
          cases heq
          exact .inl rfl
      · rw [List.mem_cons, ← hother hu]
        exact or_iff_right fun heq => hu (Prod.mk.inj heq).1
    · rcases pending_update hl with ⟨-, hr⟩ | ⟨-, hp⟩
      · cases hr
      · exact h.room u l hp

theorem serves_ret (h : Serves p H es a giving) (hH : p = .release → H.InWord) {r : Request}
    {v : ℕ} {d : LinkedListAllocator} (hp : a.pending t = some r)
    (hr : r.serve p a.data = some (v, d)) :
    ∃ giving', Serves p H (es ++ [.ret t r v]) ⟨d, Function.update a.pending t none⟩ giving' := by
  have hroom : ∀ u l, Function.update a.pending t none u = some (.alloc l) →
      p = .release → H.Room l := by
    intro u l hl
    rcases pending_update hl with ⟨-, hr⟩ | ⟨-, hp⟩
    · cases hr
    · exact h.room u l hp
  cases r with
  | alloc layout =>
    have hok := serve_alloc hr
    rw [innerAlloc_profile h.inv p fun hrel => ⟨hH hrel, h.room t layout hp hrel⟩] at hok
    refine ⟨giving, ?_, h.nodup, fun u b => ?_, hroom⟩
    · rw [held_append]
      by_cases hv : v = 0
      · subst hv
        exact inv_allocNull h.inv hok
      · show Inv H ⟨d, (if v = 0 then _ else _) ++ _⟩
        rw [if_neg hv]
        exact inv_alloc h.inv hok hv
    · show _ ↔ Function.update a.pending t _ u = _
      by_cases hu : u = t
      · subst hu
        rw [Function.update_self, h.mem_iff, hp]
        exact ⟨nofun, nofun⟩
      · rw [Function.update_of_ne hu, h.mem_iff]
  | dealloc b =>
    have hmem : (t, b) ∈ giving := (h.mem_iff t b).mpr hp
    refine ⟨giving.erase (t, b), ?_, h.nodup.erase _, fun u c => ?_, hroom⟩
    · rw [held_append]
      have hperm : (held es ++ giving.map Prod.snd).Perm
          (b :: (held es ++ (giving.erase (t, b)).map Prod.snd)) :=
        ((List.perm_cons_erase hmem).map Prod.snd |>.append_left _).trans List.perm_middle
      have hI := h.inv.perm hperm
      have hok := serve_dealloc hr
      rw [innerDealloc_profile hI p hH List.mem_cons_self] at hok
      have hinv := inv_dealloc hI List.mem_cons_self hok
      rw [List.erase_cons_head] at hinv
      exact hinv
    · show _ ↔ Function.update a.pending t _ u = _
      rw [h.nodup.mem_erase_iff]
      by_cases hu : u = t
      · subst hu
        rw [Function.update_self, h.mem_iff, hp]
        refine ⟨fun hc => absurd ?_ hc.1, nofun⟩
        cases hc.2
        rfl
      · rw [Function.update_of_ne hu, h.mem_iff]
        exact and_iff_right fun heq => hu (Prod.mk.inj heq).1

theorem serves_run (hH : p = .release → H.InWord) (hcode : ∀ r d, (code r).eval d = r.serve p d)
    {d : LinkedListAllocator} (hd : Inv H ⟨d, []⟩)
    (h : Run (SpecStep code) (Spec.init T Request d) es a) (hdisc : Disciplined p H es) :
    ∃ giving, Serves p H es a giving := by
  induction h with
  | refl => exact ⟨[], hd, List.nodup_nil, fun _ _ => ⟨nofun, nofun⟩, nofun⟩
  | tail _ hstep ih =>
    obtain ⟨giving, hS⟩ := ih hdisc.of_append
    cases hstep with
    | call hfree => exact serves_call hS hfree (hdisc _ _ [] rfl)
    | ret hp hr => exact serves_ret hS hH hp ((hcode _ _).symm.trans hr)

end Run

/-- **The shared heap.** Under either profile, for any number of threads, any interleaving of their
accesses and any implementation of the two functions by accesses under the lock: in every state the
blocks that threads hold are apart and lie in the heap; when no thread is in a call, these blocks
and the free regions partition the heap, and the free list is strictly sorted. -/
theorem shared_heap_conservation {T : Type*} [DecidableEq T] {p : Profile} {H : Place}
    (hH : p = .release → H.InWord) {code : Request → Prog LinkedListAllocator ℕ}
    (hcode : ∀ r d, (code r).eval d = r.serve p d) {d : LinkedListAllocator}
    (hd : init p H = .ok d) {es : List (Event T Request ℕ)}
    {s : Sync.State T Request LinkedListAllocator ℕ}
    (h : Run (Sync.Step code) (.init T Request ℕ d) es s) (hdisc : Disciplined p H es) :
    ((held es).map Block.interval).Pairwise Interval.Apart ∧
      (∀ b ∈ held es, ∀ x, b.interval.Mem x → H.base ≤ x ∧ x < H.base + heapSize) ∧
      ((∀ t, s.threads t = .idle) →
        (State.owned ⟨s.mutex.data, held es⟩).Pairwise Interval.Apart ∧
        (∀ x, (∃ i ∈ State.owned ⟨s.mutex.data, held es⟩, i.Mem x) ↔
          H.base ≤ x ∧ x < H.base + heapSize) ∧ Sorted s.mutex.data.nodes) := by
  obtain ⟨a, hrun, hR⟩ := (Sync.forward_refines code).run (Sync.refines_init _) h
  rw [init_profile H p hH] at hd
  obtain ⟨giving, hS⟩ := serves_run hH hcode (inv_init hd) hrun hdisc
  have hheld : ∀ x, cover ((held es).map Block.interval) x ≤ ind ⟨H.base, heapSize⟩ x := by
    intro x
    have hx := hS.inv.cover x
    simp only [State.owned, List.map_append, cover_append] at hx
    omega
  refine ⟨pairwise_disjoint_of_cover_le_one fun x => (hheld x).trans (ind_le_one _ x),
    fun b hb x hx => ?_, fun hidle => ?_⟩
  · have hpos := exists_mem_iff_cover_pos.mp ⟨_, List.mem_map_of_mem hb, hx⟩
    exact ind_pos.mp (lt_of_lt_of_le hpos (hheld x))
  · -- nobody is giving a block back, and the lock is free
    have hnil : giving = [] := by
      refine List.eq_nil_iff_forall_not_mem.mpr fun p hp => ?_
      have := (hS.mem_iff p.1 p.2).mp hp
      rw [hR.pending, hidle] at this
      cases this
    have hfree : s.mutex.locked = false := by
      by_contra hlocked
      obtain ⟨t, ht⟩ := hR.locked.mp (by simpa using hlocked)
      rw [hidle t] at ht
      exact ht
    have hinv : Inv H ⟨s.mutex.data, held es⟩ := by
      have := hS.inv
      rwa [hnil, List.map_nil, List.append_nil, ← hR.free hfree] at this
    refine ⟨pairwise_disjoint_of_cover_le_one fun x => hinv.cover x ▸ ind_le_one _ x, fun x => ?_,
      hinv.sorted⟩
    rw [exists_mem_iff_cover_pos, hinv.cover x, ind_pos]
    exact Iff.rfl

/-- Each function in one access. -/
def demoCode (r : Request) : Prog LinkedListAllocator ℕ := .atomically (r.serve .release)

/-- The heap of `demoPlace` after `init`. -/
def demoHeap : LinkedListAllocator := ⟨⟨0x1000, 0⟩, [⟨0x800000, heapSize⟩]⟩

/-- A call for `demoLayout`. -/
def demoRequest : Request := .alloc demoLayout

/-- Without overflow checks: one thread has its block, a second one is waiting. -/
theorem shared_heap_conservation_demo :
    ∃ s, Run (Sync.Step demoCode) (.init Bool Request ℕ demoHeap)
        [.call true demoRequest, .ret true demoRequest 0x800000, .call false demoRequest] s ∧
      ((held [.call true demoRequest, .ret true demoRequest 0x800000,
        .call false demoRequest]).map Block.interval).Pairwise Interval.Apart := by
  have hrun : Run (Sync.Step demoCode) (.init Bool Request ℕ demoHeap)
      [.call true demoRequest, .ret true demoRequest 0x800000, .call false demoRequest] _ :=
    Run.head (Sync.Step.call (t := true) (r := demoRequest) rfl)
      (Run.head (Sync.Step.acquire (t := true) (r := demoRequest) rfl rfl)
        (Run.head (Sync.Step.access (t := true) (r := demoRequest) rfl)
          (Run.head (Sync.Step.unlock (t := true) (r := demoRequest) (a := 0x800000) rfl)
            (Run.single (Sync.Step.call (t := false) (r := demoRequest) rfl)))))
  refine ⟨_, hrun, (shared_heap_conservation (p := .release) (H := demoPlace)
    (fun _ => ⟨by decide, by decide⟩) (fun r d => Prog.eval_atomically (r.serve .release) d)
    (by decide) hrun ?_).1⟩
  intro before e after heq
  have hmem : e ∈ before ++ e :: after := by simp
  rw [← heq] at hmem
  rcases List.mem_cons.mp hmem with rfl | hmem
  · exact ⟨by decide, fun _ => by decide⟩
  · rcases List.mem_cons.mp hmem with rfl | hmem
    · trivial
    · obtain rfl := List.mem_singleton.mp hmem
      exact ⟨by decide, fun _ => by decide⟩

end CappuccinOS.Heap
