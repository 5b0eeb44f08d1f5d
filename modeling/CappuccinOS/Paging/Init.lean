import CappuccinOS.Paging.LastWriter
import CappuccinOS.Pmm.Init

/-!
# The first address space (`vmm_init`)

`vmm_init` maps the first 4 GiB of physical memory and the rest of the memory map at the offset of
the higher half, in pages of 1 GiB, and the kernel image at its virtual base, in pages of 4 KiB.
All its calls of `vmm_map` are of two kinds (`Direct`, `Image`), and a page of one kind never meets
a page of the other. So no call splits a page, every address is translated by the last call for it,
and calls of one kind agree on the addresses they share.

1. `Built` holds of the state between two calls, for the list of the calls so far.
2. `Serves st S` forgets the list but for the addresses `S` that the calls cover; each loop adds
   the addresses it is there for (`serves_mapRange`, `Delivers.foldlM_union`).
3. `directMap_vmmInit` reads the walks off.
-/

namespace CappuccinOS.Paging

open Pmm (Entry EntryType)

/-- What Limine answers to the requests of `vmm_init`. -/
structure Limine where
  hhdmOffset : ℕ
  virtualBase : ℕ
  physicalBase : ℕ
  memmap : List Entry

def vmmFlagWrite : ℕ := 1 <<< 1

/-- Machine arithmetic between the calls. -/
def lift {α : Type} (x : Except Panic α) : Except Fault α := x.mapError .panic

theorem lift_ok_bind {α β : Type} (a : α) (f : α → Except Fault β) :
    (lift (.ok a) >>= f) = f a := rfl

/-- The loops of `vmm_init`: `while i < length`, with a call for the page at `i`. -/
def mapRange (p : Profile) (M : Machine) (fuel root virt phys flags length : ℕ) (size : PageSize)
    (st : State) : Except Fault State :=
  (List.range ((length + size.bytes - 1) / size.bytes)).foldlM (fun st k => do
    let virtualAddr ← lift (p.add virt (k * size.bytes))
    let physicalAddr ← lift (p.add phys (k * size.bytes))
    vmmMap M fuel st root virtualAddr physicalAddr flags size) st

/-- The body of the second loop. -/
def mapKernel (p : Profile) (M : Machine) (fuel root : ℕ) (L : Limine) (st : State) (e : Entry) :
    Except Fault State :=
  if e.entryType ≠ .kernelAndModules then .ok st
  else mapRange p M fuel root L.virtualBase L.physicalBase 0x02 e.length .size4KiB st

/-- The 1 GiB pages of the third loop, for the addresses from `base` to `top`. -/
def mapAligned (p : Profile) (M : Machine) (fuel root : ℕ) (L : Limine) (base top : ℕ)
    (st : State) : Except Fault State :=
  if base ≥ top then .ok st
  else do
    let alignedBase ← lift (alignDown p base 0x40000000)
    let alignedTop ← lift (alignUp p top 0x40000000)
    let alignedLength ← lift (p.sub alignedTop alignedBase)
    mapRange p M fuel root (L.hhdmOffset + alignedBase) alignedBase 0x02 alignedLength .size1GiB st

/-- The body of the third loop. -/
def mapEntry (p : Profile) (M : Machine) (fuel root : ℕ) (L : Limine) (st : State) (e : Entry) :
    Except Fault State :=
  if e.entryType = .reserved ∨ e.entryType = .badMemory then .ok st
  else do
    let top ← lift (p.add e.base e.length)
    mapAligned p M fuel root L (if e.base < 0x100000000 then 0x100000000 else e.base) top st

/-- `vmm_init`, up to the switch; `root` is the frame of the page directory. -/
def vmmInit (p : Profile) (M : Machine) (fuel root : ℕ) (L : Limine) : Except Fault State := do
  let st ← mapRange p M fuel root L.hhdmOffset 0 vmmFlagWrite 0x100000000 .size1GiB
    (State.init root)
  let st ← L.memmap.foldlM (mapKernel p M fuel root L) st
  L.memmap.foldlM (mapEntry p M fuel root L) st

/-! ## What is promised, and what is built -/

/-- The memory of the entry is in the direct map. -/
def Mapped (e : Entry) : Prop := e.entryType ≠ .reserved ∧ e.entryType ≠ .badMemory

/-- What the boot protocol promises of the answers: the offset is in the higher half and the image
above the window; the window ends where its last 1 GiB page does. -/
structure Limine.Sound (L : Limine) : Prop where
  hhdm_aligned : L.hhdmOffset % 0x40000000 = 0
  higherHalf : 2 ^ 64 - 2 ^ 47 ≤ L.hhdmOffset
  ends : ∀ e ∈ L.memmap, e.base + e.length ≤ 2 ^ 46
  window_low : L.hhdmOffset + 0x100000000 ≤ L.virtualBase
  window : ∀ e ∈ L.memmap, Mapped e →
    L.hhdmOffset + (e.base + e.length + 0x3FFFFFFF) / 0x40000000 * 0x40000000 ≤ L.virtualBase
  virtual_lt : L.virtualBase < 2 ^ 64
  virtual_aligned : L.virtualBase % 0x1000 = 0
  physical_aligned : L.physicalBase % 0x1000 = 0
  physical_lt : L.physicalBase < 2 ^ 46

/-- The walk of `v` gives `a`, writable. -/
def Translates (st : State) (root v a : ℕ) : Prop :=
  ∃ l, walk st root v = some l ∧ l.phys = a ∧ l.flags &&& ptFlagWrite = ptFlagWrite

/-- What the kernel relies on once the tables are in use. -/
structure DirectMap (L : Limine) (root : ℕ) (st : State) : Prop where
  low : ∀ a < 2 ^ 32, Translates st root (L.hhdmOffset + a) a
  entries : ∀ e ∈ L.memmap, Mapped e → ∀ a, e.base ≤ a → a < e.base + e.length →
    Translates st root (L.hhdmOffset + a) a
  image : ∀ e ∈ L.memmap, e.entryType = .kernelAndModules → ∀ i < e.length,
    Translates st root ((L.virtualBase + i) % 2 ^ 64) (L.physicalBase + i)

/-- A 1 GiB page of the direct map. -/
structure Direct (L : Limine) (c : Call) : Prop where
  size : c.size = .size1GiB
  flags : c.flags = ptFlagWrite
  virt : c.virt = L.hhdmOffset + c.phys
  window : L.hhdmOffset + c.phys + 0x40000000 ≤ L.virtualBase

/-- A page of the kernel image. -/
structure Image (L : Limine) (c : Call) : Prop where
  size : c.size = .size4KiB
  flags : c.flags = ptFlagWrite
  page : ∃ i, i % 0x1000 = 0 ∧ i < 2 ^ 46 ∧ c.virt = (L.virtualBase + i) % 2 ^ 64 ∧
    c.phys = L.physicalBase + i

section Kinds

variable {L : Limine} {c : Call} {v i : ℕ}

theorem Image.not_contains (hL : L.Sound) (hc : Image L c) (hlow : L.hhdmOffset ≤ v)
    (hhigh : v < L.virtualBase) : ¬ c.Contains v := by
  obtain ⟨i, -, hi, hvirt, -⟩ := hc.page
  have h1 := hL.higherHalf
  have h2 := hL.virtual_lt
  have h3 := hL.virtual_aligned
  unfold Call.Contains
  rw [hc.size, hvirt]
  simp only [PageSize.bytes, PageSize.toNat, pageSizes]
  omega

theorem Direct.not_contains (hL : L.Sound) (hc : Direct L c) (hi : i < 2 ^ 46) :
    ¬ c.Contains ((L.virtualBase + i) % 2 ^ 64) := by
  have h1 := hL.higherHalf
  have h2 := hL.virtual_lt
  have h3 := hc.window
  unfold Call.Contains
  rw [hc.size, hc.virt]
  simp only [PageSize.bytes, PageSize.toNat, pageSizes]
  omega

theorem Direct.leaf_phys (hL : L.Sound) (hc : Direct L c) {gib : Bool} {a : ℕ} (ha : a < 2 ^ 47)
    (h : c.Contains (L.hhdmOffset + a)) : (c.leaf gib (L.hhdmOffset + a)).phys = a := by
  have h1 := hL.higherHalf
  have h2 := hL.virtual_lt
  have h3 := hc.window
  unfold Call.Contains at h
  rw [hc.size, hc.virt] at h
  simp only [PageSize.bytes, PageSize.toNat, pageSizes] at h
  simp only [Call.leaf, hc.virt]
  omega

theorem Image.leaf_phys (hL : L.Sound) (hc : Image L c) {gib : Bool} (hi : i < 2 ^ 46)
    (h : c.Contains ((L.virtualBase + i) % 2 ^ 64)) :
    (c.leaf gib ((L.virtualBase + i) % 2 ^ 64)).phys = L.physicalBase + i := by
  obtain ⟨j, -, hj, hvirt, hphys⟩ := hc.page
  have h1 := hL.higherHalf
  have h2 := hL.virtual_lt
  unfold Call.Contains at h
  rw [hc.size, hvirt] at h
  simp only [PageSize.bytes, PageSize.toNat, pageSizes] at h
  simp only [Call.leaf, hvirt, hphys]
  omega

end Kinds

/-! ## The loops -/

section Loops

variable {p : Profile} {M : Machine} {fuel root : ℕ} {L : Limine} {st : State} {cs : List Call}
  {c : Call} {S : Set ℕ}

/-- The state after the calls `cs`, all of the two kinds. -/
structure Built (M : Machine) (root : ℕ) (L : Limine) (cs : List Call) (st : State) : Prop where
  holds : Holds M root (fun _ => True) cs st
  kinds : ∀ c ∈ cs, Direct L c ∨ Image L c

/-- The calls so far cover the addresses in `S`. -/
def Serves (M : Machine) (root : ℕ) (L : Limine) (st : State) (S : Set ℕ) : Prop :=
  ∃ cs, Built M root L cs st ∧ ∀ v ∈ S, ∃ c ∈ cs, c.Contains v

theorem exists_of_lastWriter {v : ℕ} (h : lastWriter cs v = some c) : c ∈ cs ∧ c.Contains v :=
  ⟨List.mem_reverse.mp (List.mem_of_find?_eq_some h), by simpa using List.find?_some h⟩

theorem exists_lastWriter {v : ℕ} (hc : c ∈ cs) (hv : c.Contains v) :
    ∃ w, lastWriter cs v = some w := by
  refine Option.isSome_iff_exists.mp (List.find?_isSome.mpr ⟨c, List.mem_reverse.mpr hc, ?_⟩)
  exact decide_eq_true hv

theorem leafSize_le (hL : L.Sound) (hcs : ∀ c ∈ cs, Direct L c ∨ Image L c)
    (hc : Direct L c ∨ Image L c) {w : Call} (hw : lastWriter cs c.virt = some w) :
    w.leafSize M.is1GibPageSupported ≤ c.size.bytes := by
  obtain ⟨hmem, hcontains⟩ := exists_of_lastWriter hw
  have hle : w.leafSize M.is1GibPageSupported ≤ w.size.bytes := by
    unfold Call.leafSize
    split_ifs with h
    · rw [h.1]
      decide
    · exact le_rfl
  refine hle.trans ?_
  rcases hc with hc | hc
  · rw [hc.size]
    cases w.size <;> decide
  · obtain ⟨i, -, hi, hvirt, -⟩ := hc.page
    rw [hvirt] at hcontains
    rcases hcs w hmem with hw' | hw'
    · exact absurd hcontains (hw'.not_contains hL hi)
    · rw [hc.size, hw'.size]

theorem Built.step (hM : FreshFrames M root) (hmode : M.mode = .fourLevel) (hfuel : 2 ≤ fuel)
    (hL : L.Sound) (h : Built M root L cs st) (hc : Direct L c ∨ Image L c) :
    Delivers (c.map M fuel root st) (Built M root L (cs ++ [c])) := by
  refine (h.holds.step hM hmode (.inl hfuel) (fun w => leafSize_le hL h.kinds hc)
    fun _ => trivial).mono fun st' h' => ⟨h', fun c' hc' => ?_⟩
  rcases List.mem_append.mp hc' with hc' | hc'
  · exact h.kinds c' hc'
  · rw [List.mem_singleton.mp hc']
    exact hc

theorem Serves.init : Serves M root L (State.init root) ∅ :=
  ⟨[], ⟨Holds.init, by simp⟩, by simp⟩

theorem Serves.call (hM : FreshFrames M root) (hmode : M.mode = .fourLevel) (hfuel : 2 ≤ fuel)
    (hL : L.Sound) (hc : Direct L c ∨ Image L c) (h : Serves M root L st S) :
    Delivers (c.map M fuel root st) fun st' => Serves M root L st' (S ∪ {v | c.Contains v}) := by
  obtain ⟨cs, hbuilt, hS⟩ := h
  refine (hbuilt.step hM hmode hfuel hL hc).mono fun st' h' => ⟨cs ++ [c], h', ?_⟩
  rintro v (hv | hv)
  · obtain ⟨c', hc', hcontains⟩ := hS v hv
    exact ⟨c', List.mem_append_left _ hc', hcontains⟩
  · exact ⟨c, by simp, hv⟩

theorem Delivers.foldlM_union {α σ : Type} {R : State → Set α → Prop}
    {f : State → σ → Except Fault State}
    {T : σ → Set α} {l : List σ}
    (hf : ∀ x ∈ l, ∀ st S, R st S → Delivers (f st x) fun st' => R st' (S ∪ T x))
    {S : Set α} (h : R st S) :
    Delivers (l.foldlM f st) fun st' => R st' (S ∪ {v | ∃ x ∈ l, v ∈ T x}) := by
  induction l generalizing st S with
  | nil =>
    refine .ok ?_
    simpa using h
  | cons x l ih =>
    rw [List.foldlM_cons]
    refine (hf x (by simp) st S h).bind fun st' h' => ?_
    refine (ih (fun y hy => hf y (by simp [hy])) h').mono fun st'' h'' => ?_
    have hunion : S ∪ T x ∪ {v | ∃ y ∈ l, v ∈ T y} = S ∪ {v | ∃ y ∈ x :: l, v ∈ T y} := by
      ext v
      simp [or_assoc]
    rwa [hunion] at h''

theorem Serves.mono {S' : Set ℕ} (h : Serves M root L st S) (hS : S' ⊆ S) :
    Serves M root L st S' := by
  obtain ⟨cs, hbuilt, hcover⟩ := h
  exact ⟨cs, hbuilt, fun v hv => hcover v (hS hv)⟩

theorem contains_of_offset {w j : ℕ} (hvirt : c.virt = w % 2 ^ 64) (hj : j < c.size.bytes) :
    c.Contains ((w + j) % 2 ^ 64) := by
  have halign := c.virt_aligned
  unfold Call.Contains
  rw [hvirt] at halign ⊢
  cases hs : c.size with
  | size4KiB =>
    simp only [hs, PageSize.bytes, PageSize.toNat, pageSizes] at *
    omega
  | size2MiB =>
    simp only [hs, PageSize.bytes, PageSize.toNat, pageSizes] at *
    omega
  | size1GiB =>
    simp only [hs, PageSize.bytes, PageSize.toNat, pageSizes] at *
    omega

theorem serves_mapRange (hM : FreshFrames M root) (hmode : M.mode = .fourLevel) (hfuel : 2 ≤ fuel)
    (hL : L.Sound) {virt phys flags length : ℕ} {size : PageSize}
    (hcall : ∀ i < length, i % size.bytes = 0 → ∃ c : Call, (Direct L c ∨ Image L c) ∧
      c.size = size ∧ c.flags = flags ∧ p.add virt i = .ok c.virt ∧ p.add phys i = .ok c.phys)
    (h : Serves M root L st S) :
    Delivers (mapRange p M fuel root virt phys flags length size st) fun st' =>
      Serves M root L st' (S ∪ {v | ∃ i < length, v = (virt + i) % 2 ^ 64}) := by
  have hpos : 0 < size.bytes := by
    rw [PageSize.bytes_eq]
    exact Nat.two_pow_pos _
  -- turn `k` adds its page
  let T (k : ℕ) : Set ℕ := {v | ∃ j < size.bytes, v = (virt + k * size.bytes + j) % 2 ^ 64}
  have hturn : ∀ k ∈ List.range ((length + size.bytes - 1) / size.bytes), ∀ st S,
      Serves M root L st S → Delivers (do
        let virtualAddr ← lift (p.add virt (k * size.bytes))
        let physicalAddr ← lift (p.add phys (k * size.bytes))
        vmmMap M fuel st root virtualAddr physicalAddr flags size)
        fun st' => Serves M root L st' (S ∪ T k) := by
    intro k hk st S h
    have hlt : k * size.bytes < length := by
      have := (Nat.le_div_iff_mul_le hpos).mp (List.mem_range.mp hk)
      rw [Nat.succ_mul] at this
      omega
    obtain ⟨c, hc, rfl, rfl, hvirt, hphys⟩ := hcall _ hlt (Nat.mul_mod_left _ _)
    rw [hvirt, lift_ok_bind, hphys, lift_ok_bind]
    refine (h.call hM hmode hfuel hL hc).mono fun st' h' => h'.mono ?_
    rintro v (hv | ⟨j, hj, rfl⟩)
    · exact .inl hv
    · exact .inr (contains_of_offset (Profile.eq_mod_of_add hvirt) hj)
  refine (Delivers.foldlM_union hturn h).mono fun st' h' => h'.mono ?_
  rintro v (hv | ⟨i, hi, rfl⟩)
  · exact .inl hv
  · refine .inr ⟨i / size.bytes, List.mem_range.mpr ?_, i % size.bytes, Nat.mod_lt _ hpos, ?_⟩
    · rw [← Nat.succ_le_iff, Nat.le_div_iff_mul_le hpos, Nat.succ_mul]
      have := Nat.div_mul_le_self i size.bytes
      omega
    · rw [Nat.add_assoc, Nat.div_add_mod']

theorem exists_direct (hL : L.Sound) {a : ℕ} (ha : a % 0x40000000 = 0)
    (hwindow : L.hhdmOffset + a + 0x40000000 ≤ L.virtualBase) :
    ∃ c, Direct L c ∧ c.virt = L.hhdmOffset + a ∧ c.phys = a := by
  have h1 := hL.higherHalf
  have h2 := hL.virtual_lt
  have h3 := hL.hhdm_aligned
  refine ⟨⟨L.hhdmOffset + a, a, ptFlagWrite, .size1GiB, by omega, ?_, ha, by omega, by decide⟩,
    ⟨rfl, rfl, rfl, hwindow⟩, rfl, rfl⟩
  simp only [PageSize.bytes, PageSize.toNat, pageSizes]
  omega

theorem exists_image (hL : L.Sound) {i : ℕ} (hi : i % 0x1000 = 0) (hlt : i < 2 ^ 46) :
    ∃ c, Image L c ∧ c.virt = (L.virtualBase + i) % 2 ^ 64 ∧ c.phys = L.physicalBase + i := by
  have h1 := hL.virtual_aligned
  have h2 := hL.physical_aligned
  have h3 := hL.physical_lt
  refine ⟨⟨(L.virtualBase + i) % 2 ^ 64, L.physicalBase + i, ptFlagWrite, .size4KiB,
    Nat.mod_lt _ (by norm_num), ?_, ?_, by omega, by decide⟩,
    ⟨rfl, rfl, i, hi, hlt, rfl, rfl⟩, rfl, rfl⟩
  · simp only [PageSize.bytes, PageSize.toNat, pageSizes]
    omega
  · simp only [PageSize.bytes, PageSize.toNat, pageSizes]
    omega

section Bodies

variable (hM : FreshFrames M root) (hmode : M.mode = .fourLevel) (hfuel : 2 ≤ fuel) (hL : L.Sound)

include hM hmode hfuel hL

theorem serves_direct {base length : ℕ} (hbase : base % 0x40000000 = 0)
    (hwindow : L.hhdmOffset + base + (length + 0x3FFFFFFF) / 0x40000000 * 0x40000000 ≤
      L.virtualBase)
    (h : Serves M root L st S) :
    Delivers (mapRange p M fuel root (L.hhdmOffset + base) base ptFlagWrite length .size1GiB st)
      fun st' => Serves M root L st' (S ∪ {v | ∃ a, base ≤ a ∧ a < base + length ∧
        v = L.hhdmOffset + a}) := by
  have hlt := hL.virtual_lt
  refine (serves_mapRange hM hmode hfuel hL (fun i hi hmod => ?_) h).mono fun st' h' => h'.mono ?_
  · simp only [PageSize.bytes, PageSize.toNat, pageSizes] at hmod
    obtain ⟨c, hc, hvirt, hphys⟩ := @exists_direct L hL (base + i) (by omega) (by omega)
    have hadd : L.hhdmOffset + base + i < wordSize := by
      unfold wordSize
      omega
    refine ⟨c, .inl hc, hc.size, hc.flags, ?_, ?_⟩
    · rw [hvirt, p.add_of_lt hadd, Nat.add_assoc]
    · rw [hphys, p.add_of_lt (by omega)]
  · rintro v (hv | ⟨a, hlow, hhigh, rfl⟩)
    · exact .inl hv
    · exact .inr ⟨a - base, by omega, by omega⟩

theorem serves_mapKernel {e : Entry} (hlength : e.length ≤ 2 ^ 46)
    (hdev : p = .dev → e.entryType = .kernelAndModules → L.virtualBase + e.length ≤ wordSize)
    (h : Serves M root L st S) :
    Delivers (mapKernel p M fuel root L st e) fun st' =>
      Serves M root L st' (S ∪ {v | e.entryType = .kernelAndModules ∧
        ∃ i < e.length, v = (L.virtualBase + i) % 2 ^ 64}) := by
  unfold mapKernel
  split_ifs with htype
  · refine .ok (h.mono ?_)
    rintro v (hv | ⟨hkernel, -⟩)
    · exact hv
    · exact absurd hkernel htype
  · have htype := not_not.mp htype
    refine (serves_mapRange hM hmode hfuel hL (fun i hi hmod => ?_) h).mono fun st' h' =>
      h'.mono ?_
    · obtain ⟨c, hc, hvirt, hphys⟩ := @exists_image L hL i hmod (by omega)
      have h3 := hL.physical_lt
      have hadd : p.add L.virtualBase i = .ok ((L.virtualBase + i) % 2 ^ 64) := by
        cases p with
        | release => exact Profile.add_release _ _
        | dev =>
          have := hdev rfl htype
          rw [Profile.add_of_lt _ (by omega), Nat.mod_eq_of_lt (by unfold wordSize at this; omega)]
      refine ⟨c, .inr hc, hc.size, hc.flags, ?_, ?_⟩
      · rw [hvirt, hadd]
      · rw [hphys, p.add_of_lt (by unfold wordSize; omega)]
    · rintro v (hv | ⟨-, hv⟩)
      · exact .inl hv
      · exact .inr hv

theorem serves_mapAligned {base top : ℕ} (htop : top ≤ 2 ^ 46)
    (hwindow : L.hhdmOffset + (top + 0x3FFFFFFF) / 0x40000000 * 0x40000000 ≤ L.virtualBase)
    (h : Serves M root L st S) :
    Delivers (mapAligned p M fuel root L base top st) fun st' =>
      Serves M root L st' (S ∪ {v | ∃ a, base ≤ a ∧ a < top ∧ v = L.hhdmOffset + a}) := by
  unfold mapAligned
  split_ifs with hempty
  · refine .ok (h.mono ?_)
    rintro v (hv | ⟨a, hlow, hhigh, -⟩)
    · exact hv
    · omega
  · have hpow : (2 : ℕ) ^ 30 = 0x40000000 := by norm_num
    have hdown := @alignDown_of_lt p base 30 (by unfold wordSize; omega) (by norm_num)
    have hup := @alignUp_of_lt p top (2 ^ 30) ⟨30, rfl⟩ (by unfold wordSize; omega)
    rw [hpow] at hdown hup
    have hle : base / 0x40000000 * 0x40000000 ≤
        (top + 0x40000000 - 1) / 0x40000000 * 0x40000000 := by
      omega
    have hsub := p.sub_of_le hle
    rw [hdown, lift_ok_bind, hup, lift_ok_bind, hsub, lift_ok_bind]
    refine (serves_direct hM hmode hfuel hL (by omega) (by omega) h).mono fun st' h' =>
      h'.mono ?_
    rintro v (hv | ⟨a, hlow, hhigh, rfl⟩)
    · exact .inl hv
    · exact .inr ⟨a, by omega, by omega, rfl⟩

theorem serves_mapEntry {e : Entry} (hend : e.base + e.length ≤ 2 ^ 46)
    (hwindow : Mapped e →
      L.hhdmOffset + (e.base + e.length + 0x3FFFFFFF) / 0x40000000 * 0x40000000 ≤ L.virtualBase)
    (h : Serves M root L st S) :
    Delivers (mapEntry p M fuel root L st e) fun st' =>
      Serves M root L st' (S ∪ {v | Mapped e ∧ ∃ a, 0x100000000 ≤ a ∧ e.base ≤ a ∧
        a < e.base + e.length ∧ v = L.hhdmOffset + a}) := by
  have hadd : p.add e.base e.length = .ok (e.base + e.length) :=
    p.add_of_lt (by unfold wordSize; omega)
  unfold mapEntry
  by_cases htype : e.entryType = .reserved ∨ e.entryType = .badMemory
  · rw [if_pos htype]
    refine .ok (h.mono ?_)
    rintro v (hv | ⟨⟨hreserved, hbad⟩, -⟩)
    · exact hv
    · exact absurd htype (not_or.mpr ⟨hreserved, hbad⟩)
  · rw [if_neg htype, hadd, lift_ok_bind]
    refine (serves_mapAligned hM hmode hfuel hL hend (hwindow (not_or.mp htype)) h).mono
      fun st' h' => h'.mono ?_
    rintro v (hv | ⟨-, a, hlow, hbase, hhigh, rfl⟩)
    · exact .inl hv
    · refine .inr ⟨a, ?_, hhigh, rfl⟩
      split_ifs <;> omega

theorem serves_vmmInit (hdev : p = .dev → ∀ e ∈ L.memmap, e.entryType = .kernelAndModules →
      L.virtualBase + e.length ≤ wordSize) :
    Delivers (vmmInit p M fuel root L) fun st' => Serves M root L st'
      ({v | ∃ a, a < 2 ^ 32 ∧ v = L.hhdmOffset + a} ∪
        {v | ∃ e ∈ L.memmap, e.entryType = .kernelAndModules ∧
          ∃ i < e.length, v = (L.virtualBase + i) % 2 ^ 64} ∪
        {v | ∃ e ∈ L.memmap, Mapped e ∧ ∃ a, 0x100000000 ≤ a ∧ e.base ≤ a ∧
          a < e.base + e.length ∧ v = L.hhdmOffset + a}) := by
  have hlow := hL.window_low
  have hfirst : Delivers (mapRange p M fuel root (L.hhdmOffset + 0) 0 ptFlagWrite 0x100000000
      .size1GiB (State.init root)) _ :=
    serves_direct hM hmode hfuel hL rfl (by omega) Serves.init
  refine hfirst.bind fun st₁ h₁ => ?_
  have hsecond := Delivers.foldlM_union (f := mapKernel p M fuel root L) (l := L.memmap)
    (fun e he st S h => serves_mapKernel hM hmode hfuel hL
      (by have := hL.ends e he; omega) (fun hp => hdev hp e he) h) h₁
  refine hsecond.bind fun st₂ h₂ => ?_
  have hthird := Delivers.foldlM_union (f := mapEntry p M fuel root L) (l := L.memmap)
    (fun e he st S h => serves_mapEntry hM hmode hfuel hL (hL.ends e he) (hL.window e he) h) h₂
  refine hthird.mono fun st₃ h₃ => h₃.mono ?_
  rintro v ((⟨a, ha, rfl⟩ | hv) | hv)
  · exact .inl (.inl (.inr ⟨a, Nat.zero_le a, by omega, rfl⟩))
  · exact .inl (.inr hv)
  · exact .inr hv

end Bodies

/-! ## The walks -/

theorem translates_of_lastWriter {gib : Bool} {v a : ℕ} (h : Holds M root (fun _ => True) cs st)
    (hgib : M.is1GibPageSupported = gib) (hw : lastWriter cs v = some c)
    (hphys : (c.leaf gib v).phys = a) (hflags : c.flags = ptFlagWrite) :
    Translates st root v a := by
  refine ⟨c.leaf gib v, ?_, hphys, ?_⟩
  · rw [h.walk_eq, hw, hgib]
    rfl
  · simp only [Call.leaf, hflags]
    decide

theorem Serves.translates_direct (hL : L.Sound) (h : Serves M root L st S) {a : ℕ}
    (ha : L.hhdmOffset + a ∈ S) (hwindow : L.hhdmOffset + a < L.virtualBase) :
    Translates st root (L.hhdmOffset + a) a := by
  obtain ⟨cs, hbuilt, hS⟩ := h
  obtain ⟨c, hc, hcontains⟩ := hS _ ha
  obtain ⟨w, hw⟩ := exists_lastWriter hc hcontains
  obtain ⟨hmem, hcontains⟩ := exists_of_lastWriter hw
  have h1 := hL.higherHalf
  have h2 := hL.virtual_lt
  rcases hbuilt.kinds w hmem with hkind | hkind
  · exact translates_of_lastWriter hbuilt.holds rfl hw
      (hkind.leaf_phys hL (by omega) hcontains) hkind.flags
  · exact absurd hcontains (hkind.not_contains hL (by omega) hwindow)

theorem Serves.translates_image (hL : L.Sound) (h : Serves M root L st S) {i : ℕ}
    (hi : (L.virtualBase + i) % 2 ^ 64 ∈ S) (hlt : i < 2 ^ 46) :
    Translates st root ((L.virtualBase + i) % 2 ^ 64) (L.physicalBase + i) := by
  obtain ⟨cs, hbuilt, hS⟩ := h
  obtain ⟨c, hc, hcontains⟩ := hS _ hi
  obtain ⟨w, hw⟩ := exists_lastWriter hc hcontains
  obtain ⟨hmem, hcontains⟩ := exists_of_lastWriter hw
  rcases hbuilt.kinds w hmem with hkind | hkind
  · exact absurd hcontains (hkind.not_contains hL hlt)
  · exact translates_of_lastWriter hbuilt.holds rfl hw (hkind.leaf_phys hL hlt hcontains)
      hkind.flags

/-- Unless memory runs out, `vmm_init` builds the whole direct map and the image. In the `dev`
profile the image has to end inside the address space. -/
theorem directMap_vmmInit (p : Profile) (M : Machine) (root : ℕ) (L : Limine)
    (hM : FreshFrames M root) (hmode : M.mode = .fourLevel) (hL : L.Sound)
    (hdev : p = .dev → ∀ e ∈ L.memmap, e.entryType = .kernelAndModules →
      L.virtualBase + e.length ≤ wordSize) (fuel : ℕ) (hfuel : 2 ≤ fuel)
    (hmem : vmmInit p M fuel root L ≠ .error .outOfMemory) :
    ∃ st, vmmInit p M fuel root L = .ok st ∧ DirectMap L root st := by
  obtain ⟨st, hst, h⟩ := (serves_vmmInit hM hmode hfuel hL hdev).resolve_left hmem
  have hwin := hL.window_low
  refine ⟨st, hst, fun a ha => ?_, fun e he hmapped a hlow hhigh => ?_, fun e he hkernel i hi => ?_⟩
  · exact h.translates_direct hL (.inl (.inl ⟨a, ha, rfl⟩)) (by omega)
  · have hwindow := hL.window e he hmapped
    rcases Nat.lt_or_ge a (2 ^ 32) with ha | ha
    · exact h.translates_direct hL (.inl (.inl ⟨a, ha, rfl⟩)) (by omega)
    · exact h.translates_direct hL (.inr ⟨e, he, hmapped, a, by omega, hlow, hhigh, rfl⟩) (by omega)
  · have hend := hL.ends e he
    exact h.translates_image hL (.inl (.inr ⟨e, he, hkernel, i, hi, rfl⟩)) (by omega)

end Loops

/-- A machine with 6 GiB of memory: the kernel at 2 MiB, a hole below 4 GiB, an entry that ends
inside a 1 GiB page. -/
def demoLimine : Limine where
  hhdmOffset := 0xFFFF800000000000
  virtualBase := 0xFFFFFFFF80000000
  physicalBase := 0x200000
  memmap := [⟨0x1000, 0x9E000, .usable⟩, ⟨0x200000, 0x3000, .kernelAndModules⟩,
    ⟨0xFEC00000, 0x1000, .reserved⟩, ⟨0xC0000000, 0x60200000, .usable⟩]

theorem demoLimine_sound : demoLimine.Sound := by
  refine ⟨by decide, by decide, ?_, by decide, ?_, by decide, by decide, by decide, by decide⟩
  · decide
  · intro e he _
    fin_cases he <;> decide

theorem directMap_demo : ∃ st, vmmInit .release (demoMachine true) 2 0x1000 demoLimine = .ok st ∧
    DirectMap demoLimine 0x1000 st := by
  have hmem : vmmInit .release (demoMachine true) 2 0x1000 demoLimine ≠ .error .outOfMemory := by
    intro h
    have hok : (vmmInit .release (demoMachine true) 2 0x1000 demoLimine).isOk = true := by
      decide +kernel
    rw [h] at hok
    cases hok
  exact directMap_vmmInit .release (demoMachine true) 0x1000 demoLimine (demoMachine_fresh true) rfl
    demoLimine_sound (by simp) 2 le_rfl hmem

end CappuccinOS.Paging
