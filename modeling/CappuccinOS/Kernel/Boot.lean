import CappuccinOS.Kernel.Memory
import CappuccinOS.Heap.Remainder

/-!
# From the memory map to a running kernel (`_start` in `main.rs`)

`boot` is the part of `_start` that sets up memory: `pmm_init` reads Limine's map and changes it,
`init_allocator` takes the heap's pages, and `vmm_init` builds the address space out of the frames
that the page allocator gives it, from the changed map.

1. `site_sound`: `pmm_init` leaves a page allocator that the rest can start from.
2. `left_sound`: taking the bitmap out of the map breaks none of the promises about it.
3. `boot_spec`: unless memory runs out, `boot` returns, and the page tables hold what `vmm_init`
   promises although it takes its frames from the allocator.
4. `isolated_of_boot`: no page ever serves two purposes afterwards.
5. `boot_memory`: from there on every page that is given out, for whatever purpose, is writable at
   its image in the higher half, so that `pmm_alloc` can clear it, and calls of `vmm_map` for the
   lower half do not change this.
-/

namespace CappuccinOS.Kernel

open Pmm (PhysicalMemoryManager Block Entry)
open Paging (Limine Call Holds lastWriter walk Translates lift)

/-- What the boot loader tells, with what lies in memory behind the page allocator's bitmap and the
address of the heap's head node. -/
structure BootInfo where
  memmap : List Entry
  behind : List Byte
  hhdmOffset : ℕ
  virtualBase : ℕ
  physicalBase : ℕ
  gib : Bool
  head : ℕ

/-- The answers that `vmm_init` sees, over the map as `pmm_init` left it. -/
def BootInfo.limine (B : BootInfo) (memmap : List Entry) : Limine :=
  ⟨B.hhdmOffset, B.virtualBase, B.physicalBase, memmap⟩

/-- The calls of `_start` that set up memory. -/
def boot (p : Profile) (B : BootInfo) (fuel : ℕ) : Except Paging.Fault System := do
  let r ← lift (Pmm.pmmInit p B.memmap B.behind)
  let s ← prepare p r.pmm B.hhdmOffset B.head
  let dirs ← Paging.vmmInit p (machine B.gib s.tables s.pmm) fuel s.root (B.limine r.memmap)
  s.adopt dirs

/-- The promises of the boot protocol, and what `pmm_init` and `vmm_init` need besides: an entry for
the bitmap, which is in the memory that `vmm_init` maps in any case, a page count that the bitmap
reaches, and a page 0 that is not usable. -/
structure BootInfo.Sound (B : BootInfo) : Prop where
  wellformed : Pmm.Wellformed B.memmap
  fit : ∃ e ∈ B.memmap, e.entryType = .usable ∧ 0 < e.length ∧
    Pmm.bitmapSize (Pmm.highestAddr B.memmap / pageSize) ≤ e.length
  low : ∀ base left, Pmm.takeBitmap (Pmm.bitmapSize (Pmm.highestAddr B.memmap / pageSize))
    B.memmap = some (base, left) →
      base + Pmm.bitmapSize (Pmm.highestAddr B.memmap / pageSize) ≤ 2 ^ 32
  spans : Pmm.highestAddr B.memmap / pageSize % 32768 = 0 ∨
    8 ≤ Pmm.highestAddr B.memmap / pageSize % 32768
  page0 : ¬ Pmm.UsablePage B.memmap 0
  limine : (B.limine B.memmap).Sound
  image : B.virtualBase ≤ B.head
  imageEnds : ∀ e ∈ B.memmap, e.entryType = .kernelAndModules →
    B.virtualBase + e.length ≤ wordSize

/-- The site that `pmm_init` leaves. -/
def BootInfo.site (B : BootInfo) (r : Pmm.Initialised) : Site :=
  ⟨r.pmm, B.gib, B.hhdmOffset, B.head⟩

section Boot

variable {B : BootInfo} {r : Pmm.Initialised}

/-! ## `pmm_init` -/

theorem highestAddr_le {memmap : List Entry} {n : ℕ}
    (h : ∀ e ∈ memmap, e.entryType = .usable → e.base + e.length ≤ n) :
    Pmm.highestAddr memmap ≤ n := by
  induction memmap with
  | nil => exact Nat.zero_le n
  | cons e rest ih =>
    have ih := ih fun f hf => h f (List.mem_cons_of_mem _ hf)
    unfold Pmm.highestAddr
    split_ifs with hu
    · exact max_le (h e List.mem_cons_self hu) ih
    · exact ih

theorem mapped_of_usable {e : Entry} (hu : e.entryType = .usable) : Paging.Mapped e :=
  ⟨by rw [hu]; decide, by rw [hu]; decide⟩

section Init

variable (hB : B.Sound)

include hB

theorem highest_lt : Pmm.highestAddr B.memmap / pageSize < 2 ^ 64 :=
  lt_of_le_of_lt (Nat.div_le_self _ _) (Pmm.highestAddr_lt hB.wellformed.fits)

/-- `pmm_init` returns and puts the bitmap into the first entry that can hold it. -/
theorem pmmInit_of_sound : ∃ r base, Pmm.pmmInit .dev B.memmap B.behind = .ok r ∧
    r.base = some base ∧
    Pmm.takeBitmap (Pmm.bitmapSize (Pmm.highestAddr B.memmap / pageSize)) B.memmap =
      some (base, r.memmap) :=
  Pmm.pmmInit_returns .dev B.behind hB.wellformed
    (hB.fit.imp fun _ h => ⟨h.1, h.2.1, h.2.2.2⟩)
    ((Pmm.bitmapSize_spans_iff (highest_lt hB)).mpr hB.spans)

theorem bitmapSize_pos : 0 < Pmm.bitmapSize (Pmm.highestAddr B.memmap / pageSize) := by
  obtain ⟨e, he, hu, hpos, -⟩ := hB.fit
  obtain ⟨l, hl⟩ := (hB.wellformed.aligned e he hu).2
  have hend := Pmm.le_highestAddr he hu
  have hpage : 1 ≤ Pmm.highestAddr B.memmap / pageSize := by
    rw [Nat.one_le_div_iff (by decide)]
    unfold pageSize at *
    omega
  have hspan := (Pmm.bitmapSize_spans_iff (highest_lt hB)).mpr hB.spans
  omega

variable {base : ℕ} (hr : Pmm.pmmInit .dev B.memmap B.behind = .ok r)
  (htake : Pmm.takeBitmap (Pmm.bitmapSize (Pmm.highestAddr B.memmap / pageSize)) B.memmap =
    some (base, r.memmap))

include hr htake

/-- The clear bits of the pages are those of the map that the bitmap left. -/
theorem bit_pmmInit : r.pmm.highestPageIdx = Pmm.highestAddr B.memmap / pageSize ∧
    Pmm.PostInit r.pmm ∧ ∀ i < r.pmm.highestPageIdx, Pmm.bit r.pmm i = some false →
      ∃ e ∈ r.memmap, e.entryType = .usable ∧ e.pages.Mem i := by
  obtain ⟨size, hplaced, hlen, hhigh, hlast, -, hused, hbits⟩ :=
    Pmm.pmmInit_spec hB.wellformed.fits hr
  have hsize : size = Pmm.bitmapSize (Pmm.highestAddr B.memmap / pageSize) := by
    rcases hplaced with ⟨b, -, hsize, -⟩ | ⟨-, -, -, hnone⟩
    · exact hsize
    · rw [hnone] at htake
      cases htake
  have hleft := Pmm.cover_left_pos_iff hB.wellformed (Pmm.pageSize_dvd_bitmapSize (highest_lt hB))
    htake
  have hspan := (Pmm.bitmapSize_spans_iff (highest_lt hB)).mpr hB.spans
  have hpos := bitmapSize_pos hB
  refine ⟨hhigh, ⟨hlast, hused, ⟨_, Pmm.highestAddr_lt hB.wellformed.fits, hhigh⟩, ?_, ?_⟩, ?_⟩
  · rw [hhigh, hlen, hsize]
    omega
  · rw [Ne, hbits 0, hleft 0, hsize]
    rintro (h | hstray)
    · exact hB.page0 h.1
    · have := hstray.1
      omega
  · intro i hi hbit
    rcases (hbits i).mp hbit with hcov | hstray
    · obtain ⟨v, hv, hmem⟩ := Cover.exists_mem_iff_cover_pos.mpr hcov
      obtain ⟨e, he, hu, rfl⟩ := Pmm.mem_usable.mp hv
      exact ⟨e, he, hu, hmem⟩
    · -- the bitmap reaches the page
      have := hstray.1
      rw [hsize] at this
      omega

theorem highest_le : r.pmm.highestPageIdx * pageSize ≤ 2 ^ 46 ∧
    B.hhdmOffset + r.pmm.highestPageIdx * pageSize ≤ B.virtualBase := by
  have hL := hB.limine
  have hlow : B.hhdmOffset + 0x100000000 ≤ B.virtualBase := hL.window_low
  have h46 : Pmm.highestAddr B.memmap ≤ 2 ^ 46 := highestAddr_le fun e he _ => hL.ends e he
  have hwin : Pmm.highestAddr B.memmap ≤ B.virtualBase - B.hhdmOffset := by
    refine highestAddr_le fun e he hu => ?_
    have : B.hhdmOffset + (e.base + e.length + 0x3FFFFFFF) / 0x40000000 * 0x40000000 ≤
      B.virtualBase := hL.window e he (mapped_of_usable hu)
    omega
  rw [(bit_pmmInit hB hr htake).1]
  have := Nat.div_mul_le_self (Pmm.highestAddr B.memmap) pageSize
  omega

theorem site_sound : (B.site r).Sound := by
  obtain ⟨h46, hwin⟩ := highest_le hB hr htake
  refine ⟨(bit_pmmInit hB hr htake).2.1, h46.trans (by norm_num), .inr ?_⟩
  exact hwin.trans hB.image

omit hB hr

/-- An entry of the map that is left ends where one of the first map does, and has its type. -/
theorem exists_entry {e : Entry} (he : e ∈ r.memmap) : ∃ f ∈ B.memmap,
    f.entryType = e.entryType ∧ f.base + f.length = e.base + e.length ∧
      (e.entryType = .kernelAndModules → f = e) := by
  obtain ⟨before, g, after, hmap, hu, hle, -, hleft⟩ := Pmm.takeBitmap_some htake
  rw [hleft] at he
  rw [hmap]
  rcases List.mem_append.mp he with he | he
  · exact ⟨e, List.mem_append_left _ he, rfl, rfl, fun _ => rfl⟩
  · rcases List.mem_cons.mp he with rfl | he
    · refine ⟨g, List.mem_append_right _ List.mem_cons_self, hu, ?_, nofun⟩
      show g.base + g.length = g.base + _ + (g.length - _)
      omega
    · exact ⟨e, List.mem_append_right _ (List.mem_cons_of_mem _ he), rfl, rfl, fun _ => rfl⟩

theorem mem_left {e : Entry} (he : e ∈ B.memmap) (hu : e.entryType ≠ .usable) : e ∈ r.memmap := by
  obtain ⟨before, g, after, hmap, hg, -, -, hleft⟩ := Pmm.takeBitmap_some htake
  rw [hmap] at he
  rw [hleft]
  rcases List.mem_append.mp he with he | he
  · exact List.mem_append_left _ he
  · rcases List.mem_cons.mp he with rfl | he
    · exact absurd hg hu
    · exact List.mem_append_right _ (List.mem_cons_of_mem _ he)

include hB

theorem left_aligned {e : Entry} (he : e ∈ r.memmap) (hu : e.entryType = .usable) :
    pageSize ∣ e.base ∧ pageSize ∣ e.length := by
  obtain ⟨before, g, after, hmap, hg, hle, -, hleft⟩ := Pmm.takeBitmap_some htake
  have haligned := hB.wellformed.aligned
  rw [hmap] at haligned
  rw [hleft] at he
  rcases List.mem_append.mp he with he | he
  · exact haligned e (List.mem_append_left _ he) hu
  · rcases List.mem_cons.mp he with rfl | he
    · obtain ⟨hbase, hlen⟩ := haligned g (List.mem_append_right _ List.mem_cons_self) hg
      have hsize := Pmm.pageSize_dvd_bitmapSize (highest_lt hB)
      exact ⟨Nat.dvd_add hbase hsize, Nat.dvd_sub hlen hsize⟩
    · exact haligned e (List.mem_append_right _ (List.mem_cons_of_mem _ he)) hu

theorem left_sound : (B.limine r.memmap).Sound := by
  have hL := hB.limine
  refine ⟨hL.hhdm_aligned, hL.higherHalf, fun e he => ?_, hL.window_low, fun e he hmapped => ?_,
    hL.virtual_lt, hL.virtual_aligned, hL.physical_aligned, hL.physical_lt⟩
  · obtain ⟨f, hf, -, hend, -⟩ := exists_entry htake he
    rw [← hend]
    exact hL.ends f hf
  · obtain ⟨f, hf, htype, hend, -⟩ := exists_entry htake he
    rw [← hend]
    refine hL.window f hf ?_
    unfold Paging.Mapped at hmapped ⊢
    rwa [htype]

end Init

/-! ## `boot` -/

open Paging (Delivers)

theorem delivers_allocPages {s₀ pmm : PhysicalMemoryManager} {live : List Block}
    (h : Books s₀ pmm live) (h₀ : Pmm.PostInit s₀) {pages : ℕ} (hpages : 1 ≤ pages) :
    Delivers (allocPages pmm pages) fun q => Books s₀ q.2 (⟨q.1, pages⟩ :: live) := by
  obtain ⟨addr, pmm', hok⟩ := h.returns h₀ hpages
  unfold allocPages
  simp only [hok]
  by_cases h0 : addr = 0
  · exact .inl (if_pos h0)
  · exact .inr ⟨(addr, pmm'), if_neg h0, h.alloc h₀ hpages hok h0⟩

theorem delivers_prepare {S : Site} (hS : S.Sound)
    (hword : S.hhdm + S.s₀.highestPageIdx * pageSize < wordSize) (haligned : 8 ∣ S.hhdm) :
    Delivers (prepare .dev S.s₀ S.hhdm S.head) fun _ => True := by
  refine (delivers_allocPages (Books.init hS.postInit) hS.postInit (by decide)).bind ?_
  rintro ⟨heapPhys, pmm⟩ hbooks
  have hle : heapPhys + heapPages * pageSize ≤ S.s₀.highestPageIdx * pageSize :=
    hbooks.ptr_add_le List.mem_cons_self
  have hdvd : 8 ∣ S.hhdm + heapPhys := by
    refine Nat.dvd_add haligned (Dvd.dvd.trans (by decide) (hbooks.page _ List.mem_cons_self).1)
  have hlt : S.hhdm + heapPhys + Heap.nodeAlign < wordSize := by
    unfold heapPages pageSize Heap.nodeAlign at *
    omega
  simp only [Heap.addFreeRegion_eq hdvd hlt, if_pos (show Heap.nodeSize ≤ Heap.heapSize by decide),
    Paging.lift_ok_bind]
  refine (delivers_allocPages hbooks hS.postInit le_rfl).bind ?_
  rintro ⟨root, pmm'⟩ -
  exact .ok trivial

/-- The addresses that `vmm_init` maps. -/
def mappedSet (L : Limine) : Set ℕ :=
  {v | ∃ a, a < 2 ^ 32 ∧ v = L.hhdmOffset + a} ∪
    {v | ∃ e ∈ L.memmap, e.entryType = .kernelAndModules ∧
      ∃ i < e.length, v = (L.virtualBase + i) % 2 ^ 64} ∪
    {v | ∃ e ∈ L.memmap, Paging.Mapped e ∧ ∃ a, 0x100000000 ≤ a ∧ e.base ≤ a ∧
      a < e.base + e.length ∧ v = L.hhdmOffset + a}

/-- What `boot` leaves: a system with the invariant, and tables made by calls of the two kinds of
`vmm_init`, which cover what it maps. -/
structure Booted (B : BootInfo) (r : Pmm.Initialised) (s : System) (cs : List Call) : Prop where
  inv : Inv (B.site r) s
  holds : s.Holds B.gib cs
  kinds : ∀ c ∈ cs, Paging.Direct (B.limine r.memmap) c ∨ Paging.Image (B.limine r.memmap) c
  covers : ∀ v ∈ mappedSet (B.limine r.memmap), ∃ c ∈ cs, c.Contains v

/-- Unless memory runs out, `boot` returns. -/
theorem boot_spec (hB : B.Sound) {fuel : ℕ} (hfuel : 2 ≤ fuel) {base : ℕ}
    (hr : Pmm.pmmInit .dev B.memmap B.behind = .ok r)
    (htake : Pmm.takeBitmap (Pmm.bitmapSize (Pmm.highestAddr B.memmap / pageSize)) B.memmap =
      some (base, r.memmap)) :
    Delivers (boot .dev B fuel) fun s => ∃ cs, Booted B r s cs := by
  have hS := site_sound hB hr htake
  have hL := left_sound hB htake
  have hprep : Delivers (prepare .dev r.pmm B.hhdmOffset B.head) fun s =>
      Inv (B.site r) s ∧ s.dirs = Paging.State.init s.root ∧ s.tables = [] := by
    have hword : B.hhdmOffset + r.pmm.highestPageIdx * pageSize < wordSize :=
      lt_of_le_of_lt (highest_le hB hr htake).2 hL.virtual_lt
    have haligned : 8 ∣ B.hhdmOffset :=
      Dvd.dvd.trans (by decide) (Nat.dvd_of_mod_eq_zero hL.hhdm_aligned)
    rcases delivers_prepare hS hword haligned with herr | ⟨s, hok, -⟩
    · exact .inl herr
    · refine .inr ⟨s, hok, inv_prepare hS hok, ?_⟩
      unfold prepare at hok
      obtain ⟨_, -, hok⟩ := bind_eq_ok.mp hok
      obtain ⟨_, -, hok⟩ := bind_eq_ok.mp hok
      obtain ⟨_, -, hok⟩ := bind_eq_ok.mp hok
      obtain rfl := pure_eq_ok.mp hok
      exact ⟨rfl, rfl⟩
  unfold boot
  rw [hr, Paging.lift_ok_bind]
  refine hprep.bind ?_
  rintro s ⟨hI, hdirs, htables⟩
  have hdev : Profile.dev = .dev → ∀ e ∈ r.memmap, e.entryType = .kernelAndModules →
      B.virtualBase + e.length ≤ wordSize := by
    intro _ e he hkernel
    obtain ⟨f, hf, htype, -, heq⟩ := exists_entry htake he
    obtain rfl := heq hkernel
    exact hB.imageEnds f hf hkernel
  have hserves := Paging.serves_vmmInit (p := .dev) (L := B.limine r.memmap)
    (freshFrames hS hI) rfl hfuel hL hdev
  -- what `vmm_init` draws can be taken from the allocator
  rcases hserves with herr | ⟨dirs, hok, cs, hbuilt, hcovers⟩
  · exact .inl (by rw [show (B.site r).gib = B.gib from rfl] at herr; rw [herr]; rfl)
  · have hD := Paging.vmmInit_draws hok
    rw [← hdirs] at hD
    obtain ⟨s', hadopt⟩ := adopt_returns hI hD
    refine .inr ⟨s', bind_eq_ok.mpr ⟨dirs, hok, hadopt⟩, cs, inv_adopt hS hI hD hadopt,
      holds_adopt (S := B.site r) hbuilt.holds hadopt, hbuilt.kinds, hcovers⟩

/-! ## After `boot` -/

theorem lastWriter_append_eq (cs ds : List Call) (v : ℕ) :
    lastWriter (cs ++ ds) v = (lastWriter ds v).or (lastWriter cs v) := by
  unfold lastWriter
  rw [List.reverse_append, List.find?_append]

/-- A call for a page of the lower half has no address of the higher half. -/
theorem not_contains_of_low {c : Call} (hc : c.virt < 2 ^ 47) {v : ℕ} (hv : 2 ^ 64 - 2 ^ 47 ≤ v)
    (hlt : v < 2 ^ 64) : ¬ c.Contains v := by
  have halign := c.virt_aligned
  unfold Call.Contains
  cases hs : c.size with
  | size4KiB =>
    simp only [hs, Paging.PageSize.bytes, Paging.PageSize.toNat, Paging.pageSizes] at *
    omega
  | size2MiB =>
    simp only [hs, Paging.PageSize.bytes, Paging.PageSize.toNat, Paging.pageSizes] at *
    omega
  | size1GiB =>
    simp only [hs, Paging.PageSize.bytes, Paging.PageSize.toNat, Paging.pageSizes] at *
    omega

section After

variable {s s' : System} {cs calls : List Call}

/-- Where the later calls have no page, the tables are those that `boot` left. -/
theorem translates_after (hholds : s'.Holds B.gib (cs ++ calls))
    (hlow : ∀ c ∈ calls, c.virt < 2 ^ 47) {v a : ℕ} (hv : 2 ^ 64 - 2 ^ 47 ≤ v) (hlt : v < 2 ^ 64)
    {c : Call} (hw : lastWriter cs v = some c) (hphys : (c.leaf B.gib v).phys = a)
    (hflags : c.flags = Paging.ptFlagWrite) : Translates s'.dirs s'.root v a := by
  refine Paging.translates_of_lastWriter hholds rfl ?_ hphys hflags
  have hnone : lastWriter calls v = none := by
    unfold lastWriter
    refine List.find?_eq_none.mpr fun d hd => ?_
    simpa using not_contains_of_low (hlow d (List.mem_reverse.mp hd)) hv hlt
  rw [lastWriter_append_eq, hnone, Option.none_or, hw]

theorem translates_direct_after (hL : (B.limine r.memmap).Sound) (hb : Booted B r s cs)
    (hholds : s'.Holds B.gib (cs ++ calls)) (hlow : ∀ c ∈ calls, c.virt < 2 ^ 47) {a : ℕ}
    (ha : B.hhdmOffset + a ∈ mappedSet (B.limine r.memmap))
    (hwindow : B.hhdmOffset + a < B.virtualBase) :
    Translates s'.dirs s'.root (B.hhdmOffset + a) a := by
  obtain ⟨c, hc, hcontains⟩ := hb.covers _ ha
  obtain ⟨w, hw⟩ := Paging.exists_lastWriter hc hcontains
  obtain ⟨hmem, hcontains⟩ := Paging.exists_of_lastWriter hw
  have h1 : 2 ^ 64 - 2 ^ 47 ≤ B.hhdmOffset := hL.higherHalf
  have h2 : B.virtualBase < 2 ^ 64 := hL.virtual_lt
  rcases hb.kinds w hmem with hkind | hkind
  · exact translates_after hholds hlow (by omega) (by omega) hw
      (hkind.leaf_phys hL (by omega) hcontains) hkind.flags
  · exact absurd hcontains (hkind.not_contains hL (Nat.le_add_right _ _) hwindow)

theorem translates_image_after (hL : (B.limine r.memmap).Sound) (hb : Booted B r s cs)
    (hholds : s'.Holds B.gib (cs ++ calls)) (hlow : ∀ c ∈ calls, c.virt < 2 ^ 47) {i : ℕ}
    (hi : B.virtualBase + i ∈ mappedSet (B.limine r.memmap)) (hlt : i < 2 ^ 46)
    (hend : B.virtualBase + i < 2 ^ 64) :
    Translates s'.dirs s'.root (B.virtualBase + i) (B.physicalBase + i) := by
  obtain ⟨c, hc, hcontains⟩ := hb.covers _ hi
  obtain ⟨w, hw⟩ := Paging.exists_lastWriter hc hcontains
  obtain ⟨hmem, hcontains⟩ := Paging.exists_of_lastWriter hw
  have h1 : 2 ^ 64 - 2 ^ 47 ≤ B.hhdmOffset := hL.higherHalf
  have h2 : B.hhdmOffset + 0x100000000 ≤ B.virtualBase := hL.window_low
  have hmod : (B.virtualBase + i) % 2 ^ 64 = B.virtualBase + i := Nat.mod_eq_of_lt hend
  rcases hb.kinds w hmem with hkind | hkind
  · exact absurd hcontains (hmod ▸ hkind.not_contains hL hlt)
  · have hphys : ∀ gib, (w.leaf gib (B.virtualBase + i)).phys = B.physicalBase + i := by
      intro gib
      have h : w.Contains ((B.virtualBase + i) % 2 ^ 64) →
          (w.leaf gib ((B.virtualBase + i) % 2 ^ 64)).phys = B.physicalBase + i :=
        hkind.leaf_phys hL hlt
      rw [hmod] at h
      exact h hcontains
    exact translates_after hholds hlow (by omega) hend hw (hphys B.gib) hkind.flags

end After

/-- A page that is given out lies in an entry that `vmm_init` maps. -/
theorem mem_mappedSet (hB : B.Sound) {base : ℕ} (hr : Pmm.pmmInit .dev B.memmap B.behind = .ok r)
    (htake : Pmm.takeBitmap (Pmm.bitmapSize (Pmm.highestAddr B.memmap / pageSize)) B.memmap =
      some (base, r.memmap)) {a : ℕ} (ha : Pmm.bit r.pmm (a / pageSize) = some false)
    (hlt : a / pageSize < r.pmm.highestPageIdx) :
    B.hhdmOffset + a ∈ mappedSet (B.limine r.memmap) := by
  obtain ⟨e, he, hu, hmem⟩ := (bit_pmmInit hB hr htake).2.2 _ hlt ha
  obtain ⟨hbase, hlen⟩ := left_aligned hB htake he hu
  rw [Pmm.pages_mem_iff hbase hlen] at hmem
  obtain ⟨b, hb⟩ := hbase
  obtain ⟨l, hl⟩ := hlen
  rcases Nat.lt_or_ge a (2 ^ 32) with hlow | hhigh
  · exact .inl (.inl ⟨a, hlow, rfl⟩)
  · refine .inr ⟨e, he, mapped_of_usable hu, a, by omega, ?_, ?_, rfl⟩
    · unfold pageSize at *
      omega
    · unfold pageSize at *
      omega

/-- The heap's pages and eight more behind the reserved first page, and a kernel of three pages. -/
def demoBoot : BootInfo where
  memmap := [⟨0, 0x1000, .reserved⟩, ⟨0x1000, 0x408000, .usable⟩,
    ⟨0x1000000, 0x3000, .kernelAndModules⟩]
  behind := [0]
  hhdmOffset := 0xFFFF800000000000
  virtualBase := 0xFFFFFFFF80000000
  physicalBase := 0x1000000
  gib := true
  head := 0xFFFFFFFF80002000

theorem demoBoot_sound : demoBoot.Sound where
  wellformed := ⟨by decide, by decide, List.pairwise_singleton _ _⟩
  fit := ⟨⟨0x1000, 0x408000, .usable⟩, by decide, rfl, by decide, by decide⟩
  low := by
    intro base left h
    have htake : Pmm.takeBitmap (Pmm.bitmapSize (Pmm.highestAddr demoBoot.memmap / pageSize))
        demoBoot.memmap = some (0x1000, [⟨0, 0x1000, .reserved⟩, ⟨0x2000, 0x407000, .usable⟩,
          ⟨0x1000000, 0x3000, .kernelAndModules⟩]) := by decide
    obtain ⟨rfl, -⟩ := Prod.mk.inj (Option.some.inj (htake.symm.trans h))
    decide
  spans := .inr (by decide)
  page0 := by unfold Pmm.UsablePage; decide
  limine := by
    refine ⟨by decide, by decide, by decide, by decide, ?_, by decide, by decide, by decide,
      by decide⟩
    intro e he _
    fin_cases he <;> decide
  image := by decide
  imageEnds := by decide

theorem demoBoot_isOk : (boot .dev demoBoot 2).isOk = true := by decide +kernel

/-- **Isolation.** After `boot`, whatever order the clients of the page allocator, of the heap and
of `vmm_map` call in: the page tables, the heap and every range given to a client are apart, the
allocator's bits and its count say exactly which pages are given out, every call of it returns, and
so does every plain call of `vmm_map` unless there is no frame for it. -/
theorem isolated_of_boot (hB : B.Sound) {fuel : ℕ} (hfuel : 2 ≤ fuel) {s s' : System}
    (hboot : boot .dev B fuel = .ok s) {calls : List Call} (hrun : Run B.gib s calls s') :
    ∃ r, Pmm.pmmInit .dev B.memmap B.behind = .ok r ∧ Isolated (B.site r) s' ∧
      (∀ pages, 1 ≤ pages → ∃ a, Pmm.pmmAllocNozero s'.pmm pages = .ok a) ∧
      ∀ c, s'.Plain c → ∀ fuel ≥ 2, s'.map B.gib fuel c = .error .outOfMemory ∨
        ∃ s'', s'.map B.gib fuel c = .ok s'' := by
  obtain ⟨r, base, hr, -, htake⟩ := pmmInit_of_sound hB
  have hS := site_sound hB hr htake
  rcases boot_spec hB hfuel hr htake with herr | ⟨s₁, hok, cs, hb⟩
  · exact absurd (hboot.symm.trans herr) nofun
  · obtain rfl := Except.ok.inj (hboot.symm.trans hok)
    have hI := inv_run hS hb.inv hrun
    refine ⟨r, hr, hI.isolated, fun pages hpages => ?_, fun c hc fuel hfuel => ?_⟩
    · obtain ⟨addr, pmm, hok⟩ := hI.books.returns hS.postInit hpages
      exact ⟨_, hok⟩
    · have hholds := holds_run hS hb.inv hb.holds hrun
      exact (map_delivers hS hI hholds hfuel hc).imp_right fun ⟨s'', hok, _⟩ => ⟨s'', hok⟩

/-- After a client's call for two pages. -/
theorem isolated_of_boot_demo :
    ∃ r s s' pmm addr, boot .dev demoBoot 2 = .ok s ∧
      Pmm.pmmAllocNozero s.pmm 2 = .ok (addr, pmm) ∧ Step true s none s' ∧ s'.pmm = pmm ∧
      Pmm.pmmInit .dev demoBoot.memmap demoBoot.behind = .ok r ∧
      Isolated (demoBoot.site r) s' := by
  cases hboot : boot .dev demoBoot 2 with
  | error e =>
    have hok := demoBoot_isOk
    rw [hboot] at hok
    exact absurd hok Bool.false_ne_true
  | ok s =>
    obtain ⟨_, -, -, hcalls, -⟩ := isolated_of_boot demoBoot_sound le_rfl hboot .refl
    obtain ⟨⟨addr, pmm⟩, hcall⟩ := hcalls 2 (by decide)
    have hstep : ∃ s', Step true s none s' ∧ s'.pmm = pmm := by
      by_cases h0 : addr = 0
      · exact ⟨_, .allocNull (by decide) (h0 ▸ hcall), rfl⟩
      · exact ⟨_, .alloc (by decide) hcall h0, rfl⟩
    obtain ⟨s', hs', hpmm⟩ := hstep
    obtain ⟨r, hr, h, -⟩ := isolated_of_boot demoBoot_sound le_rfl hboot (.tail .refl hs')
    exact ⟨r, s, s', pmm, addr, rfl, hcall, hs', hpmm, hr, h⟩

/-- **Memory after boot.** Unless memory runs out, `boot` returns, and after every run from there:
the memory is isolated; every byte of every page that is given out (the page tables, the heap, the
clients' pages) and of the bitmap is writable at the offset of the higher half, and the kernel image
at its base; and the pages mapped since are translated by the last call for them. -/
theorem boot_memory (hB : B.Sound) {fuel : ℕ} (hfuel : 2 ≤ fuel)
    (hmem : boot .dev B fuel ≠ .error .outOfMemory) :
    ∃ r base s, Pmm.pmmInit .dev B.memmap B.behind = .ok r ∧ r.base = some base ∧
      boot .dev B fuel = .ok s ∧
      ∀ calls s', Run B.gib s calls s' → Isolated (B.site r) s' ∧
        (∀ a, base ≤ a → a < base + Pmm.bitmapSize r.pmm.highestPageIdx →
          Translates s'.dirs s'.root (B.hhdmOffset + a) a) ∧
        (∀ b ∈ s'.ranges, ∀ a, b.ptr ≤ a → a < b.ptr + b.pages * pageSize →
          Translates s'.dirs s'.root (B.hhdmOffset + a) a) ∧
        (∀ e ∈ B.memmap, e.entryType = .kernelAndModules → ∀ i < e.length,
          Translates s'.dirs s'.root (B.virtualBase + i) (B.physicalBase + i)) ∧
        ∀ v c, lastWriter calls v = some c → walk s'.dirs s'.root v = some (c.leaf B.gib v) := by
  obtain ⟨r, base, hr, hbase, htake⟩ := pmmInit_of_sound hB
  obtain ⟨s, hboot, cs, hb⟩ := (boot_spec hB hfuel hr htake).resolve_left hmem
  have hS := site_sound hB hr htake
  have hL := left_sound hB htake
  refine ⟨r, base, s, hr, hbase, hboot, fun calls s' hrun => ?_⟩
  have hI := inv_run hS hb.inv hrun
  have hholds := holds_run hS hb.inv hb.holds hrun
  have hlow := low_of_run (S := B.site r) hrun
  refine ⟨hI.isolated, fun a h1 h2 => ?_, fun b hbr a h1 h2 => ?_, fun e he hkernel i hi => ?_,
    fun v c hc => ?_⟩
  · have hlow32 := hB.low base r.memmap htake
    rw [(bit_pmmInit hB hr htake).1] at h2
    have hwindow : B.hhdmOffset + 0x100000000 ≤ B.virtualBase := hB.limine.window_low
    exact translates_direct_after hL hb hholds hlow (.inl (.inl ⟨a, by omega, rfl⟩)) (by omega)
  · obtain ⟨k, hk⟩ := (hI.books.page b hbr).1
    have hpage : b.interval.Mem (a / pageSize) := by
      show b.ptr / pageSize ≤ _ ∧ _ < b.ptr / pageSize + b.pages
      rw [hk, Nat.mul_div_cancel_left _ (by decide)]
      unfold pageSize at *
      omega
    have hle := hI.books.ptr_add_le hbr
    have hhigh : B.hhdmOffset + r.pmm.highestPageIdx * pageSize ≤ B.virtualBase :=
      (highest_le hB hr htake).2
    refine translates_direct_after hL hb hholds hlow
      (mem_mappedSet hB hr htake (hI.books.free hbr hpage).1 (hI.books.free hbr hpage).2) ?_
    have hsite : (B.site r).s₀ = r.pmm := rfl
    rw [hsite] at hle
    omega
  · have hleft := mem_left htake he (by rw [hkernel]; decide)
    have hend := hB.imageEnds e he hkernel
    have hlen := hB.limine.ends e he
    have hlt : B.virtualBase + i < 2 ^ 64 := lt_of_lt_of_le (Nat.add_lt_add_left hi _) hend
    refine translates_image_after hL hb hholds hlow ?_ (by omega) hlt
    exact .inl (.inr ⟨e, hleft, hkernel, i, hi, (Nat.mod_eq_of_lt hlt).symm⟩)
  · rw [Paging.Holds.walk_eq hholds v, lastWriter_append_eq, hc, Option.some_or]
    rfl

theorem boot_memory_demo :
    ∃ r s, Pmm.pmmInit .dev demoBoot.memmap demoBoot.behind = .ok r ∧ boot .dev demoBoot 2 = .ok s ∧
      Isolated (demoBoot.site r) s ∧
      (∀ b ∈ s.ranges, ∀ a, b.ptr ≤ a → a < b.ptr + b.pages * pageSize →
        Translates s.dirs s.root (0xFFFF800000000000 + a) a) ∧
      Translates s.dirs s.root 0xFFFFFFFF80002ABC 0x1002ABC := by
  have hmem : boot .dev demoBoot 2 ≠ .error .outOfMemory := by
    intro h
    have hok := demoBoot_isOk
    rw [h] at hok
    exact absurd hok Bool.false_ne_true
  obtain ⟨r, _, s, hr, -, hs, h⟩ := boot_memory demoBoot_sound le_rfl hmem
  obtain ⟨h1, -, h2, h3, -⟩ := h [] s .refl
  exact ⟨r, s, hr, hs, h1, h2, h3 ⟨0x1000000, 0x3000, .kernelAndModules⟩ (by simp [demoBoot]) rfl
    0x2ABC (by decide)⟩

end Boot

end CappuccinOS.Kernel
