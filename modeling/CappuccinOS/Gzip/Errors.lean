import CappuccinOS.Gzip.Reader

/-!
# What the decoder reports

A call of the decoder can end with the source's `Err(())` in two places only: `decompress` rejects a
block type and `uncompressed` a length. Everything below them, in particular `inflate` and
`decode_huffman`, returns or panics (`NoErr`). Each lemma follows the shape of its function; loops
go by induction on their turns.
-/

namespace CappuccinOS.Gzip

/-- A computation that returns or panics. -/
def NoErr {α : Type} (m : Inflate α) : Prop := ∀ c, m c ≠ .error .err

namespace NoErr

variable {α β : Type} {m m' : Inflate α} {f : α → Inflate β}

theorem pure (a : α) : NoErr (Pure.pure a : Inflate α) := nofun

/-- An error of a sequence whose first part returns no error. -/
theorem of_bind {c : InflateContext} (hm : NoErr m) (h : (m >>= f) c = .error .err) :
    ∃ a c1, m c = .ok (a, c1) ∧ f a c1 = .error .err := by
  rcases hmc : m c with e | ⟨a, c1⟩
  · rw [bind_of_error hmc] at h
    cases h
    exact absurd hmc (hm c)
  · rw [bind_of_ok hmc] at h
    exact ⟨a, c1, rfl, h⟩

theorem bind (hm : NoErr m) (hf : ∀ a, NoErr (f a)) : NoErr (m >>= f) := by
  intro c h
  obtain ⟨a, c1, -, h1⟩ := hm.of_bind h
  exact hf a c1 h1

theorem ite {P : Prop} [Decidable P] (hm : NoErr m) (hm' : NoErr m') :
    NoErr (if P then m else m') := by
  split_ifs
  · exact hm
  · exact hm'

theorem get : NoErr (get : Inflate InflateContext) := nofun

theorem fuel : NoErr (throw .fuel : Inflate α) := nofun

end NoErr

theorem noErr_ensure (q : Panic) (P : Prop) [Decidable P] : NoErr (ensure q P) := by
  intro c h
  unfold ensure at h
  split_ifs at h
  cases h

theorem noErr_lift {α : Type} {e : Except Fault α} (he : e ≠ .error .err) : NoErr (lift e) := by
  intro c h
  cases e with
  | ok a => cases h
  | error f =>
    cases h
    exact he rfl

theorem noErr_index (l : List ℕ) (i : ℕ) : NoErr (index l i) := by
  intro c h
  unfold index at h
  split at h <;> cases h

theorem noErr_setLength (l : List ℕ) (i v : ℕ) : NoErr (setLength l i v) := by
  intro c h
  unfold setLength at h
  split_ifs at h
  cases h

theorem noErr_getBit : NoErr getBit := by
  intro c h
  obtain ⟨w, hw⟩ := panic_of_getBit h
  cases hw

section NoErr

variable {p : Profile}

theorem noErr_getBitsFrom (n bit byte : ℕ) : NoErr (getBitsFrom p n bit byte) := by
  induction n generalizing bit byte with
  | zero => exact .pure byte
  | succ n ih =>
    refine noErr_getBit.bind fun b => (noErr_lift fun h => ?_).bind fun v => ih _ _
    obtain ⟨w, hw⟩ := panic_of_shl h
    cases hw

theorem noErr_getBits (n : ℕ) : NoErr (getBits p n) := noErr_getBitsFrom n 0 0

theorem noErr_getBitsBase (n base : ℕ) : NoErr (getBitsBase p n base) :=
  (NoErr.ite (noErr_getBits n) (.pure 0)).bind fun _ => .pure _

theorem noErr_decode (huff : Huff) : NoErr (decode huff) := by
  have hloop : ∀ turns i base offs, NoErr (decodeFrom huff turns i base offs) := by
    intro turns
    induction turns with
    | zero => exact fun _ _ _ => .fuel
    | succ turns ih =>
      exact fun i base offs => noErr_getBit.bind fun b => (noErr_ensure _ _).bind fun _ =>
        .ite (.pure _) (ih _ _ _)
  exact (hloop 16 1 0 0).bind fun slot => (noErr_ensure _ _).bind fun _ => .pure _

theorem noErr_emit (b : Byte) : NoErr (emit b) :=
  NoErr.get.bind fun _ => (noErr_ensure _ _).bind fun _ => nofun

theorem noErr_copyMatch (offset n : ℕ) : NoErr (copyMatch offset n) := by
  induction n with
  | zero => exact .pure ()
  | succ n ih =>
    exact NoErr.bind (NoErr.get.bind fun _ => .pure _) fun b => (noErr_emit b).bind fun _ => ih

theorem noErr_uncompressedLoop (n : ℕ) : NoErr (uncompressedLoop p n) := by
  induction n with
  | zero => exact .pure ()
  | succ n ih => exact (noErr_getBits 8).bind fun v => (noErr_emit _).bind fun _ => ih

theorem noErr_inflateTurn (huffLen huffDist : Huff) : NoErr (inflateTurn p huffLen huffDist) := by
  refine (noErr_decode huffLen).bind fun s => .ite ((noErr_emit _).bind fun _ => .pure _)
    (.ite (.pure _) ?_)
  refine (noErr_index _ _).bind fun lb => (noErr_index _ _).bind fun lbase => ?_
  refine (noErr_getBitsBase _ _).bind fun length => (noErr_decode huffDist).bind fun distance => ?_
  refine (noErr_index _ _).bind fun db => (noErr_index _ _).bind fun dbase => ?_
  exact (noErr_getBitsBase _ _).bind fun offset => (noErr_copyMatch _ _).bind fun _ => .pure _

theorem noErr_inflate (huffLen huffDist : Huff) : NoErr (inflate p huffLen huffDist) := by
  have hloop : ∀ turns, NoErr (inflateLoop p huffLen huffDist turns) := by
    intro turns
    induction turns with
    | zero => exact .fuel
    | succ turns ih =>
      exact (noErr_inflateTurn huffLen huffDist).bind fun more => .ite ih (.pure ())
  exact NoErr.get.bind fun c => hloop _

theorem buildHuffman_ne_error {f : Fault} (hf : ∀ q, Fault.panic q ≠ f) (lengths : List ℕ)
    (size : ℕ) (out : Huff) : buildHuffman lengths size out ≠ .error f := by
  have hpanic : ∀ (α : Type) (q : Panic), (.error (.panic q) : Except Fault α) ≠ .error f :=
    fun α q h => hf q (Except.error.inj h)
  have hcount : ∀ l counts, countLengths l counts ≠ .error f := by
    intro l
    induction l with
    | nil => exact fun _ => nofun
    | cons x l ih =>
      intro counts
      rw [countLengths]
      split_ifs
      · exact ih _
      · exact hpanic _ _
  have hplace : ∀ n i symbols offsets,
      placeSymbols lengths size n i symbols offsets ≠ .error f := by
    intro n
    induction n with
    | zero => exact fun _ _ _ => nofun
    | succ n ih =>
      intro i symbols offsets
      rw [placeSymbols]
      split
      · exact hpanic _ _
      · split_ifs
        · exact ih _ _ _
        · exact hpanic _ _
        · exact ih _ _ _
  unfold buildHuffman
  dsimp only
  split_ifs
  · exact bind_ne_error (hcount _ _) fun counts => bind_ne_error (hplace _ _ _ _) fun symbols => by
      simp [pure, Except.pure]
  · exact hpanic _ _

theorem buildHuffman_ne_err (lengths : List ℕ) (size : ℕ) (out : Huff) :
    buildHuffman lengths size out ≠ .error .err :=
  buildHuffman_ne_error (fun q h => by cases h) lengths size out

theorem panic_of_buildHuffman {lengths : List ℕ} {size : ℕ} {out : Huff} {f : Fault}
    (h : buildHuffman lengths size out = .error f) : ∃ q, f = .panic q := by
  by_contra hnot
  exact buildHuffman_ne_error (fun q hq => hnot ⟨q, hq.symm⟩) lengths size out h

theorem noErr_lengthsLoop (codes : Huff) (total turns count : ℕ) (lengths : List ℕ) :
    NoErr (lengthsLoop p codes total turns count lengths) := by
  have hfill : ∀ rep n count lengths, NoErr (fillLengths rep n count lengths) := by
    intro rep n
    induction n with
    | zero => exact fun _ lengths => .pure lengths
    | succ n ih => exact fun count lengths => (noErr_setLength _ _ _).bind fun _ => ih _ _
  have hrun : ∀ s count lengths, NoErr (readRun p s count lengths) := fun s count lengths =>
    .ite ((noErr_ensure _ _).bind fun _ => (noErr_index _ _).bind fun _ =>
        (noErr_getBitsBase _ _).bind fun _ => .pure _)
      (.ite ((noErr_getBitsBase _ _).bind fun _ => .pure _)
        ((noErr_getBitsBase _ _).bind fun _ => .pure _))
  induction turns generalizing count lengths with
  | zero => exact .fuel
  | succ turns ih =>
    refine .ite ((noErr_decode codes).bind fun s => .ite ?_ (.ite ?_ (.pure _))) (.pure _)
    · exact (noErr_setLength _ _ _).bind fun _ => ih _ _
    · exact (hrun _ _ _).bind fun run => (hfill _ _ _ _).bind fun _ => ih _ _

theorem noErr_decodeHuffman : NoErr (decodeHuffman p) := by
  have hclens : ∀ n i lengths, NoErr (readClens p n i lengths) := by
    intro n
    induction n with
    | zero => exact fun _ lengths => .pure lengths
    | succ n ih =>
      exact fun i lengths => (noErr_getBits 3).bind fun v => (noErr_index _ _).bind fun k =>
        (noErr_setLength _ _ _).bind fun _ => ih _ _
  refine (noErr_getBitsBase 5 257).bind fun literals =>
    (noErr_getBitsBase 5 1).bind fun distances =>
    (noErr_getBitsBase 4 4).bind fun clengths => (hclens _ _ _).bind fun lengths => ?_
  refine (noErr_lift (buildHuffman_ne_err _ _ _)).bind fun codes => NoErr.get.bind fun c => ?_
  refine (noErr_lengthsLoop _ _ _ _ _).bind fun lengths' => ?_
  refine (noErr_lift (buildHuffman_ne_err _ _ _)).bind fun huffLen => ?_
  exact (noErr_lift (buildHuffman_ne_err _ _ _)).bind fun huffDist => noErr_inflate _ _

end NoErr

end CappuccinOS.Gzip
