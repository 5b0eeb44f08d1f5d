import CappuccinOS.Gzip.Window
import CappuccinOS.Gzip.Grammar

/-!
# Every turn reads

The measure of `decompress` is the number of bits that are still to be read. It is spread over the
buffer and the bit index, and `get_bit` is the only step that lowers it; what the loops decode with,
valid tables or not, does not matter.

1. `Progress n m`: when `m` returns it has read `n` bits at least, and it ends in no other way than
   the source can, so that no loop in it runs out of turns. It composes, and `getBit` and the turns
   of the loops have it.
2. `blockTurn` and `lengthsTurn` are the turns of the loops of `decompress` and `decode_huffman`;
   that of `inflate` is `inflateTurn`.
3. `decompressPaid` is `decompress` on a budget: a completed turn of any of the three loops is paid
   for with one unit, and without one the run is out of fuel. `Pays` says that the bits which were
   read pay for the turns.
-/

namespace CappuccinOS.Gzip

theorem InflateContext.length_bits (c : InflateContext) :
    c.bits.length = 8 * c.inputBuf.length - c.bitIndex := by
  rw [InflateContext.bits, List.length_drop, length_bytesBits]

/-! ## Progress -/

/-- The ends of the source other than with a value. -/
def Raised (f : Fault) : Prop := f = .err ∨ ∃ q, f = .panic q

theorem raised_panic (q : Panic) : Raised (.panic q) := .inr ⟨q, rfl⟩

/-- When `m` returns, it has read `n` bits or more, and no loop in it runs out of turns. -/
structure Progress {α : Type} (n : ℕ) (m : Inflate α) : Prop where
  ok : ∀ c a c', c.bitIndex ≤ 8 → m c = .ok (a, c') →
    c'.bitIndex ≤ 8 ∧ n + c'.bits.length ≤ c.bits.length
  error : ∀ c f, c.bitIndex ≤ 8 → m c = .error f → Raised f

namespace Progress

variable {α β : Type} {m m' : Inflate α} {f : α → Inflate β} {n k : ℕ}

theorem of_same (hok : ∀ c a c', m c = .ok (a, c') →
    c'.inputBuf = c.inputBuf ∧ c'.bitIndex = c.bitIndex)
    (herror : ∀ c f, m c = .error f → Raised f) : Progress 0 m := by
  refine ⟨fun c a c' hc h => ?_, fun c f _ => herror c f⟩
  obtain ⟨hbuf, hindex⟩ := hok c a c' h
  rw [c'.length_bits, c.length_bits, hbuf, hindex, Nat.zero_add]
  exact ⟨hc, le_rfl⟩

theorem pure (a : α) : Progress 0 (Pure.pure a : Inflate α) := by
  refine of_same (fun c a c' h => ?_) fun c f h => by cases h
  cases h
  exact ⟨rfl, rfl⟩

theorem get : Progress 0 (get : Inflate InflateContext) := by
  refine of_same (fun c a c' h => ?_) fun c f h => by cases h
  cases h
  exact ⟨rfl, rfl⟩

theorem throw {e : Fault} (he : Raised e) : Progress n (throw e : Inflate α) := by
  constructor
  · intro c a c' _ h
    cases h
  · intro c f _ h
    cases h
    exact he

theorem bind (hm : Progress n m) (hf : ∀ a, Progress k (f a)) : Progress (n + k) (m >>= f) := by
  constructor
  · intro c b c' hc h
    obtain ⟨a, c1, hc1, h1⟩ := exists_of_bind h
    obtain ⟨hindex1, hbits1⟩ := hm.ok c a c1 hc hc1
    obtain ⟨hindex, hbits⟩ := (hf a).ok c1 b c' hindex1 h1
    exact ⟨hindex, by omega⟩
  · intro c e' hc h
    rcases hmc : m c with e | ⟨a, c1⟩
    · rw [bind_of_error hmc] at h
      cases h
      exact hm.error c _ hc hmc
    · rw [bind_of_ok hmc] at h
      exact (hf a).error c1 e' (hm.ok c a c1 hc hmc).1 h

theorem bind_right (hm : Progress 0 m) (hf : ∀ a, Progress k (f a)) : Progress k (m >>= f) := by
  have h := hm.bind hf
  rwa [Nat.zero_add] at h

theorem mono (h : Progress n m) (hk : k ≤ n) : Progress k m := by
  refine ⟨fun c a c' hc hret => ?_, h.error⟩
  obtain ⟨hindex, hbits⟩ := h.ok c a c' hc hret
  exact ⟨hindex, by omega⟩

theorem bind_left (hm : Progress n m) (hf : ∀ a, Progress 0 (f a)) : Progress n (m >>= f) :=
  hm.bind hf

theorem ite {P : Prop} [Decidable P] (hm : P → Progress n m) (hm' : ¬ P → Progress n m') :
    Progress n (if P then m else m') := by
  split_ifs with h
  · exact hm h
  · exact hm' h

end Progress

theorem progress_ensure (q : Panic) (P : Prop) [Decidable P] : Progress 0 (ensure q P) := by
  refine .of_same (fun c u c' h => ?_) fun c f h => ?_
  · rw [(ensure_inv h).2]
    exact ⟨rfl, rfl⟩
  · unfold ensure at h
    split_ifs at h
    cases h
    exact raised_panic q

theorem progress_lift {α : Type} {e : Except Fault α} (he : ∀ f, e = .error f → Raised f) :
    Progress 0 (lift e) := by
  refine .of_same (fun c a c' h => ?_) fun c f h => ?_
  · rw [(lift_inv h).2]
    exact ⟨rfl, rfl⟩
  · cases e with
    | ok a => cases h
    | error f =>
      cases h
      exact he f rfl

theorem progress_index (l : List ℕ) (i : ℕ) : Progress 0 (index l i) := by
  refine .of_same (fun c v c' h => ?_) fun c f h => ?_
  · rw [(index_inv h).2]
    exact ⟨rfl, rfl⟩
  · unfold index at h
    split at h
    · cases h
    · cases h
      exact raised_panic .bounds

theorem progress_setLength (l : List ℕ) (i v : ℕ) : Progress 0 (setLength l i v) := by
  refine .of_same (fun c l' c' h => ?_) fun c f h => ?_
  · unfold setLength at h
    split_ifs at h
    cases h
    exact ⟨rfl, rfl⟩
  · unfold setLength at h
    split_ifs at h
    cases h
    exact raised_panic .bounds

theorem emit_apply (b : Byte) (c : InflateContext) : ∃ ring, emit b c =
    if emitIndex c.ring < 32768 then
      .ok ((), { c with ring := ring, outputBuf := c.outputBuf ++ [b] })
    else .error (.panic .bounds) := by
  refine ⟨⟨emitIndex c.ring + 1, Function.update c.ring.data (emitIndex c.ring) b⟩, ?_⟩
  rw [emit_eq, bind_of_ok (rfl : (get : Inflate InflateContext) c = .ok (c, c))]
  split_ifs with h
  · exact bind_of_ok (if_pos h)
  · exact bind_of_error (if_neg h)

theorem progress_emit (b : Byte) : Progress 0 (emit b) := by
  refine .of_same (fun c u c' h => ?_) fun c f h => ?_
  · obtain ⟨ring, heq⟩ := emit_apply b c
    rw [heq] at h
    split_ifs at h
    cases h
    exact ⟨rfl, rfl⟩
  · obtain ⟨ring, heq⟩ := emit_apply b c
    rw [heq] at h
    split_ifs at h
    cases h
    exact raised_panic .bounds

theorem progress_peek (offset : ℕ) : Progress 0 (peek offset) :=
  Progress.get.bind_right fun _ => .pure _

/-! ## The bit reader -/

/-- With the bits of the first byte used up, the bit is the first of the next byte. -/
theorem dropByte_inv {c c' : InflateContext} (hc : c.bitIndex ≤ 8) (h : dropByte c = .ok c') :
    c'.bitIndex < 8 ∧ c'.bits.length = c.bits.length := by
  unfold dropByte at h
  split_ifs at h with h8
  · split at h
    · cases h
    · rename_i b rest htail
      cases h
      have hlen := congrArg List.length htail
      rw [List.length_tail, List.length_cons] at hlen
      rw [InflateContext.length_bits, InflateContext.length_bits, List.length_cons]
      exact ⟨by norm_num, by dsimp only; omega⟩
  · cases h
    exact ⟨by omega, rfl⟩

theorem progress_getBit : Progress 1 getBit := by
  constructor
  · intro c b c' hc h
    obtain ⟨c1, hdrop, h⟩ := bind_eq_ok.mp h
    obtain ⟨hlt, hbits⟩ := dropByte_inv hc hdrop
    split at h
    · cases h
    · rename_i x rest hbuf
      cases h
      have hlen := congrArg List.length hbuf
      rw [List.length_cons] at hlen
      rw [← hbits, InflateContext.length_bits, InflateContext.length_bits]
      exact ⟨hlt, by dsimp only; omega⟩
  · intro c f _ h
    exact .inr (panic_of_getBit h)

section Parts

variable {p : Profile}

theorem progress_getBits (n : ℕ) : Progress n (getBits p n) := by
  have hloop : ∀ n bit byte, Progress n (getBitsFrom p n bit byte) := by
    intro n
    induction n with
    | zero => exact fun bit byte => .pure byte
    | succ n ih =>
      intro bit byte
      have h := progress_getBit.bind fun b =>
        (progress_lift fun f (h : shl p b.toNat bit = .error f) =>
          .inr (panic_of_shl h)).bind_right fun v =>
          ih (bit + 1) (byte ||| v)
      rwa [Nat.add_comm] at h
  exact hloop n 0 0

theorem progress_getBitsBase (num base : ℕ) : Progress 0 (getBitsBase p num base) := by
  refine Progress.bind_right (.ite (fun _ => ?_) fun _ => .pure 0) fun v => .pure _
  exact (progress_getBits num).mono (Nat.zero_le num)

/-- `decode` reads a bit or more, whatever its table says: the length assertion ends the loop. -/
theorem progress_decode (huff : Huff) : Progress 1 (decode huff) := by
  have hloop : ∀ turns i base offs, i + turns = 17 → 1 ≤ turns →
      Progress 1 (decodeFrom huff turns i base offs) := by
    intro turns
    induction turns with
    | zero => exact fun _ _ _ _ h => absurd h (by norm_num)
    | succ turns ih =>
      intro i base offs hi _
      refine progress_getBit.bind_left fun b => ?_
      by_cases h15 : i ≤ 15
      · refine (progress_ensure _ _).bind_right fun _ => .ite (fun _ => .pure _) fun _ => ?_
        exact (ih (i + 1) _ _ (by omega) (by omega)).mono (Nat.zero_le 1)
      · have hfail : ∀ c, ensure .assertion (i ≤ 15) c = .error (.panic .assertion) :=
          fun c => if_neg h15
        refine ⟨fun c a c' _ h => ?_, fun c f _ h => ?_⟩
        · rw [bind_of_error (hfail c)] at h
          cases h
        · rw [bind_of_error (hfail c)] at h
          cases h
          exact raised_panic .assertion
  exact (hloop 16 1 0 0 rfl (by norm_num)).bind_left fun slot =>
    (progress_ensure _ _).bind_right fun _ => .pure _

theorem progress_copyMatch (offset n : ℕ) : Progress 0 (copyMatch offset n) := by
  induction n with
  | zero => exact .pure ()
  | succ n ih =>
    exact (progress_peek offset).bind_right fun b => (progress_emit b).bind_right fun _ => ih

theorem progress_uncompressed : Progress 0 (uncompressed p) := by
  have hloop : ∀ n, Progress 0 (uncompressedLoop p n) := by
    intro n
    induction n with
    | zero => exact .pure ()
    | succ n ih =>
      exact ((progress_getBits 8).mono (Nat.zero_le 8)).bind_right fun byte =>
        (progress_emit _).bind_right fun _ => ih
  have hword := (progress_getBits (p := p) 16).mono (Nat.zero_le 16)
  exact hword.bind_right fun len => hword.bind_right fun nlen =>
    .ite (fun _ => .throw (.inl rfl)) fun _ => hloop len

/-! ## The turns -/

theorem progress_inflateTurn (huffLen huffDist : Huff) :
    Progress 1 (inflateTurn p huffLen huffDist) := by
  refine (progress_decode huffLen).bind_left fun symbol => .ite (fun _ => ?_) fun _ =>
    .ite (fun _ => .pure false) fun _ => ?_
  · exact (progress_emit _).bind_right fun _ => .pure true
  · refine (progress_index _ _).bind_right fun lb => (progress_index _ _).bind_right fun lbase => ?_
    refine (progress_getBitsBase _ _).bind_right fun length => ?_
    refine ((progress_decode huffDist).mono (Nat.zero_le 1)).bind_right fun distance => ?_
    refine (progress_index _ _).bind_right fun db => (progress_index _ _).bind_right fun dbase => ?_
    exact (progress_getBitsBase _ _).bind_right fun offset =>
      (progress_copyMatch _ _).bind_right fun _ => .pure true

/-- A turn of the loop of `decode_huffman`: whether it goes on, and with which count and lengths. -/
def lengthsTurn (p : Profile) (codes : Huff) (count : ℕ) (lengths : List ℕ) :
    Inflate (Bool × ℕ × List ℕ) := do
  let symbol ← decode codes
  if symbol < 16 then
    let lengths ← setLength lengths count symbol
    pure (true, count + 1, lengths)
  else if symbol < 19 then
    let run ← readRun p symbol count lengths
    let lengths ← fillLengths run.1 run.2 count lengths
    pure (true, count + run.2, lengths)
  else
    pure (false, count, lengths)

theorem lengthsLoop_succ (codes : Huff) (total turns count : ℕ) (lengths : List ℕ) :
    lengthsLoop p codes total (turns + 1) count lengths =
      if count < total then
        lengthsTurn p codes count lengths >>= fun t =>
          if t.1 then lengthsLoop p codes total turns t.2.1 t.2.2 else pure t.2.2
      else pure lengths := by
  rw [lengthsLoop, lengthsTurn]
  congr 1
  rw [bind_assoc]
  congr 1
  funext symbol
  split_ifs
  · rw [bind_assoc]
    rfl
  · simp only [bind_assoc]
    rfl
  · rfl

theorem progress_readRun (symbol count : ℕ) (lengths : List ℕ) :
    Progress 0 (readRun p symbol count lengths) := by
  refine .ite (fun _ => ?_) fun _ => .ite (fun _ => ?_) fun _ => ?_
  · exact (progress_ensure _ _).bind_right fun _ => (progress_index _ _).bind_right fun rep =>
      (progress_getBitsBase _ _).bind_right fun length => .pure (rep, length)
  · exact (progress_getBitsBase _ _).bind_right fun length => .pure (0, length)
  · exact (progress_getBitsBase _ _).bind_right fun length => .pure (0, length)

theorem progress_fillLengths (rep n count : ℕ) (lengths : List ℕ) :
    Progress 0 (fillLengths rep n count lengths) := by
  induction n generalizing count lengths with
  | zero => exact .pure lengths
  | succ n ih => exact (progress_setLength _ _ _).bind_right fun _ => ih _ _

/-- A turn of the loop of `decode_huffman` decodes a symbol, also when its run is empty. -/
theorem progress_lengthsTurn (codes : Huff) (count : ℕ) (lengths : List ℕ) :
    Progress 1 (lengthsTurn p codes count lengths) := by
  refine (progress_decode codes).bind_left fun symbol => .ite (fun _ => ?_) fun _ =>
    .ite (fun _ => ?_) fun _ => .pure _
  · exact (progress_setLength _ _ _).bind_right fun _ => .pure _
  · exact (progress_readRun _ _ _).bind_right fun run =>
      (progress_fillLengths _ _ _ _).bind_right fun _ => .pure _

theorem progress_readClens (n i : ℕ) (lengths : List ℕ) :
    Progress 0 (readClens p n i lengths) := by
  induction n generalizing i lengths with
  | zero => exact .pure lengths
  | succ n ih =>
    exact ((progress_getBits 3).mono (Nat.zero_le 3)).bind_right fun v =>
      (progress_index _ _).bind_right fun k => (progress_setLength _ _ _).bind_right fun _ => ih _ _

end Parts

/-! ## A budget of turns -/

/-- The decoder with the number of turns that it may still complete. -/
abbrev Budgeted := StateT ℕ Inflate

/-- A turn is complete. -/
def pay : Budgeted Unit := fun budget =>
  match budget with
  | 0 => throw .fuel
  | budget + 1 => pure ((), budget)

/-- From any context and with a budget of as many turns as there are bits to read, at most `N`:
`m` ends, `mb` ends in the same way, and the bits read are enough for the turns that `mb` has paid
for, with `n` left over. -/
def Pays {α : Type} (N n : ℕ) (m : Inflate α) (mb : Budgeted α) : Prop :=
  ∀ c budget, c.bitIndex ≤ 8 → c.bits.length ≤ N → c.bits.length ≤ budget →
    (∃ a c' paid left, m c = .ok (a, c') ∧ c'.bitIndex ≤ 8 ∧ mb budget c = .ok ((a, left), c') ∧
      budget = paid + left ∧ paid + n + c'.bits.length ≤ c.bits.length) ∨
    ∃ f, Raised f ∧ m c = .error f ∧ mb budget c = .error f

section Budget

variable {α β : Type} {m : Inflate α} {mb : Budgeted α} {f : α → Inflate β}
variable {fb : α → Budgeted β} {N n k : ℕ}

theorem budget_bind (budget : ℕ) (c : InflateContext) : (mb >>= fb) budget c =
    ((mb budget : Inflate (α × ℕ)) >>= fun x => fb x.1 x.2) c :=
  rfl

theorem budget_bind_of_ok {budget left : ℕ} {c c' : InflateContext} {a : α}
    (h : mb budget c = .ok ((a, left), c')) : (mb >>= fb) budget c = fb a left c' := by
  rw [budget_bind, bind_of_ok h]

theorem budget_bind_of_error {budget : ℕ} {c : InflateContext} {e : Fault}
    (h : mb budget c = .error e) : (mb >>= fb) budget c = .error e := by
  rw [budget_bind, bind_of_error h]

theorem liftM_apply (budget : ℕ) (c : InflateContext) :
    (liftM m : Budgeted α) budget c = (m >>= fun a => Pure.pure (a, budget)) c :=
  rfl

theorem pay_of_pos {budget : ℕ} (h : 1 ≤ budget) (c : InflateContext) :
    pay budget c = .ok (((), budget - 1), c) := by
  obtain ⟨b, rfl⟩ : ∃ b, budget = b + 1 := ⟨budget - 1, by omega⟩
  rfl

namespace Pays

theorem lift (h : Progress n m) : Pays N n m (liftM m) := by
  intro c budget hc _ _
  rcases hmc : m c with e | ⟨a, c'⟩
  · right
    exact ⟨e, h.error c e hc hmc, rfl, by rw [liftM_apply, bind_of_error hmc]⟩
  · left
    obtain ⟨hindex, hbits⟩ := h.ok c a c' hc hmc
    have hlift : (liftM m : Budgeted α) budget c = .ok ((a, budget), c') := by
      rw [liftM_apply, bind_of_ok hmc]
      rfl
    exact ⟨a, c', 0, budget, rfl, hindex, hlift, (Nat.zero_add _).symm, by omega⟩

theorem bind (hm : Pays N n m mb) (hf : n ≤ N → ∀ a, Pays (N - n) k (f a) (fb a)) :
    Pays N (n + k) (m >>= f) (mb >>= fb) := by
  intro c budget hc hN hbudget
  obtain ⟨a, c1, paid, left, hmc, hc1, hmb, hpaid, hbits⟩ | ⟨e, he, hmc, hmb⟩ :=
    hm c budget hc hN hbudget
  · rw [bind_of_ok hmc, budget_bind_of_ok hmb]
    obtain ⟨b, c2, paid2, left2, hfc, hc2, hfb, hpaid2, hbits2⟩ | h :=
      hf (by omega) a c1 left hc1 (by omega) (by omega)
    · exact .inl ⟨b, c2, paid + paid2, left2, hfc, hc2, hfb, by omega, by omega⟩
    · exact .inr h
  · rw [bind_of_error hmc, budget_bind_of_error hmb]
    exact .inr ⟨e, he, rfl, rfl⟩

theorem bind_right (hm : Pays N 0 m mb) (hf : ∀ a, Pays N k (f a) (fb a)) :
    Pays N k (m >>= f) (mb >>= fb) := by
  have h := hm.bind fun _ => hf
  rwa [Nat.zero_add] at h

theorem bind_left (hm : Pays N n m mb) (hf : ∀ a, Pays (N - n) 0 (f a) (fb a)) :
    Pays N n (m >>= f) (mb >>= fb) :=
  hm.bind fun _ => hf

/-- A turn is paid for with one of the bits that it has read. -/
theorem turn (hm : Pays N (n + 1) m mb)
    (hf : n + 1 ≤ N → ∀ a, Pays (N - (n + 1)) 0 (f a) (fb a)) :
    Pays N 0 (m >>= f) (mb >>= fun a => pay >>= fun _ => fb a) := by
  intro c budget hc hN hbudget
  obtain ⟨a, c1, paid, left, hmc, hc1, hmb, hpaid, hbits⟩ | ⟨e, he, hmc, hmb⟩ :=
    hm c budget hc hN hbudget
  · rw [bind_of_ok hmc, budget_bind_of_ok hmb, budget_bind_of_ok (pay_of_pos (by omega) c1)]
    obtain ⟨b, c2, paid2, left2, hfc, hc2, hfb, hpaid2, hbits2⟩ | h :=
      hf (by omega) a c1 (left - 1) hc1 (by omega) (by omega)
    · exact .inl ⟨b, c2, paid + 1 + paid2, left2, hfc, hc2, hfb, by omega, by omega⟩
    · exact .inr h
  · rw [bind_of_error hmc, budget_bind_of_error hmb]
    exact .inr ⟨e, he, rfl, rfl⟩

/-- What depends on the length of the buffer: there are at most eight bits in each of its bytes. -/
theorem get_bind {f : InflateContext → Inflate β} {fb : InflateContext → Budgeted β}
    (h : ∀ c, Pays (8 * c.inputBuf.length) k (f c) (fb c)) :
    Pays N k (get >>= f) (liftM (get : Inflate InflateContext) >>= fb) := by
  intro c budget hc _ hbudget
  have hlen := c.length_bits
  exact h c c budget hc (by omega) hbudget

theorem ite {P : Prop} [Decidable P] {m' : Inflate α} {mb' : Budgeted α} (h : Pays N n m mb)
    (h' : Pays N n m' mb') : Pays N n (if P then m else m') (if P then mb else mb') := by
  split_ifs
  · exact h
  · exact h'

theorem pure (a : α) : Pays N 0 (Pure.pure a) (Pure.pure a) := Pays.lift (Progress.pure a)

end Pays

end Budget

/-! ## The decoder on a budget

The functions of the decoder again, with a payment behind each turn of the three loops. -/

section Paid

variable (p : Profile)

def inflateLoopPaid (huffLen huffDist : Huff) : ℕ → Budgeted Unit
  | 0 => liftM (throw .fuel : Inflate Unit)
  | turns + 1 => do
    let more ← liftM (inflateTurn p huffLen huffDist)
    pay
    if more then inflateLoopPaid huffLen huffDist turns else pure ()

def inflatePaid (huffLen huffDist : Huff) : Budgeted Unit := do
  let c ← liftM (get : Inflate InflateContext)
  inflateLoopPaid p huffLen huffDist (8 * c.inputBuf.length + 1)

def lengthsLoopPaid (codes : Huff) (total : ℕ) : ℕ → ℕ → List ℕ → Budgeted (List ℕ)
  | 0, _, _ => liftM (throw .fuel : Inflate (List ℕ))
  | turns + 1, count, lengths =>
    if count < total then do
      let t ← liftM (lengthsTurn p codes count lengths)
      pay
      if t.1 then lengthsLoopPaid codes total turns t.2.1 t.2.2 else pure t.2.2
    else pure lengths

def decodeHuffmanPaid : Budgeted Unit := do
  let literals ← liftM (getBitsBase p 5 257)
  let distances ← liftM (getBitsBase p 5 1)
  let clengths ← liftM (getBitsBase p 4 4)
  let lengths ← liftM (readClens p clengths 0 (List.replicate 320 0))
  let codes ← liftM (lift (buildHuffman lengths 19 .zero))
  let c ← liftM (get : Inflate InflateContext)
  let lengths ←
    lengthsLoopPaid p codes (literals + distances) (8 * c.inputBuf.length + 1) 0 lengths
  let huffLen ← liftM (lift (buildHuffman lengths literals .zero))
  let huffDist ← liftM (lift (buildHuffman (lengths.drop literals) distances .zero))
  inflatePaid p huffLen huffDist

def blockPaid (lengths dists : Huff) : Budgeted Unit := do
  let blockType ← liftM (getBits p 2)
  if blockType = 0 then liftM (uncompressed p)
  else if blockType = 1 then inflatePaid p lengths dists
  else if blockType = 2 then decodeHuffmanPaid p
  else liftM (throw .err : Inflate Unit)

/-- A turn of the loop of `decompress`: whether the block was the final one. -/
def blockTurn (lengths dists : Huff) : Inflate Bool := do
  let isFinal ← getBit
  block p lengths dists
  pure isFinal

def blockTurnPaid (lengths dists : Huff) : Budgeted Bool := do
  let isFinal ← liftM getBit
  blockPaid p lengths dists
  pure isFinal

def decompressLoopPaid (lengths dists : Huff) : ℕ → Budgeted Unit
  | 0 => liftM (throw .fuel : Inflate Unit)
  | turns + 1 => do
    let isFinal ← blockTurnPaid p lengths dists
    pay
    if isFinal then pure () else decompressLoopPaid lengths dists turns

def decompressPaid : Budgeted (List Byte) := do
  let tables ← liftM (lift buildFixed)
  let c ← liftM (get : Inflate InflateContext)
  decompressLoopPaid p tables.1 tables.2 (8 * c.inputBuf.length + 1)
  let c ← liftM (get : Inflate InflateContext)
  pure c.outputBuf

/-! A loop that is given one turn more than there are bits to read does not run out of turns. -/

variable {p} {N : ℕ}

theorem pays_inflateLoop (huffLen huffDist : Huff) {turns : ℕ} (h : N < turns) :
    Pays N 0 (inflateLoop p huffLen huffDist turns) (inflateLoopPaid p huffLen huffDist turns) := by
  induction turns generalizing N with
  | zero => exact absurd h (Nat.not_lt_zero N)
  | succ turns ih =>
    refine (Pays.lift (progress_inflateTurn huffLen huffDist)).turn fun _ more => ?_
    exact (ih (by omega)).ite (.pure ())

theorem pays_inflate (huffLen huffDist : Huff) :
    Pays N 0 (inflate p huffLen huffDist) (inflatePaid p huffLen huffDist) :=
  .get_bind fun _ => pays_inflateLoop huffLen huffDist (Nat.lt_succ_self _)

theorem pays_lengthsLoop (codes : Huff) (total count : ℕ) (lengths : List ℕ) {turns : ℕ}
    (h : N < turns) : Pays N 0 (lengthsLoop p codes total turns count lengths)
      (lengthsLoopPaid p codes total turns count lengths) := by
  induction turns generalizing N count lengths with
  | zero => exact absurd h (Nat.not_lt_zero N)
  | succ turns ih =>
    rw [lengthsLoop_succ]
    refine Pays.ite ?_ (.pure lengths)
    refine (Pays.lift (progress_lengthsTurn codes count lengths)).turn fun _ t => ?_
    exact (ih t.2.1 t.2.2 (by omega)).ite (.pure t.2.2)

theorem pays_decodeHuffman : Pays N 0 (decodeHuffman p) (decodeHuffmanPaid p) := by
  have htable : ∀ lengths size, Progress 0 (lift (buildHuffman lengths size .zero)) :=
    fun lengths size => progress_lift fun f h => .inr (panic_of_buildHuffman h)
  refine (Pays.lift (progress_getBitsBase 5 257)).bind_right fun literals => ?_
  refine (Pays.lift (progress_getBitsBase 5 1)).bind_right fun distances => ?_
  refine (Pays.lift (progress_getBitsBase 4 4)).bind_right fun clengths => ?_
  refine (Pays.lift (progress_readClens _ _ _)).bind_right fun lengths => ?_
  refine (Pays.lift (htable _ _)).bind_right fun codes => .get_bind fun c => ?_
  refine (pays_lengthsLoop codes _ 0 lengths (Nat.lt_succ_self _)).bind_right fun lengths => ?_
  refine (Pays.lift (htable _ _)).bind_right fun huffLen => ?_
  exact (Pays.lift (htable _ _)).bind_right fun huffDist => pays_inflate huffLen huffDist

theorem pays_block (lengths dists : Huff) :
    Pays N 2 (block p lengths dists) (blockPaid p lengths dists) := by
  refine (Pays.lift (progress_getBits 2)).bind_left fun blockType => ?_
  exact (Pays.lift progress_uncompressed).ite ((pays_inflate lengths dists).ite
    (pays_decodeHuffman.ite (Pays.lift (.throw (.inl rfl)))))

/-- The header of a block has three bits, also when the block is empty. -/
theorem pays_blockTurn (lengths dists : Huff) :
    Pays N (1 + 2) (blockTurn p lengths dists) (blockTurnPaid p lengths dists) :=
  (Pays.lift progress_getBit).bind fun _ isFinal =>
    (pays_block lengths dists).bind_left fun _ => .pure isFinal

theorem decompressLoop_eq_turn (lengths dists : Huff) (turns : ℕ) :
    decompressLoop p lengths dists (turns + 1) = blockTurn p lengths dists >>= fun isFinal =>
      if isFinal then pure () else decompressLoop p lengths dists turns := by
  rw [decompressLoop_succ, blockTurn]
  simp only [bind_assoc, pure_bind]

theorem pays_decompressLoop (lengths dists : Huff) {turns : ℕ} (h : N < turns) :
    Pays N 0 (decompressLoop p lengths dists turns) (decompressLoopPaid p lengths dists turns) := by
  induction turns generalizing N with
  | zero => exact absurd h (Nat.not_lt_zero N)
  | succ turns ih =>
    rw [decompressLoop_eq_turn]
    refine (pays_blockTurn lengths dists).turn fun _ isFinal => ?_
    exact Pays.ite (.pure ()) (ih (by omega))

theorem pays_decompress : Pays N 0 (decompress p) (decompressPaid p) := by
  obtain ⟨tables, htables, -, -⟩ := buildFixed_spec
  have hfixed : Progress 0 (lift buildFixed) := progress_lift fun f h => by
    cases htables.symm.trans h
  refine (Pays.lift hfixed).bind_right fun tables => .get_bind fun c => ?_
  refine (pays_decompressLoop _ _ (Nat.lt_succ_self _)).bind_right fun _ => .get_bind fun c => ?_
  exact .pure c.outputBuf

/-- A turn of one of the loops that returns has read `n` bits. -/
theorem progress_blockTurn (lengths dists : Huff) {c c' : InflateContext} {isFinal : Bool}
    (hc : c.bitIndex ≤ 8) (hret : blockTurn p lengths dists c = .ok (isFinal, c')) :
    3 + c'.bits.length ≤ c.bits.length := by
  obtain ⟨b, c1, paid, left, hok, -, -, -, hbits⟩ | ⟨f, -, herror, -⟩ :=
    pays_blockTurn (p := p) lengths dists c _ hc le_rfl le_rfl
  · cases hok.symm.trans hret
    omega
  · cases herror.symm.trans hret

end Paid

/-- **Inflate always makes progress.** From any context that the bit reader can be in, and with any
tables, a turn of the block loop reads three bits and a turn of the other two loops one. For every
input `decompress` returns a value, the error, or panics, and it does so with at most as many turns
of the three loops completed as the input has bits. -/
theorem decompress_progress (p : Profile) :
    (∀ lengths dists c isFinal c', c.bitIndex ≤ 8 →
      blockTurn p lengths dists c = .ok (isFinal, c') → 3 + c'.bits.length ≤ c.bits.length) ∧
    (∀ huffLen huffDist c more c', c.bitIndex ≤ 8 →
      inflateTurn p huffLen huffDist c = .ok (more, c') → 1 + c'.bits.length ≤ c.bits.length) ∧
    (∀ codes count lengths c t c', c.bitIndex ≤ 8 →
      lengthsTurn p codes count lengths c = .ok (t, c') → 1 + c'.bits.length ≤ c.bits.length) ∧
    ∀ bytes,
      (∃ out c' left, decompress p (.new bytes) = .ok (out, c') ∧
        decompressPaid p (8 * bytes.length) (.new bytes) = .ok ((out, left), c')) ∨
      ∃ f, (f = .err ∨ ∃ q, f = .panic q) ∧ decompress p (.new bytes) = .error f ∧
        decompressPaid p (8 * bytes.length) (.new bytes) = .error f := by
  refine ⟨fun lengths dists c isFinal c' hc hret => progress_blockTurn lengths dists hc hret,
    fun huffLen huffDist c more c' hc hret =>
      ((progress_inflateTurn huffLen huffDist).ok c more c' hc hret).2,
    fun codes count lengths c t c' hc hret =>
      ((progress_lengthsTurn codes count lengths).ok c t c' hc hret).2, fun bytes => ?_⟩
  have hlen : (InflateContext.new bytes).bits.length ≤ 8 * bytes.length := by
    rw [InflateContext.length_bits]
    exact Nat.sub_le _ _
  obtain ⟨out, c', paid, left, hok, -, hpaid, -, -⟩ | ⟨f, hf, herror, hpaid⟩ :=
    pays_decompress (p := p) (.new bytes) (8 * bytes.length) (Nat.zero_le 8) hlen hlen
  · exact .inl ⟨out, c', left, hok, hpaid⟩
  · exact .inr ⟨f, hf, herror, hpaid⟩

end CappuccinOS.Gzip
