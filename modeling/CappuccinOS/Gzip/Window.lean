import CappuccinOS.Gzip.Reader

/-!
# The ring and the output

The abstract window of the decoder is the end of its output: `lookBack o d` is the byte `d` places
from the end of `o`. The ring implements it in 32 KiB. Its write pointer wraps lazily, so that it
may rest at 32768, one past the last cell, and `peek` subtracts from it modulo `2 ^ 64`.

1. `emitIndex` and `peekIndex` are the cells that `emit` and `peek` use, and `emitIndex_lt` and
   `peekIndex_lt` say that the ring has them.
2. `run_emitAll` is the run of any sequence of emits.
3. `ring_mirrors_output`: after it, every `peek` within the window returns what `lookBack` says.
-/

namespace CappuccinOS.Gzip

/-- The byte `d` places from the end of the output. -/
def lookBack (o : List Byte) (d : ℕ) : Option Byte := o[o.length - d]?

/-- A sequence of calls of `emit`. -/
def emitAll : List Byte → Inflate Unit
  | [] => pure ()
  | b :: rest => do
    emit b
    emitAll rest

/-! ## The cells that are used -/

/-- The cell that `emit` writes: a pointer at the end of the ring is wrapped first. -/
def emitIndex (r : HuffRing) : ℕ := if r.pointer = 32768 then 0 else r.pointer

/-- The cell that `peek` reads. -/
def peekIndex (r : HuffRing) (offset : ℕ) : ℕ :=
  (r.pointer + wordSize - offset) % wordSize % 32768

theorem emit_eq (b : Byte) :
    emit b = (get >>= fun c => ensure .bounds (emitIndex c.ring < 32768) >>= fun _ =>
      set { c with
        ring := ⟨emitIndex c.ring + 1, Function.update c.ring.data (emitIndex c.ring) b⟩
        outputBuf := c.outputBuf ++ [b] }) :=
  rfl

theorem peek_eq (offset : ℕ) (c : InflateContext) :
    peek offset c = .ok (c.ring.data (peekIndex c.ring offset), c) :=
  rfl

theorem emitIndex_lt {r : HuffRing} (h : r.pointer ≤ 32768) : emitIndex r < 32768 := by
  unfold emitIndex
  split_ifs <;> omega

theorem peekIndex_lt (r : HuffRing) (offset : ℕ) : peekIndex r offset < 32768 :=
  Nat.mod_lt _ (by norm_num)

/-! ## Any sequence of emits -/

theorem run_emitAll (l o : List Byte) : Run (emitAll l) [] o () (o ++ l) := by
  induction l generalizing o with
  | nil =>
    rw [List.append_nil]
    exact Run.pure () o
  | cons b rest ih =>
    have hrest := ih (o ++ [b])
    rw [List.append_assoc, List.singleton_append] at hrest
    exact (run_emit b o).bind hrest

theorem windowByte_of_le {d : ℕ} {o : List Byte} (hpos : 1 ≤ d) (hle : d ≤ o.length) :
    lookBack o d = some (windowByte d o) := by
  unfold lookBack windowByte
  rw [if_pos hle, List.getElem?_eq_getElem (by omega), List.getD_eq_getElem]

/-- After any sequence of emits on a new decoder the ring holds the end of the output: a `peek` of
at most 32 KiB returns the byte that many places back, and no cell used is outside the ring. -/
theorem ring_mirrors_output (input out : List Byte) :
    ∃ c, emitAll out (.new input) = .ok ((), c) ∧ c.outputBuf = out ∧
      emitIndex c.ring < 32768 ∧
      ∀ d, 1 ≤ d → d ≤ min 32768 c.outputBuf.length →
        peekIndex c.ring d < 32768 ∧ ∃ b, peek d c = .ok (b, c) ∧
        lookBack c.outputBuf d = some b := by
  obtain ⟨c, hc, hat⟩ := run_emitAll out [] (.new input) (bytesBits input) (at_new input)
  rw [List.nil_append] at hat
  have hptr : c.ring.pointer ≤ 32768 := by
    rw [hat.ring_eq]
    exact (ringOf_pointer _).1
  refine ⟨c, hc, hat.output_eq, emitIndex_lt hptr, ?_⟩
  intro d hpos hmax
  obtain ⟨h32k, hlen⟩ := le_min_iff.mp hmax
  refine ⟨peekIndex_lt c.ring d, windowByte d c.outputBuf, ?_, windowByte_of_le hpos hlen⟩
  rw [hat.output_eq]
  obtain ⟨c', hpeek, -⟩ := run_peek out hpos h32k c (bytesBits input) hat
  -- the read leaves the context as it is
  rw [peek_eq] at hpeek ⊢
  have hbyte : c.ring.data (peekIndex c.ring d) = windowByte d out :=
    congrArg Prod.fst (Except.ok.inj hpeek)
  rw [hbyte]

end CappuccinOS.Gzip
