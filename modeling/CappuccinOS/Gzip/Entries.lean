import CappuccinOS.Gzip.Decode
import CappuccinOS.Gzip.Tokens

/-!
# What `inflate` reads, legal or not

The tokens of RFC 1951 are what a compressed block may hold. This is what the source reads in it:
an `Entry` is a literal, or any pair of a length symbol and a distance symbol that its tables have
rows for, with any bits behind them. There may be no such distance in the output; the ring then
gives zeros.

1. `run_entries`: in front of entries and the code that ends the block, `inflate` reads them and
   emits their bytes.
2. `inflate_inv`: when `inflate` returns, this is what it has read. The induction is on the turns
   of its loop, with `inflateTurn_inv` for one turn.
-/

namespace CappuccinOS.Gzip

open Canonical

/-- The codes of a compressed block, as the source decodes them. -/
structure Codes where
  lits : List ℕ
  dists : List ℕ
  lits_count : lits.length ≤ 288
  dists_count : dists.length ≤ 288
  lits_le : ∀ l ∈ lits, l ≤ 15
  dists_le : ∀ l ∈ dists, l ≤ 15

/-- A literal, or the length symbol `257 + i` and the distance symbol `j` with their extra bits. -/
inductive Entry
  | lit (b : Byte)
  | pair (i j : ℕ) (x y : List Bool)
  deriving DecidableEq, Repr

/-- The length that a pair stands for. -/
def pairLength (i : ℕ) (x : List Bool) : ℕ := (lengthBase.getD i 0 + orBits x 0 0) % 2 ^ 32

/-- The distance that a pair stands for. -/
def pairDistance (j : ℕ) (y : List Bool) : ℕ := (distBase.getD j 0 + orBits y 0 0) % 2 ^ 32

namespace Entry

def bits (k : Codes) : Entry → List Bool
  | lit b => codeBits k.lits b.toNat
  | pair i j x y => codeBits k.lits (257 + i) ++ (x ++ (codeBits k.dists j ++ y))

/-- The bytes an entry emits behind the output `o`. -/
def bytes (o : List Byte) : Entry → List Byte
  | lit b => [b]
  | pair i j x y => windowBytes (pairDistance j y) (pairLength i x) o

/-- The entry has codes and rows. The row of length symbol 286 has 127 extra bits, which `get_bits`
does not read where overflow is checked. -/
inductive Readable (p : Profile) (k : Codes) : Entry → Prop
  | lit {b : Byte} (hb : Coded k.lits b.toNat) : Readable p k (lit b)
  | pair {i j : ℕ} {x y : List Bool} (hi : Coded k.lits (257 + i))
    (hx : lengthBits[i]? = some x.length) (hdev : p = .dev → x.length ≤ 32)
    (hj : Coded k.dists j) (hy : distBits[j]? = some y.length) : Readable p k (pair i j x y)

end Entry

/-- Bits that hold entries, and the output before and after them. -/
inductive Entries (p : Profile) (k : Codes) : List Bool → List Byte → List Byte → Prop
  | nil {o : List Byte} : Entries p k [] o o
  | cons {e : Entry} {bs : List Bool} {o o' : List Byte} (he : e.Readable p k)
    (hrest : Entries p k bs (o ++ e.bytes o) o') : Entries p k (e.bits k ++ bs) o o'

/-! ## The rows -/

theorem distBase_of_distBits {j n : ℕ} (h : distBits[j]? = some n) :
    j < 30 ∧ distBase[j]? = some (distBase.getD j 0) ∧ 1 ≤ distBase.getD j 0 ∧
      distBase.getD j 0 + 2 ^ n ≤ 32769 ∧ n ≤ 13 := by
  have hrow : ∀ j < 30, distBase[j]? = some (distBase.getD j 0) ∧ 1 ≤ distBase.getD j 0 ∧
      distBase.getD j 0 + 2 ^ distBits.getD j 0 ≤ 32769 ∧ distBits.getD j 0 ≤ 13 := by decide
  obtain ⟨hj, -⟩ := List.getElem?_eq_some_iff.mp h
  have hn : distBits.getD j 0 = n := by rw [List.getD_eq_getElem?_getD, h]; rfl
  have := hrow j hj
  rw [hn] at this
  exact ⟨hj, this⟩

theorem lengthBase_of_lengthBits {i n : ℕ} (h : lengthBits[i]? = some n) :
    i < 30 ∧ lengthBase[i]? = some (lengthBase.getD i 0) := by
  have hrow : ∀ i < 30, lengthBase[i]? = some (lengthBase.getD i 0) := by decide
  obtain ⟨hi, -⟩ := List.getElem?_eq_some_iff.mp h
  exact ⟨hi, hrow i hi⟩

/-- Every distance the source can read is one of the format's. -/
theorem pairDistance_bounds {j : ℕ} {y : List Bool} (h : distBits[j]? = some y.length) :
    1 ≤ pairDistance j y ∧ pairDistance j y ≤ 32768 := by
  obtain ⟨-, -, h1, hmax, h13⟩ := distBase_of_distBits h
  have hlt := valLE_lt y
  rw [pairDistance, orBits_eq_valLE (by omega), Nat.mod_eq_of_lt (by omega)]
  omega

/-- Every length but that of symbol 286 is one of the format's. -/
theorem pairLength_bounds {i : ℕ} {x : List Bool} (h : lengthBits[i]? = some x.length)
    (hi : i ≠ 29) : 3 ≤ pairLength i x ∧ pairLength i x ≤ 258 := by
  have hrow : ∀ i < 29, 3 ≤ lengthBase.getD i 0 ∧
      lengthBase.getD i 0 + 2 ^ lengthBits.getD i 0 ≤ 259 ∧ lengthBits.getD i 0 ≤ 5 := by decide
  have hlen : lengthBits.getD i 0 = x.length := by rw [List.getD_eq_getElem?_getD, h]; rfl
  obtain ⟨hlt, -⟩ := lengthBase_of_lengthBits h
  have hbounds := hrow i (by omega)
  rw [hlen] at hbounds
  have hval := valLE_lt x
  rw [pairLength, orBits_eq_valLE (by omega), Nat.mod_eq_of_lt (by omega)]
  omega

section Inflate

variable {p : Profile} {k : Codes} {huffLen huffDist : Huff}

/-! ## Reading entries -/

theorem Codes.reads_lit (ht : TableFor huffLen k.lits) {s : ℕ} (hs : Coded k.lits s) :
    Reads huffLen (codeBits k.lits) s :=
  ht.reads_coded k.lits_count hs (len_le_of_forall k.lits_le s)

theorem Codes.reads_dist (ht : TableFor huffDist k.dists) {s : ℕ} (hs : Coded k.dists s) :
    Reads huffDist (codeBits k.dists) s :=
  ht.reads_coded k.dists_count hs (len_le_of_forall k.dists_le s)

theorem run_entry (htl : TableFor huffLen k.lits) (htd : TableFor huffDist k.dists) {e : Entry}
    (he : e.Readable p k) (o : List Byte) :
    Run (inflateTurn p huffLen huffDist) (e.bits k) o true (o ++ e.bytes o) := by
  cases he with
  | lit hb => exact run_inflateTurn_lit (k.reads_lit htl hb) o
  | @pair i j x y hi hx hdev hj hy =>
    obtain ⟨-, hlbase⟩ := lengthBase_of_lengthBits hx
    obtain ⟨-, hdbase, -, -, h13⟩ := distBase_of_distBits hy
    obtain ⟨h1, hmax⟩ := pairDistance_bounds hy
    exact run_inflateTurn_pair (k.reads_lit htl hi) (k.reads_dist htd hj) hx hlbase hy hdbase
      (run_getBitsBase_bits p x _ o hdev) (run_getBitsBase_bits p y _ o fun _ => by omega) h1 hmax

theorem Entry.Readable.bits_ne_nil {e : Entry} (he : e.Readable p k) : e.bits k ≠ [] := by
  cases he with
  | lit hb => exact hb.codeBits_ne_nil
  | pair hi hx hdev hj hy => exact List.append_ne_nil_of_left_ne_nil hi.codeBits_ne_nil _

theorem run_entries (htl : TableFor huffLen k.lits) (htd : TableFor huffDist k.dists)
    (hend : Coded k.lits 256) {bs : List Bool} {o o' : List Byte} (h : Entries p k bs o o')
    {turns : ℕ} (hturns : bs.length < turns) :
    Run (inflateLoop p huffLen huffDist turns) (bs ++ codeBits k.lits 256) o () o' := by
  induction h generalizing turns with
  | nil =>
    obtain ⟨turns, rfl⟩ : ∃ t, turns = t + 1 := ⟨turns - 1, by omega⟩
    rw [List.nil_append, ← List.append_nil (codeBits k.lits 256)]
    exact (run_inflateTurn_end (k.reads_lit htl hend) _).bind (Run.pure () _)
  | cons he hrest ih =>
    have hpos := List.length_pos_iff.mpr he.bits_ne_nil
    rw [List.length_append] at hturns
    obtain ⟨turns, rfl⟩ : ∃ t, turns = t + 1 := ⟨turns - 1, by omega⟩
    rw [List.append_assoc]
    exact (run_entry htl htd he _).bind (ih (by omega))

theorem run_inflate_entries (htl : TableFor huffLen k.lits) (htd : TableFor huffDist k.dists)
    (hend : Coded k.lits 256) {bs : List Bool} {o o' : List Byte} (h : Entries p k bs o o') :
    Run (inflate p huffLen huffDist) (bs ++ codeBits k.lits 256) o () o' := by
  refine Run.get_bind fun c hc => run_entries htl htd hend h ?_
  rw [List.length_append] at hc
  omega

/-! ## What was read -/

variable {c c' : InflateContext} {bs : List Bool} {o : List Byte}

theorem inflateTurn_inv (htl : TableFor huffLen k.lits) (htd : TableFor huffDist k.dists)
    {more : Bool} (hat : At c bs o) (hret : inflateTurn p huffLen huffDist c = .ok (more, c')) :
    (more = true ∧ ∃ e bs', Entry.Readable p k e ∧ bs = e.bits k ++ bs' ∧
      At c' bs' (o ++ e.bytes o)) ∨
    (more = false ∧ Coded k.lits 256 ∧ ∃ bs', bs = codeBits k.lits 256 ++ bs' ∧ At c' bs' o) := by
  unfold inflateTurn at hret
  obtain ⟨s, c1, hsym, hret1⟩ := exists_of_bind hret
  clear hret
  obtain ⟨hs, bs1, rfl, hat1⟩ := decode_inv htl hat hsym
  split_ifs at hret1 with hlit hend
  · -- a literal
    left
    obtain ⟨u, c2, hemit, hret2⟩ := exists_of_bind hret1
    obtain ⟨-, hat2⟩ := (run_emit _ o).of_ok hat1 hemit
    cases hret2
    have hb : (BitVec.ofNat 8 s).toNat = s := by
      rw [BitVec.toNat_ofNat, Nat.mod_eq_of_lt hlit]
    refine ⟨rfl, .lit (.ofNat 8 s), bs1, .lit (by rwa [hb]), ?_, hat2⟩
    rw [Entry.bits, hb]
  · -- the end of the block
    right
    cases hret1
    subst hend
    exact ⟨rfl, hs, bs1, rfl, hat1⟩
  · left
    obtain ⟨lb, c2, hlb, hret2⟩ := exists_of_bind hret1
    obtain ⟨lbase, c3, hlbase, hret3⟩ := exists_of_bind hret2
    obtain ⟨length, c4, hlength, hret4⟩ := exists_of_bind hret3
    obtain ⟨j, c5, hdist, hret5⟩ := exists_of_bind hret4
    obtain ⟨db, c6, hdb, hret6⟩ := exists_of_bind hret5
    obtain ⟨dbase, c7, hdbase, hret7⟩ := exists_of_bind hret6
    obtain ⟨distance, c8, hoffset, hret8⟩ := exists_of_bind hret7
    obtain ⟨u, c9, hcopy, hret9⟩ := exists_of_bind hret8
    clear hret1 hret2 hret3 hret4 hret5 hret6 hret7 hret8
    obtain ⟨hrowl, rfl⟩ := index_inv hlb
    obtain ⟨hstartl, rfl⟩ := index_inv hlbase
    obtain ⟨x, bs2, rfl, rfl, hlen, hdev, hat4⟩ := getBitsBase_inv hat1 hlength
    obtain ⟨hj, bs3, rfl, hat5⟩ := decode_inv htd hat4 hdist
    obtain ⟨hrowd, rfl⟩ := index_inv hdb
    obtain ⟨hstartd, rfl⟩ := index_inv hdbase
    obtain ⟨y, bs4, rfl, rfl, hoff, -, hat8⟩ := getBitsBase_inv hat5 hoffset
    cases hret9
    have hsplit : 257 + (s - 257) = s := by omega
    have hlength' : pairLength (s - 257) x = length := by
      rw [pairLength, hlen, List.getD_eq_getElem?_getD, hstartl, Option.getD_some]
    have hdistance' : pairDistance j y = distance := by
      rw [pairDistance, hoff, List.getD_eq_getElem?_getD, hstartd, Option.getD_some]
    obtain ⟨h1, hmax⟩ := pairDistance_bounds hrowd
    rw [hdistance'] at h1 hmax
    obtain ⟨-, hat9⟩ := (run_copyMatch h1 hmax length o).of_ok hat8 hcopy
    refine ⟨rfl, .pair (s - 257) j x y, bs4, .pair (by rwa [hsplit]) hrowl hdev hj hrowd, ?_, ?_⟩
    · rw [Entry.bits, hsplit]
      simp only [List.append_assoc]
    · rw [Entry.bytes, hlength', hdistance']
      exact hat9

theorem inflateLoop_inv (htl : TableFor huffLen k.lits) (htd : TableFor huffDist k.dists)
    {turns : ℕ} {u : Unit} (hat : At c bs o)
    (hret : inflateLoop p huffLen huffDist turns c = .ok (u, c')) :
    Coded k.lits 256 ∧ ∃ xs bs' o', Entries p k xs o o' ∧
      bs = xs ++ (codeBits k.lits 256 ++ bs') ∧ At c' bs' o' := by
  induction turns generalizing c bs o with
  | zero => cases hret
  | succ turns ih =>
    obtain ⟨more, c1, hturn, hret1⟩ := exists_of_bind hret
    clear hret
    rcases inflateTurn_inv htl htd hat hturn with
      ⟨rfl, e, bs1, he, rfl, hat1⟩ | ⟨rfl, hend, bs1, rfl, hat1⟩
    · obtain ⟨hend, xs, bs', o', hes, rfl, hat'⟩ := ih hat1 hret1
      exact ⟨hend, e.bits k ++ xs, bs', o', .cons he hes, by rw [List.append_assoc], hat'⟩
    · cases hret1
      exact ⟨hend, [], bs1, o, .nil, rfl, hat1⟩

/-- When `inflate` returns it has read entries and the end of the block. -/
theorem inflate_inv (htl : TableFor huffLen k.lits) (htd : TableFor huffDist k.dists) {u : Unit}
    (hat : At c bs o) (hret : inflate p huffLen huffDist c = .ok (u, c')) :
    Coded k.lits 256 ∧ ∃ xs bs' o', Entries p k xs o o' ∧
      bs = xs ++ (codeBits k.lits 256 ++ bs') ∧ At c' bs' o' :=
  inflateLoop_inv htl htd hat hret

end Inflate

end CappuccinOS.Gzip
