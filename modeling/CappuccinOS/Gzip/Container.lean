import CappuccinOS.Gzip.Tokens

/-!
# The zlib container

The format side of RFC 1950: two header bytes, the compressed data, and the Adler-32 checksum of
the uncompressed data, most significant byte first. `uncompressData_zlib` reduces `uncompress_data`
on such a stream to `decompress` on what stands between header and checksum.
-/

namespace CappuccinOS.Gzip

/-- A header that asks for nothing the format does not define: the method is deflate, the window
has at most 32 KiB, the check bits are right and there is no preset dictionary. -/
structure ZlibHeader where
  cmf : Byte
  flg : Byte
  method : cmf.toNat % 16 = 8
  window : cmf.toNat / 16 ≤ 7
  fcheck : (cmf.toNat * 256 + flg.toNat) % 31 = 0
  fdict : flg.toNat / 32 % 2 = 0

/-- The header `78 9C` that zlib writes by default. -/
def ZlibHeader.default : ZlibHeader where
  cmf := 0x78#8
  flg := 0x9C#8
  method := by decide
  window := by decide
  fcheck := by decide
  fdict := by decide

/-! ## Adler-32 -/

/-- The sum of the bytes, starting from 1. -/
def adlerS1 (d : List Byte) : ℕ := (1 + (d.map BitVec.toNat).sum) % 65521

/-- The sum of the values that `adlerS1` goes through, one for each byte. -/
def adlerS2 (d : List Byte) : ℕ := (d.inits.tail.map adlerS1).sum % 65521

def adler (d : List Byte) : ℕ := adlerS2 d * 65536 + adlerS1 d

/-- The four bytes of a number, most significant first. -/
def beBytes (v : ℕ) : List Byte :=
  [.ofNat 8 (v / 2 ^ 24), .ofNat 8 (v / 2 ^ 16), .ofNat 8 (v / 2 ^ 8), .ofNat 8 v]

/-- A zlib stream: `payload` is the compressed form of `data`. -/
def zlib (header : ZlibHeader) (payload data : List Byte) : List Byte :=
  header.cmf :: header.flg :: (payload ++ beBytes (adler data))

theorem adlerLoop_append (l m : List Byte) (a b : ℕ) :
    adlerLoop (l ++ m) a b = adlerLoop m (adlerLoop l a b).1 (adlerLoop l a b).2 := by
  induction l generalizing a b with
  | nil => rfl
  | cons x l ih => rw [List.cons_append, adlerLoop, ih, adlerLoop]

theorem adlerS1_append (d : List Byte) (b : Byte) :
    adlerS1 (d ++ [b]) = (adlerS1 d + b.toNat) % 65521 := by
  unfold adlerS1
  rw [List.map_append, List.sum_append, List.map_singleton, List.sum_singleton]
  omega

theorem adlerS2_append (d : List Byte) (b : Byte) :
    adlerS2 (d ++ [b]) = (adlerS2 d + adlerS1 (d ++ [b])) % 65521 := by
  have hinits : (d ++ [b]).inits.tail = d.inits.tail ++ [d ++ [b]] := by
    have hne : d.inits ≠ [] := List.ne_nil_of_length_pos (by simp)
    rw [List.inits_append, List.tail_append_of_ne_nil hne]
    simp
  unfold adlerS2
  rw [hinits, List.map_append, List.sum_append, List.map_singleton, List.sum_singleton]
  omega

theorem adlerLoop_eq (d : List Byte) : adlerLoop d 1 0 = (adlerS1 d, adlerS2 d) := by
  induction d using List.reverseRecOn with
  | nil => rfl
  | append_singleton d b ih =>
    rw [adlerLoop_append, ih, adlerS2_append, adlerS1_append]
    rfl

theorem leNat_beBytes (v : ℕ) : leNat (beBytes v) = swapBytes v := by
  simp only [leNat, beBytes, swapBytes, BitVec.toNat_ofNat]
  omega

/-- The source's checksum, with its bytes reversed, is the one of the format. -/
theorem adler32_eq (d : List Byte) : adler32 d = swapBytes (adler d) := by
  have hlt : adlerS1 d < 2 ^ 16 := lt_trans (Nat.mod_lt _ (by norm_num)) (by norm_num)
  simp only [adler32, adlerLoop_eq]
  rw [← Nat.shiftLeft_add_eq_or_of_lt hlt, Nat.shiftLeft_eq, adler]

/-! ## `uncompress_data` -/

variable (header : ZlibHeader)

theorem ZlibHeader.method_and : header.cmf &&& 0x0F#8 = 0x08#8 := by
  apply BitVec.eq_of_toNat_eq
  rw [BitVec.toNat_and, show (0x0F#8).toNat = 2 ^ 4 - 1 from rfl, Nat.and_two_pow_sub_one_eq_mod]
  exact header.method

theorem ZlibHeader.window_and : ¬ header.cmf >>> 4 &&& 0x0F#8 > 0x07#8 := by
  have h := header.window
  rw [gt_iff_lt, BitVec.lt_def, BitVec.toNat_and, show (0x0F#8).toNat = 2 ^ 4 - 1 from rfl,
    Nat.and_two_pow_sub_one_eq_mod, BitVec.toNat_ushiftRight, Nat.shiftRight_eq_div_pow,
    show (0x07#8).toNat = 7 from rfl]
  omega

theorem ZlibHeader.fdict_and : header.flg >>> 5 &&& 0x01#8 = 0#8 := by
  apply BitVec.eq_of_toNat_eq
  rw [BitVec.toNat_and, show (0x01#8).toNat = 2 ^ 1 - 1 from rfl, Nat.and_two_pow_sub_one_eq_mod,
    BitVec.toNat_ushiftRight, Nat.shiftRight_eq_div_pow]
  exact header.fdict

theorem checkHeader_header : checkHeader header.cmf header.flg = .ok () := by
  unfold checkHeader
  rw [if_neg (by simp [header.method_and]), if_neg header.window_and,
    if_neg (by simp [header.fcheck]), if_neg (by simp [header.fdict_and])]

theorem slicePayload_zlib (p : Profile) (payload data : List Byte) :
    slicePayload p (zlib header payload data) = .ok payload := by
  have hlen : (zlib header payload data).length = payload.length + 6 := by
    simp [zlib, beBytes]
  unfold slicePayload
  rw [if_neg (by omega), if_neg (by omega), hlen, Nat.add_sub_cancel]
  simp [zlib]

theorem trailer_zlib (payload data : List Byte) :
    leNat ((zlib header payload data).drop ((zlib header payload data).length - 4)) =
      adler32 data := by
  have hlen : (zlib header payload data).length - 4 = payload.length + 2 := by
    simp [zlib, beBytes]
  rw [hlen, zlib, List.drop_succ_cons, List.drop_succ_cons, List.drop_left, leNat_beBytes,
    adler32_eq]

theorem uncompressData_zlib (p : Profile) (payload data : List Byte) :
    uncompressData p (zlib header payload data) =
      match decompress p (.new payload) with
      | .error f => .error f
      | .ok (out, _) => if adler32 out = adler32 data then .ok out else .error .err := by
  obtain ⟨b, l, hl⟩ : ∃ b l, payload ++ beBytes (adler data) = b :: l := by
    cases payload with
    | nil => exact ⟨_, _, rfl⟩
    | cons b l => exact ⟨b, _, rfl⟩
  have hz : zlib header payload data = header.cmf :: header.flg :: b :: l := by rw [zlib, hl]
  rw [← trailer_zlib header payload data]
  have hslice := slicePayload_zlib header p payload data
  rw [hz] at hslice ⊢
  simp only [uncompressData, checkHeader_header, hslice, bind, Except.bind]
  generalize leNat _ = sum
  rcases decompress p (.new payload) with f | ⟨out, c⟩
  · rfl
  · simp only [ne_eq, ite_not]
    rfl

variable {header}

/-- With the right data between header and checksum the stream is accepted. -/
theorem uncompressData_of_decompress {p : Profile} {payload data : List Byte} {c : InflateContext}
    (h : decompress p (.new payload) = .ok (data, c)) :
    uncompressData p (zlib header payload data) = .ok data := by
  rw [uncompressData_zlib, h]
  simp only [if_true]

/-- What `uncompress_data` returns is what `decompress` returned. -/
theorem decompress_of_uncompressData {p : Profile} {payload data out : List Byte}
    (h : uncompressData p (zlib header payload data) = .ok out) :
    ∃ c, decompress p (.new payload) = .ok (out, c) := by
  rw [uncompressData_zlib] at h
  rcases hdec : decompress p (.new payload) with f | ⟨out', c⟩
  · rw [hdec] at h
    cases h
  · rw [hdec] at h
    simp only at h
    split_ifs at h
    rw [Except.ok.injEq] at h
    exact ⟨c, by rw [h]⟩

end CappuccinOS.Gzip
