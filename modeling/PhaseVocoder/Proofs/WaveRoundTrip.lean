import PhaseVocoder.Wave.Write
import PhaseVocoder.Proofs.WaveReading
import PhaseVocoder.Proofs.Requantize

/-!
# Reading back what the writer wrote (io/wav.rs:74-212)

`write` lays out the canonical 44-byte header and then one sample after another, each in the
same number of bytes. `BytesAt d o l` says that the bytes `d` hold the list `l` from offset `o`
on; it splits along appended lists (`bytesAt_append`), so the layout of a written file is read
off its definition field by field (`bytesAt_header`), and a sample sits `i` widths into the data
(`BytesAt.flatMap`). Little-endian fields read back as their values modulo the field's range
(`BytesAt.readLE`).

From the layout, the reader's walk meets exactly the format chunk and the data chunk
(`chunksFrom_written`), the format chunk reads as one channel of the encoding at the written
rate (`fmt_written`), and each sample is decoded from its own bytes (`read_write`). A binary32
sample decodes to its own bit pattern and a 16-bit sample to its code over `2^15`, which gives
`read_after_write`.

Writing what was read once more gives the binary32 file back, while a 16-bit file moves each
code one step toward zero (`rewrite_after_read`): the code's quotient by `2^15`, scaled by
`2^15 - 1` and truncated, is the next code toward zero (`pcm16Code_decoded`).
-/

namespace PhaseVocoder.Wave

/-! ## Bytes at an offset -/

@[simp] theorem length_bytesLE (n w : Nat) : (bytesLE n w).length = w := by
  induction w generalizing n with
  | zero => rfl
  | succ w ih => simp [bytesLE, ih]

theorem getElem?_toList (bs : ByteArray) (i : Nat) : bs.toList[i]? = bs[i]? := by
  rw [toList_eq, Array.getElem?_toList]
  rfl

/-- `d` holds the bytes `l` from offset `o` on. -/
def BytesAt (d : ByteArray) (o : Nat) (l : List UInt8) : Prop :=
  ∀ i (hi : i < l.length), d[o + i]? = some l[i]

theorem bytesAt_append {d : ByteArray} {o : Nat} {l₁ l₂ : List UInt8} :
    BytesAt d o (l₁ ++ l₂) ↔ BytesAt d o l₁ ∧ BytesAt d (o + l₁.length) l₂ := by
  constructor
  · intro h
    refine ⟨fun i hi => ?_, fun i hi => ?_⟩
    · rw [h i (by simp; omega), List.getElem_append_left hi]
    · rw [Nat.add_assoc, h (l₁.length + i) (by simp; omega), List.getElem_append_right (by omega)]
      simp
  · rintro ⟨h₁, h₂⟩ i hi
    by_cases hl : i < l₁.length
    · rw [h₁ i hl, List.getElem_append_left hl]
    · have h := h₂ (i - l₁.length) (by simp at hi; omega)
      rw [show o + l₁.length + (i - l₁.length) = o + i by omega] at h
      rw [h, List.getElem_append_right (by omega)]

theorem bytesAt_cons {d : ByteArray} {o : Nat} {b : UInt8} {l : List UInt8} :
    BytesAt d o (b :: l) ↔ d[o]? = some b ∧ BytesAt d (o + 1) l := by
  rw [← List.singleton_append, bytesAt_append]
  simp [BytesAt]

theorem bytesAt_toByteArray (l : List UInt8) : BytesAt l.toByteArray 0 l := by
  intro i hi
  rw [Nat.zero_add, getElem?_pos l.toByteArray i (by simpa using hi), List.getElem_toByteArray]

theorem readLE_succ (d : ByteArray) (offset w : Nat) :
    readLE d offset (w + 1) = readLE d (offset + 1) w * 256 + (d[offset]?.getD 0).toNat := by
  unfold readLE
  rw [List.range_succ_eq_map, List.foldr_cons, List.foldr_map, Nat.add_zero]
  congr 2
  congr 1
  funext i acc
  rw [Nat.succ_eq_add_one, show offset + (i + 1) = offset + 1 + i by omega]

namespace BytesAt

variable {d : ByteArray} {o : Nat} {l : List UInt8}

theorem toList_extract (h : BytesAt d o l) : (d.extract o (o + l.length)).toList = l := by
  apply List.ext_getElem?
  intro i
  rw [getElem?_toList]
  by_cases hi : i < l.length
  · rw [getElem?_extract d (by omega), h i hi, List.getElem?_eq_getElem hi]
  · rw [List.getElem?_eq_none (by omega), getElem?_neg _ _ (by simp; omega)]

theorem toList_extract_of_length (h : BytesAt d o l) (k : Nat) (hl : l.length = k) :
    (d.extract o (o + k)).toList = l := by
  rw [← hl, h.toList_extract]

theorem extract_eq {d' : ByteArray} (h : BytesAt d o l) (h' : BytesAt d' o l) :
    d.extract o (o + l.length) = d'.extract o (o + l.length) := by
  apply ByteArray.ext
  apply Array.toList_inj.mp
  rw [← toList_eq, ← toList_eq, h.toList_extract, h'.toList_extract]

theorem extract_shift {e : Nat} (s o : Nat) (h : BytesAt d (s + o) l)
    (he : s + o + l.length ≤ e) : BytesAt (d.extract s e) o l := by
  intro i hi
  rw [getElem?_extract d (by omega), ← Nat.add_assoc, h i hi]

/-- Where `d` holds the images of a list under a map of fixed width `w`, the image of the
`i`-th element sits `i · w` bytes in. -/
theorem flatMap {α : Type} {f : α → List UInt8} {w : Nat} (hw : ∀ x, (f x).length = w)
    {xs : List α} (h : BytesAt d o (xs.flatMap f)) (i : Nat) (hi : i < xs.length) :
    BytesAt d (o + i * w) (f xs[i]) := by
  induction xs generalizing o i with
  | nil => cases hi
  | cons x xs ih =>
    rw [List.flatMap_cons, bytesAt_append, hw] at h
    cases i with
    | zero => simpa using h.1
    | succ i =>
      have h' := ih h.2 i (by simpa using hi)
      rwa [Nat.succ_mul, Nat.add_comm (i * w) w, ← Nat.add_assoc]

/-- The `w` little-endian bytes of `n` read back as `n` modulo `256^w`. -/
theorem readLE {n w : Nat} (h : BytesAt d o (bytesLE n w)) : Wave.readLE d o w = n % 256 ^ w := by
  induction w generalizing o n with
  | zero => simp [Wave.readLE, Nat.mod_one]
  | succ w ih =>
    rw [bytesLE, bytesAt_cons] at h
    rw [readLE_succ, ih h.2, h.1, pow_succ', Nat.mod_mul]
    simp only [Option.getD_some, Nat.toUInt8, UInt8.toNat_ofNat', Nat.mod_mod]
    omega

end BytesAt

/-! ## Identifiers -/

theorem tag_riff : tag "RIFF" = [82, 73, 70, 70] := by
  simp [tag, String.toUTF8_eq_toByteArray, ← String.utf8Encode_toList, List.utf8Encode, toList_eq]
  rfl

theorem tag_wave : tag "WAVE" = [87, 65, 86, 69] := by
  simp [tag, String.toUTF8_eq_toByteArray, ← String.utf8Encode_toList, List.utf8Encode, toList_eq]
  rfl

theorem tag_fmt : tag "fmt " = [102, 109, 116, 32] := by
  simp [tag, String.toUTF8_eq_toByteArray, ← String.utf8Encode_toList, List.utf8Encode, toList_eq]
  rfl

theorem tag_data : tag "data" = [100, 97, 116, 97] := by
  simp [tag, String.toUTF8_eq_toByteArray, ← String.utf8Encode_toList, List.utf8Encode, toList_eq]
  rfl

/-! ## What the writer writes -/

/-- The 44 header bytes that `write` puts before `count` samples of encoding `e` at `rate`,
when no field overflows. -/
def header (e : Encoding) (rate count : Nat) : List UInt8 :=
  tag "RIFF" ++ bytesLE (36 + count * (e.bits / 8)) 4 ++ tag "WAVE" ++
    tag "fmt " ++ bytesLE 16 4 ++ bytesLE e.code 2 ++ bytesLE 1 2 ++
    bytesLE rate 4 ++ bytesLE (rate * (e.bits / 8)) 4 ++ bytesLE (e.bits / 8) 2 ++
    bytesLE e.bits 2 ++ tag "data" ++ bytesLE (count * (e.bits / 8)) 4

/-- With a byte rate and a file size that fit 32 bits, `write` puts the header before the
samples' bytes. -/
theorem write_eq {c : Clip} {e : Encoding} (hr : c.rate.toNat * (e.bits / 8) ≤ 4294967295)
    (hs : 36 + c.samples.size * (e.bits / 8) ≤ 4294967295) :
    write c e = .ok (header e c.rate.toNat c.samples.size ++
      c.samples.toList.flatMap (sampleBytes e)).toByteArray := by
  have hd : c.samples.size * (e.bits / 8) % 4294967296 = c.samples.size * (e.bits / 8) :=
    Nat.mod_eq_of_lt (by omega)
  unfold write
  dsimp only
  rw [Word.mul_eq_ok ⟨show (0 : Int) ≤ _ by positivity,
      show _ ≤ (4294967295 : Int) by exact_mod_cast hr⟩, ok_bind, hd,
    Word.add_eq_ok ⟨show (0 : Int) ≤ _ by positivity,
      show _ ≤ (4294967295 : Int) by exact_mod_cast hs⟩, ok_bind]
  have hsize : ((36 : Int) + ((c.samples.size * (e.bits / 8) : Nat) : Int)).toNat =
      36 + c.samples.size * (e.bits / 8) := by omega
  rw [hsize, ← Int.natCast_mul, Int.toNat_natCast]
  rfl

/-- Where the fields of a written file sit. -/
theorem bytesAt_header {d : ByteArray} {e : Encoding} {rate count : Nat} {body : List UInt8}
    (h : BytesAt d 0 (header e rate count ++ body)) :
    BytesAt d 0 (tag "RIFF") ∧ BytesAt d 8 (tag "WAVE") ∧ BytesAt d 12 (tag "fmt ") ∧
      BytesAt d 16 (bytesLE 16 4) ∧ BytesAt d 20 (bytesLE e.code 2) ∧ BytesAt d 22 (bytesLE 1 2) ∧
      BytesAt d 24 (bytesLE rate 4) ∧ BytesAt d 34 (bytesLE e.bits 2) ∧
      BytesAt d 36 (tag "data") ∧ BytesAt d 40 (bytesLE (count * (e.bits / 8)) 4) ∧
      BytesAt d 44 body := by
  simp only [header, bytesAt_append, List.length_append, length_bytesLE] at h
  simp only [tag_riff, tag_wave, tag_fmt, tag_data, List.length_cons, List.length_nil] at h ⊢
  obtain ⟨⟨⟨⟨⟨⟨⟨⟨⟨⟨⟨⟨⟨hriff, -⟩, hwave⟩, hfmt⟩, h16⟩, hcode⟩, hch⟩, hrate⟩, -⟩, -⟩, hbits⟩, hdata⟩,
    hsize⟩, hbody⟩ := h
  exact ⟨hriff, hwave, hfmt, h16, hcode, hch, hrate, hbits, hdata, hsize, hbody⟩

theorem length_sampleBytes (e : Encoding) (s : UInt32) : (sampleBytes e s).length = e.bits / 8 := by
  cases e <;> simp [sampleBytes, Encoding.bits]

theorem sampleBytes_eq_bytesLE (e : Encoding) (s : UInt32) :
    ∃ k, sampleBytes e s = bytesLE k (e.bits / 8) := by
  cases e <;> exact ⟨_, rfl⟩

@[simp] theorem length_header (e : Encoding) (rate count : Nat) :
    (header e rate count).length = 44 := by
  simp [header, tag_riff, tag_wave, tag_fmt, tag_data]

theorem size_written (e : Encoding) (rate : Nat) (ss : Array UInt32) :
    (header e rate ss.size ++ ss.toList.flatMap (sampleBytes e)).toByteArray.size =
      44 + ss.size * (e.bits / 8) := by
  rw [List.size_toByteArray, List.length_append, List.length_flatMap]
  simp [length_sampleBytes]

/-! ## Reading it back -/

/-- A written file holds two chunks: the 16-byte format chunk and the data chunk. -/
theorem chunksFrom_written {d : ByteArray} {e : Encoding} {rate count : Nat} {body : List UInt8}
    (h : BytesAt d 0 (header e rate count ++ body)) (hsize : d.size = 44 + body.length)
    (hbody : body.length = count * (e.bits / 8)) (hfit : 36 + count * (e.bits / 8) < 4294967296) :
    chunksFrom d 12 =
      [(tag "fmt ", d.extract 20 36), (tag "data", d.extract 44 (44 + body.length))] := by
  obtain ⟨-, -, hfmt, h16, -, -, -, -, hdata, hds, -⟩ := bytesAt_header h
  have hsize16 : readLE d 16 4 = 16 := h16.readLE
  have hsizeData : readLE d 40 4 = body.length := by
    rw [hds.readLE, hbody]
    exact Nat.mod_eq_of_lt (by omega)
  have hend : chunksFrom d (44 + body.length + body.length % 2) = [] := by
    rw [chunksFrom, dif_neg (by omega)]
  have h36 : chunksFrom d 36 = [(tag "data", d.extract 44 (44 + body.length))] := by
    rw [chunksFrom, dif_pos (by omega), hdata.toList_extract_of_length 4 (by rw [tag_data]; rfl)]
    simp only [hsizeData, show 36 + 8 = 44 by rfl, Nat.min_eq_left (Nat.le_of_eq hsize.symm), hend]
  rw [chunksFrom, dif_pos (by omega), hfmt.toList_extract_of_length 4 (by rw [tag_fmt]; rfl)]
  simp only [hsize16, Nat.min_eq_left (show 12 + 8 + 16 ≤ d.size by omega)]
  exact congrArg _ h36

/-- The format chunk of a written file holds its fields and reads as one channel of the
encoding at the rate. -/
theorem fmt_written {d : ByteArray} {e : Encoding} {rate count : Nat} {body : List UInt8}
    (h : BytesAt d 0 (header e rate count ++ body)) (hsize : 36 ≤ d.size)
    (hrate : rate < 4294967296) :
    FmtFits (d.extract 20 36) ∧ Format.ofBody (d.extract 20 36) = ⟨e.code, 1, rate, e.bits⟩ := by
  obtain ⟨-, -, -, -, hcode, hch, hr, hbits, -⟩ := bytesAt_header h
  have hcode' : readLE (d.extract 20 36) 0 2 = e.code := by
    rw [(hcode.extract_shift 20 0 (by simp)).readLE]
    cases e <;> rfl
  have hch' : readLE (d.extract 20 36) 2 2 = 1 := (hch.extract_shift 20 2 (by simp)).readLE
  have hr' : readLE (d.extract 20 36) 4 4 = rate := by
    rw [(hr.extract_shift 20 4 (by simp)).readLE]
    exact Nat.mod_eq_of_lt hrate
  have hbits' : readLE (d.extract 20 36) 14 2 = e.bits := by
    rw [(hbits.extract_shift 20 14 (by simp)).readLE]
    cases e <;> rfl
  have hne : e.code ≠ 0xFFFE := by cases e <;> decide
  refine ⟨⟨by simp; omega, fun h => absurd (hcode' ▸ h) hne⟩, ?_⟩
  simp only [Format.ofBody, hcode', hch', hr', hbits', if_neg hne]

theorem sampleWidth_written (e : Encoding) (rate : Nat) :
    sampleWidth ⟨e.code, 1, rate, e.bits⟩ = .ok (e.bits / 8) := by
  cases e <;> rfl

theorem decodeSample_congr {code w : Nat} {d d' : ByteArray} {o o' : Nat}
    (h : readLE d o w = readLE d' o' w) : decodeSample code w d o = decodeSample code w d' o' := by
  simp only [decodeSample, h]

/-- Bytes laid out as `write` lays them out read as the rate and the samples, each decoded
from its own bytes. -/
theorem read_of_bytesAt {d : ByteArray} {e : Encoding} {rate : Nat} {ss : List UInt32}
    (hd : BytesAt d 0 (header e rate ss.length ++ ss.flatMap (sampleBytes e)))
    (hsize : d.size = 44 + ss.length * (e.bits / 8)) (hr0 : 0 < rate)
    (hr : rate < 4294967296) (hs : 36 + ss.length * (e.bits / 8) < 4294967296) :
    read d = .ok ⟨(ss.map fun s => decodeSample e.code (e.bits / 8) (sampleBytes e s).toByteArray 0).toArray,
        rate.toUInt32⟩ := by
  have hlen : (ss.flatMap (sampleBytes e)).length = ss.length * (e.bits / 8) := by
    rw [List.length_flatMap]
    simp [length_sampleBytes]
  obtain ⟨hriff, hwave, -, -, -, -, -, -, -, -, hbody⟩ := bytesAt_header hd
  obtain ⟨hfits, hform⟩ := fmt_written hd (by omega) hr
  rw [read_eq_ok_iff]
  refine ⟨by omega, hriff.toList_extract_of_length 4 (by rw [tag_riff]; rfl),
    hwave.toList_extract_of_length 4 (by rw [tag_wave]; rfl), ⟨e.code, 1, rate, e.bits⟩,
    d.extract 44 (44 + ss.length * (e.bits / 8)), e.bits / 8, ?_, one_ne_zero, hr0.ne',
    sampleWidth_written e rate, ?_⟩
  · rw [walk_ok_iff, chunksFrom_written hd (by rw [hsize, hlen]) hlen (by omega), hlen]
    simp [lastBody, tag_fmt_ne_data, tag_fmt_ne_data.symm, hfits, hform]
  · have hds : (d.extract 44 (44 + ss.length * (e.bits / 8))).size = ss.length * (e.bits / 8) := by
      simp only [ByteArray.size_extract]
      omega
    have hw : 0 < e.bits / 8 := by cases e <;> decide
    rw [Clip.mk.injEq]
    refine ⟨?_, rfl⟩
    apply Array.ext
    · rw [Array.size_ofFn, hds, Nat.mul_one, Nat.mul_div_cancel _ hw, List.size_toArray,
        List.length_map]
    · intro i hi _
      rw [List.size_toArray, List.length_map] at hi
      rw [Array.getElem_ofFn, List.getElem_toArray, List.getElem_map]
      apply decodeSample_congr
      show _ = readLE _ (i * (e.bits / 8 * 1)) _
      rw [Nat.mul_one]
      obtain ⟨k, hk⟩ := sampleBytes_eq_bytesLE e ss[i]
      have hin : BytesAt (d.extract 44 (44 + ss.length * (e.bits / 8))) (i * (e.bits / 8))
          (sampleBytes e ss[i]) :=
        (hbody.flatMap (length_sampleBytes e) i hi).extract_shift 44 _ (by
          rw [length_sampleBytes, Nat.add_assoc, ← Nat.succ_mul]
          exact Nat.add_le_add_left (Nat.mul_le_mul_right _ hi) 44)
      rw [hk] at hin ⊢
      rw [(bytesAt_toByteArray _).readLE, hin.readLE]

/-- Writing a clip whose byte rate and file size fit 32 bits, and reading the file back, gives
the rate and each sample decoded from its own bytes. -/
theorem read_write (c : Clip) (e : Encoding) (h0 : c.rate ≠ 0)
    (hr : c.rate.toNat * (e.bits / 8) ≤ 4294967295)
    (hs : 36 + c.samples.size * (e.bits / 8) ≤ 4294967295) :
    ∃ d, write c e = .ok d ∧ read d = .ok
      ⟨c.samples.map fun s => decodeSample e.code (e.bits / 8) (sampleBytes e s).toByteArray 0,
        c.rate⟩ := by
  refine ⟨_, write_eq hr hs, ?_⟩
  have hr0 : 0 < c.rate.toNat := by
    have h := UInt32.toNat_inj.not.mpr h0
    simp at h
    omega
  have hd : BytesAt (header e c.rate.toNat c.samples.size ++
      c.samples.toList.flatMap (sampleBytes e)).toByteArray 0
      (header e c.rate.toNat c.samples.toList.length ++
        c.samples.toList.flatMap (sampleBytes e)) := by
    rw [Array.length_toList]
    exact bytesAt_toByteArray _
  rw [read_of_bytesAt hd (by rw [size_written, Array.length_toList]) hr0 c.rate.toNat_lt
      (by rw [Array.length_toList]; omega),
    Except.ok.injEq, Clip.mk.injEq, ← Array.toList_map, Array.toArray_toList]
  exact ⟨rfl, UInt32.ofNat_toNat⟩

/-! ## Samples -/

/-- A binary32 sample's four bytes decode to its bit pattern. -/
theorem decode_float32 (s : UInt32) :
    decodeSample Encoding.float32.code (Encoding.float32.bits / 8)
      (sampleBytes .float32 s).toByteArray 0 = s := by
  have hraw : readLE (sampleBytes .float32 s).toByteArray 0 4 = s.toNat := by
    rw [sampleBytes, (bytesAt_toByteArray _).readLE]
    exact Nat.mod_eq_of_lt s.toNat_lt
  show UInt32.ofNat (readLE (sampleBytes .float32 s).toByteArray 0 4) = s
  rw [hraw, UInt32.ofNat_toNat]

theorem pcm16Code_range (s : Float32) : -32768 ≤ pcm16Code s ∧ pcm16Code s ≤ 32767 := by
  simp only [pcm16Code, Ieee.truncSingleInt16, Ieee.truncClamp]
  omega

theorem signed_pcm16Code (s : Float32) : signed ((pcm16Code s) % 65536).toNat 16 = pcm16Code s := by
  have hq := pcm16Code_range s
  simp only [signed, show Nat.pow 2 (16 - 1) = 32768 from rfl, show Nat.pow 2 16 = 65536 from rfl]
  split <;> omega

/-- The pattern a sample comes back as from a 16-bit file: its code over `2^15`. -/
def pcm16Decoded (s : UInt32) : UInt32 :=
  (Float32.ofInt (pcm16Code (Float32.ofBits s)) / 32768).toBits

/-- A 16-bit code's two bytes decode to the code over `2^15`. -/
theorem decode_pcm16 (s : UInt32) :
    decodeSample Encoding.pcm16.code (Encoding.pcm16.bits / 8)
      (sampleBytes .pcm16 s).toByteArray 0 = pcm16Decoded s := by
  have hraw : readLE (sampleBytes .pcm16 s).toByteArray 0 2 =
      ((pcm16Code (Float32.ofBits s)) % 65536).toNat := by
    rw [sampleBytes, (bytesAt_toByteArray _).readLE]
    omega
  show (Float32.ofInt (signed (readLE (sampleBytes .pcm16 s).toByteArray 0 2) 16) / 32768).toBits = _
  rw [hraw, signed_pcm16Code]
  rfl

theorem read_write_float32 (c : Clip) (h0 : c.rate ≠ 0) (hr : c.rate.toNat * 4 ≤ 4294967295)
    (hs : 36 + c.samples.size * 4 ≤ 4294967295) :
    ∃ d, write c .float32 = .ok d ∧ read d = .ok c := by
  obtain ⟨d, hw, hrd⟩ := read_write c .float32 h0 hr hs
  simp only [decode_float32, Array.map_id'] at hrd
  exact ⟨d, hw, hrd⟩

theorem read_write_pcm16 (c : Clip) (h0 : c.rate ≠ 0) (hr : c.rate.toNat * 2 ≤ 4294967295)
    (hs : 36 + c.samples.size * 2 ≤ 4294967295) :
    ∃ d, write c .pcm16 = .ok d ∧ read d = .ok ⟨c.samples.map pcm16Decoded, c.rate⟩ := by
  obtain ⟨d, hw, hrd⟩ := read_write c .pcm16 h0 hr hs
  simp only [decode_pcm16] at hrd
  exact ⟨d, hw, hrd⟩

/-- Reading back what `write` wrote, at a positive rate whose byte rate and file size fit 32
bits: binary32 samples come back as the same bit patterns, NaN payloads and signs included,
and 16-bit samples as the patterns of their codes over `2^15` (io/wav.rs:74-212). -/
theorem read_after_write (c : Clip) (hrate : c.rate ≠ 0) :
    (c.rate.toNat * 4 ≤ 4294967295 → 36 + c.samples.size * 4 ≤ 4294967295 →
      ∃ d, write c .float32 = .ok d ∧ read d = .ok c) ∧
    (c.rate.toNat * 2 ≤ 4294967295 → 36 + c.samples.size * 2 ≤ 4294967295 →
      ∃ d, write c .pcm16 = .ok d ∧
        read d = .ok ⟨c.samples.map fun s =>
          (Float32.ofInt (pcm16Code (Float32.ofBits s)) / 32768).toBits, c.rate⟩) :=
  ⟨read_write_float32 c hrate, read_write_pcm16 c hrate⟩

/-- One half, a negative zero, a quiet NaN with payload one and a negative signalling NaN, as
binary32 patterns, come back from a binary32 file as they were. -/
theorem half_negative_zero_and_nans_read_back : (44100 : UInt32) ≠ 0 ∧
    ∃ d, write ⟨#[0x3F000000, 0x80000000, 0x7FC00001, 0xFFA00000], 44100⟩ .float32 = .ok d ∧
      read d = .ok ⟨#[0x3F000000, 0x80000000, 0x7FC00001, 0xFFA00000], 44100⟩ :=
  ⟨by decide, (read_after_write ⟨#[0x3F000000, 0x80000000, 0x7FC00001, 0xFFA00000], 44100⟩
    (by decide)).1 (by decide) (by decide)⟩

/-! ## Writing again -/

/-- In a written 16-bit file, the two bytes at `44 + 2i` read, as a signed 16-bit value, as the
code of sample `i`. -/
theorem stored_code {c : Clip} {d : ByteArray} (hr : c.rate.toNat * 2 ≤ 4294967295)
    (hs : 36 + c.samples.size * 2 ≤ 4294967295) (hw : write c .pcm16 = .ok d) {i : Nat}
    (hi : i < c.samples.size) :
    signed (readLE d (44 + 2 * i) 2) 16 = pcm16Code (Float32.ofBits c.samples[i]) := by
  rw [@write_eq c .pcm16 hr hs, Except.ok.injEq] at hw
  subst hw
  have hd := bytesAt_toByteArray (header .pcm16 c.rate.toNat c.samples.toList.length ++
    c.samples.toList.flatMap (sampleBytes .pcm16))
  rw [Array.length_toList] at hd
  obtain ⟨-, -, -, -, -, -, -, -, -, -, hbody⟩ := bytesAt_header hd
  have h := hbody.flatMap (length_sampleBytes .pcm16) i (by simpa using hi)
  rw [Array.getElem_toList, sampleBytes, show 44 + i * (Encoding.pcm16.bits / 8) = 44 + 2 * i by
    simp only [Encoding.bits]; omega] at h
  rw [h.readLE, Nat.mod_eq_of_lt (by omega), signed_pcm16Code]

/-- Writing a 16-bit file, reading it and writing what was read, at a rate and length that fit:
the second file has the size and the header of the first, and each code `q` of the first is
`q - sign q` in the second. -/
theorem rewrite_pcm16 (c : Clip) (h0 : c.rate ≠ 0) (hr : c.rate.toNat * 2 ≤ 4294967295)
    (hs : 36 + c.samples.size * 2 ≤ 4294967295) :
    ∃ d c' d', write c .pcm16 = .ok d ∧ read d = .ok c' ∧ write c' .pcm16 = .ok d' ∧
      d'.size = d.size ∧ d'.extract 0 44 = d.extract 0 44 ∧
      ∀ i < c.samples.size, signed (readLE d' (44 + 2 * i) 2) 16 =
        signed (readLE d (44 + 2 * i) 2) 16 - (signed (readLE d (44 + 2 * i) 2) 16).sign := by
  obtain ⟨d, hw, hrd⟩ := read_write_pcm16 c h0 hr hs
  let c' : Clip := ⟨c.samples.map pcm16Decoded, c.rate⟩
  have hsize : c'.samples.size = c.samples.size := Array.size_map ..
  have hs' : 36 + c'.samples.size * 2 ≤ 4294967295 := by rw [hsize]; exact hs
  have hw' := @write_eq c' .pcm16 hr hs'
  have hd := @write_eq c .pcm16 hr hs
  rw [hw, Except.ok.injEq] at hd
  refine ⟨d, c', _, hw, hrd, hw', ?_, ?_, fun i hi => ?_⟩
  · rw [size_written, hd, size_written, hsize]
  · -- both files begin with the same 44 header bytes
    have hh : ∀ body, BytesAt (header .pcm16 c.rate.toNat c.samples.size ++ body).toByteArray 0
        (header .pcm16 c.rate.toNat c.samples.size) := fun body =>
      (bytesAt_append.mp (bytesAt_toByteArray _)).1
    have h := (hh (c'.samples.toList.flatMap (sampleBytes .pcm16))).extract_eq
      (hh (c.samples.toList.flatMap (sampleBytes .pcm16)))
    rw [length_header, Nat.zero_add] at h
    rw [hd, hsize]
    exact h
  · rw [@stored_code c' _ hr hs' hw' i (by rw [hsize]; exact hi), stored_code hr hs hw hi]
    simp only [c', Array.getElem_map, pcm16Decoded, Float32.ofBits_toBits]
    exact pcm16Code_decoded _ (pcm16Code_range _).1 (pcm16Code_range _).2

/-- Writing again what was read back from a written file, with the same encoding, at a positive
rate whose byte rate and file size fit 32 bits: a binary32 file comes back byte for byte; a
16-bit file keeps its size and its 44 header bytes, and each stored code `q` becomes `q - sign q`,
one step toward zero, since the reader divides by `2^15` and the writer scales by `2^15 - 1`. -/
theorem rewrite_after_read (c : Clip) (hrate : c.rate ≠ 0) :
    (c.rate.toNat * 4 ≤ 4294967295 → 36 + c.samples.size * 4 ≤ 4294967295 →
      ∃ d c', write c .float32 = .ok d ∧ read d = .ok c' ∧ write c' .float32 = .ok d) ∧
    (c.rate.toNat * 2 ≤ 4294967295 → 36 + c.samples.size * 2 ≤ 4294967295 →
      ∃ d c' d', write c .pcm16 = .ok d ∧ read d = .ok c' ∧ write c' .pcm16 = .ok d' ∧
        d'.size = d.size ∧ d'.extract 0 44 = d.extract 0 44 ∧
        ∀ i < c.samples.size, signed (readLE d' (44 + 2 * i) 2) 16 =
          signed (readLE d (44 + 2 * i) 2) 16 - (signed (readLE d (44 + 2 * i) 2) 16).sign) := by
  refine ⟨fun hr hs => ?_, rewrite_pcm16 c hrate⟩
  obtain ⟨d, hw, hrd⟩ := read_write_float32 c hrate hr hs
  exact ⟨d, c, hw, hrd, hw⟩

theorem half_steps_down_on_rewrite : (44100 : UInt32) ≠ 0 ∧
    ∃ d c' d', write ⟨#[0x3F000000], 44100⟩ .pcm16 = .ok d ∧ read d = .ok c' ∧
      write c' .pcm16 = .ok d' ∧ d'.size = d.size ∧ d'.extract 0 44 = d.extract 0 44 ∧
      ∀ i < 1, signed (readLE d' (44 + 2 * i) 2) 16 =
        signed (readLE d (44 + 2 * i) 2) 16 - (signed (readLE d (44 + 2 * i) 2) 16).sign :=
  ⟨by decide, (rewrite_after_read ⟨#[0x3F000000], 44100⟩ (by decide)).2 (by decide) (by decide)⟩

/-- The 16-bit file of the single sample `0.5` (pattern `0x3F000000`) changes when it is read
and written again: its code 16383 comes back as 16382. -/
theorem half_rewritten_differs :
    ∃ d c' d', write ⟨#[0x3F000000], 44100⟩ .pcm16 = .ok d ∧ read d = .ok c' ∧
      write c' .pcm16 = .ok d' ∧ d' ≠ d := by
  obtain ⟨d, c', d', hw, hrd, hw', -, -, hcode⟩ :=
    rewrite_pcm16 ⟨#[0x3F000000], 44100⟩ (by decide) (by decide) (by decide)
  refine ⟨d, c', d', hw, hrd, hw', fun h => ?_⟩
  have h0 := hcode 0 (by decide)
  rw [h, stored_code (by decide) (by decide) hw (by decide),
    show pcm16Code (Float32.ofBits (#[0x3F000000] : Array UInt32)[0]) = 16383 by decide] at h0
  exact absurd h0 (by decide)

end PhaseVocoder.Wave
