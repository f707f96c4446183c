import Mathlib
import PhaseVocoder.Wave.Read
import PhaseVocoder.Proofs.Basic

/-!
# What the WAV reader accepts and what it decodes (`read_wav`, io/wav.rs:74-169)

The reader walks the chunks after the RIFF header. `chunksFrom` lists the chunks the walk
meets, each with its identifier and its body cut at the end of the data, and the walk is a
fold of one step per chunk over that list (`walk_eq_foldlM`): a format chunk must fit its
fields and is kept, a data chunk's body is kept, any other chunk is passed over. So the walk
succeeds exactly when every format chunk it meets fits (`foldlM_keep_ok_iff`), and then keeps
the last format chunk and the last data chunk (`foldlM_keep_eq`).

`read_accepts_and_decodes` gathers what follows: `read` succeeds exactly on the byte strings
described by `Accepted`, and then the clip has the last format chunk's rate and one sample per
whole frame of the last data body, the first channel of that frame decoded.
-/

namespace PhaseVocoder.Wave

/-! ## The chunk walk as a list -/

/-- The chunks the walk meets from `cursor`: the identifier and the body, cut at the end of
the data, of each chunk whose header fits. The next chunk starts after the body and the pad
byte of an odd size. -/
def chunksFrom (d : ByteArray) (cursor : Nat) : List (List UInt8 × ByteArray) :=
  if h : cursor + 8 ≤ d.size then
    let size := readLE d (cursor + 4) 4
    ((d.extract cursor (cursor + 4)).toList,
        d.extract (cursor + 8) (min (cursor + 8 + size) d.size)) ::
      chunksFrom d (cursor + 8 + size + size % 2)
  else []
termination_by d.size - cursor

/-- One chunk of the walk: a format chunk is parsed and kept, a data chunk's body is kept, any
other chunk is passed over. -/
def Chunks.keep (acc : Chunks) (c : List UInt8 × ByteArray) : Except WaveError Chunks :=
  if c.1 = tag "fmt " then do
    let f ← Format.parse c.2
    pure { acc with format := some f }
  else if c.1 = tag "data" then .ok { acc with data := some c.2 }
  else .ok acc

/-- The walk keeps, chunk by chunk, what `Chunks.keep` keeps. -/
theorem walk_eq_foldlM (d : ByteArray) (cursor : Nat) (acc : Chunks) :
    walk d cursor acc = (chunksFrom d cursor).foldlM Chunks.keep acc := by
  fun_induction walk d cursor acc with
  | case1 cursor acc h id size bodyStart body next hfmt ih =>
    unfold chunksFrom
    rw [dif_pos h, List.foldlM_cons]
    dsimp only [id, size, bodyStart, body, next] at hfmt ih ⊢
    simp only [Chunks.keep, hfmt, if_true, bind_assoc, pure_bind]
    cases Format.parse (d.extract (cursor + 8) (min (cursor + 8 + readLE d (cursor + 4) 4) d.size))
      with
    | error e => rfl
    | ok f => exact ih f
  | case2 cursor acc h id size bodyStart body next hfmt hdata ih =>
    unfold chunksFrom
    rw [dif_pos h, List.foldlM_cons]
    dsimp only [id, size, bodyStart, body, next] at hfmt hdata ih ⊢
    simp only [Chunks.keep, if_neg hfmt, if_pos hdata]
    exact ih
  | case3 cursor acc h id size bodyStart next hfmt hdata ih =>
    unfold chunksFrom
    rw [dif_pos h, List.foldlM_cons]
    dsimp only [id, size, bodyStart, next] at hfmt hdata ih ⊢
    simp only [Chunks.keep, if_neg hfmt, if_neg hdata]
    exact ih
  | case4 cursor acc h =>
    unfold chunksFrom
    rw [dif_neg h]
    rfl

/-! ## Format chunks -/

/-- The fields of a format chunk body, the encoding read from the sub-format field for the
extensible encoding `0xFFFE`. -/
def Format.ofBody (body : ByteArray) : Format :=
  let code := readLE body 0 2
  ⟨if code = 0xFFFE then readLE body 24 2 else code, readLE body 2 2, readLE body 4 4,
    readLE body 14 2⟩

/-- A format chunk body that holds its fields: 16 bytes, 26 for the extensible encoding. -/
def FmtFits (body : ByteArray) : Prop :=
  16 ≤ body.size ∧ (readLE body 0 2 = 0xFFFE → 26 ≤ body.size)

/-- A format the reader decodes: some channels, a rate, and 16, 24 or 32-bit integers or
32-bit floats. -/
def Format.Decodable (f : Format) : Prop :=
  f.channels ≠ 0 ∧ f.rate ≠ 0 ∧ (f.code, f.bits) ∈ [(1, 16), (1, 24), (1, 32), (3, 32)]

theorem parse_ok_iff (body : ByteArray) (f : Format) :
    Format.parse body = .ok f ↔ FmtFits body ∧ f = Format.ofBody body := by
  unfold Format.parse FmtFits Format.ofBody
  by_cases h16 : body.size < 16
  · simp [h16, throw, throwThe, MonadExceptOf.throw, bind, Except.bind]
  have h16' : 16 ≤ body.size := Nat.le_of_not_lt h16
  by_cases hx : readLE body 0 2 = 0xFFFE
  · by_cases h26 : body.size < 26
    · simp [h16, hx, h26, throw, throwThe, MonadExceptOf.throw, bind, Except.bind]
    · simp [h16, h16', hx, h26, Nat.le_of_not_lt h26, pure, Except.pure, bind, Except.bind,
        eq_comm]
  · simp [h16, h16', hx, pure, Except.pure, bind, Except.bind, eq_comm]

theorem parse_of_fits {body : ByteArray} (h : FmtFits body) :
    Format.parse body = .ok (Format.ofBody body) :=
  (parse_ok_iff body _).mpr ⟨h, rfl⟩

/-! ## What the walk keeps -/

/-- The body of the last chunk with identifier `id`. -/
def lastBody (id : List UInt8) : List (List UInt8 × ByteArray) → Option ByteArray
  | [] => none
  | c :: cs => (lastBody id cs).or (if c.1 = id then some c.2 else none)

theorem toList_loop (bs : ByteArray) (i : Nat) (r : List UInt8) :
    ByteArray.toList.loop bs i r = r.reverse ++ bs.data.toList.drop i := by
  fun_induction ByteArray.toList.loop bs i r with
  | case1 i r h ih =>
    have hd : bs.data.toList.drop i = bs.data[i] :: bs.data.toList.drop (i + 1) := by
      rw [List.drop_eq_getElem_cons (by simpa using h)]
      rfl
    rw [ih, hd]
    simp [ByteArray.get!, h]
  | case2 i r h =>
    rw [List.drop_of_length_le (by simpa using h), List.append_nil]

theorem toList_eq (bs : ByteArray) : bs.toList = bs.data.toList := by
  simp [ByteArray.toList, toList_loop]

theorem tag_fmt_ne_data : tag "fmt " ≠ tag "data" := by
  intro h
  simp only [tag, String.toUTF8_eq_toByteArray, toList_eq, Array.toList_inj] at h
  exact absurd (String.toByteArray_inj.mp (ByteArray.ext h)) (by decide)

section Keep

variable {acc : Chunks} {c : List UInt8 × ByteArray}

theorem keep_of_fits (hf : c.1 = tag "fmt ") (hc : FmtFits c.2) :
    acc.keep c = .ok { acc with format := some (Format.ofBody c.2) } := by
  rw [Chunks.keep, if_pos hf, parse_of_fits hc]
  rfl

theorem keep_of_not_fits (hf : c.1 = tag "fmt ") (hc : ¬ FmtFits c.2) :
    ∃ e, acc.keep c = .error e := by
  rw [Chunks.keep, if_pos hf]
  cases hp : Format.parse c.2 with
  | ok f => exact absurd ((parse_ok_iff _ _).mp hp).1 hc
  | error e => exact ⟨e, rfl⟩

theorem keep_of_data (hd : c.1 = tag "data") : acc.keep c = .ok { acc with data := some c.2 } := by
  rw [Chunks.keep, if_neg (hd ▸ tag_fmt_ne_data.symm), if_pos hd]

theorem keep_of_other (hf : c.1 ≠ tag "fmt ") (hd : c.1 ≠ tag "data") : acc.keep c = .ok acc := by
  rw [Chunks.keep, if_neg hf, if_neg hd]

end Keep

/-- The walk fails exactly at a format chunk too short for its fields. -/
theorem foldlM_keep_ok_iff (cs : List (List UInt8 × ByteArray)) (acc : Chunks) :
    (∃ r, cs.foldlM Chunks.keep acc = .ok r) ↔ ∀ c ∈ cs, c.1 = tag "fmt " → FmtFits c.2 := by
  induction cs generalizing acc with
  | nil => exact ⟨fun _ c hc => absurd hc List.not_mem_nil, fun _ => ⟨acc, rfl⟩⟩
  | cons c cs ih =>
    rw [List.foldlM_cons]
    simp only [List.mem_cons, forall_eq_or_imp]
    by_cases hf : c.1 = tag "fmt "
    · by_cases hc : FmtFits c.2
      · rw [keep_of_fits hf hc, ok_bind, ih]
        simp [hc]
      · obtain ⟨e, he⟩ := @keep_of_not_fits acc c hf hc
        rw [he]
        simp [hf, hc, bind, Except.bind]
    · by_cases hd : c.1 = tag "data"
      · rw [keep_of_data hd, ok_bind, ih]
        simp [hf]
      · rw [keep_of_other hf hd, ok_bind, ih]
        simp [hf]

/-- When every format chunk fits, the walk keeps the last format chunk's fields and the last
data chunk's body, or what it started with where there is none. -/
theorem foldlM_keep_eq {cs : List (List UInt8 × ByteArray)}
    (h : ∀ c ∈ cs, c.1 = tag "fmt " → FmtFits c.2) (acc : Chunks) :
    cs.foldlM Chunks.keep acc = .ok ⟨((lastBody (tag "fmt ") cs).map Format.ofBody).or acc.format,
      (lastBody (tag "data") cs).or acc.data⟩ := by
  induction cs generalizing acc with
  | nil => rfl
  | cons c cs ih =>
    have h' : ∀ c ∈ cs, c.1 = tag "fmt " → FmtFits c.2 := fun c' hc' => h c' (by simp [hc'])
    rw [List.foldlM_cons]
    by_cases hf : c.1 = tag "fmt "
    · have hd : c.1 ≠ tag "data" := hf ▸ tag_fmt_ne_data
      rw [keep_of_fits hf (h c (by simp) hf), ok_bind, ih h']
      cases hl : lastBody (tag "fmt ") cs <;> simp [lastBody, hl, hf, tag_fmt_ne_data]
    · by_cases hd : c.1 = tag "data"
      · rw [keep_of_data hd, ok_bind, ih h']
        cases hl : lastBody (tag "data") cs <;> simp [lastBody, hl, hd, tag_fmt_ne_data.symm]
      · rw [keep_of_other hf hd, ok_bind, ih h']
        simp [lastBody, hf, hd]

/-! ## Reading -/

/-- What the reader requires of a byte string. -/
structure Accepted (d : ByteArray) : Prop where
  /-- Room for the RIFF header. -/
  long : 12 ≤ d.size
  riff : (d.extract 0 4).toList = tag "RIFF"
  wave : (d.extract 8 12).toList = tag "WAVE"
  /-- Every format chunk the walk meets holds its fields. -/
  fmts_fit : ∀ c ∈ chunksFrom d 12, c.1 = tag "fmt " → FmtFits c.2
  /-- The last format chunk is one the reader decodes. -/
  fmt : ∃ fb, lastBody (tag "fmt ") (chunksFrom d 12) = some fb ∧ (Format.ofBody fb).Decodable
  /-- There is a data chunk. -/
  data : (lastBody (tag "data") (chunksFrom d 12)).isSome

theorem sampleWidth_ok_iff (f : Format) :
    (∃ w, sampleWidth f = .ok w) ↔ (f.code, f.bits) ∈ [(1, 16), (1, 24), (1, 32), (3, 32)] := by
  unfold sampleWidth
  split <;> simp_all

/-- The reader succeeds exactly when the header is there, the walk succeeds and keeps a format
and a data chunk, and the format has channels, a rate and a decoded encoding; the clip is then
made of the first channel of every whole frame of the data body. -/
theorem read_eq_ok_iff (d : ByteArray) (clip : Clip) :
    read d = .ok clip ↔ 12 ≤ d.size ∧ (d.extract 0 4).toList = tag "RIFF" ∧
      (d.extract 8 12).toList = tag "WAVE" ∧
      ∃ f body w, walk d 12 {} = .ok ⟨some f, some body⟩ ∧ f.channels ≠ 0 ∧ f.rate ≠ 0 ∧
        sampleWidth f = .ok w ∧
        clip = ⟨Array.ofFn fun i : Fin (body.size / (w * f.channels)) =>
          decodeSample f.code w body (i.val * (w * f.channels)), f.rate.toUInt32⟩ := by
  unfold read
  by_cases h12 : d.size < 12
  · simp [h12, throw, throwThe, MonadExceptOf.throw, bind, Except.bind]
  by_cases hr : (d.extract 0 4).toList = tag "RIFF"
  swap
  · simp [h12, hr, throw, throwThe, MonadExceptOf.throw, bind, Except.bind]
  by_cases hw : (d.extract 8 12).toList = tag "WAVE"
  swap
  · simp [h12, hr, hw, throw, throwThe, MonadExceptOf.throw, bind, Except.bind]
  simp only [h12, hr, hw, if_false, ne_eq, not_true_eq_false, true_and, not_lt.mp h12]
  rcases hwk : walk d 12 {} with e | ⟨_ | f, _ | body⟩
  · simp [bind, Except.bind]
  · simp [bind, Except.bind, throw, throwThe, MonadExceptOf.throw]
  · simp [bind, Except.bind, throw, throwThe, MonadExceptOf.throw]
  · simp [bind, Except.bind, throw, throwThe, MonadExceptOf.throw]
  simp only [ok_bind, Except.ok.injEq, Chunks.mk.injEq, Option.some.injEq]
  by_cases hc : f.channels = 0
  · simp [hc, bind, Except.bind, throw, throwThe, MonadExceptOf.throw]
  by_cases hra : f.rate = 0
  · simp [hc, hra, bind, Except.bind, throw, throwThe, MonadExceptOf.throw]
  rcases hs : sampleWidth f with e | w
  · simp [hc, hra, hs, bind, Except.bind]
  · simp [hc, hra, hs, bind, Except.bind, pure, Except.pure, eq_comm]

/-- From a cursor on, the walk started empty succeeds exactly when every format chunk it meets
fits, and then keeps the last format chunk's fields and the last data body. -/
theorem walk_ok_iff (d : ByteArray) (cursor : Nat) (r : Chunks) :
    walk d cursor {} = .ok r ↔ (∀ c ∈ chunksFrom d cursor, c.1 = tag "fmt " → FmtFits c.2) ∧
      r = ⟨(lastBody (tag "fmt ") (chunksFrom d cursor)).map Format.ofBody,
        lastBody (tag "data") (chunksFrom d cursor)⟩ := by
  rw [walk_eq_foldlM]
  constructor
  · intro h
    have fits := (foldlM_keep_ok_iff _ _).mp ⟨r, h⟩
    rw [foldlM_keep_eq fits] at h
    simpa [Option.or_none, eq_comm] using And.intro fits h
  · rintro ⟨fits, rfl⟩
    rw [foldlM_keep_eq fits]
    simp [Option.or_none]

/-! ## Samples and the rate -/

theorem getElem?_extract (d : ByteArray) {s e i : Nat} (hi : s + i < e) :
    (d.extract s e)[i]? = d[s + i]? := by
  by_cases hd : s + i < d.size
  · have hl : i < (d.extract s e).size := by simp; omega
    rw [getElem?_pos (d.extract s e) i hl, getElem?_pos d (s + i) hd, ByteArray.getElem_extract]
  · rw [getElem?_neg (d.extract s e) i (by simp; omega), getElem?_neg d (s + i) hd]

theorem readLE_extract (d : ByteArray) (s w : Nat) :
    readLE (d.extract s (s + w)) 0 w = readLE d s w := by
  unfold readLE
  refine List.foldr_ext _ _ 0 fun i hi acc => ?_
  rw [Nat.zero_add, getElem?_extract d (by simp at hi; omega)]

theorem readLE_lt (d : ByteArray) (offset w : Nat) : readLE d offset w < 256 ^ w := by
  suffices h : ∀ l : List Nat,
      l.foldr (fun i acc => acc * 256 + (d[offset + i]?.getD 0).toNat) 0 < 256 ^ l.length by
    have hw := h (List.range w)
    rwa [List.length_range] at hw
  intro l
  induction l with
  | nil => simp
  | cons i l ih =>
    have hb : (d[offset + i]?.getD 0).toNat < 256 := UInt8.toNat_lt _
    rw [List.foldr_cons, List.length_cons, pow_succ]
    omega

theorem decodeSample_extract (code w : Nat) (d : ByteArray) (offset : Nat) :
    decodeSample code w (d.extract offset (offset + w)) 0 = decodeSample code w d offset := by
  simp only [decodeSample, readLE_extract]

theorem rate_toUInt32 (body : ByteArray) :
    (Format.ofBody body).rate.toUInt32.toNat = (Format.ofBody body).rate :=
  UInt32.toNat_ofNat_of_lt' (readLE_lt body 4 4)

/-! ## What the reader does -/

/-- The clip holds the last format chunk's rate and, for every whole frame of the last data
body, the sample decoded from the frame's first sample width of bytes. -/
def Decoded (d : ByteArray) (clip : Clip) : Prop :=
  ∃ fb body w, lastBody (tag "fmt ") (chunksFrom d 12) = some fb ∧
    lastBody (tag "data") (chunksFrom d 12) = some body ∧
    sampleWidth (Format.ofBody fb) = .ok w ∧
    clip.rate.toNat = (Format.ofBody fb).rate ∧
    clip.samples.size = body.size / (w * (Format.ofBody fb).channels) ∧
    ∀ i (hi : i < clip.samples.size), clip.samples[i] = decodeSample (Format.ofBody fb).code w
      (body.extract (i * (w * (Format.ofBody fb).channels))
        (i * (w * (Format.ofBody fb).channels) + w)) 0

theorem read_ok_iff_accepted (d : ByteArray) : (∃ clip, read d = .ok clip) ↔ Accepted d := by
  constructor
  · rintro ⟨clip, h⟩
    obtain ⟨h12, hr, hw, f, body, w, hwk, hc, hra, hs, -⟩ := (read_eq_ok_iff d clip).mp h
    obtain ⟨fits, hk⟩ := (walk_ok_iff d 12 _).mp hwk
    simp only [Chunks.mk.injEq] at hk
    obtain ⟨fb, hfb, rfl⟩ := Option.map_eq_some_iff.mp hk.1.symm
    exact ⟨h12, hr, hw, fits, ⟨fb, hfb, hc, hra, (sampleWidth_ok_iff _).mp ⟨w, hs⟩⟩,
      by rw [← hk.2]; rfl⟩
  · rintro ⟨h12, hr, hw, fits, ⟨fb, hfb, hc, hra, hcode⟩, hdata⟩
    obtain ⟨body, hbody⟩ := Option.isSome_iff_exists.mp hdata
    obtain ⟨w, hs⟩ := (sampleWidth_ok_iff _).mpr hcode
    refine ⟨_, (read_eq_ok_iff d _).mpr
      ⟨h12, hr, hw, Format.ofBody fb, body, w, ?_, hc, hra, hs, rfl⟩⟩
    rw [walk_ok_iff]
    exact ⟨fits, by rw [hfb, hbody]; rfl⟩

theorem read_ok_decoded {d : ByteArray} {clip : Clip} (h : read d = .ok clip) : Decoded d clip := by
  obtain ⟨-, -, -, f, body, w, hwk, -, -, hs, rfl⟩ := (read_eq_ok_iff d clip).mp h
  obtain ⟨-, hk⟩ := (walk_ok_iff d 12 _).mp hwk
  simp only [Chunks.mk.injEq] at hk
  obtain ⟨fb, hfb, rfl⟩ := Option.map_eq_some_iff.mp hk.1.symm
  refine ⟨fb, body, w, hfb, hk.2.symm, hs, rate_toUInt32 fb, Array.size_ofFn, fun i hi => ?_⟩
  rw [Array.getElem_ofFn, decodeSample_extract]

/-- The reader succeeds exactly on the accepted byte strings, and what it reads is decoded
from the last format and data chunks. -/
theorem read_accepts_and_decodes (d : ByteArray) :
    ((∃ clip, read d = .ok clip) ↔ Accepted d) ∧ ∀ clip, read d = .ok clip → Decoded d clip :=
  ⟨read_ok_iff_accepted d, fun _ h => read_ok_decoded h⟩

end PhaseVocoder.Wave
