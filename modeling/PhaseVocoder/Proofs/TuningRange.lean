import PhaseVocoder.Command.Run
import PhaseVocoder.Proofs.Rendering

/-!
# Tunings stay in range (`PshifterProps`, effect/props.rs:9-80)

A tuning's fields may hold any 32-bit value, since a host may write them directly; `Valid` says
that both lie in range. Every way the library builds a tuning checks them:

* a setter succeeds exactly when its argument is in range, and otherwise names the argument
  and leaves the tuning the host holds as it was (`setCoarse_eq_ok_iff`, `Call.apply`);
* `validate` accepts exactly the valid tunings and reports the coarse field first, whatever
  the fine one holds (`validate_eq`);
* so `make` and `ofConfig`, which validates what it has read, give valid tunings; any sequence
  of calls keeps a valid tuning valid (`afterCalls_valid`); and the tuning a run of the command
  settles on, from the configuration file or the default and then the flags, is valid in every
  monad its files live in (`tuningOf_valid`).

The total cents of a valid tuning are computed without overflow and lie in `[-1250, 1250]`
(`totalCents_of_valid`).
-/

namespace PhaseVocoder.Tuning

/-- Both fields within their ranges: the tunings that the checks accept. -/
def Valid (t : Tuning) : Prop := coarseInRange t.coarse = true ∧ fineInRange t.fine = true

instance (t : Tuning) : Decidable t.Valid := inferInstanceAs (Decidable (_ ∧ _))

theorem valid_iff (t : Tuning) :
    t.Valid ↔ (-12 ≤ t.coarse.toInt ∧ t.coarse.toInt ≤ 12) ∧
      -50 ≤ t.fine.toInt ∧ t.fine.toInt ≤ 50 := by
  simp [Valid, coarseInRange, fineInRange]

theorem default_valid : default.Valid := by decide

/-! ## The setters -/

variable {t t' : Tuning} {n : Int32} {e : ShiftError}

theorem setCoarse_eq_ok_iff : t.setCoarse n = .ok t' ↔
    coarseInRange n = true ∧ t' = { t with coarse := n } := ite_eq_ok_iff

theorem setCoarse_eq_error_iff : t.setCoarse n = .error e ↔
    coarseInRange n = false ∧ e = .coarseOutOfRange n := ite_eq_error_iff

theorem setFine_eq_ok_iff : t.setFine n = .ok t' ↔
    fineInRange n = true ∧ t' = { t with fine := n } := ite_eq_ok_iff

theorem setFine_eq_error_iff : t.setFine n = .error e ↔
    fineInRange n = false ∧ e = .fineOutOfRange n := ite_eq_error_iff

theorem Valid.setCoarse (h : t.Valid) (hs : t.setCoarse n = .ok t') : t'.Valid := by
  obtain ⟨hn, rfl⟩ := setCoarse_eq_ok_iff.mp hs
  exact ⟨hn, h.2⟩

theorem Valid.setFine (h : t.Valid) (hs : t.setFine n = .ok t') : t'.Valid := by
  obtain ⟨hn, rfl⟩ := setFine_eq_ok_iff.mp hs
  exact ⟨h.1, hn⟩

/-! ## The checks -/

/-- `validate` reports the coarse field whenever it is out of range, and the fine field only
when the coarse one passes. -/
theorem validate_eq (t : Tuning) :
    t.validate =
      if coarseInRange t.coarse then
        if fineInRange t.fine then .ok () else .error (.fineOutOfRange t.fine)
      else .error (.coarseOutOfRange t.coarse) := by
  unfold validate make setCoarse setFine
  by_cases hc : coarseInRange t.coarse <;> by_cases hf : fineInRange t.fine <;>
    simp [hc, hf, bind, Except.bind, Except.map]

theorem Valid.of_make {c f : Int32} (h : make c f = .ok t) : t.Valid := by
  obtain ⟨t₁, h₁, h₂⟩ := bind_eq_ok.mp h
  exact (default_valid.setCoarse h₁).setFine h₂

section Config

variable {decode : Decoder} {text : String}

/-- A text the JSON library reads as `t` gives `t` when `t` passes `validate`, and otherwise
the range error `validate` reports. -/
theorem ofConfig_of_decode (hd : decode text = .ok t) :
    ofConfig decode text = t.validate.map fun _ => t := by
  unfold ofConfig
  rw [hd]
  show (t.validate >>= fun _ => pure t) = _
  rcases t.validate with e | u <;> rfl

theorem ofConfig_of_decode_error {e : Config.ConfigError} (hd : decode text = .error e) :
    ofConfig decode text = .error (.config e) := by
  unfold ofConfig
  rw [hd]
  rfl

/-- Whatever the JSON library reads, a configuration text gives a tuning only once that tuning
has passed `validate`. -/
theorem Valid.of_ofConfig (h : ofConfig decode text = .ok t) : t.Valid := by
  rcases hd : decode text with e | t₀
  · rw [ofConfig_of_decode_error hd] at h
    cases h
  · rw [ofConfig_of_decode hd] at h
    obtain ⟨u, hv, rfl⟩ := map_eq_ok.mp h
    exact (validate_ok_iff _).mp hv

end Config

/-! ## Total cents -/

/-- The total cents of a valid tuning are `100 · coarse + fine`, within `[-1250, 1250]`: far
inside the signed 32-bit range, so neither the product nor the sum overflows. -/
theorem totalCents_of_valid (h : t.Valid) :
    t.totalCents = .ok (t.coarse.toInt * 100 + t.fine.toInt) ∧
      -1250 ≤ t.coarse.toInt * 100 + t.fine.toInt ∧ t.coarse.toInt * 100 + t.fine.toInt ≤ 1250 := by
  obtain ⟨⟨hc, hc'⟩, hf, hf'⟩ := (valid_iff t).mp h
  have hm : Word.i32.lo ≤ t.coarse.toInt * 100 ∧ t.coarse.toInt * 100 ≤ Word.i32.hi := by
    simp only [Word.i32]; omega
  have ha : Word.i32.lo ≤ t.coarse.toInt * 100 + t.fine.toInt ∧
      t.coarse.toInt * 100 + t.fine.toInt ≤ Word.i32.hi := by
    simp only [Word.i32]; omega
  refine ⟨?_, by omega, by omega⟩
  rw [totalCents, Word.mul_eq_ok hm, ok_bind, Word.add_eq_ok ha]

/-! ## A host's calls -/

/-- A call a host makes on the tuning it holds: the two setters, the check and the total. -/
inductive Call where
  | setCoarse (n : Int32)
  | setFine (n : Int32)
  | validate
  | totalCents

/-- The tuning a host holds after a call. A setter that fails leaves it as it was; the check and
the total only read it. -/
def Call.apply : Call → Tuning → Tuning
  | .setCoarse n, t =>
    match t.setCoarse n with
    | .ok t' => t'
    | .error _ => t
  | .setFine n, t =>
    match t.setFine n with
    | .ok t' => t'
    | .error _ => t
  | .validate, t => t
  | .totalCents, t => t

/-- The tuning a host holds after a sequence of calls. -/
def afterCalls (t : Tuning) (cs : List Call) : Tuning := cs.foldl (fun t c => c.apply t) t

theorem Call.apply_setCoarse (t : Tuning) (n : Int32) :
    (Call.setCoarse n).apply t = if coarseInRange n then { t with coarse := n } else t := by
  by_cases hn : coarseInRange n = true <;> simp [apply, Tuning.setCoarse, hn]

theorem Call.apply_setFine (t : Tuning) (n : Int32) :
    (Call.setFine n).apply t = if fineInRange n then { t with fine := n } else t := by
  by_cases hn : fineInRange n = true <;> simp [apply, Tuning.setFine, hn]

/-- One call keeps a tuning valid: a setter either succeeds in range or changes nothing. -/
theorem Call.apply_valid (c : Call) (h : t.Valid) : (c.apply t).Valid := by
  cases c with
  | setCoarse n =>
    cases hs : t.setCoarse n with
    | ok t' => simp only [apply, hs]; exact h.setCoarse hs
    | error _ => simp only [apply, hs]; exact h
  | setFine n =>
    cases hs : t.setFine n with
    | ok t' => simp only [apply, hs]; exact h.setFine hs
    | error _ => simp only [apply, hs]; exact h
  | validate => exact h
  | totalCents => exact h

/-- Every sequence of calls keeps a tuning valid. -/
theorem afterCalls_valid (cs : List Call) (h : t.Valid) : (afterCalls t cs).Valid := by
  induction cs generalizing t with
  | nil => exact h
  | cons c cs ih => exact ih (c.apply_valid h)

/-! ## The command line -/

section CommandLine

open Command

variable {m : Type → Type} [Monad m] [LawfulMonad m]

/-- Applying the flags through the setters keeps a valid starting tuning valid. -/
theorem flags_valid (o : Options) {base : Except ShiftError Tuning}
    (hbase : ∀ t, base = .ok t → t.Valid) :
    ∀ t, (do
      let t ← base
      let t ← match o.coarse with
        | some c => t.setCoarse c
        | none => pure t
      match o.fine with
        | some f => t.setFine f
        | none => pure t) = .ok t → t.Valid := by
  intro t h
  obtain ⟨t₀, h₀, h₁⟩ := bind_eq_ok.mp h
  have v₀ := hbase t₀ h₀
  rcases hc : o.coarse with _ | c <;> rcases hf : o.fine with _ | f <;>
    simp only [hc, hf] at h₁ <;> obtain ⟨t₁, h₂, h₃⟩ := bind_eq_ok.mp h₁
  case none.none => cases h₂; cases h₃; exact v₀
  case none.some => cases h₂; exact v₀.setFine h₃
  case some.none => cases h₃; exact v₀.setCoarse h₂
  case some.some => exact (v₀.setCoarse h₂).setFine h₃

/-- Whatever the file store answers and the JSON library reads, every tuning a run settles on is
valid: the computation factors through results whose tunings pass the checks. -/
theorem tuningOf_valid (decode : Decoder) (files : Files m) (o : Options) :
    SatisfiesM (fun r => ∀ t, r = .ok t → t.Valid) (tuningOf decode files o) := by
  unfold tuningOf
  simp only [pure_bind]
  split
  · exact SatisfiesM.pure (flags_valid o fun t h => by cases h; exact default_valid)
  · refine SatisfiesM.bind SatisfiesM.trivial fun loaded _ => ?_
    split
    · exact SatisfiesM.pure (flags_valid o fun t h => by cases h)
    · split
      · exact SatisfiesM.pure (flags_valid o fun t h => by cases h)
      · exact SatisfiesM.pure (flags_valid o fun t h => Valid.of_ofConfig h)

end CommandLine

/-- Every way of building a tuning checks its ranges. A setter succeeds exactly when its
argument is in range, setting its field; otherwise it names the argument and the tuning the
host holds stays as it was. `validate` accepts exactly the valid tunings, and reports the coarse
field whenever it is out of range, the fine one otherwise. So `make`, any sequence of calls
from a valid tuning, `ofConfig`, and the command line's merge of the configuration and the
flags give valid tunings only, whatever the JSON library reads, and the total cents of a valid tuning are `100 · coarse + fine`,
computed without overflow, within `[-1250, 1250]`. -/
theorem tunings_stay_in_range :
    (∀ (t : Tuning) (n : Int32),
      (∀ t', t.setCoarse n = .ok t' ↔ coarseInRange n = true ∧ t' = { t with coarse := n }) ∧
      (∀ e, t.setCoarse n = .error e ↔ coarseInRange n = false ∧ e = .coarseOutOfRange n) ∧
      (coarseInRange n = false → (Call.setCoarse n).apply t = t) ∧
      (∀ t', t.setFine n = .ok t' ↔ fineInRange n = true ∧ t' = { t with fine := n }) ∧
      (∀ e, t.setFine n = .error e ↔ fineInRange n = false ∧ e = .fineOutOfRange n) ∧
      (fineInRange n = false → (Call.setFine n).apply t = t)) ∧
    (∀ t : Tuning,
      (t.validate = .ok () ↔ t.Valid) ∧
      (coarseInRange t.coarse = false → t.validate = .error (.coarseOutOfRange t.coarse)) ∧
      (coarseInRange t.coarse = true → fineInRange t.fine = false →
        t.validate = .error (.fineOutOfRange t.fine))) ∧
    (∀ c f t, make c f = .ok t → t.Valid) ∧
    (∀ t : Tuning, t.Valid → ∀ cs, (afterCalls t cs).Valid) ∧
    (∀ (decode : Decoder) text t, ofConfig decode text = .ok t → t.Valid) ∧
    (∀ {m : Type → Type} [Monad m] [LawfulMonad m] (decode : Decoder) (files : Command.Files m)
      (o : Command.Options),
      SatisfiesM (fun r => ∀ t, r = .ok t → t.Valid) (Command.tuningOf decode files o)) ∧
    ∀ t : Tuning, t.Valid →
      t.totalCents = .ok (t.coarse.toInt * 100 + t.fine.toInt) ∧
        -1250 ≤ t.coarse.toInt * 100 + t.fine.toInt ∧
        t.coarse.toInt * 100 + t.fine.toInt ≤ 1250 := by
  refine ⟨fun t n => ⟨fun _ => setCoarse_eq_ok_iff, fun _ => setCoarse_eq_error_iff, ?_,
      fun _ => setFine_eq_ok_iff, fun _ => setFine_eq_error_iff, ?_⟩,
    fun t => ⟨validate_ok_iff t, ?_, ?_⟩, fun _ _ _ => Valid.of_make,
    fun _ h cs => afterCalls_valid cs h, fun _ _ _ => Valid.of_ofConfig,
    fun decode files o => tuningOf_valid decode files o, fun _ => totalCents_of_valid⟩
  · intro hn
    rw [Call.apply_setCoarse, hn, if_neg Bool.false_ne_true]
  · intro hn
    rw [Call.apply_setFine, hn, if_neg Bool.false_ne_true]
  · intro hc
    rw [validate_eq, hc, if_neg Bool.false_ne_true]
  · intro hc hf
    rw [validate_eq, hc, hf, if_pos rfl, if_neg Bool.false_ne_true]

/-- From the default, a coarse tuning of 13 is refused and leaves the octave, and the fine
tuning then applies: the held tuning stays valid. -/
theorem refused_coarse_keeps_octave :
    Tuning.default.Valid ∧ afterCalls Tuning.default [.setCoarse 13, .setFine (-7)] = ⟨12, -7⟩ ∧
      (afterCalls Tuning.default [.setCoarse 13, .setFine (-7)]).Valid :=
  ⟨by decide, by decide, tunings_stay_in_range.2.2.2.1 _ (by decide) _⟩

end PhaseVocoder.Tuning
