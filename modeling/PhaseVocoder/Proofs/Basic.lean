import PhaseVocoder.Fault

/-!
# Faulting computations

The library's operations run in `Except Fault`. The lemmas here take such computations apart:
a bind that succeeds is two steps that succeed (`bind_eq_ok`), a result guarded by a check
succeeds exactly when the check passes (`ite_eq_ok_iff`), and a loop whose body keeps an
invariant and never fails finishes with it (`forIn'_ok`). The two guards that can fault on
well-formed data, a sum in a machine word and a slice of a buffer, pass exactly when the
numbers fit.
-/

namespace PhaseVocoder

section Except

variable {ε β γ : Type}

theorem bind_eq_ok {x : Except ε β} {f : β → Except ε γ} {c : γ} :
    x >>= f = .ok c ↔ ∃ b, x = .ok b ∧ f b = .ok c := by
  cases x <;> simp [bind, Except.bind]

/-- A bind on a success is its continuation. Rewriting with this, rather than reducing the
bind, keeps the kernel from unfolding a large continuation again. -/
theorem ok_bind (b : β) (f : β → Except ε γ) : (Except.ok b >>= f) = f b := rfl

theorem map_ok (b : β) (f : β → γ) : (Except.ok b : Except ε β).map f = .ok (f b) := rfl

theorem map_eq_ok {x : Except ε β} {f : β → γ} {c : γ} :
    x.map f = .ok c ↔ ∃ b, x = .ok b ∧ f b = c := by
  cases x <;> simp [Except.map]

theorem map_eq_error {x : Except ε β} {f : β → γ} {e : ε} :
    x.map f = .error e ↔ x = .error e := by
  cases x <;> simp [Except.map]

theorem ite_eq_ok_iff {b : Bool} {x z : β} {y : ε} :
    (if b then .ok x else .error y) = (.ok z : Except ε β) ↔ b = true ∧ z = x := by
  cases b
  · simp
  · simp only [if_true, Except.ok.injEq, true_and]
    exact eq_comm

theorem ite_eq_error_iff {b : Bool} {x : β} {y e : ε} :
    (if b then .ok x else .error y) = (.error e : Except ε β) ↔ b = false ∧ e = y := by
  cases b
  · simp only [Bool.false_eq_true, if_false, Except.error.injEq, true_and]
    exact eq_comm
  · simp

theorem bind_ok_of {x : Except ε β} {f : β → Except ε γ} {P : β → Prop} {Q : γ → Prop}
    (h : ∃ b, x = .ok b ∧ P b) (hf : ∀ b, P b → ∃ c, f b = .ok c ∧ Q c) :
    ∃ c, x >>= f = .ok c ∧ Q c := by
  obtain ⟨b, rfl, hb⟩ := h
  exact hf b hb

theorem bind_pure_ok_of {x : Except ε β} {g : β → γ} {P : β → Prop} {Q : γ → Prop}
    (h : ∃ b, x = .ok b ∧ P b) (hq : ∀ b, P b → Q (g b)) :
    ∃ c, (x >>= fun b => pure (g b)) = .ok c ∧ Q c := by
  obtain ⟨b, rfl, hb⟩ := h
  exact ⟨g b, rfl, hq b hb⟩

/-- A loop over a list whose `i`-th step keeps an invariant indexed by the steps taken finishes
normally, with the invariant at the list's length. -/
theorem forIn'_ok_indexed {α : Type} (l : List α) (I : Nat → β → Prop)
    (f : (a : α) → a ∈ l → β → Except ε (ForInStep β))
    (hf : ∀ i (hi : i < l.length) a (ha : a ∈ l), l[i] = a → ∀ b, I i b →
      ∃ b', f a ha b = .ok (.yield b') ∧ I (i + 1) b')
    (b : β) (hb : I 0 b) : ∃ b', forIn' l b f = .ok b' ∧ I l.length b' := by
  induction l generalizing I b with
  | nil => exact ⟨b, rfl, hb⟩
  | cons a l ih =>
    obtain ⟨b₁, h₁, hb₁⟩ := hf 0 (by simp) a List.mem_cons_self rfl b hb
    rw [List.forIn'_cons, h₁]
    exact ih (fun i => I (i + 1)) _
      (fun i hi a' ha' he b hb => hf (i + 1) (by simp; omega) a' _ he b hb) b₁ hb₁

theorem forIn_ok_indexed {α : Type} (l : List α) (I : Nat → β → Prop)
    (f : α → β → Except ε (ForInStep β))
    (hf : ∀ i (hi : i < l.length) a, l[i] = a → ∀ b, I i b →
      ∃ b', f a b = .ok (.yield b') ∧ I (i + 1) b')
    (b : β) (hb : I 0 b) : ∃ b', forIn l b f = .ok b' ∧ I l.length b' := by
  rw [← forIn'_eq_forIn l b (fun a _ b => f a b) f fun _ _ _ => rfl]
  exact forIn'_ok_indexed l I _ (fun i hi a _ he b hb => hf i hi a he b hb) b hb

/-- A loop over a list whose body keeps an invariant and always yields finishes normally,
with the invariant. -/
theorem forIn'_ok {α : Type} (l : List α) (I : β → Prop)
    (f : (a : α) → a ∈ l → β → Except ε (ForInStep β))
    (hf : ∀ a h b, I b → ∃ b', f a h b = .ok (.yield b') ∧ I b') (b : β) (hb : I b) :
    ∃ b', forIn' l b f = .ok b' ∧ I b' :=
  forIn'_ok_indexed l (fun _ => I) f (fun _ _ a ha _ b hb => hf a ha b hb) b hb

theorem forIn_ok {α : Type} (l : List α) (I : β → Prop) (f : α → β → Except ε (ForInStep β))
    (hf : ∀ a, a ∈ l → ∀ b, I b → ∃ b', f a b = .ok (.yield b') ∧ I b') (b : β) (hb : I b) :
    ∃ b', forIn l b f = .ok b' ∧ I b' := by
  rw [← forIn'_eq_forIn l b (fun a _ b => f a b) f fun _ _ _ => rfl]
  exact forIn'_ok l I _ (fun a ha b hb => hf a ha b hb) b hb

theorem bind_pure_eq_ok {x : Except ε β} {g : β → γ} {c : γ} (P : β → Prop)
    (h : ∃ b, x = .ok b ∧ P b) (hg : ∀ b, P b → g b = c) :
    (x >>= fun b => pure (g b)) = .ok c := by
  obtain ⟨b, rfl, hb⟩ := h
  exact congrArg Except.ok (hg b hb)

end Except

theorem Word.add_eq_ok {w : Word} {a b : Int} (h : w.lo ≤ a + b ∧ a + b ≤ w.hi) :
    w.add a b = .ok (a + b) := by
  simp [Word.add, Word.holds, h]

theorem Word.add_eq_error {w : Word} {a b : Int} (h : ¬ (w.lo ≤ a + b ∧ a + b ≤ w.hi)) :
    w.add a b = .error .addOverflow := by
  simp only [Word.add, Word.holds, Bool.and_eq_true, decide_eq_true_eq]
  rw [if_neg h]

theorem Word.mul_eq_ok {w : Word} {a b : Int} (h : w.lo ≤ a * b ∧ a * b ≤ w.hi) :
    w.mul a b = .ok (a * b) := by
  simp [Word.mul, Word.holds, h]

theorem Word.mul_eq_error {w : Word} {a b : Int} (h : ¬ (w.lo ≤ a * b ∧ a * b ≤ w.hi)) :
    w.mul a b = .error .mulOverflow := by
  simp only [Word.mul, Word.holds, Bool.and_eq_true, decide_eq_true_eq]
  rw [if_neg h]

theorem checkSlice_ok {start stop length : Nat} (h₁ : start ≤ stop) (h₂ : stop ≤ length) :
    checkSlice start stop length = .ok () := by
  simp only [checkSlice]
  rw [if_neg (by omega), if_neg (by omega)]

end PhaseVocoder
