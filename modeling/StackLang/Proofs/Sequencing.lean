namespace StackLang

variable {ε σ α β : Type}

theorem run_bind_eq_ok {x : EStateM ε σ α} {f : α → EStateM ε σ β} {s s' : σ} {b : β} :
    (x >>= f).run s = .ok b s' ↔
      ∃ a s₁, x.run s = .ok a s₁ ∧ (f a).run s₁ = .ok b s' := by
  rw [EStateM.run_bind]
  cases x.run s with
  | ok a s₁ =>
    constructor
    · intro h
      exact ⟨a, s₁, rfl, h⟩
    · rintro ⟨a, s₁, h, hf⟩
      cases h
      exact hf
  | error e s₁ => simp

theorem run_bind_eq_error {x : EStateM ε σ α} {f : α → EStateM ε σ β} {s s' : σ} {e : ε} :
    (x >>= f).run s = .error e s' ↔
      x.run s = .error e s' ∨ ∃ a s₁, x.run s = .ok a s₁ ∧ (f a).run s₁ = .error e s' := by
  rw [EStateM.run_bind]
  cases x.run s with
  | ok a s₁ =>
    constructor
    · intro h
      exact .inr ⟨a, s₁, rfl, h⟩
    · rintro (h | ⟨a, s₁, h, hf⟩)
      · cases h
      · cases h
        exact hf
  | error e s₁ => simp

theorem run_bind_of_ok {x : EStateM ε σ α} {f : α → EStateM ε σ β} {s s₁ : σ} {a : α}
    (h : x.run s = .ok a s₁) : (x >>= f).run s = (f a).run s₁ := by
  rw [EStateM.run_bind, h]

theorem exists_of_run_ok {x : EStateM ε σ α} {s : σ}
    (h : (match x.run s with | .ok _ _ => true | .error _ _ => false) = true) :
    ∃ a s', x.run s = .ok a s' := by
  split at h
  next a s' hx => exact ⟨a, s', hx⟩
  next => cases h

theorem exists_of_run_satisfies {x : EStateM ε σ α} {s : σ} {P : α → σ → Prop}
    [∀ a s', Decidable (P a s')]
    (h : (match x.run s with | .ok a s' => decide (P a s') | .error _ _ => false) = true) :
    ∃ a s', x.run s = .ok a s' ∧ P a s' := by
  split at h
  next a s' hx => exact ⟨a, s', hx, of_decide_eq_true h⟩
  next => cases h

theorem exists_of_run_error {x : EStateM ε σ α} {s : σ} {e : ε}
    (h : (match x.run s with | .ok _ _ => none | .error e _ => some e) = some e) :
    ∃ s', x.run s = .error e s' := by
  split at h
  next => cases h
  next s' hx =>
    cases h
    exact ⟨s', hx⟩

end StackLang
