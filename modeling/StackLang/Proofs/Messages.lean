import StackLang.Grammar.Reader

namespace StackLang

namespace Grammar.Place

def shown : Place → List Label
  | callEnd f => [f]
  | assignSign x => [x]
  | parametersStart f => [f]
  | _ => []

end Grammar.Place

namespace ParseError

def shown : ParseError → List Label
  | misplaced place got => place.shown ++ [got.value]
  | unspoken place => place.shown
  | notFactor got | notTarget got | notFunctionName got | notStatement got | notTopLevel got =>
    [got.value]
  | notParameter f got | parametersOpen f got => [f, got.value]
  | nestedFunction | returnOutside | budget => []

end ParseError

/-- A label that can be written: it holds no integer of too many digits. -/
def Label.Writable (x : Label) : Prop :=
  ∀ n, x = some (.int n) → Numeral.Writable n

namespace Label

variable {x : Label}

theorem literal_text {v : Literal} (h : Writable (some v)) : ∃ s, v.text = .ok s := by
  cases v with
  | word s => exact ⟨s, rfl⟩
  | int n =>
    have hn : Numeral.Writable n := h n rfl
    exact ⟨Numeral.text n, by rw [Literal.text, Numeral.write, if_pos hn]⟩

theorem eq_int_of_not_writable (h : ¬ x.Writable) :
    ∃ n, x = some (.int n) ∧ Numeral.write n = .error .tooManyDigits := by
  cases x with
  | none => exact absurd nofun h
  | some v =>
    cases v with
    | word s => exact absurd nofun h
    | int n =>
      have hn : ¬ Numeral.Writable n := by
        intro hn
        apply h
        intro k hk
        cases hk
        exact hn
      exact ⟨n, rfl, by rw [Numeral.write, if_neg hn]⟩

theorem text_ok (h : x.Writable) : ∃ s, x.text = .ok s := by
  cases x with
  | none => exact ⟨_, rfl⟩
  | some v => exact literal_text h

theorem text_error (h : ¬ x.Writable) : x.text = .error .tooManyDigits := by
  obtain ⟨n, rfl, hn⟩ := eq_int_of_not_writable h
  exact hn

end Label

namespace Token

variable {t : Token}

theorem text_ok (h : t.value.Writable) : ∃ s, t.text = .ok s := by
  unfold text
  cases hv : t.value with
  | none => exact ⟨_, rfl⟩
  | some v =>
    rw [hv] at h
    obtain ⟨s, hs⟩ := Label.literal_text h
    exact ⟨t.kind.text ++ "(" ++ s ++ ")", by simp only [Label.tagged, hs]; rfl⟩

theorem text_error (h : ¬ t.value.Writable) : t.text = .error .tooManyDigits := by
  obtain ⟨n, hv, hn⟩ := Label.eq_int_of_not_writable h
  simp only [text, hv, Label.tagged, Literal.text, hn]
  rfl

end Token

namespace Grammar.Place

theorem context_ok {place : Place} (h : ∀ x ∈ place.shown, x.Writable) :
    ∃ s, place.context = .ok s := by
  cases place with
  | callEnd x | assignSign x | parametersStart x =>
    obtain ⟨s, hs⟩ := Label.text_ok (h x (by simp [shown]))
    exact ⟨_, by rw [context, hs]; rfl⟩
  | _ => exact ⟨_, rfl⟩

theorem context_error {place : Place} (h : ∃ x ∈ place.shown, ¬ x.Writable) :
    place.context = .error .tooManyDigits := by
  obtain ⟨y, hy, hw⟩ := h
  cases place with
  | callEnd x | assignSign x | parametersStart x =>
    obtain rfl := List.mem_singleton.mp hy
    rw [context, Label.text_error hw]
    rfl
  | _ => cases hy

end Grammar.Place

namespace ParseError

theorem message_ok {e : ParseError} (hbudget : e ≠ .budget) (h : ∀ x ∈ e.shown, x.Writable) :
    ∃ s, e.message = .ok s := by
  have hdetail : ∃ s, message.detail e = .ok s := by
    cases e with
    | misplaced place got =>
      obtain ⟨c, hc⟩ := Grammar.Place.context_ok fun x hx => h x (List.mem_append_left _ hx)
      obtain ⟨s, hs⟩ := Token.text_ok (h got.value (by simp [shown]))
      exact ⟨_, by rw [message.detail, hc, hs]; rfl⟩
    | unspoken place => exact Grammar.Place.context_ok h
    | notFactor got | notTarget got | notFunctionName got | notStatement got | notTopLevel got =>
      obtain ⟨s, hs⟩ := Token.text_ok (h got.value (by simp [shown]))
      exact ⟨_, by rw [message.detail, hs]; rfl⟩
    | notParameter f got | parametersOpen f got =>
      obtain ⟨c, hc⟩ := Label.text_ok (h f (by simp [shown]))
      obtain ⟨s, hs⟩ := Token.text_ok (h got.value (by simp [shown]))
      exact ⟨_, by rw [message.detail, hc, hs]; rfl⟩
    | nestedFunction | returnOutside => exact ⟨_, rfl⟩
    | budget => exact absurd rfl hbudget
  obtain ⟨s, hs⟩ := hdetail
  exact ⟨"ParseError: " ++ s, by rw [message, hs]; rfl⟩

theorem message_error {e : ParseError} (h : ∃ x ∈ e.shown, ¬ x.Writable) :
    e.message = .error .tooManyDigits := by
  have hdetail : message.detail e = .error .tooManyDigits := by
    obtain ⟨x, hx, hw⟩ := h
    cases e with
    | misplaced place got =>
      by_cases hplace : ∀ x ∈ place.shown, x.Writable
      · obtain ⟨c, hc⟩ := Grammar.Place.context_ok hplace
        rcases List.mem_append.mp hx with hx | hx
        · exact absurd (hplace x hx) hw
        · rw [List.mem_singleton.mp hx] at hw
          rw [message.detail, hc, Token.text_error hw]
          rfl
      · obtain ⟨y, hy⟩ := Classical.not_forall.mp hplace
        obtain ⟨hy, hw⟩ := Classical.not_imp.mp hy
        rw [message.detail, Grammar.Place.context_error ⟨y, hy, hw⟩]
        rfl
    | unspoken place => exact Grammar.Place.context_error ⟨x, hx, hw⟩
    | notFactor got | notTarget got | notFunctionName got | notStatement got | notTopLevel got =>
      rw [List.mem_singleton.mp hx] at hw
      rw [message.detail, Token.text_error hw]
      rfl
    | notParameter f got | parametersOpen f got =>
      by_cases hf : f.Writable
      · obtain ⟨c, hc⟩ := Label.text_ok hf
        rcases List.mem_cons.mp hx with rfl | hx
        · exact absurd hf hw
        · rw [List.mem_singleton.mp hx] at hw
          rw [message.detail, hc, Token.text_error hw]
          rfl
      · rw [message.detail, Label.text_error hf]
        rfl
    | _ => cases hx
  rw [message, hdetail]
  rfl

end ParseError

end StackLang
