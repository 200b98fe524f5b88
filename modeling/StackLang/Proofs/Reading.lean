import StackLang.Proofs.Layout
import StackLang.Proofs.Metering
import StackLang.Proofs.Phrases

namespace StackLang

open MonadTokens

theorem mem_dropLast_append {α : Type} {us vs : List α} {t : α} (h : t ∈ (us ++ vs).dropLast) :
    t ∈ us ∨ t ∈ vs.dropLast := by
  cases vs with
  | nil =>
    rw [List.append_nil] at h
    exact .inl ((List.dropLast_sublist us).subset h)
  | cons v vs =>
    rw [List.dropLast_append_of_ne_nil (by simp)] at h
    exact List.mem_append.mp h

namespace Cursor

/-- The tokens in front of the first `eof`. -/
def live (c : Cursor) : List Token :=
  (c.pushback ++ c.unread).takeWhile (·.kind ≠ .eof)

/-- The tokens that are taken one after the other, up to the cursor that is left. -/
def Takes : Cursor → List Token → Cursor → Prop
  | c, [], c' => c' = c
  | c, t :: ts, c' => c.next.1 = t ∧ Takes c.next.2 ts c'

variable {c c₁ c₂ : Cursor} {us vs : List Token}

theorem live_next (ht : c.next.1.kind ≠ .eof) : c.live = c.next.1 :: c.next.2.live := by
  obtain ⟨pushback, unread, terminal, he⟩ := c
  rcases pushback with _ | ⟨t, pushback⟩
  · rcases unread with _ | ⟨t, unread⟩
    · exact absurd he ht
    · have hkind : t.kind ≠ .eof := ht
      simp [live, next, hkind]
  · have hkind : t.kind ≠ .eof := ht
    simp [live, next, hkind]

theorem live_eq_nil (h : c.peek.kind = .eof) : c.live = [] := by
  obtain ⟨pushback, unread, terminal, he⟩ := c
  rcases pushback with _ | ⟨t, pushback⟩
  · rcases unread with _ | ⟨t, unread⟩
    · rfl
    · have hkind : t.kind = .eof := h
      simp [live, hkind]
  · have hkind : t.kind = .eof := h
    simp [live, hkind]

theorem length_live_le_pending (c : Cursor) : c.live.length ≤ c.pending := by
  rw [pending, ← List.length_append]
  exact (List.takeWhile_prefix _).length_le

/-- All tokens that the cursor can come to show. -/
def sources (c : Cursor) : List Token :=
  c.terminal :: (c.pushback ++ c.unread)

theorem next_mem_sources (c : Cursor) : c.next.1 ∈ c.sources := by
  obtain ⟨pushback, unread, terminal, he⟩ := c
  rcases pushback with _ | ⟨t, pushback⟩
  · rcases unread with _ | ⟨t, unread⟩
    · exact List.mem_cons_self
    · simp [sources, next]
  · simp [sources, next]

theorem sources_next_subset (c : Cursor) : c.next.2.sources ⊆ c.sources := by
  obtain ⟨pushback, unread, terminal, he⟩ := c
  rcases pushback with _ | ⟨t, pushback⟩
  · rcases unread with _ | ⟨t, unread⟩
    · exact fun _ h => h
    · exact List.cons_subset_cons _ (List.subset_cons_self t unread)
  · exact List.cons_subset_cons _ (List.subset_cons_self t (pushback ++ unread))

namespace Takes

theorem append (h : c.Takes us c₁) (h' : c₁.Takes vs c₂) : c.Takes (us ++ vs) c₂ := by
  induction us generalizing c with
  | nil =>
    cases h
    exact h'
  | cons t us ih => exact ⟨h.1, ih h.2⟩

theorem live (h : c.Takes us c₁) (hus : ∀ t ∈ us, t.kind ≠ .eof) :
    c.live = us ++ c₁.live := by
  induction us generalizing c with
  | nil =>
    cases h
    rfl
  | cons t us ih =>
    obtain ⟨rfl, h⟩ := h
    rw [live_next (hus _ List.mem_cons_self), ih h fun u hu => hus u (List.mem_cons_of_mem _ hu)]
    rfl

theorem length_le (h : c.Takes us c₁) (hus : ∀ t ∈ us.dropLast, t.kind ≠ .eof) :
    us.length ≤ c.live.length + 1 := by
  induction us generalizing c with
  | nil => simp
  | cons t us ih =>
    cases us with
    | nil => simp
    | cons u us =>
      obtain ⟨rfl, h⟩ := h
      have hrest := ih h fun v hv => hus v (List.mem_cons_of_mem _ hv)
      rw [live_next (hus _ List.mem_cons_self)]
      simp only [List.length_cons] at hrest ⊢
      omega

theorem mem_sources (h : c.Takes us c₁) {t : Token} (ht : t ∈ c₁.peek :: us) : t ∈ c.sources := by
  induction us generalizing c with
  | nil =>
    cases h
    rw [List.mem_singleton.mp ht]
    exact c₁.next_mem_sources
  | cons u us ih =>
    obtain ⟨rfl, h⟩ := h
    rcases List.mem_cons.mp ht with rfl | ht
    · exact c.sources_next_subset (ih h List.mem_cons_self)
    · rcases List.mem_cons.mp ht with rfl | ht
      · exact c.next_mem_sources
      · exact c.sources_next_subset (ih h (List.mem_cons_of_mem _ ht))

end Takes

end Cursor

theorem Reader.length_live_le_budget (r : Reader) : 4 * r.cursor.live.length + 4 ≤ r.budget := by
  have hlive := r.cursor.length_live_le_pending
  rw [budget]
  omega

namespace Grammar

section Outcomes

variable {α β : Type}

/-- A reading that starts in front of `c` and succeeds. It has taken at least `p` tokens, which are
what `D` says, and no `eof`. Each token pays for eight calls, and `won` of them may still be
owed. -/
structure Succeeds (p : Nat) (won : Int) (levels : Nat → Prop)
    (D : List Token → Cursor → α → Prop) (c : Cursor) (a : α) (r : Reader) (l : Ledger) : Prop where
  takes : c.Takes l.taken r.cursor
  kinds : ∀ t ∈ l.taken, t.kind ≠ .eof
  length : p ≤ l.taken.length
  calls : (l.calls : Int) ≤ 8 * l.taken.length + won
  level : levels r.level
  phrase : D l.taken r.cursor a

/-- The level of a success, or that of a declaration that was opened outside all others. -/
def Opened (levels : Nat → Prop) (k : Nat) : Prop :=
  levels k ∨ levels 0 ∧ k = 1

/-- A reading that starts in front of `c` and fails. Only its last token may be an `eof`, and it
lacks budget only if that was `low`. What it shows is known or a label of the tokens. -/
structure Fails (low : Prop) (lost : Int) (levels : Nat → Prop) (known : List Label)
    (c : Cursor) (e : ParseError) (r : Reader) (l : Ledger) : Prop where
  takes : c.Takes l.taken r.cursor
  kinds : ∀ t ∈ l.taken.dropLast, t.kind ≠ .eof
  calls : (l.calls : Int) ≤ 8 * l.taken.length + lost
  budget : e = .budget → low
  level : Opened levels r.level
  shown : ∀ x ∈ e.shown, x ∈ known ∨ ∃ t ∈ r.cursor.peek :: l.taken, t.value = x

/-- All that a reader does from `r` on. -/
def Reads (low : Prop) (p : Nat) (won lost : Int) (levels : Nat → Prop) (known : List Label)
    (D : List Token → Cursor → α → Prop) (r : Reader) (x : Metered α) : Prop :=
  match x r with
  | (.ok a r', l) => Succeeds p won levels D r.cursor a r' l
  | (.error e r', l) => Fails low lost levels known r.cursor e r' l

/-- A step that takes no token and fails. -/
def Refuses (low : Prop) (lost : Int) (levels : Nat → Prop) (known : List Label) (r : Reader)
    (x : Metered α) : Prop :=
  match x r with
  | (.ok _ _, _) => False
  | (.error e r', l) => l.taken = [] ∧ Fails low lost levels known r.cursor e r' l

variable {low low' low₁ : Prop} {p p' p₁ : Nat} {won won' won₁ lost lost' lost₁ : Int}
  {levels levels' levels₁ : Nat → Prop} {known : List Label}
  {D D' : List Token → Cursor → α → Prop} {D₁ : List Token → Cursor → β → Prop}
  {r r' : Reader} {x : Metered α} {f : α → Metered β} {l : Nat}

theorem Opened.mono {k : Nat} (h : Opened levels k) (hlevels : ∀ k, levels k → levels' k) :
    Opened levels' k := by
  rcases h with h | ⟨hzero, hone⟩
  · exact .inl (hlevels k h)
  · exact .inr ⟨hlevels 0 hzero, hone⟩

theorem Reads.imp (h : Reads low p won lost levels known D r x)
    (hD : ∀ us c a, D us c a → D' us c a) (hlevels : ∀ k, levels k → levels' k)
    (hlow : low → low' := by omega) (hp : p' ≤ p := by omega) (hwon : won ≤ won' := by omega)
    (hlost : lost ≤ lost' := by omega) : Reads low' p' won' lost' levels' known D' r x := by
  unfold Reads at h ⊢
  cases hx : x r with
  | mk result l =>
    rw [hx] at h
    cases result with
    | ok a r' =>
      have hcalls := h.calls
      exact ⟨h.takes, h.kinds, Nat.le_trans hp h.length, by omega, hlevels _ h.level,
        hD _ _ _ h.phrase⟩
    | error e r' =>
      have hcalls := h.calls
      exact ⟨h.takes, h.kinds, by omega, fun he => hlow (h.budget he), h.level.mono hlevels,
        h.shown⟩

theorem Reads.mono (h : Reads low p won lost levels known D r x) (hlow : low → low' := by omega)
    (hp : p' ≤ p := by omega) (hwon : won ≤ won' := by omega) (hlost : lost ≤ lost' := by omega) :
    Reads low' p' won' lost' levels known D r x :=
  h.imp (fun _ _ _ h => h) (fun _ h => h) hlow hp hwon hlost

theorem Reads.relevel (h : Reads low p won lost levels known D r x)
    (hlevels : ∀ k, levels k → levels' k) : Reads low p won lost levels' known D r x :=
  h.imp (fun _ _ _ h => h) hlevels id

theorem reads_pure {a : α} (hlevel : levels r.level) (hD : D [] r.cursor a)
    (hp : p = 0 := by omega) (hwon : 0 ≤ won := by omega) :
    Reads low p won lost levels known D r (pure a) :=
  ⟨rfl, by simp, Nat.le_of_eq hp, by simpa using hwon, hlevel, hD⟩

theorem fails_fail {e : ParseError} (hlevel : Opened levels r.level) (hlow : e = .budget → low)
    (hshown : ∀ x ∈ e.shown, x ∈ known ∨ r.cursor.peek.value = x) (hlost : 0 ≤ lost) :
    Fails low lost levels known r.cursor e r {} := by
  refine ⟨rfl, by simp, by simpa using hlost, hlow, hlevel, fun x hx => ?_⟩
  rcases hshown x hx with hknown | hpeek
  · exact .inl hknown
  · exact .inr ⟨_, List.mem_cons_self, hpeek⟩

theorem reads_fail {e : ParseError} (hlevel : Opened levels r.level) (hlow : e = .budget → low)
    (hshown : ∀ x ∈ e.shown, x ∈ known ∨ r.cursor.peek.value = x := by simp [ParseError.shown])
    (hlost : 0 ≤ lost := by omega) : Reads low p won lost levels known D r (fail e) :=
  fails_fail hlevel hlow hshown hlost

theorem reads_budget (hlevel : levels r.level) (hlow : low) (hlost : 0 ≤ lost := by omega) :
    Reads low p won lost levels known D r (fail .budget) :=
  reads_fail (.inl hlevel) fun _ => hlow

theorem refuses_fail {e : ParseError} (hlevel : Opened levels r.level) (hlow : e = .budget → low)
    (hshown : ∀ x ∈ e.shown, x ∈ known ∨ r.cursor.peek.value = x := by simp [ParseError.shown])
    (hlost : 0 ≤ lost := by omega) :
    Refuses low lost levels known r (fail e : Metered α) :=
  ⟨rfl, fails_fail hlevel hlow hshown hlost⟩

theorem Reads.call (h : Reads low p (won - 1) (lost - 1) levels known D r x) :
    Reads low p won lost levels known D r (call x) := by
  have hcall : MonadTokens.call x r = ((x r).1, ⟨(x r).2.taken, (x r).2.calls + 1⟩) := rfl
  unfold Reads at h ⊢
  rw [hcall]
  cases hx : x r with
  | mk result l =>
    rw [hx] at h
    cases result with
    | ok a r' =>
      have hcalls := h.calls
      exact ⟨h.takes, h.kinds, h.length, by push_cast; omega, h.level, h.phrase⟩
    | error e r' =>
      have hcalls := h.calls
      exact ⟨h.takes, h.kinds, by push_cast; omega, h.budget, h.level, h.shown⟩

theorem Refuses.call (h : Refuses low (lost - 1) levels known r x) :
    Refuses low lost levels known r (call x) := by
  have hcall : MonadTokens.call x r = ((x r).1, ⟨(x r).2.taken, (x r).2.calls + 1⟩) := rfl
  unfold Refuses at h ⊢
  rw [hcall]
  cases hx : x r with
  | mk result l =>
    rw [hx] at h
    cases result with
    | ok a r' => exact h
    | error e r' =>
      obtain ⟨htaken, hfails⟩ := h
      have hcalls := hfails.calls
      exact ⟨htaken, hfails.takes, hfails.kinds, by push_cast; omega, hfails.budget,
        hfails.level, hfails.shown⟩

theorem Refuses.bind (h : Refuses low lost levels known r x) :
    Refuses low lost levels known r (x >>= f) := by
  unfold Refuses at h ⊢
  rw [Metered.bind_apply, Metered.andThen]
  cases hx : x r with
  | mk result l =>
    rw [hx] at h
    cases result with
    | ok a r' => exact h.elim
    | error e r' => exact h

section Append

variable {c : Cursor} {a : α} {b : β} {e : ParseError} {r'' : Reader} {l l' : Ledger}
  {known' : List Label} {us vs : List Token}

theorem shown_append (h : ∀ x ∈ e.shown, x ∈ known' ∨ ∃ t ∈ c.peek :: vs, t.value = x)
    (hknown : ∀ x ∈ known', x ∈ known ∨ ∃ t ∈ us, t.value = x) :
    ∀ x ∈ e.shown, x ∈ known ∨ ∃ t ∈ c.peek :: (us ++ vs), t.value = x := by
  intro x hx
  rcases h x hx with hx | ⟨t, ht, htx⟩
  · refine (hknown x hx).imp_right ?_
    rintro ⟨t, ht, htx⟩
    exact ⟨t, List.mem_cons_of_mem _ (List.mem_append_left _ ht), htx⟩
  · refine .inr ⟨t, ?_, htx⟩
    rcases List.mem_cons.mp ht with rfl | ht
    · exact List.mem_cons_self
    · exact List.mem_cons_of_mem _ (List.mem_append_right _ ht)

theorem Succeeds.append (h : Succeeds p₁ won₁ levels₁ D c a r' l)
    (h' : Succeeds (p - p₁) (won - won₁) levels (fun vs c b => D₁ (l.taken ++ vs) c b) r'.cursor b
      r'' l') : Succeeds p won levels D₁ c b r'' (l.append l') where
  takes := h.takes.append h'.takes
  kinds := by
    intro t ht
    rcases List.mem_append.mp ht with ht | ht
    · exact h.kinds t ht
    · exact h'.kinds t ht
  length := by
    have hlength := h.length
    have hlength' := h'.length
    simp only [Ledger.append, List.length_append]
    omega
  calls := by
    have hcalls := h.calls
    have hcalls' := h'.calls
    simp only [Ledger.append, List.length_append]
    push_cast
    omega
  level := h'.level
  phrase := h'.phrase

theorem Succeeds.append_fails (h : Succeeds p₁ won₁ levels₁ D c a r' l)
    (h' : Fails low (lost - won₁) levels known' r'.cursor e r'' l')
    (hknown : ∀ x ∈ known', x ∈ known ∨ ∃ t ∈ l.taken, t.value = x) :
    Fails low lost levels known c e r'' (l.append l') where
  takes := h.takes.append h'.takes
  kinds := by
    intro t ht
    rcases mem_dropLast_append ht with ht | ht
    · exact h.kinds t ht
    · exact h'.kinds t ht
  calls := by
    have hcalls := h.calls
    have hcalls' := h'.calls
    simp only [Ledger.append, List.length_append]
    push_cast
    omega
  budget := h'.budget
  level := h'.level
  shown := shown_append h'.shown hknown

end Append

/-- What follows a step goes on where this has stopped, with what it has earned. -/
theorem Reads.bind_opened (hx : Reads low₁ p₁ won₁ lost₁ levels₁ known D r x)
    (hf : ∀ us a r', levels₁ r'.level → r'.cursor.live.length + p₁ ≤ r.cursor.live.length →
      D us r'.cursor a → Reads low (p - p₁) (won - won₁) (lost - won₁) levels known
        (fun vs c b => D₁ (us ++ vs) c b) r' (f a))
    (hopened : ∀ k, Opened levels₁ k → Opened levels k) (hlow : low₁ → low := by omega)
    (hlost : lost₁ ≤ lost := by omega) : Reads low p won lost levels known D₁ r (x >>= f) := by
  unfold Reads at hx ⊢
  rw [Metered.bind_apply, Metered.andThen]
  cases hr : x r with
  | mk result l =>
    rw [hr] at hx
    cases result with
    | error e r' =>
      have hcalls := hx.calls
      exact ⟨hx.takes, hx.kinds, by omega, fun h => hlow (hx.budget h), hopened _ hx.level,
        hx.shown⟩
    | ok a r' =>
      have hlength := hx.length
      have hlive := congrArg List.length (hx.takes.live hx.kinds)
      rw [List.length_append] at hlive
      have hrest := hf l.taken a r' hx.level (by omega) hx.phrase
      unfold Reads at hrest
      dsimp only
      cases hr' : f a r' with
      | mk result l' =>
        rw [hr'] at hrest
        cases result with
        | error e r'' => exact hx.append_fails hrest fun _ => .inl
        | ok b r'' => exact hx.append hrest

theorem Reads.bind (hx : Reads low₁ p₁ won₁ lost₁ levels known D r x)
    (hf : ∀ us a r', levels r'.level → r'.cursor.live.length + p₁ ≤ r.cursor.live.length →
      D us r'.cursor a → Reads low (p - p₁) (won - won₁) (lost - won₁) levels known
        (fun vs c b => D₁ (us ++ vs) c b) r' (f a))
    (hlow : low₁ → low := by omega) (hlost : lost₁ ≤ lost := by omega) :
    Reads low p won lost levels known D₁ r (x >>= f) :=
  hx.bind_opened hf (fun _ h => h) hlow hlost

theorem Reads.erase {y : ParseM α} (h : Reads low p won lost levels known D r x)
    (hagrees : x.Agrees y) (hlow : ¬ low) : (x r).1 = y.run r := by
  unfold Reads at h
  rcases hagrees r with ⟨r', hbudget⟩ | hagree
  · cases hx : x r with
    | mk result l =>
      rw [hx] at h hbudget
      subst hbudget
      exact absurd (h.budget rfl) hlow
  · exact hagree

section Steps

variable {f : Token → Metered β} {g : Nat → Metered β} {h : Unit → Metered β}

theorem Reads.silent {y : ParseM α} {a : α} {f : α → Metered β} (hy : y.run r = .ok a r')
    (hcursor : r'.cursor = r.cursor) (hf : Reads low p won lost levels known D₁ r' (f a)) :
    Reads low p won lost levels known D₁ r (Metered.silent y >>= f) := by
  unfold Reads at hf ⊢
  rw [Metered.bind_apply, Metered.andThen, Metered.silent, hy]
  dsimp only
  rw [Ledger.empty_append, ← hcursor]
  exact hf

theorem Reads.peek (hf : Reads low p won lost levels known D₁ r (f r.cursor.peek)) :
    Reads low p won lost levels known D₁ r (MonadTokens.peek >>= f) :=
  .silent rfl rfl hf

theorem Reads.getLevel (hg : Reads low p won lost levels known D₁ r (g r.level)) :
    Reads low p won lost levels known D₁ r (MonadTokens.getLevel >>= g) :=
  .silent rfl rfl hg

theorem Reads.setLevel {k : Nat}
    (hh : ∀ r', r'.level = k → r'.cursor.live.length = r.cursor.live.length →
      Reads low p won lost levels known D₁ r' (h ())) :
    Reads low p won lost levels known D₁ r (MonadTokens.setLevel k >>= h) :=
  .silent (run_setLevel k r) rfl (hh { r with level := k } rfl rfl)

theorem succeeds_next (ht : r.cursor.peek.kind ≠ .eof) :
    Succeeds 1 (-8) (· = r.level) (fun us _ t => us = [t]) r.cursor r.cursor.peek
      { r with cursor := r.cursor.next.2 } ⟨[r.cursor.peek], 0⟩ :=
  ⟨⟨rfl, rfl⟩, by simpa using ht, by simp, by simp, rfl, rfl⟩

/-- One token is taken. Nothing is read behind an `eof`. -/
theorem Reads.next (hl : r.level = l)
    (hne : ∀ t r', t.kind ≠ .eof → r.cursor.peek = t → r'.level = l →
      r'.cursor.live.length + 1 = r.cursor.live.length →
      Reads low (p - 1) (won + 8) (lost + 8) levels (t.value :: known)
        (fun us c b => D₁ (t :: us) c b) r' (f t))
    (heof : ∀ t r', t.kind = .eof → r.cursor.peek = t → r'.level = l →
      Refuses low (lost + 8) levels (t.value :: known) r' (f t)) :
    Reads low p won lost levels known D₁ r (MonadTokens.next >>= f) := by
  obtain ⟨r₁, hr₁⟩ : ∃ r₁, r₁ = { r with cursor := r.cursor.next.2 } := ⟨_, rfl⟩
  have hl₁ : r₁.level = l := by rw [hr₁, hl]
  have hrun : (MonadTokens.next >>= f) r = ((f r.cursor.peek r₁).1,
      Ledger.append ⟨[r.cursor.peek], 0⟩ (f r.cursor.peek r₁).2) := by rw [hr₁]; rfl
  have hknown : ∀ x ∈ r.cursor.peek.value :: known,
      x ∈ known ∨ ∃ t ∈ [r.cursor.peek], t.value = x := by
    intro x hx
    rcases List.mem_cons.mp hx with rfl | hx
    · exact .inr ⟨_, List.mem_cons_self, rfl⟩
    · exact .inl hx
  unfold Reads
  rw [hrun]
  by_cases ht : r.cursor.peek.kind = .eof
  -- An `eof` is the last token that is taken, and the step behind it fails at once.
  · have hrest := heof _ r₁ ht rfl hl₁
    unfold Refuses at hrest
    cases hr : f r.cursor.peek r₁ with
    | mk result l =>
      rw [hr] at hrest
      cases result with
      | ok a r' => exact hrest.elim
      | error e r' =>
        obtain ⟨htaken, hfails⟩ := hrest
        have hcalls := hfails.calls
        have htakes : r.cursor.Takes ([r.cursor.peek] ++ l.taken) r'.cursor :=
          ⟨rfl, by simpa [hr₁] using hfails.takes⟩
        refine ⟨htakes, ?_, ?_, hfails.budget, hfails.level, shown_append hfails.shown hknown⟩
        · simp [Ledger.append, htaken]
        · simp only [Ledger.append, htaken, List.append_nil, List.length_singleton,
            List.length_nil] at hcalls ⊢
          push_cast at hcalls ⊢
          omega
  · have hnext := succeeds_next ht
    have hlive : r₁.cursor.live.length + 1 = r.cursor.live.length := by
      rw [Cursor.live_next ht, hr₁]
      rfl
    have hrest := hne _ r₁ ht rfl hl₁ hlive
    unfold Reads at hrest
    rw [← hr₁] at hnext
    cases hr : f r.cursor.peek r₁ with
    | mk result l =>
      rw [hr] at hrest
      cases result with
      | ok a r' => exact hnext.append hrest
      | error e r' => exact hnext.append_fails hrest hknown

theorem Reads.take (hl : r.level = l) (ht : r.cursor.peek.kind ≠ .eof)
    (hf : ∀ t r', r.cursor.peek = t → r'.level = l →
      r'.cursor.live.length + 1 = r.cursor.live.length →
      Reads low (p - 1) (won + 8) (lost + 8) levels (t.value :: known)
        (fun us c b => D₁ (t :: us) c b) r' (f t)) :
    Reads low p won lost levels known D₁ r (MonadTokens.next >>= f) :=
  .next hl (fun t r' _ hpeek hl' hlive => hf t r' hpeek hl' hlive) fun _ _ heof hpeek _ =>
    absurd (hpeek ▸ heof) ht

/-- A place asks for a token that is no `eof`. If it cannot be put in words, no token is taken. -/
theorem reads_expect {place : Place} (hl : r.level = l) (hplace : place.kind ≠ .eof)
    (hknown : ∀ x ∈ place.shown, x ∈ known) (hlost : -8 ≤ lost)
    (hspoken : place.shown ≠ [] → 0 ≤ lost) :
    Reads False 1 (-8) lost (· = l) known
      (fun us _ _ => ∃ t, us = [t] ∧ t.kind = place.kind ∧ ∀ x ∈ place.shown, x.Writable) r
      (Grammar.expect place) := by
  have hshown : ∀ (t : Token) (c : Cursor), ∀ x ∈ (ParseError.misplaced place t).shown,
      x ∈ t.value :: known ∨ c.peek.value = x := by
    intro t c x hx
    rcases List.mem_append.mp hx with hx | hx
    · exact .inl (List.mem_cons_of_mem _ (hknown x hx))
    · rw [List.mem_singleton.mp hx]
      exact .inl List.mem_cons_self
  by_cases hw : ∀ x ∈ place.shown, x.Writable
  · obtain ⟨s, hs⟩ := Place.context_ok hw
    rw [Grammar.expect, hs]
    refine .next hl (fun t r' ht _ h₁ _ => ?_) fun t r' ht _ h₁ => ?_
    · split
      next hk => exact reads_pure h₁ ⟨t, rfl, hk, hw⟩
      next => exact reads_fail (.inl h₁) (by simp) (hshown t r'.cursor)
    · rw [if_neg (by rw [ht]; exact Ne.symm hplace)]
      exact refuses_fail (.inl h₁) (by simp) (hshown t r'.cursor)
  · obtain ⟨y, hy⟩ := Classical.not_forall.mp hw
    obtain ⟨hy, hyw⟩ := Classical.not_imp.mp hy
    rw [Grammar.expect, Place.context_error ⟨y, hy, hyw⟩]
    refine reads_fail (.inl hl) (by simp) (fun x hx => .inl (hknown x hx)) (hspoken ?_)
    exact List.ne_nil_of_mem hy

theorem Reads.expect {place : Place} (hl : r.level = l)
    (hh : ∀ t r', t.kind = place.kind → (∀ x ∈ place.shown, x.Writable) → r'.level = l →
      r'.cursor.live.length + 1 ≤ r.cursor.live.length →
      Reads low (p - 1) (won + 8) (lost + 8) levels known (fun us c b => D₁ (t :: us) c b) r'
        (h ()))
    (hopened : ∀ k, Opened (· = l) k → Opened levels k := by exact fun _ h => h)
    (hplace : place.kind ≠ .eof := by simp [Place.kind])
    (hknown : ∀ x ∈ place.shown, x ∈ known := by simp [Place.shown])
    (hlost : -8 ≤ lost := by omega)
    (hspoken : place.shown ≠ [] → 0 ≤ lost := by simp [Place.shown] <;> omega) :
    Reads low p won lost levels known D₁ r (Grammar.expect place >>= h) := by
  refine (reads_expect hl hplace hknown hlost hspoken).bind_opened ?_ hopened False.elim
  rintro us a r' hl' hlive ⟨t, rfl, ht, hw⟩
  exact (hh t r' ht hw hl' hlive).mono id

end Steps

end Outcomes

section Expressions

-- Between one token and the next at most four readers are nested, so a budget of four for each
-- token is never spent.
mutual

theorem factor_reads : (n : Nat) → {r : Reader} → {l : Nat} → {known : List Label} → r.level = l →
    Reads (n < 4 * r.cursor.live.length + 1) 1 (-7) 0 (· = l) known
      (fun us _ e => Factor us e.toTree) r (factor n)
  | 0, r, l, known, hl => reads_budget hl (by omega)
  | n + 1, r, l, known, hl => by
    rw [factor]
    refine .call (.next hl (fun t r₁ ht _ h₁ l₁ => ?_) fun t r₁ ht _ h₁ => ?_)
    · cases hk : t.kind with
      | number => exact reads_pure h₁ (.number hk)
      | identifier =>
        refine .peek ?_
        split
        next ho =>
          refine .take h₁ (by simp [ho]) fun o r₂ hpeek h₂ l₂ => ?_
          rw [hpeek] at ho
          refine (arguments_reads n h₂ t.value (by simp)).bind ?_
          rintro us args r₃ h₃ l₃ ⟨ws, c, rfl, hargs, hw, hc⟩
          refine reads_pure h₃ ?_
          rw [List.append_nil, Expr.toTree]
          exact .call hk ho hargs hw hc
        next => exact reads_pure h₁ (.name hk)
      | lparen =>
        refine (expression_reads n h₁).bind fun us e r₂ h₂ l₂ hus => ?_
        refine .expect h₂ fun c r₃ hc _ h₃ l₃ => ?_
        exact reads_pure h₃ (.group hk hus hc)
      | _ => exact reads_fail (.inl h₁) (by simp)
    · rw [ht]
      exact refuses_fail (.inl h₁) (by simp)

/-- The closing parenthesis belongs to what is read here. -/
theorem arguments_reads : (n : Nat) → {r : Reader} → {l : Nat} → {known : List Label} →
    r.level = l → (callee : Label) → callee ∈ known →
    Reads (n < 4 * r.cursor.live.length + 4) 1 (-7) 3 (· = l) known
      (fun us _ es => ∃ ws c, us = ws ++ [c] ∧ Arguments ws (Expr.toTrees es) ∧
        (Expr.toTrees es ≠ [] → callee.Writable) ∧ c.kind = .rparen) r (arguments n callee)
  | 0, r, l, known, hl, callee, _ => reads_budget hl (by omega)
  | n + 1, r, l, known, hl, callee, hcallee => by
    rw [arguments]
    refine .call (.peek ?_)
    split
    next hc =>
      refine .take hl (by simp [hc]) fun c r₁ hpeek h₁ l₁ => ?_
      rw [hpeek] at hc
      exact reads_pure h₁ ⟨[], c, rfl, .none, absurd rfl, hc⟩
    next =>
      refine (expression_reads n hl).bind fun us e r₁ h₁ l₁ hus => ?_
      refine (argumentsRest_reads n h₁).bind fun vs es r₂ h₂ l₂ hvs => ?_
      refine .expect h₂ (fun c r₃ hc hw h₃ l₃ => ?_) (fun _ h => h) (by simp [Place.kind])
        (by simpa [Place.shown] using hcallee)
      refine reads_pure h₃ ⟨us ++ vs, c, by simp, .some hus hvs, fun _ => ?_, hc⟩
      exact hw callee (by simp [Place.shown])

theorem argumentsRest_reads : (n : Nat) → {r : Reader} → {l : Nat} → {known : List Label} →
    r.level = l → Reads (n < 4 * r.cursor.live.length + 1) 0 1 0 (· = l) known
      (fun us _ es => MoreArguments us (Expr.toTrees es)) r (argumentsRest n)
  | 0, r, l, known, hl => reads_budget hl (by omega)
  | n + 1, r, l, known, hl => by
    rw [argumentsRest]
    refine .call (.peek ?_)
    split
    next hc =>
      refine .take hl (by simp [hc]) fun c r₁ hpeek h₁ l₁ => ?_
      rw [hpeek] at hc
      refine (expression_reads n h₁).bind fun us e r₂ h₂ l₂ hus => ?_
      refine (argumentsRest_reads n h₂).bind fun vs es r₃ h₃ l₃ hvs => ?_
      refine reads_pure h₃ ?_
      rw [List.append_nil]
      exact .some hc hus hvs
    next => exact reads_pure hl .none

theorem term_reads : (n : Nat) → {r : Reader} → {l : Nat} → {known : List Label} → r.level = l →
    Reads (n < 4 * r.cursor.live.length + 2) 1 (-5) 1 (· = l) known
      (fun us _ e => Term us e.toTree) r (term n)
  | 0, r, l, known, hl => reads_budget hl (by omega)
  | n + 1, r, l, known, hl => by
    rw [term]
    refine .call ((factor_reads n hl).bind fun us e r₁ h₁ l₁ hus => ?_)
    exact (termRest_reads n h₁ e).imp (fun _ _ _ h => h us (.factor hus)) fun _ h => h

theorem termRest_reads : (n : Nat) → {r : Reader} → {l : Nat} → {known : List Label} →
    r.level = l → (left : Expr) → Reads (n < 4 * r.cursor.live.length + 1) 0 1 0 (· = l) known
      (fun us _ e => ∀ vs, Term vs left.toTree → Term (vs ++ us) e.toTree) r (termRest n left)
  | 0, r, l, known, hl, _ => reads_budget hl (by omega)
  | n + 1, r, l, known, hl, left => by
    rw [termRest]
    refine .call (.peek ?_)
    cases hop : productOperator? r.cursor.peek.kind with
    | some op =>
      refine .take hl (by rintro h; rw [h] at hop; cases hop) fun t r₁ hpeek h₁ l₁ => ?_
      rw [hpeek] at hop
      have hsign := productOperator?_eq_some.mp hop
      refine (factor_reads n h₁).bind fun us e r₂ h₂ l₂ hus => ?_
      refine (termRest_reads n h₂ _).imp (fun ws c x hx vs hvs => ?_) fun _ h => h
      simpa using hx _ (.product hvs hsign hus)
    | none => exact reads_pure hl fun vs hvs => by simpa using hvs

theorem expression_reads : (n : Nat) → {r : Reader} → {l : Nat} → {known : List Label} →
    r.level = l → Reads (n < 4 * r.cursor.live.length + 3) 1 (-3) 2 (· = l) known
      (fun us _ e => Expression us e.toTree) r (expression n)
  | 0, r, l, known, hl => reads_budget hl (by omega)
  | n + 1, r, l, known, hl => by
    rw [expression]
    refine .call ((term_reads n hl).bind fun us e r₁ h₁ l₁ hus => ?_)
    exact (expressionRest_reads n h₁ e).imp (fun _ _ _ h => h us (.term hus)) fun _ h => h

theorem expressionRest_reads : (n : Nat) → {r : Reader} → {l : Nat} → {known : List Label} →
    r.level = l → (left : Expr) → Reads (n < 4 * r.cursor.live.length + 1) 0 1 0 (· = l) known
      (fun us _ e => ∀ vs, Additive vs left.toTree → Expression (vs ++ us) e.toTree) r
      (expressionRest n left)
  | 0, r, l, known, hl, _ => reads_budget hl (by omega)
  | n + 1, r, l, known, hl, left => by
    rw [expressionRest]
    refine .call (.peek ?_)
    dsimp only
    cases hop : comparison? r.cursor.peek.kind with
    | some op =>
      refine .take hl (by rintro h; rw [h] at hop; cases hop) fun t r₁ hpeek h₁ l₁ => ?_
      rw [hpeek] at hop
      have hsign := comparison?_eq_some.mp hop
      refine (expression_reads n h₁).bind fun us e r₂ h₂ l₂ hus => ?_
      exact reads_pure h₂ fun vs hvs => by simpa using .comparison hvs hsign hus
    | none =>
      cases hsum : sumOperator? r.cursor.peek.kind with
      | some op =>
        refine .take hl (by rintro h; rw [h] at hsum; cases hsum) fun t r₁ hpeek h₁ l₁ => ?_
        rw [hpeek] at hsum
        have hsign := sumOperator?_eq_some.mp hsum
        refine (term_reads n h₁).bind fun us e r₂ h₂ l₂ hus => ?_
        refine (expressionRest_reads n h₂ _).imp (fun ws c x hx vs hvs => ?_) fun _ h => h
        simpa using hx _ (.sum hvs hsign hus)
      | none => exact reads_pure hl fun vs hvs => by simpa using .additive hvs

end

end Expressions

section Statements

variable {r : Reader} {l : Nat} {known : List Label}

theorem assignmentExpression_reads (n : Nat) (hl : r.level = l) :
    Reads (n < 4 * r.cursor.live.length) 1 (-7) 0 (· = l) known
      (fun us _ s => ∃ x sign ws e, us = x :: sign :: ws ∧ x.kind = .identifier ∧
        x.value.Writable ∧ sign.kind = .assign ∧ Expression ws e.toTree ∧ s = .assign x.value e) r
      (assignmentExpression n) := by
  refine .call (.next hl (fun x r₁ hne _ h₁ l₁ => ?_) fun x r₁ he _ h₁ => ?_)
  · split
    next hx =>
      refine .expect h₁ fun sign r₂ hsign hw h₂ l₂ => ?_
      refine (expression_reads n h₂).bind fun ws e r₃ h₃ l₃ hws => ?_
      refine reads_pure h₃ ⟨x, sign, ws, e, by simp, hx, ?_, hsign, hws, rfl⟩
      exact hw x.value (by simp [Place.shown])
    next => exact reads_fail (.inl h₁) (by simp)
  · rw [if_neg (by simp [he])]
    exact refuses_fail (.inl h₁) (by simp)

theorem assignment_reads (n : Nat) (hl : r.level = l) :
    Reads (n < 4 * r.cursor.live.length) 1 (-7) 1 (· = l) known
      (fun us _ s => Assignment us s.toTree ∧ s.Element ∧ s.Plain) r (assignment n) := by
  refine .call (.peek ?_)
  split
  next hsemi =>
    refine .take hl (by simp [hsemi]) fun semi r₁ hpeek h₁ l₁ => ?_
    rw [hpeek] at hsemi
    exact reads_pure h₁ ⟨.empty hsemi, trivial, trivial⟩
  next =>
    refine (assignmentExpression_reads n hl).bind ?_
    rintro us s r₁ h₁ l₁ ⟨x, sign, ws, e, rfl, hx, hw, hsign, hws, rfl⟩
    refine .expect h₁ fun semi r₂ hsemi _ h₂ l₂ => ?_
    exact reads_pure h₂ ⟨.assign hx hw hsign hws hsemi, trivial, trivial⟩

theorem condition_reads (n : Nat) {keyword : Token.Kind} (hkeyword : keyword ≠ .eof)
    (hl : r.level = l) :
    Reads (n < 4 * r.cursor.live.length) 1 (-7) 0 (· = l) known
      (fun us _ e => Condition keyword us e.toTree) r (condition n keyword) := by
  refine .call (.expect hl (fun word r₁ hword _ h₁ l₁ => ?_) (fun _ h => h) hkeyword)
  refine .expect h₁ fun opening r₂ ho _ h₂ l₂ => ?_
  refine (expression_reads n h₂).bind fun us e r₃ h₃ l₃ hus => ?_
  refine .expect h₃ fun closing r₄ hc _ h₄ l₄ => ?_
  exact reads_pure h₄ (.intro hword ho hus hc)

/-- Outside all functions nothing is read. -/
theorem returnStatement_reads (n : Nat) (hl : r.level = l) :
    Reads (n < 4 * r.cursor.live.length) 1 (-7) 1 (· = l) known
      (fun us _ s => 0 < l ∧ ∃ word ws e semi, us = word :: (ws ++ [semi]) ∧
        word.kind = .returnWord ∧ Expression ws e.toTree ∧ semi.kind = .semi ∧ s = .ret e) r
      (returnStatement n) := by
  refine .call (.getLevel ?_)
  split
  next => exact reads_fail (.inl hl) (by simp)
  next hlevel =>
    have hpos : 0 < l := by omega
    refine .expect hl fun word r₁ hword _ h₁ l₁ => ?_
    refine (expression_reads n h₁).bind fun ws e r₂ h₂ l₂ hws => ?_
    refine .expect h₂ fun semi r₃ hsemi _ h₃ l₃ => ?_
    exact reads_pure h₃ ⟨hpos, word, ws, e, semi, by simp, hword, hws, hsemi, rfl⟩

theorem parametersFrom_refuses {n : Nat} {lost : Int} {low : Prop} {f : Label} {t : Token}
    (hl : r.level = l) (ht : t.kind = .eof) (hf : f ∈ known) (hknown : t.value ∈ known)
    (hlow : n = 0 → low) (hlost : 1 ≤ lost) :
    Refuses low lost (· = l) known r (parametersFrom n f t) := by
  cases n with
  | zero => exact refuses_fail (.inl hl) fun _ => hlow rfl
  | succ n =>
    rw [parametersFrom, if_neg (by simp [ht])]
    exact .call (refuses_fail (.inl hl) (by simp) (by simp [ParseError.shown, hf, hknown]))

/-- The token `t` has been taken before. -/
theorem parametersFrom_reads : (n : Nat) → {r : Reader} → {l : Nat} → {known : List Label} →
    r.level = l → {f : Label} → {t : Token} → f ∈ known → t.value ∈ known →
    Reads (n < 4 * r.cursor.live.length + 1) 1 (-7) 1 (· = l) known
      (fun us _ xs => t.kind = .identifier ∧ ∃ ws c ys, us = ws ++ [c] ∧ c.kind = .rparen ∧
        xs = t.value :: ys ∧ MoreParameters ws ys) r (parametersFrom n f t)
  | 0, r, l, known, hl, f, t, _, _ => reads_budget hl (by omega)
  | n + 1, r, l, known, hl, f, t, hf, ht => by
    rw [parametersFrom]
    refine .call ?_
    split
    next hx =>
      refine .next hl (fun u r₁ hne _ h₁ l₁ => ?_) fun u r₁ he _ h₁ => ?_
      · cases hu : u.kind with
        | rparen => exact reads_pure h₁ ⟨hx, [], u, [], rfl, hu, rfl, .none⟩
        | comma =>
          refine .next h₁ (fun v r₂ hne' _ h₂ l₂ => ?_) fun v r₂ he _ h₂ => ?_
          · refine (parametersFrom_reads n h₂ (f := f) (by simp [hf]) (by simp)).bind ?_
            rintro us xs r₃ h₃ l₃ ⟨hv, ws, c, ys, rfl, hc, rfl, hys⟩
            exact reads_pure h₃ ⟨hx, u :: v :: ws, c, v.value :: ys, by simp, hc, rfl,
              .some hu hv hys⟩
          · exact .bind (parametersFrom_refuses h₂ he (by simp [hf]) (by simp) (by omega)
              (by omega))
        | _ => exact reads_fail (.inl h₁) (by simp) (by simp [ParseError.shown, hf])
      · rw [he]
        exact refuses_fail (.inl h₁) (by simp) (by simp [ParseError.shown, hf])
    next => exact reads_fail (.inl hl) (by simp) (by simp [ParseError.shown, hf, ht])

theorem parameters_reads (n : Nat) {f : Label} (hl : r.level = l) (hf : f ∈ known) :
    Reads (n < 4 * r.cursor.live.length + 1) 1 (-7) 0 (· = l) known
      (fun us _ xs => ∃ ws c, us = ws ++ [c] ∧ Parameters ws xs ∧ c.kind = .rparen) r
      (parameters n f) := by
  refine .call (.next hl (fun t r₁ hne _ h₁ l₁ => ?_) fun t r₁ he _ h₁ => ?_)
  · split
    next hc => exact reads_pure h₁ ⟨[], t, rfl, .none, hc⟩
    next =>
      refine (parametersFrom_reads n h₁ (f := f) (by simp [hf]) (by simp)).imp ?_ fun _ h => h
      rintro us c xs ⟨hx, ws, closing, ys, rfl, hc, rfl, hys⟩
      exact ⟨t :: ws, closing, rfl, .some hx hys, hc⟩
  · rw [if_neg (by simp [he])]
    exact parametersFrom_refuses h₁ he (by simp [hf]) (by simp) (by omega) (by omega)

/-- A statement whose end is open has no `else` behind it. -/
def Read (us : List Token) (c : Cursor) (s : Stmt) : Prop :=
  Statement us s.toTree ∧ s.Plain ∧ (EndsOpen s.toTree → c.peek.kind ≠ .elseWord)

mutual

/-- Inside a function a statement is read. Outside, it may be a declaration. -/
theorem statement_reads : (n : Nat) → {r : Reader} → {l : Nat} → {known : List Label} →
    r.level = l → Reads (n < 4 * r.cursor.live.length + 2) 1 (-6) 2 (· = l) known
      (fun us c s => 0 < l → Read us c s) r (statement n)
  | 0, r, l, known, hl => reads_budget hl (by omega)
  | n + 1, r, l, known, hl => by
    have hassignment : ∀ us (c : Cursor) (s : Stmt),
        Assignment us s.toTree ∧ s.Element ∧ s.Plain → 0 < l → Read us c s := by
      rintro us c s ⟨hus, -, hs⟩ -
      refine ⟨.assignment hus, hs, fun h => ?_⟩
      generalize s.toTree = e at hus h
      cases hus <;> cases h
    rw [statement]
    refine .call (.peek ?_)
    cases r.cursor.peek.kind with
    | lbrace =>
      refine (block_reads n hl).bind fun us ss r₁ h₁ l₁ hus => ?_
      refine reads_pure h₁ fun hpos => ?_
      obtain ⟨hblock, hss⟩ := hus hpos
      rw [List.append_nil]
      exact ⟨.block hblock, hss, by rintro ⟨⟩⟩
    | whileWord => exact (whileStatement_reads n hl).mono
    | ifWord => exact (ifStatement_reads n hl).mono
    | identifier | semi => exact (assignment_reads n hl).imp hassignment fun _ h => h
    | functionWord =>
      refine (functionDeclaration_reads n hl).imp ?_ fun _ h => h
      rintro us c s ⟨hzero, -⟩ hpos
      omega
    | returnWord =>
      refine (returnStatement_reads n hl).imp ?_ fun _ h => h
      rintro us c s ⟨-, word, ws, e, semi, rfl, hword, hws, hsemi, rfl⟩ -
      exact ⟨.ret hword hws hsemi, trivial, by rintro ⟨⟩⟩
    | _ => exact reads_fail (.inl hl) (by simp)

theorem block_reads : (n : Nat) → {r : Reader} → {l : Nat} → {known : List Label} → r.level = l →
    Reads (n < 4 * r.cursor.live.length + 1) 1 (-7) 0 (· = l) known
      (fun us _ ss => 0 < l → Block us (Stmt.block ss).toTree ∧ Stmt.PlainAll ss) r (block n)
  | 0, r, l, known, hl => reads_budget hl (by omega)
  | n + 1, r, l, known, hl => by
    rw [block]
    refine .call (.expect hl fun opening r₁ ho _ h₁ l₁ => ?_)
    refine (statement_reads n h₁).bind fun us s r₂ h₂ l₂ hus => ?_
    refine (statements_reads n h₂).bind fun vs ss r₃ h₃ l₃ hvs => ?_
    refine .expect h₃ fun closing r₄ hc _ h₄ l₄ => reads_pure h₄ fun hpos => ?_
    obtain ⟨hs, hplain, -⟩ := hus hpos
    obtain ⟨hss, hplains⟩ := hvs hpos
    exact ⟨.intro ho hs hss hc, hplain, hplains⟩

theorem statements_reads : (n : Nat) → {r : Reader} → {l : Nat} → {known : List Label} →
    r.level = l → Reads (n < 4 * r.cursor.live.length + 3) 0 1 3 (· = l) known
      (fun us _ ss => 0 < l → Statements us (Stmt.toTrees ss) ∧ Stmt.PlainAll ss) r (statements n)
  | 0, r, l, known, hl => reads_budget hl (by omega)
  | n + 1, r, l, known, hl => by
    rw [statements]
    refine .call (.peek ?_)
    split
    next =>
      refine (statement_reads n hl).bind fun us s r₁ h₁ l₁ hus => ?_
      refine (statements_reads n h₁).bind fun vs ss r₂ h₂ l₂ hvs => ?_
      refine reads_pure h₂ fun hpos => ?_
      obtain ⟨hs, hplain, -⟩ := hus hpos
      obtain ⟨hss, hplains⟩ := hvs hpos
      rw [List.append_nil]
      exact ⟨.cons hs hss, hplain, hplains⟩
    next => exact reads_pure hl fun _ => ⟨.nil, trivial⟩

theorem ifStatement_reads : (n : Nat) → {r : Reader} → {l : Nat} → {known : List Label} →
    r.level = l → Reads (n < 4 * r.cursor.live.length + 1) 1 (-7) 1 (· = l) known
      (fun us c s => 0 < l → Read us c s) r (ifStatement n)
  | 0, r, l, known, hl => reads_budget hl (by omega)
  | n + 1, r, l, known, hl => by
    rw [ifStatement]
    refine .call ((condition_reads n (by simp) hl).bind fun us b r₁ h₁ l₁ hus => ?_)
    refine (statement_reads n h₁).bind fun vs s r₂ h₂ l₂ hvs => ?_
    refine .peek ?_
    split
    next hword =>
      refine .take h₂ (by simp [hword]) fun word r₃ hpeek h₃ l₃ => ?_
      refine (statement_reads n h₃).bind fun ws e r₄ h₄ l₄ hws => ?_
      refine reads_pure h₄ fun hpos => ?_
      obtain ⟨hs, hplain, hopen⟩ := hvs hpos
      obtain ⟨he, hplain', hopen'⟩ := hws hpos
      rw [List.append_nil]
      refine ⟨.ifElse hus hs (fun h => hopen h hword) (hpeek ▸ hword) he, ⟨hplain, hplain'⟩, ?_⟩
      exact fun h => hopen' h.elseBranch
    next hword =>
      refine reads_pure h₂ fun hpos => ?_
      obtain ⟨hs, hplain, -⟩ := hvs hpos
      rw [List.append_nil]
      exact ⟨.ifThen hus hs, hplain, fun _ => hword⟩

theorem whileStatement_reads : (n : Nat) → {r : Reader} → {l : Nat} → {known : List Label} →
    r.level = l → Reads (n < 4 * r.cursor.live.length + 1) 1 (-7) 1 (· = l) known
      (fun us c s => 0 < l → Read us c s) r (whileStatement n)
  | 0, r, l, known, hl => reads_budget hl (by omega)
  | n + 1, r, l, known, hl => by
    rw [whileStatement]
    refine .call ((condition_reads n (by simp) hl).bind fun us b r₁ h₁ l₁ hus => ?_)
    refine (statement_reads n h₁).bind fun vs s r₂ h₂ l₂ hvs => ?_
    refine reads_pure h₂ fun hpos => ?_
    obtain ⟨hs, hplain, hopen⟩ := hvs hpos
    rw [List.append_nil]
    exact ⟨.loop hus hs, hplain, fun h => hopen h.body⟩

-- Behind the level that is set first, every failure is one in an open declaration.
theorem functionDeclaration_reads : (n : Nat) → {r : Reader} → {l : Nat} → {known : List Label} →
    r.level = l → Reads (n < 4 * r.cursor.live.length + 1) 1 (-7) 1 (· = l) known
      (fun us _ s => l = 0 ∧ Declaration us s.toTree ∧ s.Element) r (functionDeclaration n)
  | 0, r, l, known, hl => reads_budget hl (by omega)
  | n + 1, r, l, known, hl => by
    rw [functionDeclaration]
    refine .call (.getLevel ?_)
    split
    next => exact reads_fail (.inl hl) (by simp)
    next hlevel =>
      have hzero : r.level = 0 := by omega
      obtain rfl : l = 0 := hl.symm.trans hzero
      have hopened : ∀ k, Opened (· = 1) k → Opened (· = 0) k := by
        rintro k (h | ⟨h, -⟩)
        · exact .inr ⟨rfl, h⟩
        · cases h
      rw [hzero]
      refine .setLevel fun r₁ h₁ l₁ => ?_
      refine .expect h₁ (fun word r₂ hword _ h₂ l₂ => ?_) hopened
      refine .next h₂ (fun f r₃ hne _ h₃ l₃ => ?_) fun f r₃ he _ h₃ => ?_
      · split
        next hf =>
          refine .expect h₃ (fun opening r₄ ho hw h₄ l₄ => ?_) hopened
          refine (parameters_reads n (f := f.value) h₄ (by simp)).bind_opened ?_ hopened
          rintro us params r₅ h₅ l₅ ⟨us, closing, rfl, hus, hc⟩
          refine (block_reads n h₅).bind_opened (fun vs body r₆ h₆ l₆ hvs => ?_) hopened
          obtain ⟨hblock, hplain⟩ := hvs Nat.one_pos
          refine .getLevel (.setLevel fun r₇ h₇ _ => ?_)
          have hclosed : r₇.level = 0 := by rw [h₇, h₆]
          refine reads_pure hclosed ⟨rfl, ?_, hplain⟩
          rw [List.append_nil, List.append_assoc, List.singleton_append]
          exact .intro hword hf (hw f.value (by simp [Place.shown])) ho hus hc hblock
        next => exact reads_fail (.inr ⟨rfl, h₃⟩) (by simp)
      · rw [if_neg (by simp [he])]
        exact refuses_fail (.inr ⟨rfl, h₃⟩) (by simp)

end

/-- A program is read up to an `eof`. Its declarations are read outside all others. -/
theorem elements_reads : (n : Nat) → {r : Reader} → {l : Nat} → {known : List Label} →
    r.level = l ∨ r.level = 0 →
    Reads (n < 4 * r.cursor.live.length + 2) 0 1 2 (fun k => k = l ∨ k = 0) known
      (fun us c p => Elements us (Stmt.toTrees p) ∧ (∀ s ∈ p, s.Element) ∧ c.peek.kind = .eof) r
      (elements n)
  | 0, r, l, known, hl => reads_budget hl (by omega)
  | n + 1, r, l, known, hl => by
    rw [elements]
    refine .call (.peek ?_)
    cases heof : r.cursor.peek.kind with
    | eof => exact reads_pure hl ⟨.nil, by simp, heof⟩
    | identifier | semi =>
      refine ((assignment_reads n rfl).relevel fun _ h => h ▸ hl).bind ?_
      rintro us s r₁ h₁ l₁ ⟨hus, hs, -⟩
      refine (elements_reads n h₁).bind ?_
      rintro vs p r₂ h₂ l₂ ⟨hvs, hp, hend⟩
      refine reads_pure h₂ ?_
      rw [List.append_nil]
      exact ⟨.assignment hus hvs, List.forall_mem_cons.mpr ⟨hs, hp⟩, hend⟩
    | functionWord =>
      refine .setLevel fun r₁ h₁ l₁ => ?_
      refine ((functionDeclaration_reads n h₁).relevel fun _ h => .inr h).bind ?_
      rintro us s r₂ h₂ l₂ ⟨-, hus, hs⟩
      refine (elements_reads n h₂).bind ?_
      rintro vs p r₃ h₃ l₃ ⟨hvs, hp, hend⟩
      refine reads_pure h₃ ?_
      rw [List.append_nil]
      exact ⟨.declaration hus hvs, List.forall_mem_cons.mpr ⟨hs, hp⟩, hend⟩
    | _ => exact reads_fail (.inl hl) (by simp)

end Statements

theorem elements_cases (r : Reader) :
    (∃ p r', (sufficiently elements : ParseM Program).run r = .ok p r' ∧
      Elements r.cursor.live (Stmt.toTrees p) ∧ ∀ s ∈ p, s.Element) ∨
    ∃ e r', (sufficiently elements : ParseM Program).run r = .error e r' ∧ e ≠ .budget ∧
      ∀ x ∈ e.shown, ∃ t ∈ r.cursor.sources, t.value = x := by
  have hreads := @elements_reads r.budget r r.level [] (.inl rfl)
  have hlow : ¬ r.budget < 4 * r.cursor.live.length + 2 := by
    have hbudget := r.length_live_le_budget
    omega
  have hrun := hreads.erase (Coupling.related_elements Metered.erasure_levelled r.budget
    (Nat.le_refl r.budget)) hlow
  rw [run_sufficiently, ← hrun]
  unfold Reads at hreads
  cases hr : (elements r.budget : Metered Program) r with
  | mk result l =>
    rw [hr] at hreads
    cases result with
    | ok p r' =>
      obtain ⟨helements, hp, hend⟩ := hreads.phrase
      have hlive : r.cursor.live = l.taken := by
        rw [hreads.takes.live hreads.kinds, Cursor.live_eq_nil hend, List.append_nil]
      rw [← hlive] at helements
      exact .inl ⟨p, r', rfl, helements, hp⟩
    | error e r' =>
      refine .inr ⟨e, r', rfl, fun he => hlow (hreads.budget he), fun x hx => ?_⟩
      rcases hreads.shown x hx with hknown | ⟨t, ht, htx⟩
      · cases hknown
      · exact ⟨t, hreads.takes.mem_sources ht, htx⟩

end Grammar

/-- The tokens in front of the first `eof` are read as a program, or there is an error that is not a
lack of budget and that shows labels of tokens only. -/
theorem parseProgram_cases (ts : List Token) :
    (∃ p, parseProgram ts = .ok p ∧
      Grammar.Elements (ts.takeWhile (·.kind ≠ .eof)) (Stmt.toTrees p) ∧ ∀ s ∈ p, s.Element) ∨
    ∃ e, parseProgram ts = .error e ∧ e ≠ .budget ∧
      ∀ x ∈ e.shown, ∃ t ∈ Cursor.terminalOf ts :: ts, t.value = x := by
  unfold parseProgram
  rcases Grammar.elements_cases (Reader.ofTokens ts) with ⟨p, r', hrun, hp⟩ | ⟨e, r', hrun, he⟩
  · rw [hrun]
    exact .inl ⟨p, rfl, hp⟩
  · rw [hrun]
    exact .inr ⟨e, rfl, he⟩

theorem parseProgram_element {ts : List Token} {p : Program} (h : parseProgram ts = .ok p) :
    ∀ s ∈ p, s.Element := by
  rcases parseProgram_cases ts with ⟨q, hq, -, helement⟩ | ⟨e, he, -⟩
  · rw [h] at hq
    cases hq
    exact helement
  · rw [h] at he
    cases he

end StackLang
