import StackLang.Proofs.Reading

namespace StackLang

namespace Grammar

namespace Nonterminal

/-- How a phrase in front of `c` ends, with the tokens that were taken for it. -/
def Finishes (E : Nonterminal) (c : Cursor) (taken : List Token) :
    EStateM.Result ParseError Reader Tree → Prop
  | .ok _ r => c.Takes taken r.cursor ∧ (∀ t ∈ taken, t.kind ≠ .eof) ∧
      if E = .toplevel then r.cursor.peek.kind = .eof else taken ≠ []
  | .error e r => c.Takes taken r.cursor ∧ (∀ t ∈ taken.dropLast, t.kind ≠ .eof) ∧ e ≠ .budget

/-- A phrase leaves the level as it was, but a whole program may leave it at zero. -/
def Levels (E : Nonterminal) (l k : Nat) : Prop :=
  k = l ∨ E = .toplevel ∧ k = 0

/-- What a whole program leaves is an `eof`, and any other phrase has tokens. -/
def Ends (E : Nonterminal) (taken : List Token) (c : Cursor) (_ : Tree) : Prop :=
  if E = .toplevel then c.peek.kind = .eof else taken ≠ []

variable {E : Nonterminal} {n l : Nat} {r : Reader}

section Phrases

variable {α : Type} {low low' : Prop} {won lost : Int} {D : List Token → Cursor → α → Prop}
  {x : Metered α}

theorem reads_phrase (hE : E ≠ .toplevel) (h : Reads low 1 won lost (· = l) [] D r x)
    (g : α → Tree) (hlow : low → low' := by omega) (hwon : won ≤ 1 := by omega)
    (hlost : lost ≤ 3 := by omega) :
    Reads low' 0 1 3 (E.Levels l) [] E.Ends r (do return g (← x)) := by
  have htokens : Reads low 1 won lost (E.Levels l) [] (fun us _ _ => us ≠ []) r x := by
    unfold Reads at h ⊢
    cases hx : x r with
    | mk result ledger =>
      rw [hx] at h
      cases result with
      | ok a r' =>
        exact ⟨h.takes, h.kinds, h.length, h.calls, .inl h.level,
          List.ne_nil_of_length_pos h.length⟩
      | error e r' =>
        exact ⟨h.takes, h.kinds, h.calls, h.budget, h.level.mono fun _ => .inl, h.shown⟩
  refine htokens.bind fun us a r' hlevel hlive hus => reads_pure hlevel ?_
  rw [List.append_nil, Ends, if_neg hE]
  exact hus

end Phrases

theorem reads_metered (E : Nonterminal) (n : Nat) (hl : r.level = l) :
    Reads (n < 4 * r.cursor.live.length + 4) 0 1 3 (E.Levels l) [] E.Ends r (E.metered n) := by
  cases E with
  | factor => exact reads_phrase (by simp) (factor_reads n hl) _
  | term => exact reads_phrase (by simp) (term_reads n hl) _
  | expression => exact reads_phrase (by simp) (expression_reads n hl) _
  | assignmentExpression => exact reads_phrase (by simp) (assignmentExpression_reads n hl) _
  | assignment => exact reads_phrase (by simp) (assignment_reads n hl) _
  | ifStatement => exact reads_phrase (by simp) (ifStatement_reads n hl) _
  | whileStatement => exact reads_phrase (by simp) (whileStatement_reads n hl) _
  | functionDeclaration => exact reads_phrase (by simp) (functionDeclaration_reads n hl) _
  | returnStatement => exact reads_phrase (by simp) (returnStatement_reads n hl) _
  | block => exact reads_phrase (by simp) (block_reads n hl) _
  | statement => exact reads_phrase (by simp) (statement_reads n hl) _
  | toplevel =>
    have hlevels : ∀ k, k = l ∨ k = 0 → Nonterminal.toplevel.Levels l k :=
      fun k h => h.imp id fun hzero => ⟨rfl, hzero⟩
    refine ((elements_reads n (.inl hl)).relevel hlevels).bind
      fun us p r' hlevel hlive hend => reads_pure hlevel ?_
    rw [Ends, if_pos rfl]
    exact hend.2.2

/-- A budget beyond the tokens in front of the first `eof` suffices, and then it does not matter. -/
theorem metered_eq_within (E : Nonterminal) {k : Nat} (hn : 4 * r.cursor.live.length + 4 ≤ n)
    (hk : n ≤ k) : (E.metered n r).1 = (E.within k).run r :=
  (E.reads_metered n rfl).erase (E.agrees_metered hk) (by omega)

/-- Reading agrees with itself under the larger one of two budgets that suffice. -/
theorem metered_eq_parse (E : Nonterminal) (hn : 4 * r.cursor.live.length + 4 ≤ n) :
    (E.metered n r).1 = E.parse.run r := by
  have hbudget := r.length_live_le_budget
  rw [run_parse, E.metered_eq_within hn (Nat.le_max_left n r.budget),
    ← E.metered_eq_within hbudget (Nat.le_max_right n r.budget),
    E.metered_eq_within hbudget (Nat.le_refl r.budget)]

theorem calls_metered_le (E : Nonterminal) (n : Nat) (r : Reader) :
    (E.metered n r).2.calls ≤ 8 * r.cursor.live.length + 11 := by
  have h := E.reads_metered n (r := r) rfl
  unfold Reads at h
  cases hx : E.metered n r with
  | mk result ledger =>
    rw [hx] at h
    dsimp only
    cases result with
    | ok t r' =>
      have hcalls := h.calls
      have hlive := congrArg List.length (h.takes.live h.kinds)
      rw [List.length_append] at hlive
      omega
    | error e r' =>
      have hcalls := h.calls
      have hlength := h.takes.length_le h.kinds
      omega

theorem finishes_metered (E : Nonterminal) (hn : 4 * r.cursor.live.length + 4 ≤ n) :
    E.Finishes r.cursor (E.metered n r).2.taken (E.metered n r).1 := by
  have h := E.reads_metered n (r := r) rfl
  unfold Reads at h
  cases hx : E.metered n r with
  | mk result ledger =>
    rw [hx] at h
    cases result with
    | ok t r' => exact ⟨h.takes, h.kinds, h.phrase⟩
    | error e r' =>
      refine ⟨h.takes, h.kinds, fun hbudget => ?_⟩
      have hlow := h.budget hbudget
      omega

end Nonterminal

end Grammar

/-- Every call of a reader comes to an end, and it makes progress. The recursion needs no more depth
than four for each token in front of the first `eof` and four more, and the calls and rounds are at
most eight for each of these tokens and eleven more. -/
theorem reading_progresses (r : Reader) (E : Grammar.Nonterminal) (n : Nat)
    (hn : 4 * r.cursor.live.length + 4 ≤ n) :
    (E.within n).run r = E.parse.run r ∧ (E.metered n r).1 = E.parse.run r ∧
      E.Finishes r.cursor (E.metered n r).2.taken (E.parse.run r) ∧
      (E.metered n r).2.calls ≤ 8 * r.cursor.live.length + 11 := by
  have hparse := E.metered_eq_parse hn
  refine ⟨?_, hparse, ?_, E.calls_metered_le n r⟩
  · rw [← hparse, E.metered_eq_within hn (Nat.le_refl n)]
  · rw [← hparse]
    exact E.finishes_metered hn

/-- An assignment that an `eof` breaks off, with its first token put back in front. -/
theorem reading_progresses_eof_inside :
    let x : Token := ⟨.identifier, some (.word "x")⟩
    let rest : List Token :=
      [⟨.assign, none⟩, ⟨.eof, none⟩, ⟨.number, some (.int 1)⟩, ⟨.semi, none⟩]
    let r : Reader := { cursor := (Cursor.ofTokens rest).unget x }
    let E : Grammar.Nonterminal := .assignment
    4 * r.cursor.live.length + 4 ≤ 12 ∧
      (E.metered 12 r).2 = ⟨[x, ⟨.assign, none⟩, ⟨.eof, none⟩], 5⟩ ∧
      (E.within 12).run r = E.parse.run r ∧ (E.metered 12 r).1 = E.parse.run r ∧
      E.Finishes r.cursor (E.metered 12 r).2.taken (E.parse.run r) ∧
      (E.metered 12 r).2.calls ≤ 8 * r.cursor.live.length + 11 := by
  intro x rest r E
  have hn : 4 * r.cursor.live.length + 4 ≤ 12 := by decide
  exact ⟨hn, by decide +kernel, reading_progresses r E 12 hn⟩

end StackLang
