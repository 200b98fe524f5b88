import StackLang.Proofs.Progress
import StackLang.Proofs.Sequencing
import StackLang.Proofs.Streams

namespace StackLang

namespace Grammar

open MonadTokens

variable {α β : Type}

/-- Two readers have the same tokens in front of them, and `P` holds of their levels. -/
structure Abreast (P : Nat → Nat → Prop) (r r' : Reader) : Prop where
  stream : r.cursor.stream = r'.cursor.stream
  level : P r.level r'.level

/-- Two readings come to the same answer or to the same error, and the readers that are left are
abreast. -/
inductive Alike (P : Nat → Nat → Prop) :
    EStateM.Result ParseError Reader α → EStateM.Result ParseError Reader α → Prop where
  | ok {a : α} {r r' : Reader} : Abreast P r r' → Alike P (.ok a r) (.ok a r')
  | error {e : ParseError} {r r' : Reader} : Abreast P r r' → Alike P (.error e r) (.error e r')

/-- Two steps that do alike from readers that are abreast. -/
def Parallel (P : Nat → Nat → Prop) (x y : ParseM α) : Prop :=
  ∀ r r', Abreast P r r' → Alike P (x.run r) (y.run r')

section Rules

variable {P Q : Nat → Nat → Prop} {r r' : Reader}

theorem Abreast.imp (h : Abreast P r r') (hPQ : ∀ k k', P k k' → Q k k') : Abreast Q r r' :=
  ⟨h.stream, hPQ _ _ h.level⟩

theorem Alike.imp {y y' : EStateM.Result ParseError Reader α} (h : Alike P y y')
    (hPQ : ∀ k k', P k k' → Q k k') : Alike Q y y' := by
  cases h with
  | ok h => exact .ok (h.imp hPQ)
  | error h => exact .error (h.imp hPQ)

theorem Alike.bind {x y : ParseM α} {f g : α → ParseM β} (hx : Alike P (x.run r) (y.run r'))
    (hf : ∀ a, Parallel P (f a) (g a)) : Alike P ((x >>= f).run r) ((y >>= g).run r') := by
  rw [EStateM.run_bind, EStateM.run_bind]
  generalize x.run r = z, y.run r' = z' at hx
  cases hx with
  | ok h => exact hf _ _ _ h
  | error h => exact .error h

theorem parallel_next : Parallel P (next : ParseM Token) next := by
  intro r r' h
  have hhead : r.cursor.next.1 = r'.cursor.next.1 := by
    rw [← Cursor.head_stream, h.stream, Cursor.head_stream]
  have htail : r.cursor.next.2.stream = r'.cursor.next.2.stream := by
    rw [← Cursor.tail_stream, h.stream, Cursor.tail_stream]
  rw [run_next, run_next, hhead]
  exact .ok ⟨htail, h.level⟩

theorem parallel_peek : Parallel P (peek : ParseM Token) peek := by
  intro r r' h
  have hhead : r.cursor.peek = r'.cursor.peek := by
    rw [Cursor.peek, Cursor.peek, ← Cursor.head_stream, h.stream, Cursor.head_stream]
  rw [run_peek, run_peek, hhead]
  exact .ok h

end Rules

/-- What is read is a matter of the tokens in front, wherever the level is not asked for. -/
def sideBySide (P : Nat → Nat → Prop) : Coupling ParseM ParseM where
  Related := Parallel P
  Budgets := Eq
  budgets_succ {n _} h := ⟨n, h.symm, rfl⟩
  related_budget := by
    rintro α y k rfl hy r r' h
    rw [hy]
    exact .error h
  related_pure _ _ _ h := .ok h
  related_bind hx hf r r' h := (hx r r' h).bind hf
  related_fail _ _ _ h := .error h
  related_call h := h
  related_next := parallel_next
  related_peek := parallel_peek

theorem sideBySide_levelled : (sideBySide Eq).Levelled where
  getLevel r r' h := by
    rw [run_getLevel, run_getLevel, h.level]
    exact .ok h
  setLevel _ _ _ h := .ok ⟨h.stream, rfl⟩

/-- A declaration is read at level zero, whatever the levels were. -/
theorem parallel_elements : (n : Nat) →
    Parallel (fun _ _ => True) (elements n : ParseM Program) (elements n)
  | 0 => fun _ _ h => .error h
  | n + 1 => by
    intro r r' h
    rw [elements, run_call, run_call]
    refine (parallel_peek r r' h).bind fun t r₁ r₁' h₁ => ?_
    cases t.kind with
    | eof => exact .ok h₁
    | identifier | semi =>
      refine (((sideBySide _).related_assignment (n := n) rfl) r₁ r₁' h₁).bind ?_
      exact fun s r₂ r₂' h₂ =>
        (parallel_elements n r₂ r₂' h₂).bind fun ss r₃ r₃' h₃ => .ok h₃
    | functionWord =>
      have hzero : Abreast Eq { r₁ with level := 0 } { r₁' with level := 0 } := ⟨h₁.stream, rfl⟩
      have hdeclaration :=
        (Coupling.related_functionDeclaration sideBySide_levelled n rfl _ _ hzero).imp
          (Q := fun _ _ => True) fun _ _ _ => trivial
      rw [run_bind_of_ok (run_setLevel 0 r₁), run_bind_of_ok (run_setLevel 0 r₁')]
      refine hdeclaration.bind fun s r₂ r₂' h₂ => ?_
      exact (parallel_elements n r₂ r₂' h₂).bind fun ss r₃ r₃' h₃ => .ok h₃
    | _ => exact .error h₁

def remaining : EStateM.Result ParseError Reader α → Reader
  | .ok _ r | .error _ r => r

/-- What shows of a reading: the tree or the error, and the tokens that are left. -/
def seen : EStateM.Result ParseError Reader Tree → Except ParseError Tree × Stream' Token
  | .ok t r => (.ok t, r.cursor.stream)
  | .error e r => (.error e, r.cursor.stream)

theorem Alike.seen {P : Nat → Nat → Prop} {y y' : EStateM.Result ParseError Reader Tree}
    (h : Alike P y y') : seen y = seen y' := by
  cases h with
  | ok h => rw [Grammar.seen, Grammar.seen, h.stream]
  | error h => rw [Grammar.seen, Grammar.seen, h.stream]

namespace Nonterminal

variable {E : Nonterminal} {r r' : Reader}

theorem levels_parse (E : Nonterminal) (r : Reader) :
    (∀ t r', E.parse.run r = .ok t r' → E.Levels r.level r'.level) ∧
      ∀ e r', E.parse.run r = .error e r' → Opened (E.Levels r.level) r'.level := by
  have hreads := E.reads_metered r.budget (r := r) rfl
  rw [← E.metered_eq_parse r.length_live_le_budget]
  unfold Reads at hreads
  cases hx : E.metered r.budget r with
  | mk result ledger =>
    rw [hx] at hreads
    constructor
    · rintro t r' rfl
      exact hreads.level
    · rintro e r' rfl
      exact hreads.level

theorem level_ok {t : Tree} (hE : E ≠ .toplevel) (h : E.parse.run r = .ok t r') :
    r'.level = r.level := by
  rcases (E.levels_parse r).1 t r' h with hkept | ⟨hzero, -⟩
  · exact hkept
  · exact absurd hzero hE

theorem level_error {e : ParseError} (hE : E ≠ .toplevel) (h : E.parse.run r = .error e r') :
    r.level ≤ r'.level := by
  rcases (E.levels_parse r).2 e r' h with (hkept | ⟨htop, -⟩) | ⟨hzero | ⟨htop, -⟩, hone⟩
  · omega
  · exact absurd htop hE
  · omega
  · exact absurd htop hE

theorem level_remaining (E : Nonterminal) (hr : r.level ≤ 1) :
    (remaining (E.parse.run r)).level ≤ 1 := by
  obtain ⟨hok, herror⟩ := E.levels_parse r
  cases h : E.parse.run r with
  | ok t r' =>
    have hlevel := hok t r' h
    unfold Levels at hlevel
    rw [remaining]
    omega
  | error e r' =>
    have hlevel := herror e r' h
    unfold Opened Levels at hlevel
    rw [remaining]
    omega

/-- Readers with the same tokens in front of them may have different budgets, so both are read with
one that suffices for either. -/
theorem seen_toplevel (h : r.cursor.stream = r'.cursor.stream) :
    seen (Nonterminal.toplevel.parse.run r) = seen (Nonterminal.toplevel.parse.run r') := by
  obtain ⟨n, hn, hn'⟩ : ∃ n, 4 * r.cursor.live.length + 4 ≤ n ∧
      4 * r'.cursor.live.length + 4 ≤ n :=
    ⟨4 * (r.cursor.live.length + r'.cursor.live.length) + 4, by omega, by omega⟩
  have halike : Alike (fun _ _ => True) ((Nonterminal.toplevel.within n).run r)
      ((Nonterminal.toplevel.within n).run r') :=
    (parallel_elements n r r' ⟨h, trivial⟩).bind fun p _ _ h => .ok h
  rw [← metered_eq_parse _ hn, ← metered_eq_parse _ hn',
    metered_eq_within _ hn (Nat.le_refl n), metered_eq_within _ hn' (Nat.le_refl n)]
  exact halike.seen

end Nonterminal

end Grammar

namespace Reader

/-- The reader that is left when it was asked for one phrase after the other, whether or not they
could be read. -/
def after (r : Reader) : List Grammar.Nonterminal → Reader
  | [] => r
  | E :: Es => (Grammar.remaining (E.parse.run r)).after Es

theorem level_after {r : Reader} (h : r.level ≤ 1) (Es : List Grammar.Nonterminal) :
    (r.after Es).level ≤ 1 := by
  induction Es generalizing r with
  | nil => exact h
  | cons E Es ih => exact ih (E.level_remaining h)

end Reader

/-- However often a reader was asked for phrases before, with or without success, its level is zero
or one. A phrase other than a whole program leaves the level of any reader as it was if it can be
read, and never lowers it if not. A whole program is read, or refused, by the tokens that are left
alone: the level that earlier failures have left behind makes no difference. -/
theorem level_across_calls :
    (∀ (ts : List Token) (Es : List Grammar.Nonterminal),
      let r := (Reader.ofTokens ts).after Es
      r.level = 0 ∨ r.level = 1) ∧
    (∀ (E : Grammar.Nonterminal) (r r' : Reader), E ≠ .toplevel →
      (∀ t, E.parse.run r = .ok t r' → r'.level = r.level) ∧
      ∀ e, E.parse.run r = .error e r' → r.level ≤ r'.level) ∧
    ∀ (ts ts' : List Token) (Es Es' : List Grammar.Nonterminal),
      let r := (Reader.ofTokens ts).after Es
      let r' := (Reader.ofTokens ts').after Es'
      r.cursor.stream = r'.cursor.stream →
        Grammar.seen (Grammar.Nonterminal.toplevel.parse.run r) =
          Grammar.seen (Grammar.Nonterminal.toplevel.parse.run r') := by
  refine ⟨fun ts Es => ?_, fun E r r' hE => ⟨fun t h => ?_, fun e h => ?_⟩, ?_⟩
  · have hlevel := Reader.level_after (r := Reader.ofTokens ts) (Nat.zero_le 1) Es
    dsimp only
    omega
  · exact Grammar.Nonterminal.level_ok hE h
  · exact Grammar.Nonterminal.level_error hE h
  · intro ts ts' Es Es' r r' h
    exact Grammar.Nonterminal.seen_toplevel h

/-- A declaration without a name leaves the level raised. What follows it is a program all the same,
as it is for a reader that has never failed. -/
theorem level_across_calls_broken_declaration :
    let broken : List Token := [⟨.functionWord, none⟩, ⟨.number, some (.int 1)⟩]
    let rest : List Token :=
      [⟨.identifier, some (.word "x")⟩, ⟨.assign, none⟩, ⟨.number, some (.int 2)⟩, ⟨.semi, none⟩,
        ⟨.functionWord, none⟩, ⟨.identifier, some (.word "main")⟩, ⟨.lparen, none⟩,
        ⟨.rparen, none⟩, ⟨.lbrace, none⟩, ⟨.returnWord, none⟩, ⟨.number, some (.int 0)⟩,
        ⟨.semi, none⟩, ⟨.rbrace, none⟩]
    let r := (Reader.ofTokens (broken ++ rest)).after [.functionDeclaration]
    let r' := (Reader.ofTokens (rest ++ [Token.terminal])).after []
    (∃ e, Grammar.Nonterminal.functionDeclaration.parse.run (Reader.ofTokens (broken ++ rest)) =
        .error e r ∧ (Reader.ofTokens (broken ++ rest)).level ≤ r.level) ∧
      r.level = 1 ∧ r'.level = 0 ∧
      (∃ t s, Grammar.Nonterminal.assignment.parse.run r = .ok t s ∧ s.level = r.level) ∧
      r.cursor.stream = r'.cursor.stream ∧
      (∃ t s, Grammar.Nonterminal.toplevel.parse.run r' = .ok t s) ∧
      Grammar.seen (Grammar.Nonterminal.toplevel.parse.run r) =
        Grammar.seen (Grammar.Nonterminal.toplevel.parse.run r') := by
  intro broken rest r r'
  obtain ⟨-, hlevel, htop⟩ := level_across_calls
  have hbroken : ∃ e, Grammar.Nonterminal.functionDeclaration.parse.run
      (Reader.ofTokens (broken ++ rest)) = .error e r := ⟨_, rfl⟩
  obtain ⟨e, hbroken⟩ := hbroken
  obtain ⟨t, s, hassignment⟩ := exists_of_run_ok
    (x := Grammar.Nonterminal.assignment.parse) (s := r) (by decide +kernel)
  have hstream : r.cursor.stream = r'.cursor.stream := by
    have hcursor : r.cursor = ⟨[], rest, Token.terminal, rfl⟩ := by decide +kernel
    have hcursor' : r'.cursor = ⟨[], rest ++ [Token.terminal], Token.terminal, rfl⟩ := rfl
    rw [hcursor, hcursor', Cursor.stream, Cursor.stream]
    simp only [List.nil_append, Stream'.append_append_stream, Stream'.append_eq_cons]
    rw [← Stream'.const_eq]
  refine ⟨⟨e, hbroken, (hlevel _ _ _ (by decide)).2 e hbroken⟩, by decide +kernel, rfl,
    ⟨t, s, hassignment, (hlevel _ _ _ (by decide)).1 t hassignment⟩, hstream, ?_, ?_⟩
  · exact exists_of_run_ok (by decide +kernel)
  · exact htop _ _ _ _ hstream

end StackLang
