import StackLang.Proofs.Parametricity

namespace StackLang

open MonadTokens

/-- What was done while reading: which tokens were taken from the cursor, and how many readers were
called, where each round of a loop counts as a call. -/
structure Ledger where
  taken : List Token := []
  calls : Nat := 0
deriving DecidableEq, Repr

namespace Ledger

def append (l m : Ledger) : Ledger :=
  ⟨l.taken ++ m.taken, l.calls + m.calls⟩

@[simp] theorem empty_append (l : Ledger) : append {} l = l := by
  simp [append]

end Ledger

/-- A reading step that keeps a record. -/
def Metered (α : Type) : Type :=
  Reader → EStateM.Result ParseError Reader α × Ledger

namespace Metered

variable {α β : Type}

/-- A step that takes no token and calls no reader. -/
def silent (x : ParseM α) : Metered α :=
  fun r => (x.run r, {})

def andThen (x : Metered α) (f : α → Metered β) : Metered β :=
  fun r =>
    match x r with
    | (.ok a r', l) => ((f a r').1, l.append (f a r').2)
    | (.error e r', l) => (.error e r', l)

instance : Monad Metered where
  pure a := silent (pure a)
  bind := andThen

instance : MonadTokens Metered where
  next r := ((next : ParseM Token).run r, ⟨[r.cursor.next.1], 0⟩)
  peek := silent peek
  getLevel := silent getLevel
  setLevel n := silent (setLevel n)
  fail e := silent (fail e)
  call x r := ((x r).1, ⟨(x r).2.taken, (x r).2.calls + 1⟩)

theorem bind_apply (x : Metered α) (f : α → Metered β) (r : Reader) :
    (x >>= f) r = andThen x f r :=
  rfl

/-- Without its record the first step is the second one, unless it runs out of budget. -/
def Agrees (x : Metered α) (y : ParseM α) : Prop :=
  ∀ r, (∃ r', (x r).1 = .error .budget r') ∨ (x r).1 = y.run r

theorem agrees_silent (x : ParseM α) : Agrees (silent x) x :=
  fun _ => .inr rfl

theorem Agrees.bind {x : Metered α} {y : ParseM α} {f : α → Metered β} {g : α → ParseM β}
    (hx : Agrees x y) (hf : ∀ a, Agrees (f a) (g a)) : Agrees (x >>= f) (y >>= g) := by
  intro r
  rw [bind_apply, andThen, EStateM.run_bind]
  rcases hx r with ⟨r', hbudget⟩ | hagree
  · left
    cases hr : x r with
    | mk result l =>
      rw [hr] at hbudget
      subst hbudget
      exact ⟨r', rfl⟩
  · rw [← hagree]
    cases hr : x r with
    | mk result l =>
      cases result with
      | error e r' => exact .inr rfl
      | ok a r' => exact hf a r'

/-- A reader without its record is the same reader under any larger budget. -/
def erasure : Grammar.Coupling Metered ParseM where
  Related := Agrees
  Budgets := (· ≤ ·)
  budgets_succ {_ k} h := ⟨k - 1, by omega, by omega⟩
  related_budget _ _ := fun r => .inl ⟨r, rfl⟩
  related_pure a := agrees_silent (pure a)
  related_bind hx hf := hx.bind hf
  related_fail e := agrees_silent (fail e)
  related_call h := h
  related_next := fun _ => .inr rfl
  related_peek := agrees_silent peek

theorem erasure_levelled : erasure.Levelled where
  getLevel := agrees_silent getLevel
  setLevel l := agrees_silent (setLevel l)

end Metered

namespace Grammar.Nonterminal

/-- Reads one phrase with a given budget. -/
def within (n : Nat) (E : Nonterminal) : ParseM Tree :=
  E.read n

def metered (n : Nat) (E : Nonterminal) : Metered Tree :=
  E.read n

theorem run_parse (E : Nonterminal) (r : Reader) : E.parse.run r = (E.within r.budget).run r := by
  rw [parse, run_sufficiently, within]

theorem agrees_metered (E : Nonterminal) {n k : Nat} (h : n ≤ k) :
    (E.metered n).Agrees (E.within k) :=
  Coupling.related_read Metered.erasure_levelled h E

end Grammar.Nonterminal

end StackLang
