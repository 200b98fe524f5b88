import StackLang.Grammar.Statement

namespace StackLang.Grammar

open MonadTokens

/-- A relation between two kinds of reading that goes through all the operations of a reader, and
the budgets with which related readers are called. Those for the level stand apart. -/
structure Coupling (m m' : Type → Type) [Monad m] [MonadTokens m] [Monad m'] [MonadTokens m'] where
  Related : {α : Type} → m α → m' α → Prop
  Budgets : Nat → Nat → Prop
  budgets_succ {n k : Nat} : Budgets (n + 1) k → ∃ k', k = k' + 1 ∧ Budgets n k'
  related_budget {α : Type} {y : Nat → m' α} {k : Nat} :
    Budgets 0 k → y 0 = fail .budget → Related (fail .budget) (y k)
  related_pure {α : Type} (a : α) : Related (pure a) (pure a)
  related_bind {α β : Type} {x : m α} {y : m' α} {f : α → m β} {g : α → m' β} :
    Related x y → (∀ a, Related (f a) (g a)) → Related (x >>= f) (y >>= g)
  related_fail {α : Type} (e : ParseError) : Related (fail e : m α) (fail e)
  related_call {α : Type} {x : m α} {y : m' α} : Related x y → Related (call x) (call y)
  related_next : Related next next
  related_peek : Related peek peek

namespace Coupling

variable {m m' : Type → Type} [Monad m] [MonadTokens m] [Monad m'] [MonadTokens m']
  (c : Coupling m m')

/-- The relation goes through the operations on the level, too. -/
structure Levelled : Prop where
  getLevel : c.Related getLevel getLevel
  setLevel (l : Nat) : c.Related (setLevel l) (setLevel l)

theorem related_expect (place : Place) : c.Related (expect place) (expect place) := by
  unfold expect
  split
  · exact c.related_fail _
  · refine c.related_bind c.related_next fun t => ?_
    split
    · exact c.related_pure ()
    · exact c.related_fail _

section Expressions

mutual

theorem related_factor : (n : Nat) → {k : Nat} → c.Budgets n k →
    c.Related (factor n) (factor k)
  | 0, _, h => c.related_budget h rfl
  | n + 1, _, h => by
    obtain ⟨k, rfl, hk⟩ := c.budgets_succ h
    rw [factor, factor]
    refine c.related_call (c.related_bind c.related_next fun t => ?_)
    cases t.kind with
    | number => exact c.related_pure _
    | identifier =>
      refine c.related_bind c.related_peek fun u => ?_
      split
      · refine c.related_bind c.related_next fun _ => ?_
        exact c.related_bind (related_arguments n hk _) fun args => c.related_pure _
      · exact c.related_pure _
    | lparen =>
      refine c.related_bind (related_expression n hk) fun e => ?_
      exact c.related_bind (c.related_expect _) fun _ => c.related_pure e
    | _ => exact c.related_fail _

theorem related_arguments : (n : Nat) → {k : Nat} → c.Budgets n k → (callee : Label) →
    c.Related (arguments n callee) (arguments k callee)
  | 0, _, h, callee => c.related_budget (y := fun k => arguments k callee) h rfl
  | n + 1, _, h, callee => by
    obtain ⟨k, rfl, hk⟩ := c.budgets_succ h
    rw [arguments, arguments]
    refine c.related_call (c.related_bind c.related_peek fun t => ?_)
    split
    · exact c.related_bind c.related_next fun _ => c.related_pure _
    · refine c.related_bind (related_expression n hk) fun e => ?_
      refine c.related_bind (related_argumentsRest n hk) fun es => ?_
      exact c.related_bind (c.related_expect _) fun _ => c.related_pure _

theorem related_argumentsRest : (n : Nat) → {k : Nat} → c.Budgets n k →
    c.Related (argumentsRest n) (argumentsRest k)
  | 0, _, h => c.related_budget h rfl
  | n + 1, _, h => by
    obtain ⟨k, rfl, hk⟩ := c.budgets_succ h
    rw [argumentsRest, argumentsRest]
    refine c.related_call (c.related_bind c.related_peek fun t => ?_)
    split
    · refine c.related_bind c.related_next fun _ => ?_
      refine c.related_bind (related_expression n hk) fun e => ?_
      exact c.related_bind (related_argumentsRest n hk) fun es => c.related_pure _
    · exact c.related_pure _

theorem related_term : (n : Nat) → {k : Nat} → c.Budgets n k → c.Related (term n) (term k)
  | 0, _, h => c.related_budget h rfl
  | n + 1, _, h => by
    obtain ⟨k, rfl, hk⟩ := c.budgets_succ h
    rw [term, term]
    exact c.related_call (c.related_bind (related_factor n hk) fun e => related_termRest n hk e)

theorem related_termRest : (n : Nat) → {k : Nat} → c.Budgets n k → (left : Expr) →
    c.Related (termRest n left) (termRest k left)
  | 0, _, h, left => c.related_budget (y := fun k => termRest k left) h rfl
  | n + 1, _, h, left => by
    obtain ⟨k, rfl, hk⟩ := c.budgets_succ h
    rw [termRest, termRest]
    refine c.related_call (c.related_bind c.related_peek fun t => ?_)
    cases productOperator? t.kind with
    | some op =>
      refine c.related_bind c.related_next fun _ => ?_
      exact c.related_bind (related_factor n hk) fun e => related_termRest n hk _
    | none => exact c.related_pure _

theorem related_expression : (n : Nat) → {k : Nat} → c.Budgets n k →
    c.Related (expression n) (expression k)
  | 0, _, h => c.related_budget h rfl
  | n + 1, _, h => by
    obtain ⟨k, rfl, hk⟩ := c.budgets_succ h
    rw [expression, expression]
    refine c.related_call ?_
    exact c.related_bind (related_term n hk) fun e => related_expressionRest n hk e

theorem related_expressionRest : (n : Nat) → {k : Nat} → c.Budgets n k → (left : Expr) →
    c.Related (expressionRest n left) (expressionRest k left)
  | 0, _, h, left => c.related_budget (y := fun k => expressionRest k left) h rfl
  | n + 1, _, h, left => by
    obtain ⟨k, rfl, hk⟩ := c.budgets_succ h
    rw [expressionRest, expressionRest]
    refine c.related_call (c.related_bind c.related_peek fun t => ?_)
    dsimp only
    cases comparison? t.kind with
    | some op =>
      refine c.related_bind c.related_next fun _ => ?_
      exact c.related_bind (related_expression n hk) fun e => c.related_pure _
    | none =>
      cases sumOperator? t.kind with
      | some op =>
        refine c.related_bind c.related_next fun _ => ?_
        exact c.related_bind (related_term n hk) fun e => related_expressionRest n hk _
      | none => exact c.related_pure _

end

end Expressions

section Statements

variable {n k : Nat}

theorem related_assignmentExpression (h : c.Budgets n k) :
    c.Related (assignmentExpression n) (assignmentExpression k) := by
  refine c.related_call (c.related_bind c.related_next fun t => ?_)
  split
  · refine c.related_bind (c.related_expect _) fun _ => ?_
    exact c.related_bind (c.related_expression n h) fun e => c.related_pure _
  · exact c.related_fail _

theorem related_assignment (h : c.Budgets n k) : c.Related (assignment n) (assignment k) := by
  refine c.related_call (c.related_bind c.related_peek fun t => ?_)
  split
  · exact c.related_bind c.related_next fun _ => c.related_pure _
  · refine c.related_bind (c.related_assignmentExpression h) fun s => ?_
    exact c.related_bind (c.related_expect _) fun _ => c.related_pure s

theorem related_condition (h : c.Budgets n k) (keyword : Token.Kind) :
    c.Related (condition n keyword) (condition k keyword) := by
  refine c.related_call (c.related_bind (c.related_expect _) fun _ => ?_)
  refine c.related_bind (c.related_expect _) fun _ => ?_
  refine c.related_bind (c.related_expression n h) fun e => ?_
  exact c.related_bind (c.related_expect _) fun _ => c.related_pure e

theorem related_parametersFrom : (n : Nat) → {k : Nat} → c.Budgets n k → (f : Label) →
    (t : Token) → c.Related (parametersFrom n f t) (parametersFrom k f t)
  | 0, _, h, f, t => c.related_budget (y := fun k => parametersFrom k f t) h rfl
  | n + 1, _, h, f, t => by
    obtain ⟨k, rfl, hk⟩ := c.budgets_succ h
    rw [parametersFrom, parametersFrom]
    refine c.related_call ?_
    split
    · refine c.related_bind c.related_next fun u => ?_
      cases u.kind with
      | rparen => exact c.related_pure _
      | comma =>
        refine c.related_bind c.related_next fun v => ?_
        exact c.related_bind (related_parametersFrom n hk f v) fun ps => c.related_pure _
      | _ => exact c.related_fail _
    · exact c.related_fail _

theorem related_parameters (h : c.Budgets n k) (f : Label) :
    c.Related (parameters n f) (parameters k f) := by
  refine c.related_call (c.related_bind c.related_next fun t => ?_)
  split
  · exact c.related_pure _
  · exact c.related_parametersFrom n h f t

variable {c}

theorem related_returnStatement (hc : c.Levelled) (h : c.Budgets n k) :
    c.Related (returnStatement n) (returnStatement k) := by
  refine c.related_call (c.related_bind hc.getLevel fun level => ?_)
  split
  · exact c.related_fail _
  · refine c.related_bind (c.related_expect _) fun _ => ?_
    refine c.related_bind (c.related_expression n h) fun e => ?_
    exact c.related_bind (c.related_expect _) fun _ => c.related_pure _

mutual

theorem related_statement (hc : c.Levelled) : (n : Nat) → {k : Nat} → c.Budgets n k →
    c.Related (statement n) (statement k)
  | 0, _, h => c.related_budget h rfl
  | n + 1, _, h => by
    obtain ⟨k, rfl, hk⟩ := c.budgets_succ h
    rw [statement, statement]
    refine c.related_call (c.related_bind c.related_peek fun t => ?_)
    cases t.kind with
    | lbrace => exact c.related_bind (related_block hc n hk) fun ss => c.related_pure _
    | whileWord => exact related_whileStatement hc n hk
    | ifWord => exact related_ifStatement hc n hk
    | identifier | semi => exact c.related_assignment hk
    | functionWord => exact related_functionDeclaration hc n hk
    | returnWord => exact related_returnStatement hc hk
    | _ => exact c.related_fail _

theorem related_block (hc : c.Levelled) : (n : Nat) → {k : Nat} → c.Budgets n k →
    c.Related (block n) (block k)
  | 0, _, h => c.related_budget h rfl
  | n + 1, _, h => by
    obtain ⟨k, rfl, hk⟩ := c.budgets_succ h
    rw [block, block]
    refine c.related_call (c.related_bind (c.related_expect _) fun _ => ?_)
    refine c.related_bind (related_statement hc n hk) fun s => ?_
    refine c.related_bind (related_statements hc n hk) fun ss => ?_
    exact c.related_bind (c.related_expect _) fun _ => c.related_pure _

theorem related_statements (hc : c.Levelled) : (n : Nat) → {k : Nat} → c.Budgets n k →
    c.Related (statements n) (statements k)
  | 0, _, h => c.related_budget h rfl
  | n + 1, _, h => by
    obtain ⟨k, rfl, hk⟩ := c.budgets_succ h
    rw [statements, statements]
    refine c.related_call (c.related_bind c.related_peek fun t => ?_)
    split
    · refine c.related_bind (related_statement hc n hk) fun s => ?_
      exact c.related_bind (related_statements hc n hk) fun ss => c.related_pure _
    · exact c.related_pure _

theorem related_ifStatement (hc : c.Levelled) : (n : Nat) → {k : Nat} → c.Budgets n k →
    c.Related (ifStatement n) (ifStatement k)
  | 0, _, h => c.related_budget h rfl
  | n + 1, _, h => by
    obtain ⟨k, rfl, hk⟩ := c.budgets_succ h
    rw [ifStatement, ifStatement]
    refine c.related_call (c.related_bind (c.related_condition hk _) fun b => ?_)
    refine c.related_bind (related_statement hc n hk) fun s => ?_
    refine c.related_bind c.related_peek fun t => ?_
    split
    · refine c.related_bind c.related_next fun _ => ?_
      exact c.related_bind (related_statement hc n hk) fun e => c.related_pure _
    · exact c.related_pure _

theorem related_whileStatement (hc : c.Levelled) : (n : Nat) → {k : Nat} → c.Budgets n k →
    c.Related (whileStatement n) (whileStatement k)
  | 0, _, h => c.related_budget h rfl
  | n + 1, _, h => by
    obtain ⟨k, rfl, hk⟩ := c.budgets_succ h
    rw [whileStatement, whileStatement]
    refine c.related_call (c.related_bind (c.related_condition hk _) fun b => ?_)
    exact c.related_bind (related_statement hc n hk) fun s => c.related_pure _

theorem related_functionDeclaration (hc : c.Levelled) : (n : Nat) → {k : Nat} → c.Budgets n k →
    c.Related (functionDeclaration n) (functionDeclaration k)
  | 0, _, h => c.related_budget h rfl
  | n + 1, _, h => by
    obtain ⟨k, rfl, hk⟩ := c.budgets_succ h
    rw [functionDeclaration, functionDeclaration]
    refine c.related_call (c.related_bind hc.getLevel fun level => ?_)
    split
    · exact c.related_fail _
    · refine c.related_bind (hc.setLevel _) fun _ => ?_
      refine c.related_bind (c.related_expect _) fun _ => ?_
      refine c.related_bind c.related_next fun name => ?_
      split
      · refine c.related_bind (c.related_expect _) fun _ => ?_
        refine c.related_bind (c.related_parameters hk _) fun params => ?_
        refine c.related_bind (related_block hc n hk) fun body => ?_
        refine c.related_bind hc.getLevel fun level => ?_
        exact c.related_bind (hc.setLevel _) fun _ => c.related_pure _
      · exact c.related_fail _

end

theorem related_elements (hc : c.Levelled) : (n : Nat) → {k : Nat} → c.Budgets n k →
    c.Related (elements n) (elements k)
  | 0, _, h => c.related_budget h rfl
  | n + 1, _, h => by
    obtain ⟨k, rfl, hk⟩ := c.budgets_succ h
    rw [elements, elements]
    refine c.related_call (c.related_bind c.related_peek fun t => ?_)
    cases t.kind with
    | eof => exact c.related_pure _
    | identifier | semi =>
      refine c.related_bind (c.related_assignment hk) fun s => ?_
      exact c.related_bind (related_elements hc n hk) fun ss => c.related_pure _
    | functionWord =>
      refine c.related_bind (hc.setLevel 0) fun _ => ?_
      refine c.related_bind (related_functionDeclaration hc n hk) fun s => ?_
      exact c.related_bind (related_elements hc n hk) fun ss => c.related_pure _
    | _ => exact c.related_fail _

theorem related_read (hc : c.Levelled) (h : c.Budgets n k) (E : Nonterminal) :
    c.Related (E.read n) (E.read k) := by
  cases E with
  | factor => exact c.related_bind (c.related_factor n h) fun _ => c.related_pure _
  | term => exact c.related_bind (c.related_term n h) fun _ => c.related_pure _
  | expression => exact c.related_bind (c.related_expression n h) fun _ => c.related_pure _
  | assignmentExpression =>
    exact c.related_bind (c.related_assignmentExpression h) fun _ => c.related_pure _
  | assignment => exact c.related_bind (c.related_assignment h) fun _ => c.related_pure _
  | ifStatement => exact c.related_bind (related_ifStatement hc n h) fun _ => c.related_pure _
  | whileStatement =>
    exact c.related_bind (related_whileStatement hc n h) fun _ => c.related_pure _
  | functionDeclaration =>
    exact c.related_bind (related_functionDeclaration hc n h) fun _ => c.related_pure _
  | returnStatement =>
    exact c.related_bind (related_returnStatement hc h) fun _ => c.related_pure _
  | block => exact c.related_bind (related_block hc n h) fun _ => c.related_pure _
  | statement => exact c.related_bind (related_statement hc n h) fun _ => c.related_pure _
  | toplevel => exact c.related_bind (related_elements hc n h) fun _ => c.related_pure _

end Statements

end Coupling

end StackLang.Grammar
