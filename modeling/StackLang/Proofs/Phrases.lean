import StackLang.Grammar.Statement
import StackLang.Proofs.Messages

namespace StackLang.Grammar

inductive ProductSign : Token.Kind → Operator → Prop where
  | mul : ProductSign .star .mul
  | div : ProductSign .slash .div
  | mod : ProductSign .percent .mod

inductive SumSign : Token.Kind → Operator → Prop where
  | add : SumSign .plus .add
  | sub : SumSign .minus .sub

inductive ComparisonSign : Token.Kind → Operator → Prop where
  | lt : ComparisonSign .less .lt
  | gt : ComparisonSign .greater .gt

theorem productOperator?_eq_some {k : Token.Kind} {op : Operator} :
    productOperator? k = some op ↔ ProductSign k op := by
  constructor
  · intro h
    cases k <;> cases h
    · exact .mul
    · exact .div
    · exact .mod
  · rintro (_ | _ | _) <;> rfl

theorem sumOperator?_eq_some {k : Token.Kind} {op : Operator} :
    sumOperator? k = some op ↔ SumSign k op := by
  constructor
  · intro h
    cases k <;> cases h
    · exact .add
    · exact .sub
  · rintro (_ | _) <;> rfl

theorem comparison?_eq_some {k : Token.Kind} {op : Operator} :
    comparison? k = some op ↔ ComparisonSign k op := by
  constructor
  · intro h
    cases k <;> cases h
    · exact .lt
    · exact .gt
  · rintro (_ | _) <;> rfl

def operation (op : Operator) (left right : Tree) : Tree :=
  .node (.binary op) none [left, right]

mutual

-- A phrase is a list of tokens and its tree. Only the kinds of punctuation and keywords count, and
-- the labels of names and numbers. Where a place is told by a name, that name can be written.

/-- A number, a variable, a call, or an expression in parentheses, which have no node. -/
inductive Factor : List Token → Tree → Prop where
  | number {t : Token} : t.kind = .number → Factor [t] (.leaf .number t.value)
  | name {t : Token} : t.kind = .identifier → Factor [t] (.leaf .identifier t.value)
  | call {f opening closing : Token} {us : List Token} {args : List Tree} :
      f.kind = .identifier → opening.kind = .lparen → Arguments us args →
      (args ≠ [] → f.value.Writable) → closing.kind = .rparen →
      Factor (f :: opening :: (us ++ [closing])) (.node .call f.value args)
  | group {opening closing : Token} {us : List Token} {e : Tree} :
      opening.kind = .lparen → Expression us e → closing.kind = .rparen →
      Factor (opening :: (us ++ [closing])) e

/-- Expressions with commas between them, or nothing. -/
inductive Arguments : List Token → List Tree → Prop where
  | none : Arguments [] []
  | some {us vs : List Token} {e : Tree} {es : List Tree} :
      Expression us e → MoreArguments vs es → Arguments (us ++ vs) (e :: es)

inductive MoreArguments : List Token → List Tree → Prop where
  | none : MoreArguments [] []
  | some {comma : Token} {us vs : List Token} {e : Tree} {es : List Tree} :
      comma.kind = .comma → Expression us e → MoreArguments vs es →
      MoreArguments (comma :: (us ++ vs)) (e :: es)

/-- Factors in a chain, grouped from the left. -/
inductive Term : List Token → Tree → Prop where
  | factor {us : List Token} {e : Tree} : Factor us e → Term us e
  | product {sign : Token} {op : Operator} {us vs : List Token} {l r : Tree} :
      Term us l → ProductSign sign.kind op → Factor vs r →
      Term (us ++ sign :: vs) (operation op l r)

inductive Additive : List Token → Tree → Prop where
  | term {us : List Token} {e : Tree} : Term us e → Additive us e
  | sum {sign : Token} {op : Operator} {us vs : List Token} {l r : Tree} :
      Additive us l → SumSign sign.kind op → Term vs r →
      Additive (us ++ sign :: vs) (operation op l r)

/-- A comparison takes a whole expression as its right operand. -/
inductive Expression : List Token → Tree → Prop where
  | additive {us : List Token} {e : Tree} : Additive us e → Expression us e
  | comparison {sign : Token} {op : Operator} {us vs : List Token} {l r : Tree} :
      Additive us l → ComparisonSign sign.kind op → Expression vs r →
      Expression (us ++ sign :: vs) (operation op l r)

end

inductive Assignment : List Token → Tree → Prop where
  | assign {x sign semi : Token} {us : List Token} {e : Tree} :
      x.kind = .identifier → x.value.Writable → sign.kind = .assign → Expression us e →
      semi.kind = .semi →
      Assignment (x :: sign :: (us ++ [semi]))
        (.node .assignment none [.leaf .identifier x.value, e])
  | empty {semi : Token} : semi.kind = .semi → Assignment [semi] (.leaf .noop none)

inductive Condition (keyword : Token.Kind) : List Token → Tree → Prop where
  | intro {word opening closing : Token} {us : List Token} {e : Tree} :
      word.kind = keyword → opening.kind = .lparen → Expression us e → closing.kind = .rparen →
      Condition keyword (word :: opening :: (us ++ [closing])) e

/-- A statement at whose end an `if` without `else` stands. -/
inductive EndsOpen : Tree → Prop where
  | ifThen (c t : Tree) : EndsOpen (.node .ifStmt none [c, t])
  | ifElse (c t : Tree) {e : Tree} : EndsOpen e → EndsOpen (.node .ifStmt none [c, t, e])
  | loop (c : Tree) {b : Tree} : EndsOpen b → EndsOpen (.node .whileStmt none [c, b])

theorem EndsOpen.elseBranch {c t e : Tree} (h : EndsOpen (.node .ifStmt none [c, t, e])) :
    EndsOpen e := by
  cases h with
  | ifElse _ _ h => exact h

theorem EndsOpen.body {c b : Tree} (h : EndsOpen (.node .whileStmt none [c, b])) : EndsOpen b := by
  cases h with
  | loop _ h => exact h

mutual

/-- A statement inside a function. An `else` belongs to the nearest `if` that has none, so what
stands in front of it does not end with an `if` without `else`. -/
inductive Statement : List Token → Tree → Prop where
  | block {us : List Token} {b : Tree} : Block us b → Statement us b
  | assignment {us : List Token} {e : Tree} : Assignment us e → Statement us e
  | loop {us vs : List Token} {c b : Tree} :
      Condition .whileWord us c → Statement vs b →
      Statement (us ++ vs) (.node .whileStmt none [c, b])
  | ifThen {us vs : List Token} {c t : Tree} :
      Condition .ifWord us c → Statement vs t →
      Statement (us ++ vs) (.node .ifStmt none [c, t])
  | ifElse {word : Token} {us vs ws : List Token} {c t e : Tree} :
      Condition .ifWord us c → Statement vs t → ¬ EndsOpen t → word.kind = .elseWord →
      Statement ws e → Statement (us ++ (vs ++ word :: ws)) (.node .ifStmt none [c, t, e])
  | ret {word semi : Token} {us : List Token} {e : Tree} :
      word.kind = .returnWord → Expression us e → semi.kind = .semi →
      Statement (word :: (us ++ [semi])) (.node .returnStmt none [e])

inductive Block : List Token → Tree → Prop where
  | intro {opening closing : Token} {us vs : List Token} {e : Tree} {es : List Tree} :
      opening.kind = .lbrace → Statement us e → Statements vs es → closing.kind = .rbrace →
      Block (opening :: (us ++ (vs ++ [closing]))) (.node .block none (e :: es))

inductive Statements : List Token → List Tree → Prop where
  | nil : Statements [] []
  | cons {us vs : List Token} {e : Tree} {es : List Tree} :
      Statement us e → Statements vs es → Statements (us ++ vs) (e :: es)

end

inductive MoreParameters : List Token → List Label → Prop where
  | none : MoreParameters [] []
  | some {comma x : Token} {us : List Token} {xs : List Label} :
      comma.kind = .comma → x.kind = .identifier → MoreParameters us xs →
      MoreParameters (comma :: x :: us) (x.value :: xs)

inductive Parameters : List Token → List Label → Prop where
  | none : Parameters [] []
  | some {x : Token} {us : List Token} {xs : List Label} :
      x.kind = .identifier → MoreParameters us xs → Parameters (x :: us) (x.value :: xs)

/-- The parameters come after the body in the tree. -/
inductive Declaration : List Token → Tree → Prop where
  | intro {word f opening closing : Token} {us vs : List Token} {params : List Label} {b : Tree} :
      word.kind = .functionWord → f.kind = .identifier → f.value.Writable →
      opening.kind = .lparen → Parameters us params → closing.kind = .rparen → Block vs b →
      Declaration (word :: f :: opening :: (us ++ closing :: vs))
        (.node .functionDecl f.value (b :: params.map (.leaf .parameter)))

inductive Elements : List Token → List Tree → Prop where
  | nil : Elements [] []
  | assignment {us vs : List Token} {e : Tree} {es : List Tree} :
      Assignment us e → Elements vs es → Elements (us ++ vs) (e :: es)
  | declaration {us vs : List Token} {e : Tree} {es : List Tree} :
      Declaration us e → Elements vs es → Elements (us ++ vs) (e :: es)

inductive Toplevel : List Token → Tree → Prop where
  | intro {us : List Token} {es : List Tree} :
      Elements us es → Toplevel us (.node .toplevel none es)

def startsExpression : Token.Kind → Bool
  | .number | .identifier | .lparen => true
  | _ => false

def StartsWith (P : Token.Kind → Bool) (us : List Token) : Prop :=
  ∃ t ws, us = t :: ws ∧ P t.kind

theorem StartsWith.append {P : Token.Kind → Bool} {us : List Token} (h : StartsWith P us)
    (vs : List Token) : StartsWith P (us ++ vs) := by
  obtain ⟨t, ws, rfl, ht⟩ := h
  exact ⟨t, ws ++ vs, rfl, ht⟩

theorem StartsWith.length_pos {P : Token.Kind → Bool} {us : List Token} (h : StartsWith P us) :
    0 < us.length := by
  obtain ⟨t, ws, rfl, -⟩ := h
  simp

theorem startsWith_cons {P : Token.Kind → Bool} {t : Token} {k : Token.Kind} (h : t.kind = k)
    (hk : P k) (ws : List Token) : StartsWith P (t :: ws) :=
  ⟨t, ws, rfl, by rw [h, hk]⟩

theorem Factor.start {us : List Token} {e : Tree} (h : Factor us e) :
    StartsWith startsExpression us := by
  cases h with
  | number hk => exact startsWith_cons hk rfl _
  | name hk => exact startsWith_cons hk rfl _
  | call hk => exact startsWith_cons hk rfl _
  | group hk => exact startsWith_cons hk rfl _

theorem Term.start : {us : List Token} → {e : Tree} → Term us e →
    StartsWith startsExpression us
  | _, _, .factor h => h.start
  | _, _, .product h _ _ => h.start.append _

theorem Additive.start : {us : List Token} → {e : Tree} → Additive us e →
    StartsWith startsExpression us
  | _, _, .term h => h.start
  | _, _, .sum h _ _ => h.start.append _

theorem Expression.start {us : List Token} {e : Tree} (h : Expression us e) :
    StartsWith startsExpression us := by
  cases h with
  | additive h => exact h.start
  | comparison h => exact h.start.append _

theorem Assignment.start {us : List Token} {e : Tree} (h : Assignment us e) :
    StartsWith startsStatement us := by
  cases h with
  | assign hk => exact startsWith_cons hk rfl _
  | empty hk => exact startsWith_cons hk rfl _

theorem Condition.start {keyword : Token.Kind} {us : List Token} {e : Tree}
    (h : Condition keyword us e) : ∃ t ws, us = t :: ws ∧ t.kind = keyword := by
  cases h with
  | intro hk => exact ⟨_, _, rfl, hk⟩

theorem Block.start {us : List Token} {e : Tree} (h : Block us e) :
    ∃ t ws, us = t :: ws ∧ t.kind = .lbrace := by
  cases h with
  | intro hk => exact ⟨_, _, rfl, hk⟩

theorem Statement.start {us : List Token} {e : Tree} (h : Statement us e) :
    StartsWith startsStatement us := by
  have hcondition : ∀ {keyword us e}, startsStatement keyword → Condition keyword us e →
      StartsWith startsStatement us := by
    intro keyword us e hk h
    obtain ⟨t, ws, rfl, ht⟩ := h.start
    exact startsWith_cons ht hk _
  cases h with
  | block h =>
    obtain ⟨t, ws, rfl, ht⟩ := h.start
    exact startsWith_cons ht rfl _
  | assignment h => exact h.start
  | loop h => exact (hcondition rfl h).append _
  | ifThen h => exact (hcondition rfl h).append _
  | ifElse h => exact (hcondition rfl h).append _
  | ret hk => exact startsWith_cons hk rfl _

theorem Statement.length_pos {us : List Token} {e : Tree} (h : Statement us e) : 0 < us.length :=
  h.start.length_pos

theorem Declaration.length_pos {us : List Token} {e : Tree} (h : Declaration us e) :
    0 < us.length := by
  cases h
  simp

end StackLang.Grammar
