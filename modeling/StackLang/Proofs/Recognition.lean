import StackLang.Proofs.Reading
import StackLang.Proofs.Sequencing
import Mathlib.Data.List.Permutation

namespace StackLang

/-- A reader with the tokens `ts` in front of it, and behind them what is past the end of `c`. -/
def Reader.ahead (c : Cursor) (level : Nat) (ts : List Token) : Reader :=
  { cursor := { c with pushback := [], unread := ts }, level }

end StackLang

namespace StackLang.Grammar

open MonadTokens Reader

section Steps

variable {α : Type} {c : Cursor} {l : Nat} {t : Token} {ts : List Token}

theorem run_next_bind (f : Token → ParseM α) :
    (next >>= f).run (ahead c l (t :: ts)) = (f t).run (ahead c l ts) := by
  rw [EStateM.run_bind]
  rfl

theorem run_peek_bind (f : Token → ParseM α) :
    (peek >>= f).run (ahead c l ts) = (f (ts.headD c.terminal)).run (ahead c l ts) := by
  rw [EStateM.run_bind]
  cases ts with
  | nil => rfl
  | cons t ts => rfl

theorem run_getLevel_bind (f : Nat → ParseM α) :
    (getLevel >>= f).run (ahead c l ts) = (f l).run (ahead c l ts) := by
  rw [EStateM.run_bind]
  rfl

theorem run_setLevel_bind (k : Nat) (f : Unit → ParseM α) :
    (setLevel k >>= f).run (ahead c l ts) = (f ()).run (ahead c k ts) := by
  rw [EStateM.run_bind]
  rfl

theorem run_expect_bind (place : Place) (ht : t.kind = place.kind) (f : Unit → ParseM α)
    (hplace : ∀ x ∈ place.shown, x.Writable := by simp [Place.shown]) :
    (expect place >>= f).run (ahead c l (t :: ts)) = (f ()).run (ahead c l ts) := by
  obtain ⟨s, hs⟩ := Place.context_ok hplace
  have hexpect : (expect place : ParseM Unit).run (ahead c l (t :: ts)) =
      .ok () (ahead c l ts) := by
    rw [expect, hs]
    dsimp only
    rw [run_next_bind, if_pos ht]
    rfl
  rw [run_bind_of_ok hexpect]

end Steps

/-- A kind of token with which no expression goes on. -/
def Closes (k : Token.Kind) : Prop :=
  k ≠ .lparen ∧ productOperator? k = none ∧ sumOperator? k = none ∧ comparison? k = none

section Expressions

variable {n l : Nat} {c : Cursor} {rest : List Token}

theorem termRest_stops {x : Expr} (hn : 0 < n)
    (h : productOperator? (rest.headD c.terminal).kind = none) :
    (termRest n x : ParseM Expr).run (ahead c l rest) = .ok x (ahead c l rest) := by
  obtain ⟨m, rfl⟩ : ∃ m, n = m + 1 := ⟨n - 1, by omega⟩
  rw [termRest, run_call, run_peek_bind, h]
  rfl

theorem expressionRest_stops {x : Expr} (hn : 0 < n) (h : Closes (rest.headD c.terminal).kind) :
    (expressionRest n x : ParseM Expr).run (ahead c l rest) = .ok x (ahead c l rest) := by
  obtain ⟨m, rfl⟩ : ∃ m, n = m + 1 := ⟨n - 1, by omega⟩
  obtain ⟨-, -, hsum, hcomparison⟩ := h
  rw [expressionRest, run_call, run_peek_bind]
  dsimp only
  rw [hcomparison]
  dsimp only
  rw [hsum]
  rfl

theorem productSign_ne_lparen {k : Token.Kind} {op : Operator} (h : ProductSign k op) :
    k ≠ .lparen := by
  cases h <;> simp

theorem sumSign_closes_term {k : Token.Kind} {op : Operator} (h : SumSign k op) :
    k ≠ .lparen ∧ productOperator? k = none ∧ comparison? k = none := by
  cases h <;> exact ⟨by simp, rfl, rfl⟩

theorem comparisonSign_closes_term {k : Token.Kind} {op : Operator} (h : ComparisonSign k op) :
    k ≠ .lparen ∧ productOperator? k = none := by
  cases h <;> exact ⟨by simp, rfl⟩

theorem closes_rparen : Closes .rparen :=
  ⟨by simp, rfl, rfl, rfl⟩

theorem closes_comma : Closes .comma :=
  ⟨by simp, rfl, rfl, rfl⟩

theorem closes_semi : Closes .semi :=
  ⟨by simp, rfl, rfl, rfl⟩

theorem MoreArguments.closes {us : List Token} {es : List Tree} {closing : Token}
    (h : MoreArguments us es) (hc : closing.kind = .rparen) :
    Closes ((us ++ closing :: rest).headD c.terminal).kind := by
  cases h with
  | none =>
    rw [List.nil_append, List.headD_cons, hc]
    exact closes_rparen
  | some hcomma =>
    rw [List.cons_append, List.headD_cons, hcomma]
    exact closes_comma

mutual

theorem factor_complete : {us : List Token} → {e : Tree} → Factor us e →
    ∃ x : Expr, x.toTree = e ∧ ∀ {n l c rest}, 4 * us.length ≤ n + 3 →
      (rest.headD c.terminal).kind ≠ .lparen →
      (factor n : ParseM Expr).run (ahead c l (us ++ rest)) = .ok x (ahead c l rest)
  | _, _, .number (t := t) hk => by
    refine ⟨.num t.value, rfl, fun {n l c rest} hn _ => ?_⟩
    obtain ⟨m, rfl⟩ : ∃ m, n = m + 1 := ⟨n - 1, by simp at hn; omega⟩
    rw [factor, run_call, List.cons_append, run_next_bind, hk]
    rfl
  | _, _, .name (t := t) hk => by
    refine ⟨.var t.value, rfl, fun {n l c rest} hn hrest => ?_⟩
    obtain ⟨m, rfl⟩ : ∃ m, n = m + 1 := ⟨n - 1, by simp at hn; omega⟩
    rw [factor, run_call, List.cons_append, run_next_bind, hk]
    dsimp only
    rw [List.nil_append, run_peek_bind, if_neg hrest]
    rfl
  | _, _, @Factor.call f _ _ us _ hf ho hargs hw hc => by
    obtain ⟨xs, hxs, hrun⟩ := arguments_complete hargs
    refine ⟨.call f.value xs, by rw [Expr.toTree, hxs], fun {n l c rest} hn _ => ?_⟩
    simp only [List.length_cons, List.length_append, List.length_nil] at hn
    obtain ⟨m, rfl⟩ : ∃ m, n = m + 1 := ⟨n - 1, by omega⟩
    rw [factor, run_call, List.cons_append, run_next_bind, hf]
    dsimp only
    rw [List.cons_append, run_peek_bind, List.headD_cons, if_pos ho, run_next_bind,
      List.append_assoc, List.singleton_append, run_bind_of_ok (hrun (by omega) hw hc)]
    rfl
  | _, _, .group ho he hc => by
    obtain ⟨x, hx, hrun⟩ := expression_complete he
    refine ⟨x, hx, fun {n l c rest} hn _ => ?_⟩
    simp only [List.length_cons, List.length_append, List.length_nil] at hn
    obtain ⟨m, rfl⟩ : ∃ m, n = m + 1 := ⟨n - 1, by omega⟩
    rw [factor, run_call, List.cons_append, run_next_bind, ho]
    dsimp only
    rw [List.append_assoc, List.singleton_append,
      run_bind_of_ok (hrun (by omega) (by rw [List.headD_cons, hc]; exact closes_rparen)),
      run_expect_bind .groupEnd hc]
    rfl

theorem arguments_complete : {us : List Token} → {es : List Tree} → Arguments us es →
    ∃ xs : List Expr, Expr.toTrees xs = es ∧ ∀ {n l c rest closing f}, 4 * us.length + 2 ≤ n →
      (es ≠ [] → f.Writable) → closing.kind = .rparen →
      (arguments n f : ParseM (List Expr)).run (ahead c l (us ++ closing :: rest)) =
        .ok xs (ahead c l rest)
  | _, _, .none => by
    refine ⟨[], rfl, fun {n l c rest closing f} hn hw hc => ?_⟩
    obtain ⟨m, rfl⟩ : ∃ m, n = m + 1 := ⟨n - 1, by omega⟩
    rw [arguments, run_call, List.nil_append, run_peek_bind, List.headD_cons, if_pos hc,
      run_next_bind]
    rfl
  | _, _, @Arguments.some us vs _ _ he hes => by
    obtain ⟨x, hx, hrun⟩ := expression_complete he
    obtain ⟨xs, hxs, hruns⟩ := moreArguments_complete hes
    refine ⟨x :: xs, by rw [Expr.toTrees, hx, hxs], fun {n l c rest closing f} hn hw hc => ?_⟩
    obtain ⟨t, ws, hws, ht⟩ := he.start
    rw [List.length_append] at hn
    obtain ⟨m, rfl⟩ : ∃ m, n = m + 1 := ⟨n - 1, by omega⟩
    have hfirst : ((us ++ vs ++ closing :: rest).headD c.terminal).kind ≠ .rparen := by
      rw [hws]
      intro h
      rw [List.cons_append, List.cons_append, List.headD_cons] at h
      rw [h] at ht
      cases ht
    have hlength : 0 < us.length := he.start.length_pos
    rw [arguments, run_call, run_peek_bind, if_neg hfirst, List.append_assoc,
      run_bind_of_ok (hrun (by omega) (hes.closes hc)), run_bind_of_ok (hruns (by omega) hc),
      run_expect_bind (.callEnd f) hc _ (by simpa [Place.shown] using hw (List.cons_ne_nil _ _))]
    rfl

theorem moreArguments_complete : {us : List Token} → {es : List Tree} → MoreArguments us es →
    ∃ xs : List Expr, Expr.toTrees xs = es ∧ ∀ {n l c rest closing}, 4 * us.length + 1 ≤ n →
      closing.kind = .rparen →
      (argumentsRest n : ParseM (List Expr)).run (ahead c l (us ++ closing :: rest)) =
        .ok xs (ahead c l (closing :: rest))
  | _, _, .none => by
    refine ⟨[], rfl, fun {n l c rest closing} hn hc => ?_⟩
    obtain ⟨m, rfl⟩ : ∃ m, n = m + 1 := ⟨n - 1, by omega⟩
    rw [argumentsRest, run_call, List.nil_append, run_peek_bind, List.headD_cons,
      if_neg (by simp [hc])]
    rfl
  | _, _, @MoreArguments.some _ us vs _ _ hcomma he hes => by
    obtain ⟨x, hx, hrun⟩ := expression_complete he
    obtain ⟨xs, hxs, hruns⟩ := moreArguments_complete hes
    refine ⟨x :: xs, by rw [Expr.toTrees, hx, hxs], fun {n l c rest closing} hn hc => ?_⟩
    rw [List.length_cons, List.length_append] at hn
    obtain ⟨m, rfl⟩ : ∃ m, n = m + 1 := ⟨n - 1, by omega⟩
    rw [argumentsRest, run_call, List.cons_append, run_peek_bind, List.headD_cons, if_pos hcomma,
      run_next_bind, List.append_assoc, run_bind_of_ok (hrun (by omega) (hes.closes hc)),
      run_bind_of_ok (hruns (by omega) hc)]
    rfl

/-- The chain may go on behind the tokens. -/
theorem term_complete : {us : List Token} → {e : Tree} → Term us e →
    ∃ x : Expr, x.toTree = e ∧ ∀ {n l c rest}, 4 * us.length ≤ n + 2 →
      (rest.headD c.terminal).kind ≠ .lparen →
      ∃ n', n + 3 ≤ n' + 4 * us.length ∧ (term n : ParseM Expr).run (ahead c l (us ++ rest)) =
        (termRest n' x : ParseM Expr).run (ahead c l rest)
  | us, _, .factor h => by
    obtain ⟨x, hx, hrun⟩ := factor_complete h
    refine ⟨x, hx, fun {n l c rest} hn hrest => ?_⟩
    have hlength : 0 < us.length := h.start.length_pos
    obtain ⟨m, rfl⟩ : ∃ m, n = m + 1 := ⟨n - 1, by omega⟩
    refine ⟨m, by omega, ?_⟩
    rw [term, run_call, run_bind_of_ok (hrun (by omega) hrest)]
  | _, _, @Term.product sign op us vs _ _ hl hsign hr => by
    obtain ⟨x, hx, hrun⟩ := term_complete hl
    obtain ⟨y, hy, hrun'⟩ := factor_complete hr
    refine ⟨.binary op x y, by rw [Expr.toTree, hx, hy, operation],
      fun {n l c rest} hn hrest => ?_⟩
    rw [List.length_append, List.length_cons] at hn ⊢
    have hnext : ((sign :: (vs ++ rest)).headD c.terminal).kind ≠ .lparen :=
      productSign_ne_lparen hsign
    obtain ⟨n', hn', hstart⟩ := @hrun n l c _ (by omega) hnext
    obtain ⟨m, rfl⟩ : ∃ m, n' = m + 1 := ⟨n' - 1, by omega⟩
    refine ⟨m, by omega, ?_⟩
    rw [List.append_assoc, List.cons_append, hstart, termRest, run_call, run_peek_bind,
      List.headD_cons, productOperator?_eq_some.mpr hsign]
    dsimp only
    rw [run_next_bind, run_bind_of_ok (hrun' (by omega) hrest)]

theorem additive_complete : {us : List Token} → {e : Tree} → Additive us e →
    ∃ x : Expr, x.toTree = e ∧ ∀ {n l c rest}, 4 * us.length ≤ n + 1 →
      (rest.headD c.terminal).kind ≠ .lparen →
      productOperator? (rest.headD c.terminal).kind = none →
      ∃ n', n + 2 ≤ n' + 4 * us.length ∧ (expression n : ParseM Expr).run (ahead c l (us ++ rest)) =
        (expressionRest n' x : ParseM Expr).run (ahead c l rest)
  | us, _, .term h => by
    obtain ⟨x, hx, hrun⟩ := term_complete h
    refine ⟨x, hx, fun {n l c rest} hn hrest hproduct => ?_⟩
    have hlength : 0 < us.length := h.start.length_pos
    obtain ⟨m, rfl⟩ : ∃ m, n = m + 1 := ⟨n - 1, by omega⟩
    obtain ⟨m', hm', hterm⟩ := @hrun m l c _ (by omega) hrest
    rw [termRest_stops (by omega) hproduct] at hterm
    refine ⟨m, by omega, ?_⟩
    rw [expression, run_call, run_bind_of_ok hterm]
  | _, _, @Additive.sum sign op us vs _ _ hl hsign hr => by
    obtain ⟨x, hx, hrun⟩ := additive_complete hl
    obtain ⟨y, hy, hrun'⟩ := term_complete hr
    refine ⟨.binary op x y, by rw [Expr.toTree, hx, hy, operation],
      fun {n l c rest} hn hrest hproduct => ?_⟩
    rw [List.length_append, List.length_cons] at hn ⊢
    obtain ⟨hparen, hsum, hcomparison⟩ := sumSign_closes_term hsign
    obtain ⟨n', hn', hstart⟩ := @hrun n l c (sign :: (vs ++ rest)) (by omega) hparen hsum
    obtain ⟨m, rfl⟩ : ∃ m, n' = m + 1 := ⟨n' - 1, by omega⟩
    obtain ⟨m', hm', hterm⟩ := @hrun' m l c _ (by omega) hrest
    rw [termRest_stops (by omega) hproduct] at hterm
    refine ⟨m, by omega, ?_⟩
    rw [List.append_assoc, List.cons_append, hstart, expressionRest, run_call, run_peek_bind,
      List.headD_cons]
    dsimp only
    rw [hcomparison]
    dsimp only
    rw [sumOperator?_eq_some.mpr hsign]
    dsimp only
    rw [run_next_bind, run_bind_of_ok hterm]

theorem expression_complete : {us : List Token} → {e : Tree} → Expression us e →
    ∃ x : Expr, x.toTree = e ∧ ∀ {n l c rest}, 4 * us.length ≤ n + 1 →
      Closes (rest.headD c.terminal).kind →
      (expression n : ParseM Expr).run (ahead c l (us ++ rest)) = .ok x (ahead c l rest)
  | us, _, .additive h => by
    obtain ⟨x, hx, hrun⟩ := additive_complete h
    refine ⟨x, hx, fun {n l c rest} hn hrest => ?_⟩
    obtain ⟨n', hn', hsum⟩ := hrun hn hrest.1 hrest.2.1
    rw [hsum, expressionRest_stops (by omega) hrest]
  | _, _, @Expression.comparison sign op us vs _ _ hl hsign hr => by
    obtain ⟨x, hx, hrun⟩ := additive_complete hl
    obtain ⟨y, hy, hrun'⟩ := expression_complete hr
    refine ⟨.binary op x y, by rw [Expr.toTree, hx, hy, operation],
      fun {n l c rest} hn hrest => ?_⟩
    rw [List.length_append, List.length_cons] at hn
    obtain ⟨hparen, hproduct⟩ := comparisonSign_closes_term hsign
    obtain ⟨n', hn', hstart⟩ := @hrun n l c (sign :: (vs ++ rest)) (by omega) hparen hproduct
    obtain ⟨m, rfl⟩ : ∃ m, n' = m + 1 := ⟨n' - 1, by omega⟩
    rw [List.append_assoc, List.cons_append, hstart, expressionRest, run_call, run_peek_bind,
      List.headD_cons]
    dsimp only
    rw [comparison?_eq_some.mpr hsign]
    dsimp only
    rw [run_next_bind, run_bind_of_ok (hrun' (by omega) hrest)]
    rfl

end

end Expressions

section Statements

theorem assignment_complete {us : List Token} {e : Tree} (h : Assignment us e) :
    ∃ s : Stmt, s.toTree = e ∧ ∀ {n l c rest}, 4 * us.length ≤ n + 1 →
      (assignment n : ParseM Stmt).run (ahead c l (us ++ rest)) = .ok s (ahead c l rest) := by
  cases h with
  | @assign x sign semi us e hx hw hsign he hsemi =>
    obtain ⟨y, hy, hrun⟩ := expression_complete he
    refine ⟨.assign x.value y, by rw [Stmt.toTree, hy], fun {n l c rest} hn => ?_⟩
    simp only [List.length_cons, List.length_append, List.length_nil] at hn
    have hexpression : (assignmentExpression n : ParseM Stmt).run
        (ahead c l (x :: sign :: (us ++ semi :: rest))) =
          .ok (.assign x.value y) (ahead c l (semi :: rest)) := by
      rw [assignmentExpression, run_call, run_next_bind, if_pos hx,
        run_expect_bind (.assignSign x.value) hsign _ (by simpa [Place.shown] using hw),
        run_bind_of_ok (hrun (by omega) (by rw [List.headD_cons, hsemi]; exact closes_semi))]
      rfl
    rw [List.cons_append, List.cons_append, List.append_assoc, List.singleton_append, assignment,
      run_call, run_peek_bind, List.headD_cons, if_neg (by simp [hx]), run_bind_of_ok hexpression,
      run_expect_bind .assignmentEnd hsemi]
    rfl
  | empty hsemi =>
    refine ⟨.noop, rfl, fun {n l c rest} _ => ?_⟩
    rw [List.singleton_append, assignment, run_call, run_peek_bind, List.headD_cons, if_pos hsemi,
      run_next_bind]
    rfl

theorem condition_complete {keyword : Token.Kind} {us : List Token} {e : Tree}
    (h : Condition keyword us e) :
    ∃ x : Expr, x.toTree = e ∧ ∀ {n l c rest}, 4 * us.length ≤ n →
      (condition n keyword : ParseM Expr).run (ahead c l (us ++ rest)) =
        .ok x (ahead c l rest) := by
  cases h with
  | @intro word opening closing us _ hword ho he hc =>
    obtain ⟨x, hx, hrun⟩ := expression_complete he
    refine ⟨x, hx, fun {n l c rest} hn => ?_⟩
    simp only [List.length_cons, List.length_append, List.length_nil] at hn
    rw [condition, run_call, List.cons_append, List.cons_append, List.append_assoc,
      List.singleton_append, run_expect_bind (.statementStart keyword) hword,
      run_expect_bind (.conditionStart keyword) ho,
      run_bind_of_ok (hrun (by omega) (by rw [List.headD_cons, hc]; exact closes_rparen)),
      run_expect_bind (.conditionEnd keyword) hc]
    rfl

/-- Behind a statement of a block another one starts or the block ends. -/
theorem Statements.head {us : List Token} {es : List Tree} (h : Statements us es)
    {closing : Token} (hc : closing.kind = .rbrace) (c : Cursor) (rest : List Token) :
    ((us ++ closing :: rest).headD c.terminal).kind ≠ .elseWord := by
  cases h with
  | nil =>
    rw [List.nil_append, List.headD_cons, hc]
    simp
  | cons h _ =>
    obtain ⟨t, ws, rfl, ht⟩ := h.start
    intro hk
    rw [List.cons_append, List.cons_append, List.headD_cons] at hk
    rw [hk] at ht
    cases ht

mutual

theorem statement_complete : {us : List Token} → {e : Tree} → Statement us e →
    ∃ s : Stmt, s.toTree = e ∧ ∀ {n l c rest}, 0 < l → 4 * us.length ≤ n →
      (EndsOpen e → (rest.headD c.terminal).kind ≠ .elseWord) →
      (statement n : ParseM Stmt).run (ahead c l (us ++ rest)) = .ok s (ahead c l rest)
  | us, _, .block h => by
    obtain ⟨ss, hss, hrun⟩ := block_complete h
    refine ⟨.block ss, hss, fun {n l c rest} hl hn _ => ?_⟩
    obtain ⟨t, ws, hws, ht⟩ := h.start
    have hhead : ((us ++ rest).headD c.terminal).kind = .lbrace := by
      rw [hws]
      exact ht
    have hlength : us.length = ws.length + 1 := by rw [hws, List.length_cons]
    obtain ⟨m, rfl⟩ : ∃ m, n = m + 1 := ⟨n - 1, by omega⟩
    rw [statement, run_call, run_peek_bind, hhead]
    dsimp only
    rw [run_bind_of_ok (hrun hl (by omega))]
    rfl
  | us, _, .assignment h => by
    obtain ⟨s, hs, hrun⟩ := assignment_complete h
    refine ⟨s, hs, fun {n l c rest} _ hn _ => ?_⟩
    have hlength : 0 < us.length := h.start.length_pos
    obtain ⟨m, rfl⟩ : ∃ m, n = m + 1 := ⟨n - 1, by omega⟩
    rw [statement, run_call, run_peek_bind]
    cases h with
    | assign hx =>
      rw [List.cons_append, List.headD_cons, hx]
      exact hrun (by omega)
    | empty hsemi =>
      rw [List.cons_append, List.headD_cons, hsemi]
      exact hrun (by omega)
  | _, _, @Statement.loop us vs _ _ hc hb => by
    obtain ⟨x, hx, hrun⟩ := condition_complete hc
    obtain ⟨s, hs, hruns⟩ := statement_complete hb
    refine ⟨.loop x s, by rw [Stmt.toTree, hx, hs], fun {n l c rest} hl hn hopen => ?_⟩
    obtain ⟨t, ws, hws, ht⟩ := hc.start
    have hhead : ((us ++ vs ++ rest).headD c.terminal).kind = .whileWord := by
      rw [hws]
      exact ht
    have hlength : us.length = ws.length + 1 := by rw [hws, List.length_cons]
    have hbody := hb.length_pos
    rw [List.length_append] at hn
    obtain ⟨m, rfl⟩ : ∃ m, n = m + 1 + 1 := ⟨n - 2, by omega⟩
    rw [statement, run_call, run_peek_bind, hhead]
    dsimp only
    rw [whileStatement, run_call, List.append_assoc, run_bind_of_ok (hrun (by omega)),
      run_bind_of_ok (hruns hl (by omega) fun h => hopen (.loop _ h))]
    rfl
  | _, _, @Statement.ifThen us vs _ _ hc hb => by
    obtain ⟨x, hx, hrun⟩ := condition_complete hc
    obtain ⟨s, hs, hruns⟩ := statement_complete hb
    refine ⟨.ifThen x s, by rw [Stmt.toTree, hx, hs], fun {n l c rest} hl hn hopen => ?_⟩
    obtain ⟨t, ws, hws, ht⟩ := hc.start
    have hhead : ((us ++ vs ++ rest).headD c.terminal).kind = .ifWord := by
      rw [hws]
      exact ht
    have hlength : us.length = ws.length + 1 := by rw [hws, List.length_cons]
    have hbody := hb.length_pos
    have helse := hopen (.ifThen _ _)
    rw [List.length_append] at hn
    obtain ⟨m, rfl⟩ : ∃ m, n = m + 1 + 1 := ⟨n - 2, by omega⟩
    rw [statement, run_call, run_peek_bind, hhead]
    dsimp only
    rw [ifStatement, run_call, List.append_assoc, run_bind_of_ok (hrun (by omega)),
      run_bind_of_ok (hruns hl (by omega) fun _ => helse), run_peek_bind, if_neg helse]
    rfl
  | _, _, @Statement.ifElse word us vs ws' _ _ _ hc hb hclosed hword he => by
    obtain ⟨x, hx, hrun⟩ := condition_complete hc
    obtain ⟨s, hs, hruns⟩ := statement_complete hb
    obtain ⟨e, he', hrune⟩ := statement_complete he
    refine ⟨.ifElse x s e, by rw [Stmt.toTree, hx, hs, he'], fun {n l c rest} hl hn hopen => ?_⟩
    obtain ⟨t, ws, hws, ht⟩ := hc.start
    have hhead : ((us ++ (vs ++ word :: ws') ++ rest).headD c.terminal).kind = .ifWord := by
      rw [hws]
      exact ht
    have hlength : us.length = ws.length + 1 := by rw [hws, List.length_cons]
    simp only [List.length_append, List.length_cons] at hn
    obtain ⟨m, rfl⟩ : ∃ m, n = m + 1 + 1 := ⟨n - 2, by omega⟩
    rw [statement, run_call, run_peek_bind, hhead]
    dsimp only
    rw [ifStatement, run_call, List.append_assoc, List.append_assoc, List.cons_append,
      run_bind_of_ok (hrun (by omega)),
      run_bind_of_ok (hruns hl (by omega) fun h => absurd h hclosed), run_peek_bind,
      List.headD_cons, if_pos hword, run_next_bind,
      run_bind_of_ok (hrune hl (by omega) fun h => hopen (.ifElse _ _ h))]
    rfl
  | _, _, @Statement.ret word semi us _ hword he hsemi => by
    obtain ⟨x, hx, hrun⟩ := expression_complete he
    refine ⟨.ret x, by rw [Stmt.toTree, hx], fun {n l c rest} hl hn _ => ?_⟩
    simp only [List.length_cons, List.length_append, List.length_nil] at hn
    obtain ⟨m, rfl⟩ : ∃ m, n = m + 1 := ⟨n - 1, by omega⟩
    have hlevel : ¬ l = 0 := by omega
    rw [List.cons_append, List.append_assoc, List.singleton_append, statement, run_call,
      run_peek_bind, List.headD_cons, hword]
    dsimp only
    rw [returnStatement, run_call, run_getLevel_bind, if_neg hlevel,
      run_expect_bind .returnStart hword,
      run_bind_of_ok (hrun (by omega) (by rw [List.headD_cons, hsemi]; exact closes_semi)),
      run_expect_bind .returnEnd hsemi]
    rfl

theorem block_complete : {us : List Token} → {e : Tree} → Block us e →
    ∃ ss : List Stmt, Stmt.toTree (.block ss) = e ∧ ∀ {n l c rest}, 0 < l →
      4 * us.length ≤ n + 1 →
      (block n : ParseM (List Stmt)).run (ahead c l (us ++ rest)) = .ok ss (ahead c l rest)
  | _, _, @Block.intro opening closing us vs _ _ ho hs hss hc => by
    obtain ⟨s, hs', hrun⟩ := statement_complete hs
    obtain ⟨ss, hss', hruns⟩ := statements_complete hss
    refine ⟨s :: ss, by rw [Stmt.toTree, Stmt.toTrees, hs', hss'], fun {n l c rest} hl hn => ?_⟩
    simp only [List.length_cons, List.length_append, List.length_nil] at hn
    obtain ⟨m, rfl⟩ : ∃ m, n = m + 1 := ⟨n - 1, by omega⟩
    rw [block, run_call, List.cons_append, List.append_assoc, List.append_assoc,
      List.singleton_append, run_expect_bind .blockStart ho,
      run_bind_of_ok (hrun hl (by omega) fun _ => hss.head hc c rest),
      run_bind_of_ok (hruns hl (by omega) hc), run_expect_bind .blockEnd hc]
    rfl

theorem statements_complete : {us : List Token} → {es : List Tree} → Statements us es →
    ∃ ss : List Stmt, Stmt.toTrees ss = es ∧ ∀ {n l c rest closing}, 0 < l →
      4 * us.length + 1 ≤ n → closing.kind = .rbrace →
      (statements n : ParseM (List Stmt)).run (ahead c l (us ++ closing :: rest)) =
        .ok ss (ahead c l (closing :: rest))
  | _, _, .nil => by
    refine ⟨[], rfl, fun {n l c rest closing} _ hn hc => ?_⟩
    obtain ⟨m, rfl⟩ : ∃ m, n = m + 1 := ⟨n - 1, by omega⟩
    rw [statements, run_call, List.nil_append, run_peek_bind, List.headD_cons, hc]
    rfl
  | _, _, @Statements.cons us vs _ _ hs hss => by
    obtain ⟨s, hs', hrun⟩ := statement_complete hs
    obtain ⟨ss, hss', hruns⟩ := statements_complete hss
    refine ⟨s :: ss, by rw [Stmt.toTrees, hs', hss'], fun {n l c rest closing} hl hn hc => ?_⟩
    obtain ⟨t, ws, hws, ht⟩ := hs.start
    have hhead : startsStatement ((us ++ vs ++ closing :: rest).headD c.terminal).kind = true := by
      rw [hws]
      exact ht
    have hlength := hs.length_pos
    rw [List.length_append] at hn
    obtain ⟨m, rfl⟩ : ∃ m, n = m + 1 := ⟨n - 1, by omega⟩
    rw [statements, run_call, run_peek_bind, if_pos hhead, List.append_assoc,
      run_bind_of_ok (hrun hl (by omega) fun _ => hss.head hc c rest),
      run_bind_of_ok (hruns hl (by omega) hc)]
    rfl

end

theorem moreParameters_complete {us : List Token} {xs : List Label} (h : MoreParameters us xs)
    {n l : Nat} {c : Cursor} {closing t : Token} {rest : List Token} {f : Label}
    (hn : us.length < n) (ht : t.kind = .identifier) (hc : closing.kind = .rparen) :
    (parametersFrom n f t : ParseM (List Label)).run (ahead c l (us ++ closing :: rest)) =
      .ok (t.value :: xs) (ahead c l rest) := by
  induction h generalizing n t with
  | none =>
    obtain ⟨m, rfl⟩ : ∃ m, n = m + 1 := ⟨n - 1, by omega⟩
    rw [parametersFrom, run_call, if_pos ht, List.nil_append, run_next_bind, hc]
    rfl
  | some hcomma hx _ ih =>
    simp only [List.length_cons] at hn
    obtain ⟨m, rfl⟩ : ∃ m, n = m + 1 := ⟨n - 1, by omega⟩
    rw [parametersFrom, run_call, if_pos ht, List.cons_append, List.cons_append, run_next_bind,
      hcomma]
    dsimp only
    rw [run_next_bind, run_bind_of_ok (ih (by omega) hx)]
    rfl

theorem parameters_complete {us : List Token} {xs : List Label} (h : Parameters us xs)
    {n l : Nat} {c : Cursor} {closing : Token} {rest : List Token} {f : Label} (hn : us.length ≤ n)
    (hc : closing.kind = .rparen) :
    (parameters n f : ParseM (List Label)).run (ahead c l (us ++ closing :: rest)) =
      .ok xs (ahead c l rest) := by
  cases h with
  | none =>
    rw [parameters, run_call, List.nil_append, run_next_bind, if_pos hc]
    rfl
  | some hx h =>
    rw [parameters, run_call, List.cons_append, run_next_bind, if_neg (by simp [hx])]
    exact moreParameters_complete h hn hx hc

theorem declaration_complete {us : List Token} {e : Tree} (h : Declaration us e) :
    ∃ s : Stmt, s.toTree = e ∧ ∀ {n c rest}, 4 * us.length ≤ n →
      (functionDeclaration n : ParseM Stmt).run (ahead c 0 (us ++ rest)) =
        .ok s (ahead c 0 rest) := by
  cases h with
  | @intro word f opening closing us vs params b hword hf hw ho hparams hc hb =>
    obtain ⟨body, hbody, hrun⟩ := block_complete hb
    rw [Stmt.toTree] at hbody
    refine ⟨.func f.value params body, by rw [Stmt.toTree, hbody], fun {n c rest} hn => ?_⟩
    simp only [List.length_cons, List.length_append] at hn
    obtain ⟨m, rfl⟩ : ∃ m, n = m + 1 := ⟨n - 1, by omega⟩
    simp only [List.cons_append, List.append_assoc]
    rw [functionDeclaration, run_call, run_getLevel_bind, if_neg (by omega), run_setLevel_bind,
      run_expect_bind .declarationStart hword, run_next_bind, if_pos hf,
      run_expect_bind (.parametersStart f.value) ho _ (by simpa [Place.shown] using hw),
      run_bind_of_ok (parameters_complete hparams (by omega) hc),
      run_bind_of_ok (hrun Nat.one_pos (by omega)), run_getLevel_bind, run_setLevel_bind]
    rfl

theorem elements_complete {us : List Token} {es : List Tree} (h : Elements us es) :
    ∃ p : Program, Stmt.toTrees p = es ∧ ∀ {n c rest}, 4 * us.length < n →
      (rest.headD c.terminal).kind = .eof →
      (elements n : ParseM Program).run (ahead c 0 (us ++ rest)) = .ok p (ahead c 0 rest) := by
  induction h with
  | nil =>
    refine ⟨[], rfl, fun {n c rest} hn heof => ?_⟩
    obtain ⟨m, rfl⟩ : ∃ m, n = m + 1 := ⟨n - 1, by omega⟩
    rw [elements, run_call, run_peek_bind, List.nil_append, heof]
    rfl
  | @assignment us vs e es h _ ih =>
    obtain ⟨s, hs, hrun⟩ := assignment_complete h
    obtain ⟨p, hp, hruns⟩ := ih
    refine ⟨s :: p, by rw [Stmt.toTrees, hs, hp], fun {n c rest} hn heof => ?_⟩
    have hlength : 0 < us.length := h.start.length_pos
    rw [List.length_append] at hn
    obtain ⟨m, rfl⟩ : ∃ m, n = m + 1 := ⟨n - 1, by omega⟩
    have hgo : (do let s ← assignment m; let ss ← elements m; return s :: ss : ParseM Program).run
        (ahead c 0 (us ++ vs ++ rest)) = .ok (s :: p) (ahead c 0 rest) := by
      rw [List.append_assoc, run_bind_of_ok (hrun (by omega)),
        run_bind_of_ok (hruns (by omega) heof)]
      rfl
    rw [elements, run_call, run_peek_bind]
    cases h with
    | assign hx =>
      rw [List.cons_append, List.cons_append, List.headD_cons, hx]
      exact hgo
    | empty hsemi =>
      rw [List.cons_append, List.cons_append, List.headD_cons, hsemi]
      exact hgo
  | @declaration us vs e es h _ ih =>
    obtain ⟨s, hs, hrun⟩ := declaration_complete h
    obtain ⟨p, hp, hruns⟩ := ih
    refine ⟨s :: p, by rw [Stmt.toTrees, hs, hp], fun {n c rest} hn heof => ?_⟩
    have hlength : 0 < us.length := h.length_pos
    rw [List.length_append] at hn
    obtain ⟨m, rfl⟩ : ∃ m, n = m + 1 := ⟨n - 1, by omega⟩
    have hhead : ((us ++ vs ++ rest).headD c.terminal).kind = .functionWord := by
      cases h with
      | intro hword => exact hword
    rw [elements, run_call, run_peek_bind, hhead]
    dsimp only
    rw [run_setLevel_bind, List.append_assoc, run_bind_of_ok (hrun (by omega)),
      run_bind_of_ok (hruns (by omega) heof)]
    rfl

end Statements

end StackLang.Grammar

namespace StackLang

open Grammar

theorem parseProgram_of_elements {ts : List Token} {eof : Token} (heof : eof.kind = .eof)
    {es : List Tree} (h : Elements ts es) :
    ∃ p : Program, Stmt.toTrees p = es ∧ parseProgram (ts ++ [eof]) = .ok p := by
  obtain ⟨p, hp, hrun⟩ := elements_complete h
  have hbudget : 4 * ts.length < (Reader.ofTokens (ts ++ [eof])).budget := by
    simp only [Reader.budget, Reader.ofTokens, Cursor.pending, Cursor.ofTokens,
      List.length_append, List.length_nil]
    omega
  have hread := @hrun _ (Cursor.ofTokens (ts ++ [eof])) [eof] hbudget heof
  have hstart : Reader.ofTokens (ts ++ [eof]) =
      .ahead (Cursor.ofTokens (ts ++ [eof])) 0 (ts ++ [eof]) := rfl
  rw [← hstart] at hread
  refine ⟨p, hp, ?_⟩
  unfold parseProgram
  rw [run_sufficiently, hread]

/-- The parser accepts exactly the programs of the grammar and returns their trees, of which each
program has one only. What it refuses it refuses with an error whose message can be written unless
it shows a number of too many digits. -/
theorem parseProgram_iff_toplevel {ts : List Token} (hts : ∀ t ∈ ts, t.kind ≠ .eof) {eof : Token}
    (heof : eof.kind = .eof) :
    (∀ e, (parseProgram (ts ++ [eof])).map Program.toTree = .ok e ↔ Toplevel ts e) ∧
    (∀ e e', Toplevel ts e → Toplevel ts e' → e = e') ∧
    ((¬ ∃ e, Toplevel ts e) → ∃ err, parseProgram (ts ++ [eof]) = .error err ∧ err ≠ .budget ∧
      (∀ x ∈ err.shown, ∃ t ∈ ts ++ [eof], t.value = x) ∧
      ((∀ x ∈ err.shown, x.Writable) ∧ (∃ text, err.message = .ok text) ∨
        (∃ x ∈ err.shown, ¬ x.Writable) ∧ err.message = .error .tooManyDigits)) := by
  have hlive : (ts ++ [eof]).takeWhile (·.kind ≠ .eof) = ts := by
    rw [List.takeWhile_append_of_pos (by simpa using hts)]
    simp [heof]
  have hiff : ∀ e, (parseProgram (ts ++ [eof])).map Program.toTree = .ok e ↔ Toplevel ts e := by
    intro e
    constructor
    · intro h
      rcases parseProgram_cases (ts ++ [eof]) with ⟨p, hp, helements, -⟩ | ⟨err, herr, -⟩
      · rw [hp] at h
        cases h
        rw [hlive] at helements
        exact .intro helements
      · rw [herr] at h
        cases h
    · rintro ⟨helements⟩
      obtain ⟨p, rfl, hparse⟩ := parseProgram_of_elements heof helements
      rw [hparse]
      rfl
  refine ⟨hiff, ?_, ?_⟩
  · intro e e' he he'
    have h := (hiff e).mpr he
    rw [(hiff e').mpr he'] at h
    cases h
    rfl
  · intro hnone
    rcases parseProgram_cases (ts ++ [eof]) with ⟨p, hp, -⟩ | ⟨err, herr, hbudget, hshown⟩
    · exact absurd ⟨p.toTree, (hiff _).mp (by rw [hp]; rfl)⟩ hnone
    · refine ⟨err, herr, hbudget, ?_, ?_⟩
      · have hterminal : Cursor.terminalOf (ts ++ [eof]) = eof := by
          simp [Cursor.terminalOf, heof]
        intro x hx
        obtain ⟨t, ht, htx⟩ := hshown x hx
        rw [hterminal] at ht
        refine ⟨t, ?_, htx⟩
        rcases List.mem_cons.mp ht with rfl | ht
        · simp
        · exact ht
      · by_cases hw : ∀ x ∈ err.shown, x.Writable
        · exact .inl ⟨hw, ParseError.message_ok hbudget hw⟩
        · obtain ⟨x, hx⟩ := Classical.not_forall.mp hw
          have hx := Classical.not_imp.mp hx
          exact .inr ⟨⟨x, hx⟩, ParseError.message_error ⟨x, hx⟩⟩

theorem toplevel_dangling_else :
    Toplevel
      [⟨.functionWord, none⟩, ⟨.identifier, some (.word "main")⟩, ⟨.lparen, none⟩,
        ⟨.identifier, some (.word "x")⟩, ⟨.rparen, none⟩, ⟨.lbrace, none⟩, ⟨.ifWord, none⟩,
        ⟨.lparen, none⟩, ⟨.identifier, some (.word "x")⟩, ⟨.less, none⟩,
        ⟨.number, some (.int 1)⟩, ⟨.less, none⟩, ⟨.number, some (.int 2)⟩, ⟨.rparen, none⟩,
        ⟨.ifWord, none⟩, ⟨.lparen, none⟩, ⟨.identifier, some (.word "x")⟩, ⟨.rparen, none⟩,
        ⟨.semi, none⟩, ⟨.elseWord, none⟩, ⟨.semi, none⟩, ⟨.rbrace, none⟩]
      (.node .toplevel none [.node .functionDecl (some (.word "main"))
        [.node .block none
          [.node .ifStmt none
            [operation .lt (.leaf .identifier (some (.word "x")))
              (operation .lt (.leaf .number (some (.int 1))) (.leaf .number (some (.int 2)))),
             .node .ifStmt none
              [.leaf .identifier (some (.word "x")), .leaf .noop none, .leaf .noop none]]],
         .leaf .parameter (some (.word "x"))]]) := by
  have heof : Token.terminal.kind = .eof := rfl
  exact ((parseProgram_iff_toplevel (by decide) heof).1 _).mp (by cbv)

end StackLang
