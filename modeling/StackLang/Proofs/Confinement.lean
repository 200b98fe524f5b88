import StackLang.Proofs.Spans

namespace StackLang

open Session Machine

mutual

/-- Every path through the statement comes to a return. -/
def Stmt.AlwaysReturns : Stmt → Prop
  | .ret _ => True
  | .ifElse _ t e => AlwaysReturns t ∧ AlwaysReturns e
  | .block ss => SomeReturns ss
  | .assign _ _ => False
  | .noop => False
  | .ifThen _ _ => False
  | .loop _ _ => False
  | .func _ _ _ => False

def Stmt.SomeReturns : List Stmt → Prop
  | [] => False
  | S :: ss => AlwaysReturns S ∨ SomeReturns ss

end

/-- No function can be left at its end. -/
def Program.AlwaysReturns (p : Program) : Prop :=
  ∀ f params body, .func f params body ∈ p → Stmt.SomeReturns body

mutual

theorem Stmt.code_pos : (S : Stmt) → (Γ : Context) → (a : Nat) → S.AlwaysReturns →
    0 < (S.code Γ a).length
  | .ret e, Γ, a, _ => by
    rw [Stmt.code, List.length_append, List.length_singleton]
    omega
  | .ifElse c t e, Γ, a, _ => by
    simp only [Stmt.code, List.length_append, List.length_singleton]
    omega
  | .block ss, Γ, a, h => codeAll_pos ss Γ a h

theorem Stmt.codeAll_pos : (ss : List Stmt) → (Γ : Context) → (a : Nat) → Stmt.SomeReturns ss →
    0 < (Stmt.codeAll Γ a ss).length
  | S :: ss, Γ, a, h => by
    rw [Stmt.codeAll, List.length_append]
    rcases h with h | h
    · have hS := code_pos S Γ a h
      omega
    · have hss := codeAll_pos ss (S.context Γ) (a + (S.code Γ a).length) h
      omega

end

/-- A function is left in a step, and not by a call or a return: behind its last instruction, or
because it has no code at all. -/
inductive FallsOff (s : Session) (p : Program) (m m' : Machine) : Prop where
  | atEnd {x : Span} {params : List Label} {body : List Stmt} : x ∈ p.spans →
      x.Declares params body → x.Covers m.pc → m'.pc = x.stop → ¬ s.IsReturn m.pc →
      ¬ s.IsCall m.pc → FallsOff s p m m'
  | main : m.pc = 1 → (∀ n, ¬ p.Enters m'.pc n) → FallsOff s p m m'
  | call : s.IsCall m.pc → ¬ p.Enters m'.pc m'.argc → FallsOff s p m m'

/-- For so many steps control stays in functions until `Q` holds, unless one of them is left at its
end. -/
def Safe (s : Session) (p : Program) : Nat → Machine → (Machine → Prop) → Prop
  | 0, _, _ => True
  | k + 1, m, Q => Q m ∨ p.InFunction m.pc ∧ ∀ m', s.Next m m' →
      (FallsOff s p m m' → ¬ p.AlwaysReturns) ∧ (¬ FallsOff s p m m' → Safe s p k m' Q)

section Safety

variable {s : Session} {p : Program} {k j : Nat} {m : Machine} {Q Q' : Machine → Prop}

theorem safe_of (h : Q m) : Safe s p k m Q := by
  cases k with
  | zero => trivial
  | succ k => exact .inl h

theorem Safe.bind_le (h : Safe s p k m Q) (hj : j ≤ k)
    (hq : ∀ i ≤ j, ∀ m', Q m' → Safe s p i m' Q') : Safe s p j m Q' := by
  induction j generalizing k m with
  | zero => trivial
  | succ j ih =>
    obtain ⟨k, rfl⟩ : ∃ k', k = k' + 1 := ⟨k - 1, by omega⟩
    rcases h with h | ⟨hin, h⟩
    · exact hq (j + 1) (Nat.le_refl _) m h
    · refine .inr ⟨hin, fun m' hnext => ?_⟩
      obtain ⟨hfall, hsafe⟩ := h m' hnext
      exact ⟨hfall, fun hno => ih (hsafe hno) (by omega) fun i hi => hq i (by omega)⟩

theorem Safe.mono (h : Safe s p k m Q) (hj : j ≤ k) : Safe s p j m Q :=
  h.bind_le hj fun _ _ _ hm => safe_of hm

theorem Safe.bind (h : Safe s p k m Q) (hq : ∀ m', Q m' → Safe s p k m' Q') : Safe s p k m Q' :=
  h.bind_le (Nat.le_refl k) fun _ hi m' hm => (hq m' hm).mono hi

end Safety

section Steps

variable {s : Session} {p : Program} {k : Nat} {Q : Machine → Prop} {x : Span}
  {params : List Label} {body : List Stmt} {pc t : Nat} {i : Instruction} {c : List Instruction}
  {bp bp' argc argc' : Int} {st st' : List Int}

theorem covers_running (hlow : x.first ≤ pc) (hhigh : pc < x.stop) :
    x.Covers (running pc bp argc st).pc := by
  simp only [Span.Covers, running]
  omega

theorem not_fallsOff {m m' : Machine} (hx : x ∈ p.spans) (hd : x.Declares params body)
    (hm : x.Covers m.pc) (hm' : x.Covers m'.pc) (hcall : ¬ s.IsCall m.pc) :
    ¬ FallsOff s p m m' := by
  rintro (⟨hy, -, hcovers, hstop, -, -⟩ | ⟨hone, -⟩ | ⟨h, -⟩)
  · cases Program.eq_of_covers hx hy hm hcovers
    have hhigh := hm'.2
    omega
  · have hin : p.InFunction m.pc := ⟨x, hx, params, body, hd, hm⟩
    have htwo := hin.two_le
    omega
  · exact hcall h

/-- An instruction in a function that is neither a call nor a return goes on in the function, or
leaves it at its end. -/
theorem Session.Holds.safe (hx : x ∈ p.spans) (hd : x.Declares params body)
    (hc : s.Holds pc (i :: c)) (hlow : x.first ≤ pc) (hhigh : pc < x.stop)
    (hret : i.opcode ≠ .ret) (hcall : ¬ s.IsCall pc)
    (h : ∀ o m', (execute s.config.haltOnReturn s.sink s.program.size i).run
        (running pc bp argc st) = .ok o m' →
      x.Covers m'.pc ∧ (∀ j < k, Safe s p j m' Q) ∨ m'.pc = x.stop ∧ ¬ p.AlwaysReturns) :
    Safe s p k (running pc bp argc st) Q := by
  have hm : x.Covers (running pc bp argc st).pc := covers_running hlow hhigh
  cases k with
  | zero => trivial
  | succ k =>
    refine .inr ⟨⟨x, hx, params, body, hd, hm⟩, fun m' hnext => ?_⟩
    obtain ⟨j, o, hj, hrun⟩ := hnext.fetch rfl
    rw [hc.getElem?] at hj
    cases hj
    rcases h o m' hrun with ⟨hm', hsafe⟩ | ⟨hstop, hnot⟩
    · have hno : ¬ FallsOff s p (running pc bp argc st) m' := not_fallsOff hx hd hm hm' hcall
      exact ⟨fun hfall => absurd hfall hno, fun _ => hsafe k (Nat.lt_succ_self k)⟩
    · have hreturn : ¬ s.IsReturn pc := not_isReturn_of_ne hc.getElem? hret
      exact ⟨fun _ => hnot, fun hno => absurd (.atEnd hx hd hm hstop hreturn hcall) hno⟩

theorem Session.Holds.safe_step (hx : x ∈ p.spans) (hd : x.Declares params body)
    (hc : s.Holds pc (i :: c)) (hlow : x.first ≤ pc) (hhigh : pc < x.stop)
    (hret : i.opcode ≠ .ret) (hcall : ¬ s.IsCall pc)
    (he : (execute s.config.haltOnReturn s.sink s.program.size i).run (running pc bp argc st) =
      .ok none (running t bp' argc' st')) (ht : x.first ≤ t)
    (ht' : t ≤ x.stop) (hstop : t = x.stop → ¬ p.AlwaysReturns)
    (h : t < x.stop → Safe s p k (running t bp' argc' st') Q) :
    Safe s p k (running pc bp argc st) Q := by
  refine hc.safe hx hd hlow hhigh hret hcall fun o m' hrun => ?_
  rw [he] at hrun
  cases hrun
  by_cases hend : t = x.stop
  · exact .inr ⟨congrArg Nat.cast hend, hstop hend⟩
  · have hlt : t < x.stop := by omega
    exact .inl ⟨covers_running ht hlt, fun j hj => (h hlt).mono hj.le⟩

theorem Session.Holds.safe_next (hx : x ∈ p.spans) (hd : x.Declares params body)
    (hc : s.Holds pc (i :: c)) (hlow : x.first ≤ pc) (hhigh : pc + 1 < x.stop)
    (hret : i.opcode ≠ .ret) (hjmp : i.opcode ≠ .jmp)
    (he : (execute s.config.haltOnReturn s.sink s.program.size i).run (running pc bp argc st) =
      .ok none (running (pc + 1) bp' argc' st'))
    (h : Safe s p k (running (pc + 1) bp' argc' st') Q) :
    Safe s p k (running pc bp argc st) Q := by
  have hcall : ¬ s.IsCall pc := not_isCall_of_ne hc.getElem? hjmp
  exact hc.safe_step hx hd hlow (by omega) hret hcall he (by omega) hhigh.le (by omega) fun _ => h

end Steps

section Expressions

variable {s : Session} {p : Program} {k : Nat} {x : Span} {params : List Label} {body : List Stmt}
  {Γ : Context} {b : Nat}

/-- A call of any declared function comes back from its jump, with the result in the place of the
frame. -/
def CallsSafe (s : Session) (p : Program) (k : Nat) : Prop :=
  ∀ a n, p.Declares a n →
    ∀ (pc target : Nat) (code : List Instruction) (S args : List Int) (cell saved : Int),
      s.Holds pc (⟨.strbp, 0⟩ :: ⟨.jmp, a⟩ :: code) → p.InFunction (pc + 1 : Nat) →
      p.InFunction target → target ≤ s.program.size → args.length = n →
      Safe s p k
        (running (pc + 1) ((S.length + 2 + args.length : Nat) : Int) args.length
          (S ++ cell :: (target : Int) :: (args ++ [saved])))
        fun m => ∃ v, m = running target saved args.length (S ++ [v])

theorem call_safe (hx : x ∈ p.spans) (hd : x.Declares params body) (hcalls : CallsSafe s p k)
    {a pc n : Nat} {argc cell : Int} {st vs : List Int} {code : List Instruction}
    (ha : p.Declares a vs.length)
    (hc : s.Holds pc (⟨.push, vs.length⟩ :: ⟨.strargc, 0⟩ :: ⟨.ldbp, 0⟩ :: ⟨.ldsp, 0⟩ ::
      ⟨.strbp, 0⟩ :: ⟨.jmp, a⟩ :: ⟨.push, n⟩ :: ⟨.strargc, 0⟩ :: code))
    (hlow : x.first ≤ pc) (hhigh : pc + 8 < x.stop) :
    Safe s p k (running pc b argc (st ++ cell :: ((pc + 6 : Nat) : Int) :: vs)) fun m =>
      ∃ v, m = running (pc + 8) b n (st ++ [v]) := by
  have hbase := hc.tail.tail.tail.tail
  have hback := hbase.tail.tail
  have hlength : ((st ++ cell :: ((pc + 6 : Nat) : Int) :: vs ++ [(b : Int)]).length : Int) - 1 =
      ((st.length + 2 + vs.length : Nat) : Int) := by
    simp only [List.length_append, List.length_cons, List.length_nil]
    omega
  have hsp : (execute s.config.haltOnReturn s.sink s.program.size ⟨.ldsp, 0⟩).run
      (running (pc + 1 + 1 + 1) b vs.length
        (st ++ cell :: ((pc + 6 : Nat) : Int) :: vs ++ [(b : Int)])) = _ := execute_ldsp _ _ _
  rw [hlength] at hsp
  have hin : ∀ q : Nat, pc ≤ q → q ≤ pc + 8 → p.InFunction q := fun q hq hq' =>
    ⟨x, hx, params, body, hd, by simp only [Span.Covers]; omega⟩
  refine hc.safe_next hx hd hlow (by omega) nofun nofun (execute_push _ _ _ _) ?_
  refine hc.tail.safe_next hx hd (by omega) (by omega) nofun nofun (execute_strargc _ _ _ _) ?_
  refine hc.tail.tail.safe_next hx hd (by omega) (by omega) nofun nofun (execute_ldbp _ _ _) ?_
  refine hc.tail.tail.tail.safe_next hx hd (by omega) (by omega) nofun nofun hsp ?_
  refine hbase.safe_next hx hd (by omega) (by omega) nofun nofun (execute_strbp _ _ _ _) ?_
  have hjump := hcalls a vs.length ha (pc + 4) (pc + 6) _ st vs cell b hbase
    (hin _ (by omega) (by omega)) (hin _ (by omega) (by omega)) (by have := hback.le; omega) rfl
  rw [List.append_assoc, List.cons_append, List.cons_append]
  apply hjump.bind
  rintro m ⟨v, rfl⟩
  refine hback.safe_next hx hd (by omega) (by omega) nofun nofun (execute_push _ _ _ _) ?_
  refine hback.tail.safe_next hx hd (by omega) (by omega) nofun nofun (execute_strargc _ _ _ _) ?_
  exact safe_of ⟨v, rfl⟩

mutual

theorem expr_safe (hx : x ∈ p.spans) (hd : x.Declares params body) (hcalls : CallsSafe s p k)
    (hΓ : p.DeclaresAll Γ.functions) : (e : Expr) → {a : Nat} → {argc : Int} → {st : List Int} →
    e.Resolved Γ → s.Holds a (e.code Γ) → x.first ≤ a → a + (e.code Γ).length < x.stop →
    Safe s p k (running a b argc st) fun m =>
      ∃ v, Yields Γ b (a + (e.code Γ).length) argc st [v] m
  | .num v, a, argc, st, hr, hc, hlow, hhigh =>
    hc.safe_next hx hd hlow hhigh nofun nofun (execute_push _ _ _ _)
      (safe_of ⟨_, argc, rfl, id⟩)
  | .var y, a, argc, st, hr, hc, hlow, hhigh => by
    obtain ⟨slot, hload⟩ : ∃ slot : Int, Γ.load y = ⟨.loadl, slot⟩ ∨ Γ.load y = ⟨.loada, slot⟩ := by
      rw [Context.load]
      split
      · exact ⟨_, .inl rfl⟩
      · exact ⟨_, .inr rfl⟩
    have hret : (Γ.load y).opcode ≠ .ret := by rcases hload with h | h <;> simp [h]
    have hjmp : (Γ.load y).opcode ≠ .jmp := by rcases hload with h | h <;> simp [h]
    have hend : a + 1 < x.stop := hhigh
    apply hc.safe hx hd hlow (by omega) hret (not_isCall_of_ne hc.getElem? hjmp)
    intro o m' hrun
    obtain ⟨v, rfl⟩ := execute_load_ok hload hrun
    exact .inl ⟨covers_running (by omega) hend, fun _ _ => safe_of ⟨v, argc, rfl, id⟩⟩
  | .binary op l r, a, argc, st, hr, hc, hlow, hhigh => by
    have hend : a + (Expr.code Γ (.binary op l r)).length =
        a + (r.code Γ).length + (l.code Γ).length + 1 := by
      simp only [Expr.code, List.length_append, List.length_singleton]
      omega
    rw [hend] at hhigh ⊢
    obtain ⟨hc, hop⟩ := hc.append
    obtain ⟨hcr, hcl⟩ := hc.append
    rw [List.length_append, ← Nat.add_assoc] at hop
    apply (expr_safe hx hd hcalls hΓ r hr.1 hcr hlow (by omega)).bind
    rintro m ⟨v₂, argc₁, rfl, h₁⟩
    apply (expr_safe hx hd hcalls hΓ l hr.2 hcl (by omega) (by omega)).bind
    rintro m ⟨v₁, argc₂, rfl, h₂⟩
    have hcall := not_isCall_of_ne hop.getElem? (by simp)
    apply hop.safe hx hd (by omega) (by omega) nofun hcall
    intro o m' hrun
    obtain ⟨v, rfl⟩ := execute_binary_ok hrun
    exact .inl ⟨covers_running (by omega) hhigh,
      fun _ _ => safe_of ⟨v, argc₂, rfl, fun h => h₂ (h₁ h)⟩⟩
  | .call f args, a, argc, st, hr, hc, hlow, hhigh => by
    obtain ⟨⟨info, hinfo, hcount⟩, hrargs⟩ := hr
    have hentry : Γ.entry f = info.address := by simp [Context.entry, hinfo]
    have hend : a + (Expr.code Γ (.call f args)).length =
        a + 2 + (Expr.codeAll Γ args).length + 8 := by
      rw [Expr.length_code_call]
      omega
    rw [hend] at hhigh ⊢
    rw [Expr.code, hentry] at hc
    obtain ⟨hc, hclose⟩ := hc.append
    obtain ⟨hopen, hcargs⟩ := hc.append
    rw [List.length_append, ← Nat.add_assoc] at hclose
    have hldpc : (execute s.config.haltOnReturn s.sink s.program.size
        ⟨.ldpc, (Expr.codeAll Γ args).length + 7⟩).run
        (running (a + 1) b argc (st ++ [Emitter.placeholder])) = _ :=
      execute_ldpc _ _ _ ((Expr.codeAll Γ args).length + 7)
    refine hopen.safe_next hx hd hlow (by omega) nofun nofun (execute_push _ _ _ _) ?_
    refine hopen.tail.safe_next hx hd (by omega) (by omega) nofun nofun hldpc ?_
    apply (exprs_safe hx hd hcalls hΓ args hrargs hcargs (by simp only [List.length_cons]; omega)
      (by simp only [List.length_cons, List.length_nil]; omega)).bind
    rintro m ⟨vs, hl, argc₁, rfl, -⟩
    have hdeclared : p.Declares info.address vs.length := by
      rw [hl, hcount]
      exact hΓ f info hinfo
    rw [← hl] at hclose
    have hreturn : a + 1 + ((Expr.codeAll Γ args).length + 7) =
        a + 2 + (Expr.codeAll Γ args).length + 6 := by omega
    rw [hreturn, List.append_assoc, List.append_assoc]
    apply (call_safe hx hd hcalls hdeclared hclose (by simp only [List.length_cons]; omega)
      hhigh).bind
    rintro m ⟨v, rfl⟩
    exact safe_of ⟨v, Γ.argc, rfl, fun _ => rfl⟩

theorem exprs_safe (hx : x ∈ p.spans) (hd : x.Declares params body) (hcalls : CallsSafe s p k)
    (hΓ : p.DeclaresAll Γ.functions) : (es : List Expr) → {a : Nat} → {argc : Int} →
    {st : List Int} → Expr.ResolvedAll Γ es → s.Holds a (Expr.codeAll Γ es) → x.first ≤ a →
    a + (Expr.codeAll Γ es).length < x.stop →
    Safe s p k (running a b argc st) fun m => ∃ vs : List Int, vs.length = es.length ∧
      Yields Γ b (a + (Expr.codeAll Γ es).length) argc st vs m
  | [], a, argc, st, _, _, _, _ => safe_of ⟨[], rfl, argc, by simp [Expr.codeAll], id⟩
  | e :: es, a, argc, st, hr, hc, hlow, hhigh => by
    obtain ⟨hce, hces⟩ := hc.append
    rw [Expr.codeAll, List.length_append, ← Nat.add_assoc] at hhigh ⊢
    apply (expr_safe hx hd hcalls hΓ e hr.1 hce hlow (by omega)).bind
    rintro m ⟨v, argc₁, rfl, h₁⟩
    apply (exprs_safe hx hd hcalls hΓ es hr.2 hces (by omega) hhigh).bind
    rintro m ⟨vs, hl, argc₂, rfl, h₂⟩
    exact safe_of ⟨v :: vs, by simp [hl], argc₂, by simp, fun h => h₂ (h₁ h)⟩

end

end Expressions

section Statements

variable {s : Session} {p : Program} {k n : Nat} {x : Span} {params : List Label}
  {body : List Stmt} {b : Nat}

/-- A statement has been left: at a return, or at its end. This is not the end of the function, and
then not every path through the statement comes to a return. -/
inductive Leaves (s : Session) (x : Span) (n b a : Nat) (returns : Prop) (argc : Int)
    (st : List Int) : Machine → Prop where
  | atEnd {argc' : Int} {st' : List Int} : a < x.stop → ¬ returns → b < st'.length →
      Keeps n b argc st argc' st' → Leaves s x n b a returns argc st (running a b argc' st')
  | atReturn {pc : Nat} {code : List Instruction} {argc' v : Int} {st' : List Int} :
      s.Holds pc (⟨.ret, 0⟩ :: code) → x.first ≤ pc → pc < x.stop → b < st'.length →
      Keeps n b argc st argc' st' →
      Leaves s x n b a returns argc st (running pc b argc' (st' ++ [v]))

theorem Keeps.leaves {a : Nat} {returns returns' : Prop} {argc argc₁ : Int} {st st₁ : List Int}
    {m : Machine} (h : Keeps n b argc st argc₁ st₁)
    (hm : Leaves s x n b a returns argc₁ st₁ m) (hr : returns' → returns) :
    Leaves s x n b a returns' argc st m := by
  cases hm with
  | atEnd ha hno hb hk => exact .atEnd ha (fun h => hno (hr h)) hb (h.trans hk)
  | atReturn hc hlow hhigh hb hk => exact .atReturn hc hlow hhigh hb (h.trans hk)

/-- What the contexts of a function have in common. -/
structure Context.Fits (Γ : Context) (p : Program) (n : Nat) : Prop where
  functions : p.DeclaresAll Γ.functions
  argc : Γ.argc = n

theorem Context.Fits.context {Γ : Context} (h : Γ.Fits p n) (S : Stmt) :
    (S.context Γ).Fits p n := by
  obtain ⟨hf, ha, -⟩ := Stmt.context_keeps Γ S
  exact ⟨by rw [hf]; exact h.functions, ha.trans h.argc⟩

theorem expr_safe_in (hx : x ∈ p.spans) (hd : x.Declares params body) (hcalls : CallsSafe s p k)
    {Γ : Context} (hΓ : Γ.Fits p n) (e : Expr) {a : Nat} {argc : Int} {st : List Int}
    (hr : e.Resolved Γ) (hc : s.Holds a (e.code Γ)) (hlow : x.first ≤ a)
    (hhigh : a + (e.code Γ).length < x.stop) :
    Safe s p k (running a b argc st) fun m => ∃ v argc',
      m = running (a + (e.code Γ).length) b argc' (st ++ [v]) ∧ Keeps n b argc st argc' st := by
  apply (expr_safe hx hd hcalls hΓ.functions e hr hc hlow hhigh).bind
  rintro m ⟨v, argc', rfl, h⟩
  rw [hΓ.argc] at h
  exact safe_of ⟨v, argc', rfl, rfl, h⟩

theorem test_safe (hx : x ∈ p.spans) (hd : x.Declares params body) {Q : Machine → Prop}
    {pc t : Nat} {argc v : Int} {st : List Int} {code : List Instruction}
    (hc : s.Holds pc (⟨.beq0, t⟩ :: code)) (hsize : t ≤ s.program.size) (hlow : x.first ≤ pc)
    (hhigh : pc < x.stop) (ht : x.first ≤ t) (ht' : t ≤ x.stop)
    (hnext : pc + 1 = x.stop → ¬ p.AlwaysReturns) (hstop : t = x.stop → ¬ p.AlwaysReturns)
    (hne : pc + 1 < x.stop → Safe s p k (running (pc + 1) b argc st) Q)
    (hzero : t < x.stop → Safe s p k (running t b argc st) Q) :
    Safe s p k (running pc b argc (st ++ [v])) Q := by
  have hcall := not_isCall_of_ne hc.getElem? (by simp)
  by_cases hv : v = 0
  · rw [hv]
    exact hc.safe_step hx hd hlow hhigh nofun hcall (execute_beq0_zero _ _ _ hsize) ht ht' hstop
      hzero
  · exact hc.safe_step hx hd hlow hhigh nofun hcall (execute_beq0_ne _ _ _ hv) (by omega) hhigh
      hnext hne

/-- A loop goes through its test and its body again and again. The jump back is a step. -/
theorem loop_safe (hx : x ∈ p.spans) (hd : x.Declares params body) {a c d e : Nat}
    {returns : Prop}
    (htest : ∀ {argc st}, Safe s p k (running a b argc st) fun m => ∃ v argc',
      m = running c b argc' (st ++ [v]) ∧ Keeps n b argc st argc' st)
    (hbranch : s.Holds c [⟨.beq0, e⟩])
    (hbody : ∀ {argc st}, b < st.length →
      Safe s p k (running (c + 1) b argc st) (Leaves s x n b d returns argc st))
    (hjump : s.Holds d [⟨.jmp, a⟩]) (hcall : ¬ s.IsCall d) (hlow : x.first ≤ a) (hac : a ≤ c)
    (hcd : c < d) (hde : e = d + 1) (hhigh : e ≤ x.stop) (hstop : e = x.stop → ¬ p.AlwaysReturns)
    {j : Nat} (hj : j ≤ k) {argc : Int} {st : List Int} (hb : b < st.length) :
    Safe s p j (running a b argc st) (Leaves s x n b e False argc st) := by
  have hsize := hjump.le
  simp only [List.length_singleton] at hsize
  induction j using Nat.strong_induction_on generalizing argc st with
  | h j ih =>
    apply (htest.mono hj).bind
    rintro m ⟨v, argc₁, rfl, hk₁⟩
    apply test_safe hx hd hbranch (by omega) (by omega) (by omega) (by omega) hhigh (by omega) hstop
    · intro _
      apply ((hbody hb).mono hj).bind_le (Nat.le_refl j)
      intro i hi m hm
      cases hm with
      | atEnd hd' _ hb' hk₂ =>
        apply hjump.safe hx hd (by omega) hd' nofun hcall
        intro o m' hrun
        rw [execute_jmp _ _ _ (by omega)] at hrun
        cases hrun
        refine .inl ⟨covers_running hlow (by omega), fun i' hi' => ?_⟩
        apply (ih i' (by omega) (by omega) hb').bind
        intro m hm
        exact safe_of ((hk₁.trans hk₂).leaves hm id)
      | atReturn hc hlow' hhigh' hb' hk₂ =>
        exact safe_of (.atReturn hc hlow' hhigh' hb' (hk₁.trans hk₂))
    · intro he
      exact safe_of (.atEnd he id hb hk₁)

theorem cell_safe (hx : x ∈ p.spans) (hd : x.Declares params body) {Q : Machine → Prop}
    {cell : List Instruction} (hcell : cell = [] ∨ cell = [⟨.push, Emitter.placeholder⟩])
    {a : Nat} {argc : Int} {st : List Int} (hc : s.Holds a cell) (hlow : x.first ≤ a)
    (hhigh : a + cell.length < x.stop) (hb : b < st.length)
    (h : ∀ st' : List Int, b < st'.length → st'.take (b + 1) = st.take (b + 1) →
      Safe s p k (running (a + cell.length) b argc st') Q) :
    Safe s p k (running a b argc st) Q := by
  rcases hcell with rfl | rfl
  · exact h st hb rfl
  · apply hc.safe_next hx hd hlow hhigh nofun nofun (execute_push _ _ _ _)
    apply h
    · simp only [List.length_append]
      omega
    · rw [List.take_append_of_le_length hb]

mutual

theorem stmt_safe (hx : x ∈ p.spans) (hd : x.Declares params body) (hcalls : CallsSafe s p k) :
    (S : Stmt) → {Γ : Context} → {a : Nat} → {argc : Int} → {st : List Int} → Γ.Fits p n →
    S.Resolved Γ → s.Holds a (S.code Γ a) → x.first ≤ a → a < x.stop →
    a + (S.code Γ a).length ≤ x.stop →
    (a + (S.code Γ a).length = x.stop → p.AlwaysReturns → S.AlwaysReturns) → b < st.length →
    Safe s p k (running a b argc st)
      (Leaves s x n b (a + (S.code Γ a).length) S.AlwaysReturns argc st)
  | .noop, Γ, a, argc, st, _, _, _, _, ha, _, _, hb => safe_of (.atEnd ha id hb ⟨rfl, id⟩)
  | .func _ _ _, _, _, _, _, _, hr, _, _, _, _, _, _ => hr.elim
  | .ret e, Γ, a, argc, st, hΓ, hr, hc, hlow, _, hhigh, _, hb => by
    obtain ⟨hce, hret⟩ := hc.append
    rw [Stmt.code, List.length_append, List.length_singleton, ← Nat.add_assoc] at hhigh
    apply (expr_safe_in hx hd hcalls hΓ e hr hce hlow (by omega)).bind
    rintro m ⟨v, argc', rfl, hk⟩
    exact safe_of (.atReturn hret (by omega) (by omega) hb hk)
  | .block ss, Γ, a, argc, st, hΓ, hr, hc, hlow, ha, hhigh, hlast, hb =>
    stmts_safe hx hd hcalls ss hΓ hr hc hlow ha hhigh hlast hb
  | .assign y e, Γ, a, argc, st, hΓ, hr, hc, hlow, _, hhigh, hlast, hb => by
    have hΓ' : (Γ.allot y).Fits p n := hΓ.context (.assign y e)
    obtain ⟨hc, hstore⟩ := hc.append
    obtain ⟨hcell, hce⟩ := hc.append
    rw [Stmt.code, List.length_append, List.length_append, List.length_singleton, ← Nat.add_assoc,
      ← Nat.add_assoc] at hhigh hlast ⊢
    rw [List.length_append, ← Nat.add_assoc] at hstore
    apply cell_safe hx hd (ite_eq_or_eq _ _ _) hcell hlow (by omega) hb
    intro st' hb' hbelow
    apply (expr_safe_in hx hd hcalls hΓ' e hr hce (by omega) (by omega)).bind
    rintro m ⟨v, argc', rfl, hk⟩
    have hcall := not_isCall_of_ne hstore.getElem? nofun
    apply hstore.safe hx hd (by omega) (by omega) nofun hcall
    intro o m' hrun
    cases execute_storel_ok hrun
    rcases Nat.lt_or_eq_of_le hhigh with hlt | hstop
    · refine .inl ⟨covers_running (by omega) hlt, fun _ _ => ?_⟩
      refine safe_of (.atEnd hlt id ?_ ⟨?_, hk.argc⟩)
      · exact Nat.lt_of_lt_of_le hb' (length_le_written _ _ _)
      · rw [take_written (by omega) hb', hbelow]
    · exact .inr ⟨congrArg Nat.cast hstop, hlast hstop⟩
  | .ifThen c t, Γ, a, argc, st, hΓ, hr, hc, hlow, _, hhigh, hlast, hb => by
    obtain ⟨hcond, hbranch, hbody⟩ := hc.ifThen rfl
    rw [Stmt.end_ifThen Γ a c t rfl] at hhigh hlast ⊢
    apply (expr_safe_in hx hd hcalls hΓ c hr.1 hcond hlow (by omega)).bind
    rintro m ⟨v, argc', rfl, hk⟩
    apply test_safe hx hd hbranch hbody.le (by omega) (by omega) (by omega) hhigh
    · exact fun hnext hreturns => hlast (by omega) hreturns
    · exact fun hstop hreturns => hlast hstop hreturns
    · intro hnext
      apply (stmt_safe hx hd hcalls t hΓ hr.2 hbody (by omega) hnext hhigh
        (fun hstop hreturns => (hlast hstop hreturns).elim) hb).bind
      exact fun m hm => safe_of (hk.leaves hm False.elim)
    · exact fun hstop => safe_of (.atEnd hstop id hb hk)
  | .ifElse c t e, Γ, a, argc, st, hΓ, hr, hc, hlow, _, hhigh, hlast, hb => by
    have hcall := hc.append.1.not_isCall (by simp) (settled_test _ _ t Γ _)
    obtain ⟨hcond, hbranch, hbody, hjump, hother⟩ := hc.ifElse rfl rfl
    rw [Stmt.end_ifElse Γ a c t e rfl rfl] at hhigh hlast ⊢
    simp only [List.length_append, List.length_singleton, ← Nat.add_assoc] at hcall
    have hsize := hother.le
    apply (expr_safe_in hx hd hcalls hΓ c hr.1 hcond hlow (by omega)).bind
    rintro m ⟨v, argc', rfl, hk⟩
    apply test_safe hx hd hbranch (by omega) (by omega) (by omega) (by omega) (by omega) (by omega)
    · intro hstop hreturns
      have hpos := e.code_pos (t.context Γ) (a + (c.code Γ).length + 1 +
        (t.code Γ (a + (c.code Γ).length + 1)).length + 1) (hlast (by omega) hreturns).2
      omega
    · intro hnext
      apply (stmt_safe hx hd hcalls t hΓ hr.2.1 hbody (by omega) hnext (by omega) (by omega)
        hb).bind
      intro m hm
      cases hm with
      | atEnd _ hno hb' hk' =>
        apply hjump.safe_step hx hd (by omega) (by omega) nofun hcall (execute_jmp _ _ _ hsize)
          (by omega) hhigh
        · exact fun hstop hreturns => hno (hlast hstop hreturns).1
        · exact fun hstop => safe_of (.atEnd hstop (fun h => hno h.1) hb' (hk.trans hk'))
      | atReturn hc hlow' hhigh' hb' hk' =>
        exact safe_of (.atReturn hc hlow' hhigh' hb' (hk.trans hk'))
    · intro hstart
      apply (stmt_safe hx hd hcalls e (hΓ.context t) hr.2.2 hother (by omega) hstart hhigh
        (fun hstop hreturns => (hlast hstop hreturns).2) hb).bind
      exact fun m hm => safe_of (hk.leaves hm fun h => h.2)
  | .loop c d, Γ, a, argc, st, hΓ, hr, hc, hlow, _, hhigh, hlast, hb => by
    have hcall := hc.not_isCall (by simp) (settled_test _ _ d Γ _)
    obtain ⟨hcond, hbranch, hbody, hjump⟩ := hc.loop rfl
    rw [Stmt.end_loop Γ a c d rfl] at hhigh hlast ⊢
    simp only [List.length_append, List.length_singleton, ← Nat.add_assoc] at hcall
    apply (loop_safe hx hd (expr_safe_in hx hd hcalls hΓ c hr.1 hcond hlow (by omega)) hbranch
      (fun hb => stmt_safe hx hd hcalls d hΓ hr.2 hbody (by omega) (by omega) (by omega) (by omega)
        hb) hjump hcall hlow (by omega) (by omega) rfl hhigh hlast (Nat.le_refl k) hb).bind
    exact fun m hm => safe_of hm

theorem stmts_safe (hx : x ∈ p.spans) (hd : x.Declares params body) (hcalls : CallsSafe s p k) :
    (ss : List Stmt) → {Γ : Context} → {a : Nat} → {argc : Int} → {st : List Int} → Γ.Fits p n →
    Stmt.ResolvedAll Γ ss → s.Holds a (Stmt.codeAll Γ a ss) → x.first ≤ a → a < x.stop →
    a + (Stmt.codeAll Γ a ss).length ≤ x.stop →
    (a + (Stmt.codeAll Γ a ss).length = x.stop → p.AlwaysReturns → Stmt.SomeReturns ss) →
    b < st.length →
    Safe s p k (running a b argc st)
      (Leaves s x n b (a + (Stmt.codeAll Γ a ss).length) (Stmt.SomeReturns ss) argc st)
  | [], Γ, a, argc, st, _, _, _, _, ha, _, _, hb => safe_of (.atEnd ha id hb ⟨rfl, id⟩)
  | S :: ss, Γ, a, argc, st, hΓ, hr, hc, hlow, ha, hhigh, hlast, hb => by
    obtain ⟨hcS, hcss⟩ := hc.append
    rw [Stmt.codeAll, List.length_append, ← Nat.add_assoc] at hhigh hlast ⊢
    have hlastS : a + (S.code Γ a).length = x.stop → p.AlwaysReturns → S.AlwaysReturns := by
      intro hstop hreturns
      rcases hlast (by omega) hreturns with h | h
      · exact h
      · have hpos := Stmt.codeAll_pos ss (S.context Γ) (a + (S.code Γ a).length) h
        omega
    apply (stmt_safe hx hd hcalls S hΓ hr.1 hcS hlow ha (by omega) hlastS hb).bind
    intro m hm
    cases hm with
    | atEnd ha' hno hb' hk =>
      have hlastss : a + (S.code Γ a).length + (Stmt.codeAll (S.context Γ)
          (a + (S.code Γ a).length) ss).length = x.stop → p.AlwaysReturns → Stmt.SomeReturns ss :=
        fun hstop hreturns => (hlast hstop hreturns).resolve_left hno
      apply (stmts_safe hx hd hcalls ss (hΓ.context S) hr.2 hcss (by omega) ha' hhigh hlastss
        hb').bind
      exact fun m hm => safe_of (hk.leaves hm fun h => h.resolve_left hno)
    | atReturn hc hlow' hhigh' hb' hk => exact safe_of (.atReturn hc hlow' hhigh' hb' hk)

end

end Statements

section Functions

variable {s : Session} {p : Program} {k : Nat} {x : Span} {params : List Label} {body : List Stmt}

theorem body_safe (hx : x ∈ p.spans) (hd : x.Declares params body) (hl : x.Laid s p)
    (hcalls : CallsSafe s p k) (hpos : x.first < x.stop) {b : Nat} {argc : Int} {st : List Int}
    (hb : b < st.length) :
    Safe s p k (running x.first b argc st)
      (Leaves s x params.length b x.stop (Stmt.SomeReturns body) argc st) := by
  obtain ⟨Γ, hΓ, haccepted, hstop, hc⟩ := hl
  obtain ⟨f, hf⟩ := hd
  have hmem := Program.mem_of_mem_spansFrom hx
  rw [hf] at haccepted hstop hc hmem
  have hfits : (Stmt.inside Γ x.first f params).Fits p params.length :=
    ⟨hΓ.insert hx ⟨f, hf⟩ f, rfl⟩
  rw [hstop]
  exact stmts_safe hx ⟨f, hf⟩ hcalls body hfits haccepted.2 hc (Nat.le_refl _) hpos hstop.ge
    (fun _ hreturns => hreturns f params body hmem) hb

theorem enters_of_declares (hlaid : ∀ x ∈ p.spans, x.Laid s p) (hreturns : p.AlwaysReturns)
    {a n : Nat} (h : p.Declares a n) : p.Enters a n := by
  obtain ⟨x, hx, params, body, hd, rfl, rfl⟩ := h
  obtain ⟨Γ, -, -, hstop, -⟩ := hlaid x hx
  refine ⟨x, hx, params, body, hd, ?_, rfl, rfl⟩
  obtain ⟨f, hf⟩ := hd
  have hmem := Program.mem_of_mem_spansFrom hx
  rw [hf] at hstop hmem
  have hpos := Stmt.codeAll_pos body (Stmt.inside Γ x.first f params) x.first
    (hreturns f params body hmem)
  simp only [Stmt.elementCode] at hstop
  simp only [Span.Covers]
  omega

theorem address_le (hlaid : ∀ x ∈ p.spans, x.Laid s p) {a n : Nat} (h : p.Declares a n) :
    a ≤ s.program.size := by
  obtain ⟨x, hx, -, -, -, rfl, -⟩ := h
  obtain ⟨Γ, -, -, -, hc⟩ := hlaid x hx
  have hsize := hc.le
  omega

theorem return_safe (hx : x ∈ p.spans) (hd : x.Declares params body) {pc : Nat} {bp argc : Int}
    {st : List Int} {code : List Instruction} {m : Machine} {Q : Machine → Prop}
    (hc : s.Holds pc (⟨.ret, 0⟩ :: code)) (hlow : x.first ≤ pc) (hhigh : pc < x.stop)
    (he : (execute s.config.haltOnReturn s.sink s.program.size ⟨.ret, 0⟩).run
      (running pc bp argc st) = .ok none m) (h : Q m) : Safe s p k (running pc bp argc st) Q := by
  cases k with
  | zero => trivial
  | succ k =>
    have hm : x.Covers (running pc bp argc st).pc := covers_running hlow hhigh
    refine .inr ⟨⟨x, hx, params, body, hd, hm⟩, fun m' hnext => ?_⟩
    obtain ⟨j, o, hj, hrun⟩ := hnext.fetch rfl
    rw [hc.getElem?] at hj
    cases hj
    rw [he] at hrun
    cases hrun
    have hin : p.InFunction (running pc bp argc st).pc := ⟨x, hx, params, body, hd, hm⟩
    have hreturn : s.IsReturn pc := ⟨pc, rfl, by rw [hc.getElem?]; rfl⟩
    have hno : ¬ FallsOff s p (running pc bp argc st) m := by
      rintro (⟨-, -, -, -, h, -⟩ | ⟨hone, -⟩ | ⟨h, -⟩)
      · exact h hreturn
      · have htwo := hin.two_le
        omega
      · exact not_isCall_of_ne hc.getElem? (by simp) h
    exact ⟨fun hfall => absurd hfall hno, fun _ => safe_of h⟩

/-- Calls come back. The jump is the step by which the calls inside come back earlier. -/
theorem calls_safe (hlaid : ∀ x ∈ p.spans, x.Laid s p) (k : Nat) : CallsSafe s p k := by
  induction k with
  | zero => exact fun _ _ _ _ _ _ _ _ _ _ _ _ _ _ _ => trivial
  | succ k ih =>
    intro a n ha pc target code S args cell saved hbase hpc htarget hsize hargs
    have hjump := hbase.tail
    have hcall : s.IsCall (pc + 1 : Nat) := hbase.isCall rfl rfl
    refine .inr ⟨hpc, fun m' hnext => ?_⟩
    obtain ⟨i, o, hi, hrun⟩ := hnext.fetch rfl
    rw [hjump.getElem?] at hi
    cases hi
    rw [execute_jmp _ _ _ (address_le hlaid ha)] at hrun
    cases hrun
    constructor
    · rintro (⟨-, -, -, -, -, h⟩ | ⟨hone, -⟩ | ⟨-, h⟩) hreturns
      · exact h hcall
      · have htwo := hpc.two_le
        have hpc : ((pc + 1 : Nat) : Int) = 1 := hone
        omega
      · apply h
        rw [← hargs] at ha
        exact enters_of_declares hlaid hreturns ha
    · intro hno
      have henters : p.Enters a args.length := by
        by_contra h
        exact hno (.call hcall h)
      obtain ⟨x, hx, params, body, hd, rfl, hparams, hpos⟩ := henters.span
      have hcount : args.length = params.length := by omega
      have hbase : S.length + 2 + args.length <
          (S ++ cell :: (target : Int) :: (args ++ [saved])).length := by
        simp only [List.length_append, List.length_cons, List.length_nil]
        omega
      apply (body_safe hx hd (hlaid x hx) ih hpos hbase).bind
      intro m hm
      cases hm with
      | atEnd h => omega
      | atReturn hret hlow hhigh _ hk =>
        exact return_safe hx hd hret hlow hhigh (execute_ret_keeps _ _ hcount hsize hk) ⟨_, rfl⟩

/-- The main function, started by the bootstrap, comes to a halt or stays in functions for ever. -/
theorem main_safe (hlaid : ∀ x ∈ p.spans, x.Laid s p) (hhalt : s.config.haltOnReturn = true)
    {pc : Nat} {n : Int} (h : p.Enters pc n) (k : Nat) :
    Safe s p k (running pc 0 0 [0]) fun m => m.halted = true := by
  obtain ⟨x, hx, params, body, hd, rfl, -, hpos⟩ := h.span
  have hbody : Safe s p k (running x.first ((0 : Nat) : Int) 0 [0]) _ :=
    body_safe hx hd (hlaid x hx) (calls_safe hlaid k) hpos (by simp)
  apply hbody.bind
  intro m hm
  cases hm with
  | atEnd h => omega
  | @atReturn pc' code' argc' v st' hret hlow hhigh hb hk =>
    obtain ⟨y, st, rfl⟩ := List.exists_cons_of_length_pos hb
    apply return_safe hx hd hret hlow hhigh
    · rw [hhalt]
      exact execute_ret_toplevel _ _
    · rfl

end Functions

end StackLang
