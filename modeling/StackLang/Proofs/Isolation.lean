import StackLang.Proofs.Activations
import StackLang.Proofs.Labels
import StackLang.Proofs.Sites

namespace StackLang

open Session Machine

section Expressions

variable {s : Session} {p : Program} {k : Nat} {x : Span} {params : List Label} {body : List Stmt}
  {Γ : Context} {names : List Label} {b : Nat} {A : Activation} {outer : List Activation}

/-- A call of any declared function comes back from its jump, with the result in the place of the
frame, and its activation is gone. -/
def CallsWatched (s : Session) (p : Program) (k : Nat) : Prop :=
  ∀ a n, p.Declares a n →
    ∀ (pc target : Nat) (code : List Instruction) (S args : List Int) (cell saved : Int)
      (g : List Activation),
      s.Holds pc (⟨.strbp, 0⟩ :: ⟨.jmp, a⟩ :: code) → target ≤ s.program.size → args.length = n →
      Watched s p k
        (running (pc + 1) ((S.length + 2 + args.length : Nat) : Int) args.length
          (S ++ cell :: (target : Int) :: (args ++ [saved]))) ({} :: g)
        fun m g' => g' = g ∧ ∃ v, m = running target saved args.length (S ++ [v])

theorem call_watched (hx : x ∈ p.spans) (hd : x.Declares params body)
    (hcalls : CallsWatched s p k) {a pc n : Nat} {argc cell : Int} {st vs : List Int}
    {code : List Instruction} {g : List Activation} (ha : p.Declares a vs.length)
    (hc : s.Holds pc (⟨.push, vs.length⟩ :: ⟨.strargc, 0⟩ :: ⟨.ldbp, 0⟩ :: ⟨.ldsp, 0⟩ ::
      ⟨.strbp, 0⟩ :: ⟨.jmp, a⟩ :: ⟨.push, n⟩ :: ⟨.strargc, 0⟩ :: code))
    (hlow : x.first ≤ pc) (hhigh : pc + 8 < x.stop) :
    Watched s p k (running pc b argc (st ++ cell :: ((pc + 6 : Nat) : Int) :: vs)) g
      fun m g' => g' = g ∧ ∃ v, m = running (pc + 8) b n (st ++ [v]) := by
  have hbase := hc.tail.tail.tail.tail
  have hback := hbase.tail.tail
  have hlength : ((st ++ cell :: ((pc + 6 : Nat) : Int) :: vs ++ [(b : Int)]).length : Int) - 1 =
      ((st.length + 2 + vs.length : Nat) : Int) := by
    simp only [List.length_append, List.length_cons, List.length_nil]
    omega
  have hsp : (execute s.config.haltOnReturn s.sink s.program.size ⟨.ldsp, 0⟩).run
      (running (pc + 1 + 1 + 1) b vs.length
        (st ++ cell :: ((pc + 6 : Nat) : Int) :: vs ++ [(b : Int)])) = _ := execute_ldsp _ _ _
  rw [hlength] at hsp
  refine hc.watched_next hx hd hlow (by omega) nofun nofun nofun (execute_push _ _ _ _) ?_
  rw [record_push (not_makesCell hc.getElem?)]
  refine hc.tail.watched_next hx hd (by omega) (by omega) nofun nofun nofun
    (execute_strargc _ _ _ _) ?_
  refine hc.tail.tail.watched_next hx hd (by omega) (by omega) nofun nofun nofun
    (execute_ldbp _ _ _) ?_
  refine hc.tail.tail.tail.watched_next hx hd (by omega) (by omega) nofun nofun nofun hsp ?_
  refine hbase.watched_next hx hd (by omega) (by omega) nofun nofun nofun
    (execute_strbp _ _ _ _) ?_
  have hjump := hcalls a vs.length ha (pc + 4) (pc + 6) _ st vs cell b g hbase
    (by have := hback.le; omega) rfl
  rw [List.append_assoc, List.cons_append, List.cons_append]
  apply hjump.bind
  rintro m g' ⟨rfl, v, rfl⟩
  refine hback.watched_next hx hd (by omega) (by omega) nofun nofun nofun (execute_push _ _ _ _) ?_
  rw [record_push (not_makesCell hback.getElem?)]
  refine hback.tail.watched_next hx hd (by omega) (by omega) nofun nofun nofun
    (execute_strargc _ _ _ _) ?_
  exact watched_of ⟨rfl, v, rfl⟩

theorem readsOwn_load (hx : x ∈ p.spans) (hd : x.Declares params body)
    (hn : Γ.scope.locals.Numbers names) (hf : A.Fits (Stmt.UpfrontAll [] body) names)
    {a : Nat} {argc : Int} {st : List Int} (hh : A.Held b st) {y : Label} {c : List Instruction}
    (hc : s.Holds a (Γ.load y :: c)) (hlow : x.first ≤ a) (hhigh : a < x.stop) :
    ReadsOwn s p (running a b argc st) (A :: outer) := by
  intro n hfetch
  rw [fetch?_running hc.getElem?] at hfetch
  have hload := Option.some.inj hfetch
  unfold Context.load at hload
  split at hload
  next slot hslot =>
    cases hload
    rw [hn.get?] at hslot
    split at hslot
    next hy =>
      cases hslot
      have hlt : names.idxOf y < names.length := List.idxOf_lt_length_of_mem hy
      refine ⟨A, outer, _, rfl, rfl, hf.stored _, ?_, fun hroom => ?_⟩
      · rintro ⟨z, hz, params', body', hd', hcovers, hup⟩
        cases Program.eq_of_covers hx hz (covers_running hlow hhigh) hcovers
        obtain ⟨f, hf₁⟩ := hd
        obtain ⟨f', hf₂⟩ := hd'
        rw [hf₁] at hf₂
        cases hf₂
        exact Nat.lt_of_lt_of_le hlt (hf.names hup)
      · rw [execute_loadl _ _ _ (hh _ hroom)]
        simp [running]
    next => cases hslot
  next => cases hload

mutual

theorem expr_watched (hx : x ∈ p.spans) (hd : x.Declares params body)
    (hcalls : CallsWatched s p k) (hΓ : p.DeclaresAll Γ.functions)
    (hn : Γ.scope.locals.Numbers names) (hf : A.Fits (Stmt.UpfrontAll [] body) names) :
    (e : Expr) → e.toTree.Proper → {a : Nat} → {argc : Int} → {st : List Int} → e.Resolved Γ →
    s.Holds a (e.code Γ) → x.first ≤ a → a + (e.code Γ).length < x.stop → A.Held b st →
    Watched s p k (running a b argc st) (A :: outer) fun m g =>
      g = A :: outer ∧ ∃ v, Yields Γ b (a + (e.code Γ).length) argc st [v] m
  | .num v, hproper, a, argc, st, hr, hc, hlow, hhigh, _ => by
    obtain ⟨n, rfl⟩ := hproper.1
    refine hc.watched_next hx hd hlow hhigh nofun nofun nofun (execute_push _ _ _ _) ?_
    rw [record_push (not_makesCell hc.getElem?)]
    exact watched_of ⟨rfl, _, argc, rfl, id⟩
  | .var y, _, a, argc, st, hr, hc, hlow, hhigh, hh => by
    obtain ⟨slot, hload⟩ : ∃ slot : Int, Γ.load y = ⟨.loadl, slot⟩ ∨ Γ.load y = ⟨.loada, slot⟩ := by
      rw [Context.load]
      split
      · exact ⟨_, .inl rfl⟩
      · exact ⟨_, .inr rfl⟩
    have hret : (Γ.load y).opcode ≠ .ret := by rcases hload with h | h <;> simp [h]
    have hjmp : (Γ.load y).opcode ≠ .jmp := by rcases hload with h | h <;> simp [h]
    have hend : a + 1 < x.stop := hhigh
    apply hc.watched hx hd hlow (by omega) hret (not_isCall_of_ne hc.getElem? hjmp)
      (readsOwn_load hx hd hn hf hh hc hlow (by omega))
    intro o m' hrun
    obtain ⟨v, rfl⟩ := execute_load_ok hload hrun
    have hsame : s.record (running a b argc st) (Γ.load y) (A :: outer) = A :: outer := by
      rcases hload with h | h
      · rw [h]
        rfl
      · rw [h]
        rfl
    exact .inr fun _ _ => watched_of ⟨hsame, v, argc, rfl, id⟩
  | .binary op l r, hproper, a, argc, st, hr, hc, hlow, hhigh, hh => by
    obtain ⟨-, hpl, hpr, -⟩ := hproper
    have hend : a + (Expr.code Γ (.binary op l r)).length =
        a + (r.code Γ).length + (l.code Γ).length + 1 := by
      simp only [Expr.code, List.length_append, List.length_singleton]
      omega
    rw [hend] at hhigh ⊢
    obtain ⟨hc, hop⟩ := hc.append
    obtain ⟨hcr, hcl⟩ := hc.append
    rw [List.length_append, ← Nat.add_assoc] at hop
    apply (expr_watched hx hd hcalls hΓ hn hf r hpr hr.1 hcr hlow (by omega) hh).bind
    rintro m g ⟨rfl, v₂, argc₁, rfl, h₁⟩
    apply (expr_watched hx hd hcalls hΓ hn hf l hpl hr.2 hcl (by omega) (by omega)
      (hh.append [v₂])).bind
    rintro m g ⟨rfl, v₁, argc₂, rfl, h₂⟩
    have hcall := not_isCall_of_ne hop.getElem? (by simp)
    apply hop.watched hx hd (by omega) (by omega) nofun hcall (readsOwn_of_ne hop.getElem? nofun)
    intro o m' hrun
    obtain ⟨v, rfl⟩ := execute_binary_ok hrun
    exact .inr fun _ _ => watched_of ⟨rfl, v, argc₂, rfl, fun h => h₂ (h₁ h)⟩
  | .call f args, hproper, a, argc, st, hr, hc, hlow, hhigh, hh => by
    obtain ⟨⟨info, hinfo, hcount⟩, hrargs⟩ := hr
    have hentry : Γ.entry f = info.address := by simp [Context.entry, hinfo]
    have hend : a + (Expr.code Γ (.call f args)).length =
        a + 2 + (Expr.codeAll Γ args).length + 8 := by
      rw [Expr.length_code_call]
      omega
    rw [hend] at hhigh ⊢
    rw [Expr.code, hentry] at hc
    obtain ⟨hc, hclose⟩ := hc.append
    obtain ⟨hopen, hcargs⟩ := hc.append
    rw [List.length_append, ← Nat.add_assoc] at hclose
    have hldpc : (execute s.config.haltOnReturn s.sink s.program.size
        ⟨.ldpc, (Expr.codeAll Γ args).length + 7⟩).run
        (running (a + 1) b argc (st ++ [Emitter.placeholder])) = _ :=
      execute_ldpc _ _ _ ((Expr.codeAll Γ args).length + 7)
    refine hopen.watched_next hx hd hlow (by omega) nofun nofun nofun (execute_push _ _ _ _) ?_
    rw [record_push (not_makesCell_of_ldpc hopen)]
    refine hopen.tail.watched_next hx hd (by omega) (by omega) nofun nofun nofun hldpc ?_
    apply (exprs_watched hx hd hcalls hΓ hn hf args hproper.2 hrargs hcargs
      (by simp only [List.length_cons]; omega)
      (by simp only [List.length_cons, List.length_nil]; omega)
      ((hh.append _).append _)).bind
    rintro m g ⟨rfl, vs, hl, argc₁, rfl, -⟩
    have hdeclared : p.Declares info.address vs.length := by
      rw [hl, hcount]
      exact hΓ f info hinfo
    rw [← hl] at hclose
    have hreturn : a + 1 + ((Expr.codeAll Γ args).length + 7) =
        a + 2 + (Expr.codeAll Γ args).length + 6 := by omega
    rw [hreturn, List.append_assoc, List.append_assoc]
    apply (call_watched hx hd hcalls hdeclared hclose (by simp only [List.length_cons]; omega)
      hhigh).bind
    rintro m g ⟨rfl, v, rfl⟩
    exact watched_of ⟨rfl, v, Γ.argc, rfl, fun _ => rfl⟩

theorem exprs_watched (hx : x ∈ p.spans) (hd : x.Declares params body)
    (hcalls : CallsWatched s p k) (hΓ : p.DeclaresAll Γ.functions)
    (hn : Γ.scope.locals.Numbers names) (hf : A.Fits (Stmt.UpfrontAll [] body) names) :
    (es : List Expr) → Tree.ProperAll (Expr.toTrees es) → {a : Nat} → {argc : Int} →
    {st : List Int} → Expr.ResolvedAll Γ es → s.Holds a (Expr.codeAll Γ es) → x.first ≤ a →
    a + (Expr.codeAll Γ es).length < x.stop → A.Held b st →
    Watched s p k (running a b argc st) (A :: outer) fun m g => g = A :: outer ∧
      ∃ vs : List Int, vs.length = es.length ∧
        Yields Γ b (a + (Expr.codeAll Γ es).length) argc st vs m
  | [], _, a, argc, st, _, _, _, _, _ =>
    watched_of ⟨rfl, [], rfl, argc, by simp [Expr.codeAll], id⟩
  | e :: es, hproper, a, argc, st, hr, hc, hlow, hhigh, hh => by
    obtain ⟨hce, hces⟩ := hc.append
    rw [Expr.codeAll, List.length_append, ← Nat.add_assoc] at hhigh ⊢
    apply (expr_watched hx hd hcalls hΓ hn hf e hproper.1 hr.1 hce hlow (by omega) hh).bind
    rintro m g ⟨rfl, v, argc₁, rfl, h₁⟩
    apply (exprs_watched hx hd hcalls hΓ hn hf es hproper.2 hr.2 hces (by omega) hhigh
      (hh.append [v])).bind
    rintro m g ⟨rfl, vs, hl, argc₂, rfl, h₂⟩
    exact watched_of ⟨rfl, v :: vs, by simp [hl], argc₂, by simp, fun h => h₂ (h₁ h)⟩

end

end Expressions

section Statements

variable {s : Session} {p : Program} {k n : Nat} {x : Span} {params : List Label}
  {body : List Stmt} {names : List Label} {b : Nat} {A : Activation} {outer : List Activation}

/-- A statement has been left, at a return or at its end, where `names` have been assigned in the
text. -/
inductive Departs (s : Session) (x : Span) (n b a : Nat) (upfront : Prop) (names : List Label)
    (argc : Int) (st : List Int) (outer : List Activation) :
    Machine → List Activation → Prop where
  | atEnd {argc' : Int} {st' : List Int} {A : Activation} : a < x.stop → A.Lodged b st' →
      A.Fits upfront names → Keeps n b argc st argc' st' →
      Departs s x n b a upfront names argc st outer (running a b argc' st') (A :: outer)
  | atReturn {pc : Nat} {code : List Instruction} {argc' v : Int} {st' : List Int}
      {A : Activation} : s.Holds pc (⟨.ret, 0⟩ :: code) → x.first ≤ pc → pc < x.stop →
      b < st'.length → Keeps n b argc st argc' st' →
      Departs s x n b a upfront names argc st outer (running pc b argc' (st' ++ [v])) (A :: outer)

theorem Keeps.departs {a : Nat} {upfront : Prop} {argc argc₁ : Int} {st st₁ : List Int}
    {m : Machine} {g : List Activation} (h : Keeps n b argc st argc₁ st₁)
    (hm : Departs s x n b a upfront names argc₁ st₁ outer m g) :
    Departs s x n b a upfront names argc st outer m g := by
  cases hm with
  | atEnd ha hl hf hk => exact .atEnd ha hl hf (h.trans hk)
  | atReturn hc hlow hhigh hb hk => exact .atReturn hc hlow hhigh hb (h.trans hk)

/-- What is known of the context at a place where `names` have been assigned in the text. -/
structure Context.Knows (Γ : Context) (p : Program) (n : Nat) (names : List Label) : Prop where
  fits : Γ.Fits p n
  locals : Γ.scope.locals.Numbers names

theorem Context.Knows.context {Γ : Context} (h : Γ.Knows p n names) (S : Stmt) :
    (S.context Γ).Knows p n (S.assigned names) :=
  ⟨h.fits.context S, Stmt.numbers_context S h.locals⟩

theorem expr_watched_in (hx : x ∈ p.spans) (hd : x.Declares params body)
    (hcalls : CallsWatched s p k) {Γ : Context} (hΓ : Γ.Knows p n names)
    (hf : A.Fits (Stmt.UpfrontAll [] body) names) (e : Expr) (hproper : e.toTree.Proper) {a : Nat}
    {argc : Int} {st : List Int} (hr : e.Resolved Γ) (hc : s.Holds a (e.code Γ))
    (hlow : x.first ≤ a) (hhigh : a + (e.code Γ).length < x.stop) (hh : A.Held b st) :
    Watched s p k (running a b argc st) (A :: outer) fun m g => g = A :: outer ∧ ∃ v argc',
      m = running (a + (e.code Γ).length) b argc' (st ++ [v]) ∧ Keeps n b argc st argc' st := by
  apply (expr_watched hx hd hcalls hΓ.fits.functions hΓ.locals hf e hproper hr hc hlow hhigh
    hh).bind
  rintro m g ⟨rfl, v, argc', rfl, h⟩
  rw [hΓ.fits.argc] at h
  exact watched_of ⟨rfl, v, argc', rfl, rfl, h⟩

theorem test_watched (hx : x ∈ p.spans) (hd : x.Declares params body)
    {Q : Machine → List Activation → Prop} {pc t : Nat} {argc v : Int} {st : List Int}
    {code : List Instruction} {g : List Activation} (hc : s.Holds pc (⟨.beq0, t⟩ :: code))
    (hsize : t ≤ s.program.size) (hlow : x.first ≤ pc) (hhigh : pc < x.stop) (ht : t ≤ x.stop)
    (hne : pc + 1 < x.stop → Watched s p k (running (pc + 1) b argc st) g Q)
    (hzero : t < x.stop → Watched s p k (running t b argc st) g Q) :
    Watched s p k (running pc b argc (st ++ [v])) g Q := by
  have hcall := not_isCall_of_ne hc.getElem? (by simp)
  by_cases hv : v = 0
  · rw [hv]
    exact hc.watched_step hx hd hlow hhigh nofun hcall nofun (execute_beq0_zero _ _ _ hsize) ht
      hzero
  · exact hc.watched_step hx hd hlow hhigh nofun hcall nofun (execute_beq0_ne _ _ _ hv) hhigh hne

/-- A loop goes through its test and its body again and again. The jump back is a step. -/
theorem loop_watched (hx : x ∈ p.spans) (hd : x.Declares params body) {a c d e : Nat}
    {upfront : Prop} {names' : List Label}
    (htest : ∀ {A : Activation} {argc st}, A.Fits upfront names → A.Held b st →
      Watched s p k (running a b argc st) (A :: outer) fun m g => g = A :: outer ∧ ∃ v argc',
        m = running c b argc' (st ++ [v]) ∧ Keeps n b argc st argc' st)
    (hbranch : s.Holds c [⟨.beq0, e⟩])
    (hbody : ∀ {A : Activation} {argc st}, A.Fits upfront names → A.Lodged b st →
      Watched s p k (running (c + 1) b argc st) (A :: outer)
        (Departs s x n b d upfront names' argc st outer))
    (hjump : s.Holds d [⟨.jmp, a⟩]) (hcall : ¬ s.IsCall d) (hlow : x.first ≤ a) (hac : a ≤ c)
    (hcd : c < d) (hde : e = d + 1) (hhigh : e ≤ x.stop) (hnames : names <+: names')
    (hup : upfront → names' = names) {j : Nat} (hj : j ≤ k) {argc : Int} {st : List Int}
    (hf : A.Fits upfront names) (hl : A.Lodged b st) :
    Watched s p j (running a b argc st) (A :: outer)
      (Departs s x n b e upfront names' argc st outer) := by
  have hsize := hjump.le
  simp only [List.length_singleton] at hsize
  induction j using Nat.strong_induction_on generalizing argc st A with
  | h j ih =>
    apply ((htest hf hl.held).mono hj).bind
    rintro m g ⟨rfl, v, argc₁, rfl, hk₁⟩
    apply test_watched hx hd hbranch (by omega) (by omega) (by omega) hhigh
    · intro _
      apply ((hbody hf hl).mono hj).bind_le (Nat.le_refl j)
      intro i hi m g hm
      cases hm with
      | atEnd hd' hl' hf' hk₂ =>
        apply hjump.watched hx hd (by omega) hd' nofun hcall (readsOwn_of_ne hjump.getElem? nofun)
        intro o m' hrun
        rw [execute_jmp _ _ _ (by omega)] at hrun
        cases hrun
        refine .inr fun i' hi' => ?_
        apply (ih i' (by omega) (by omega) (hf'.mono fun _ => hnames.length_le) hl').bind
        intro m g hm
        exact watched_of ((hk₁.trans hk₂).departs hm)
      | atReturn hc hlow' hhigh' hb' hk₂ =>
        exact watched_of (.atReturn hc hlow' hhigh' hb' (hk₁.trans hk₂))
    · intro he
      exact watched_of (.atEnd he hl (hf.mono fun hu => by rw [hup hu]) hk₁)

theorem Expr.code_head (Γ : Context) (e : Expr) :
    ∃ i c, e.code Γ = i :: c ∧ i.opcode ≠ .ldpc := by
  cases e with
  | num v => exact ⟨_, _, rfl, by rintro ⟨⟩⟩
  | var y =>
    refine ⟨_, _, rfl, ?_⟩
    unfold Context.load
    split
    · rintro ⟨⟩
    · rintro ⟨⟩
  | call f args => exact ⟨_, _, rfl, by rintro ⟨⟩⟩
  | binary op l r =>
    obtain ⟨i, c, hcode, hi⟩ := code_head Γ r
    exact ⟨i, _, by rw [Expr.code, hcode]; rfl, hi⟩

theorem cell_watched (hx : x ∈ p.spans) (hd : x.Declares params body) {Γ : Context}
    (hn : Γ.scope.locals.Numbers names) {y : Label} {e : Expr} {upfront : Prop}
    {cell : List Instruction}
    (hcell : cell = if Γ.scope.locals.contains y then [] else [⟨.push, Emitter.placeholder⟩])
    {Q : Machine → List Activation → Prop} {a : Nat} {argc : Int} {st : List Int}
    (hc : s.Holds a cell) (hce : s.Holds (a + cell.length) (e.code (Γ.allot y)))
    (hlow : x.first ≤ a) (hhigh : a + cell.length < x.stop) (hf : A.Fits upfront names)
    (hl : A.Lodged b st)
    (h : ∀ (A' : Activation) (st' : List Int), A'.Fits upfront (noteName names y) →
      A'.Lodged b st' → st'.take (b + 1) = st.take (b + 1) →
      Watched s p k (running (a + cell.length) b argc st') (A' :: outer) Q) :
    Watched s p k (running a b argc st) (A :: outer) Q := by
  have hcontains := hn.contains y
  by_cases hy : y ∈ names
  · rw [if_pos (hcontains.mpr hy)] at hcell
    subst hcell
    have hnames : noteName names y = names := if_pos hy
    exact h A st (by rwa [hnames]) hl rfl
  · rw [if_neg fun hin => hy (hcontains.mp hin)] at hcell
    subst hcell
    have hnames : noteName names y = names ++ [y] := if_neg hy
    obtain ⟨i, c, hcode, hi⟩ := e.code_head (Γ.allot y)
    rw [hcode] at hce
    have hnext : s.program[a + 1]? = some i := hce.getElem?
    have hmakes : s.MakesCell a := by
      refine ⟨hc.getElem?, ?_⟩
      rw [Int.toNat_natCast, hnext]
      exact fun hop => hi (Option.some.inj hop)
    refine hc.watched_next hx hd hlow hhigh nofun nofun nofun (execute_push _ _ _ _) ?_
    have hgrows : s.record (running a b argc st) ⟨.push, Emitter.placeholder⟩ (A :: outer) =
        A.grow :: outer := if_pos hmakes
    rw [hgrows]
    apply h A.grow _ (by rw [hnames]; exact hf.grow y) (hl.grow hf)
    rw [List.take_append_of_le_length hl.base]

mutual

theorem stmt_watched (hx : x ∈ p.spans) (hd : x.Declares params body)
    (hcalls : CallsWatched s p k) : (S : Stmt) → S.toTree.Proper → {Γ : Context} →
    {names : List Label} → {A : Activation} → {a : Nat} → {argc : Int} → {st : List Int} →
    Γ.Knows p n names → (Stmt.UpfrontAll [] body → S.Upfront names) → S.Resolved Γ →
    s.Holds a (S.code Γ a) → x.first ≤ a → a < x.stop → a + (S.code Γ a).length ≤ x.stop →
    A.Fits (Stmt.UpfrontAll [] body) names → A.Lodged b st →
    Watched s p k (running a b argc st) (A :: outer)
      (Departs s x n b (a + (S.code Γ a).length) (Stmt.UpfrontAll [] body) (S.assigned names) argc
        st outer)
  | .noop, _, _, _, _, _, _, _, _, _, _, _, _, ha, _, hf, hl =>
    watched_of (.atEnd ha hl hf ⟨rfl, id⟩)
  | .func _ _ _, _, _, _, _, _, _, _, _, _, hr, _, _, _, _, _, _ => hr.elim
  | .ret e, hproper, Γ, names, A, a, argc, st, hΓ, _, hr, hc, hlow, _, hhigh, hf, hl => by
    obtain ⟨hce, hret⟩ := hc.append
    rw [Stmt.code, List.length_append, List.length_singleton, ← Nat.add_assoc] at hhigh
    apply (expr_watched_in hx hd hcalls hΓ hf e hproper.2.1 hr hce hlow (by omega) hl.held).bind
    rintro m g ⟨rfl, v, argc', rfl, hk⟩
    exact watched_of (.atReturn hret (by omega) (by omega) hl.base hk)
  | .block ss, hproper, Γ, names, A, a, argc, st, hΓ, hup, hr, hc, hlow, ha, hhigh, hf, hl =>
    stmts_watched hx hd hcalls ss hproper.2 hΓ hup hr hc hlow ha hhigh hf hl
  | .assign y e, hproper, Γ, names, A, a, argc, st, hΓ, _, hr, hc, hlow, _, hhigh, hf, hl => by
    have hΓ' : (Γ.allot y).Knows p n (noteName names y) := hΓ.context (.assign y e)
    obtain ⟨hc, hstore⟩ := hc.append
    obtain ⟨hcell, hce⟩ := hc.append
    rw [Stmt.code, List.length_append, List.length_append, List.length_singleton, ← Nat.add_assoc,
      ← Nat.add_assoc] at hhigh ⊢
    rw [List.length_append, ← Nat.add_assoc] at hstore
    apply cell_watched hx hd hΓ.locals rfl hcell hce hlow (by omega) hf hl
    intro A' st' hf' hl' hbelow
    apply (expr_watched_in hx hd hcalls hΓ' hf' e hproper.2.2.1 hr hce (by omega) (by omega)
      hl'.held).bind
    rintro m g ⟨rfl, v, argc', rfl, hk⟩
    have hcall := not_isCall_of_ne hstore.getElem? nofun
    apply hstore.watched hx hd (by omega) (by omega) nofun hcall
      (readsOwn_of_ne hstore.getElem? nofun)
    intro o m' hrun
    cases execute_storel_ok hrun
    -- A store may be the last instruction of the function, which is then left at its end.
    rcases Nat.lt_or_eq_of_le hhigh with hlt | hstop
    · refine .inr fun _ _ => ?_
      have hstored : ∀ pc : Nat, s.record (running pc b argc' (st' ++ [v])) ((Γ.allot y).store y)
          (A' :: outer) =
          A'.store (((Γ.allot y).scope.locals.get? y).getD 0) v :: outer := by
        intro pc
        simp [record, Context.store, running]
      rw [hstored]
      refine watched_of (.atEnd hlt (hl'.store hf' _ v) (hf'.store _ v) ⟨?_, hk.argc⟩)
      rw [take_written (by omega) hl'.base, hbelow]
    · exact .inl (congrArg Nat.cast hstop)
  | .ifThen c t, hproper, Γ, names, A, a, argc, st, hΓ, hup, hr, hc, hlow, _, hhigh, hf, hl => by
    obtain ⟨-, hpc, hpt, -⟩ := hproper
    obtain ⟨hcond, hbranch, hbody⟩ := hc.ifThen rfl
    rw [Stmt.end_ifThen Γ a c t rfl] at hhigh ⊢
    apply (expr_watched_in hx hd hcalls hΓ hf c hpc hr.1 hcond hlow (by omega) hl.held).bind
    rintro m g ⟨rfl, v, argc', rfl, hk⟩
    apply test_watched hx hd hbranch hbody.le (by omega) (by omega) hhigh
    · intro hnext
      apply (stmt_watched hx hd hcalls t hpt hΓ (fun hu => t.upfront_of_assigned_eq (hup hu)) hr.2
        hbody (by omega) hnext hhigh hf hl).bind
      exact fun m g hm => watched_of (hk.departs hm)
    · intro hstop
      have hsame : A.Fits (Stmt.UpfrontAll [] body) (t.assigned names) :=
        hf.mono fun hu => by rw [hup hu]
      exact watched_of (.atEnd hstop hl hsame hk)
  | .ifElse c t e, hproper, Γ, names, A, a, argc, st, hΓ, hup, hr, hc, hlow, _, hhigh, hf,
      hl => by
    obtain ⟨-, hpc, hpt, hpe, -⟩ := hproper
    have hcall := hc.append.1.not_isCall (by simp) (settled_test _ _ t Γ _)
    obtain ⟨hcond, hbranch, hbody, hjump, hother⟩ := hc.ifElse rfl rfl
    rw [Stmt.end_ifElse Γ a c t e rfl rfl] at hhigh ⊢
    simp only [List.length_append, List.length_singleton, ← Nat.add_assoc] at hcall
    have hsize := hother.le
    -- The names noted behind the statement are those of both branches, of which one is skipped.
    have hsame : Stmt.UpfrontAll [] body → e.assigned (t.assigned names) = t.assigned names := by
      intro hu
      rw [(hup hu).1, (hup hu).2]
    apply (expr_watched_in hx hd hcalls hΓ hf c hpc hr.1 hcond hlow (by omega) hl.held).bind
    rintro m g ⟨rfl, v, argc', rfl, hk⟩
    apply test_watched hx hd hbranch (by omega) (by omega) (by omega) (by omega)
    · intro hnext
      apply (stmt_watched hx hd hcalls t hpt hΓ (fun hu => t.upfront_of_assigned_eq (hup hu).1)
        hr.2.1 hbody (by omega) hnext (by omega) hf hl).bind
      intro m g hm
      cases hm with
      | @atEnd _ _ A' _ hl' hf' hk' =>
        apply hjump.watched_step hx hd (by omega) (by omega) nofun hcall nofun
          (execute_jmp _ _ _ hsize) hhigh
        intro hstop
        have hf'' : A'.Fits (Stmt.UpfrontAll [] body) (e.assigned (t.assigned names)) :=
          hf'.mono fun hu => by rw [hsame hu]
        exact watched_of (.atEnd hstop hl' hf'' (hk.trans hk'))
      | atReturn hc hlow' hhigh' hb' hk' =>
        exact watched_of (.atReturn hc hlow' hhigh' hb' (hk.trans hk'))
    · intro hstart
      have hf' : A.Fits (Stmt.UpfrontAll [] body) (t.assigned names) :=
        hf.mono fun hu => by rw [(hup hu).1]
      apply (stmt_watched hx hd hcalls e hpe (hΓ.context t)
        (fun hu => e.upfront_of_assigned_eq (hsame hu)) hr.2.2 hother (by omega) hstart hhigh hf'
        hl).bind
      exact fun m g hm => watched_of (hk.departs hm)
  | .loop c d, hproper, Γ, names, A, a, argc, st, hΓ, hup, hr, hc, hlow, _, hhigh, hf, hl => by
    obtain ⟨-, hpc, hpd, -⟩ := hproper
    have hcall := hc.not_isCall (by simp) (settled_test _ _ d Γ _)
    obtain ⟨hcond, hbranch, hbody, hjump⟩ := hc.loop rfl
    rw [Stmt.end_loop Γ a c d rfl] at hhigh ⊢
    simp only [List.length_append, List.length_singleton, ← Nat.add_assoc] at hcall
    apply (loop_watched hx hd
      (fun hf hh => expr_watched_in hx hd hcalls hΓ hf c hpc hr.1 hcond hlow (by omega) hh) hbranch
      (fun hf hl => stmt_watched hx hd hcalls d hpd hΓ
        (fun hu => d.upfront_of_assigned_eq (hup hu)) hr.2 hbody (by omega) (by omega) (by omega)
        hf hl)
      hjump hcall hlow (by omega) (by omega) rfl hhigh (d.prefix_assigned names) hup
      (Nat.le_refl k) hf hl).bind
    exact fun m g hm => watched_of hm

theorem stmts_watched (hx : x ∈ p.spans) (hd : x.Declares params body)
    (hcalls : CallsWatched s p k) : (ss : List Stmt) → Tree.ProperAll (Stmt.toTrees ss) →
    {Γ : Context} → {names : List Label} → {A : Activation} → {a : Nat} → {argc : Int} →
    {st : List Int} → Γ.Knows p n names →
    (Stmt.UpfrontAll [] body → Stmt.UpfrontAll names ss) → Stmt.ResolvedAll Γ ss →
    s.Holds a (Stmt.codeAll Γ a ss) → x.first ≤ a → a < x.stop →
    a + (Stmt.codeAll Γ a ss).length ≤ x.stop → A.Fits (Stmt.UpfrontAll [] body) names →
    A.Lodged b st →
    Watched s p k (running a b argc st) (A :: outer)
      (Departs s x n b (a + (Stmt.codeAll Γ a ss).length) (Stmt.UpfrontAll [] body)
        (Stmt.assignedAll names ss) argc st outer)
  | [], _, _, _, _, _, _, _, _, _, _, _, _, ha, _, hf, hl =>
    watched_of (.atEnd ha hl hf ⟨rfl, id⟩)
  | S :: ss, hproper, Γ, names, A, a, argc, st, hΓ, hup, hr, hc, hlow, ha, hhigh, hf, hl => by
    obtain ⟨hcS, hcss⟩ := hc.append
    rw [Stmt.codeAll, List.length_append, ← Nat.add_assoc] at hhigh ⊢
    apply (stmt_watched hx hd hcalls S hproper.1 hΓ (fun hu => (hup hu).1) hr.1 hcS hlow ha
      (by omega) hf hl).bind
    intro m g hm
    cases hm with
    | atEnd ha' hl' hf' hk =>
      apply (stmts_watched hx hd hcalls ss hproper.2 (hΓ.context S) (fun hu => (hup hu).2) hr.2
        hcss (by omega) ha' hhigh hf' hl').bind
      exact fun m g hm => watched_of (hk.departs hm)
    | atReturn hc hlow' hhigh' hb' hk => exact watched_of (.atReturn hc hlow' hhigh' hb' hk)

end

end Statements

section Functions

variable {s : Session} {p : Program} {k : Nat} {x : Span} {params : List Label}
  {body : List Stmt} {A : Activation} {outer : List Activation}

theorem lodged_empty {b : Nat} {st : List Int} (h : st.length = b + 1) :
    ({} : Activation).Lodged b st :=
  ⟨h, fun _ hj => absurd hj (Nat.not_lt_zero _)⟩

theorem fits_empty (upfront : Prop) : ({} : Activation).Fits upfront [] :=
  ⟨nofun, fun _ => Nat.zero_le _⟩

theorem body_watched (hproper : Tree.ProperAll (Stmt.toTrees p)) (hx : x ∈ p.spans)
    (hd : x.Declares params body) (hl : x.Laid s p) (hcalls : CallsWatched s p k)
    (hpos : x.first < x.stop) {b : Nat} {argc : Int} {st : List Int} (hb : st.length = b + 1) :
    Watched s p k (running x.first b argc st) ({} :: outer)
      (Departs s x params.length b x.stop (Stmt.UpfrontAll [] body) (Stmt.assignedAll [] body) argc
        st outer) := by
  obtain ⟨Γ, hΓ, haccepted, hstop, hc⟩ := hl
  obtain ⟨f, hf⟩ := hd
  have hmem := Program.mem_of_mem_spansFrom hx
  rw [hf] at haccepted hstop hc hmem
  have hbody : Tree.ProperAll (Stmt.toTrees body) := (Stmt.proper_of_mem hproper hmem).2.1.2
  have hknows : (Stmt.inside Γ x.first f params).Knows p params.length [] :=
    ⟨⟨hΓ.insert hx ⟨f, hf⟩ f, rfl⟩, rfl⟩
  rw [hstop]
  exact stmts_watched hx ⟨f, hf⟩ hcalls body hbody hknows id haccepted.2 hc (Nat.le_refl _) hpos
    hstop.ge (fits_empty _) (lodged_empty hb)

theorem Session.Holds.watched_ret {pc : Nat} {bp argc : Int} {st : List Int}
    {c : List Instruction} {m : Machine} {Q : Machine → List Activation → Prop}
    (hc : s.Holds pc (⟨.ret, 0⟩ :: c))
    (he : (execute s.config.haltOnReturn s.sink s.program.size ⟨.ret, 0⟩).run
      (running pc bp argc st) = .ok none m) (h : Watched s p k m outer Q) :
    Watched s p k (running pc bp argc st) (A :: outer) Q := by
  refine hc.watched_execute (readsOwn_of_ne hc.getElem? nofun) fun o m' hrun _ j hj => ?_
  rw [he] at hrun
  cases hrun
  exact h.mono hj.le

/-- Calls come back. The jump is the step by which the calls inside come back earlier. -/
theorem calls_watched (hproper : Tree.ProperAll (Stmt.toTrees p))
    (hlaid : ∀ x ∈ p.spans, x.Laid s p) (k : Nat) : CallsWatched s p k := by
  induction k with
  | zero => exact fun _ _ _ _ _ _ _ _ _ _ _ _ _ _ => trivial
  | succ k ih =>
    intro a n ha pc target code S args cell saved g hbase hsize hargs
    have hjump := hbase.tail
    refine hjump.watched_execute (readsOwn_of_ne hjump.getElem? nofun) fun o m' hrun hno j hj => ?_
    rw [execute_jmp _ _ _ (address_le hlaid ha)] at hrun
    cases hrun
    have hcall : s.IsCall (pc + 1 : Nat) := hbase.isCall rfl rfl
    have henters : p.Enters a args.length := by
      by_contra h
      exact hno (.inl (.call hcall h))
    obtain ⟨x, hx, params, body, hd, rfl, hparams, hpos⟩ := henters.span
    have hcount : args.length = params.length := by omega
    have hbase : (S ++ cell :: (target : Int) :: (args ++ [saved])).length =
        S.length + 2 + args.length + 1 := by
      simp only [List.length_append, List.length_cons, List.length_nil]
      omega
    apply ((body_watched hproper hx hd (hlaid x hx) ih hpos hbase).mono
      (Nat.le_of_lt_succ hj)).bind
    intro m g' hm
    cases hm with
    | atEnd h => omega
    | atReturn hret _ _ _ hk =>
      exact hret.watched_ret (execute_ret_keeps _ _ hcount hsize hk) (watched_of ⟨rfl, _, rfl⟩)

/-- The main function, started by the bootstrap, comes to a halt, or control strays, or it never
returns. -/
theorem main_watched (hproper : Tree.ProperAll (Stmt.toTrees p))
    (hlaid : ∀ x ∈ p.spans, x.Laid s p) {pc : Nat} {n : Int} (h : p.Enters pc n) (k : Nat) :
    Watched s p k (running pc 0 0 [0]) [{}] fun _ _ => False := by
  obtain ⟨x, hx, params, body, hd, rfl, -, hpos⟩ := h.span
  have hbody : Watched s p k (running x.first ((0 : Nat) : Int) 0 [0]) [{}] _ :=
    body_watched hproper hx hd (hlaid x hx) (calls_watched hproper hlaid k) hpos rfl
  apply hbody.bind
  intro m g hm
  cases hm with
  | atEnd h => omega
  | @atReturn pc' code' argc' v st' A hret hlow hhigh hb hk =>
    obtain ⟨y, st, rfl⟩ := List.exists_cons_of_length_pos hb
    cases hhalt : s.config.haltOnReturn with
    | true =>
      apply hret.watched_ret
      · rw [hhalt]
        exact execute_ret_toplevel _ _
      · exact watched_halted rfl
    | false =>
      have hreturn : s.IsReturn pc' := ⟨pc', rfl, by rw [hret.getElem?]; rfl⟩
      refine hret.watched_execute (readsOwn_of_ne hret.getElem? nofun) fun o m' _ hno => ?_
      exact absurd (.inr ⟨hhalt, hreturn, rfl⟩) hno

end Functions

section Tracking

variable {s : Session} {p : Program} {m m' : Machine} {g : List Activation}

/-- The bootstrap is being executed, or it has been and local variables are read as their
activations say. -/
def Tracked (s : Session) (p : Program) (m : Machine) (g : List Activation) : Prop :=
  m = running 0 0 0 [] ∧ g = [{}] ∨ m = running 1 0 0 [0] ∧ g = [{}] ∨
    ∀ k, Watched s p k m g fun _ _ => False

theorem Tracked.readsOwn {a : Nat} (hboot : s.Holds 0 [⟨.push, 0⟩, ⟨.jmp, a⟩])
    (h : Tracked s p m g) : ReadsOwn s p m g := by
  rcases h with ⟨rfl, -⟩ | ⟨rfl, -⟩ | h
  · exact readsOwn_of_ne hboot.getElem? nofun
  · exact readsOwn_of_ne hboot.tail.getElem? nofun
  · exact (h 1).elim False.elim And.left

theorem Tracked.step (hproper : Tree.ProperAll (Stmt.toTrees p))
    (hlaid : ∀ x ∈ p.spans, x.Laid s p) {a n : Nat} (ha : p.Declares a n)
    (hboot : s.Holds 0 [⟨.push, 0⟩, ⟨.jmp, a⟩]) (h : Tracked s p m g) {i : Instruction}
    {o : Option (Int × String)} (hi : s.fetch? m = some i)
    (hrun : (execute s.config.haltOnReturn s.sink s.program.size i).run m = .ok o m')
    (hno : ¬ Strays s p m m') : Tracked s p m' (s.record m i g) := by
  rcases h with ⟨rfl, rfl⟩ | ⟨rfl, rfl⟩ | h
  · rw [fetch?_running hboot.getElem?] at hi
    cases hi
    rw [execute_push] at hrun
    cases hrun
    exact .inr (.inl ⟨rfl, record_push (not_makesCell hboot.getElem?)⟩)
  · rw [fetch?_running hboot.tail.getElem?] at hi
    cases hi
    rw [execute_jmp _ _ _ (address_le hlaid ha)] at hrun
    cases hrun
    obtain ⟨n', henters⟩ : ∃ n', p.Enters a n' := by
      by_contra hnone
      exact hno (.inl (.main rfl fun n' h => hnone ⟨n', h⟩))
    exact .inr (.inr (main_watched hproper hlaid henters))
  · refine .inr (.inr fun k => ?_)
    rcases h (k + 1) with hfalse | ⟨-, hnext⟩
    · exact hfalse.elim
    · exact hnext i o m' hi hrun hno

theorem Session.Recorded.tracked (hproper : Tree.ProperAll (Stmt.toTrees p))
    (hlaid : ∀ x ∈ p.spans, x.Laid s p) {a n : Nat} (ha : p.Declares a n)
    (hboot : s.Holds 0 [⟨.push, 0⟩, ⟨.jmp, a⟩]) {r : Run} (h : s.Recorded (Strays s p) r g) :
    Tracked s p r.machine g := by
  induction h with
  | start => exact .inl ⟨rfl, rfl⟩
  | step _ hi hrun hno ih =>
    obtain ⟨j, o, hj, hexecute⟩ := Advances.next ⟨_, hi, hrun⟩
    rw [hi] at hj
    cases hj
    exact ih.step hproper hlaid ha hboot hi hexecute hno

theorem Session.Recorded.reached {bad : Machine → Machine → Prop} {r : Run}
    (h : s.Recorded bad r g) : s.Reached bad r := by
  induction h with
  | start => exact .start
  | step _ hi hrun hno ih => exact .step ih ⟨_, hi, hrun⟩ hno

theorem Session.Recorded.avoids {bad bad' : Machine → Machine → Prop} {r : Run}
    (h : s.Recorded bad r g)
    (hno : ∀ r r', s.Reached bad' r → s.Advances r r' → ¬ bad' r.machine r'.machine) :
    s.Recorded bad' r g := by
  induction h with
  | start => exact .start
  | step _ hi hrun _ ih => exact .step ih hi hrun (hno _ _ ih.reached ⟨_, hi, hrun⟩)

end Tracking

/-- In a run in which control has not strayed, an instruction that reads a local variable reads one
of the innermost activation: the value most recently stored in the slot in that activation if there
is one, and otherwise, if the activation has a cell for the slot, the placeholder. There is a cell
if the function assigns no name for the first time in a branch or in a loop. If a return at the top
level halts the machine and every path through every function comes to a return, this is so at all
points of all runs. -/
theorem loadl_reads_own_slot {source : String} {t t' : Transcript} {code : List Instruction}
    (hcode : (Pipeline.compile source).run t = .ok code t') {p : Program}
    (hp : Pipeline.Spells source p) {s : Session} (hs : s.program = code.toArray) :
    (∀ r g, s.Recorded (Strays s p) r g → ReadsOwn s p r.machine g) ∧
    (s.config.haltOnReturn = true → p.AlwaysReturns →
      ∀ r g, s.Recorded (fun _ _ => False) r g → ReadsOwn s p r.machine g) := by
  obtain ⟨rfl, haccepted, info, hmain⟩ := Pipeline.compile_ok hcode hp
  obtain ⟨ts, hscan, hparse⟩ := hp
  have hproper := parseProgram_proper (tokenize_proper hscan) hparse
  have hlist : s.program.toList = p.code := by rw [hs]
  have hlaid := spans_laid haccepted hlist
  have hboot := code_boot hlist hmain
  have hdeclares : p.Declares info.address info.paramCount :=
    declaresAll_elementsContext declaresAll_start (fun _ h => h) _ info hmain
  have hreads : ∀ r g, s.Recorded (Strays s p) r g → ReadsOwn s p r.machine g :=
    fun r g hr => (hr.tracked hproper hlaid hdeclares hboot).readsOwn hboot
  refine ⟨hreads, fun hhalt hreturns r g hr => hreads r g (hr.avoids ?_)⟩
  have hstrays : Strays s p = FallsOff s p := by
    funext m m'
    simp [Strays, hhalt]
  rw [hstrays]
  intro r r' hr hadvances hfall
  have hconfined := hr.confined hlaid hhalt hdeclares hboot
  exact (hconfined.step hlaid hhalt hdeclares hboot hadvances.next).1 hfall hreturns

/-- A variable is read while a call is being set up, with the cell for its result and the return
address above the variable. -/
theorem loadl_reads_own_slot_argument :
    ∃ (code : List Instruction) (t' : Transcript) (p : Program),
      (Pipeline.compile "function f(n){x=n;return x;}function main(){y=5;return f(y);}").run {} =
        .ok code t' ∧
      Pipeline.Spells "function f(n){x=n;return x;}function main(){y=5;return f(y);}" p ∧
      p.AlwaysReturns ∧
      (∀ r g, (ofCode code none Sink.silent false).Recorded (fun _ _ => False) r g →
        ReadsOwn (ofCode code none Sink.silent false) p r.machine g) ∧
      ∃ (r : Run) (A : Activation),
        (ofCode code none Sink.silent false).Recorded (fun _ _ => False) r [A] ∧
        (ofCode code none Sink.silent false).fetch? r.machine = some ⟨.loadl, 0⟩ ∧
        A.stored 0 = some 5 ∧ p.UpfrontAt r.machine.pc := by
  let f : Label := some (.word "f")
  let n : Label := some (.word "n")
  let x : Label := some (.word "x")
  let y : Label := some (.word "y")
  let p : Program :=
    [.func f [n] [.assign x (.var n), .ret (.var x)],
     .func Program.mainName [] [.assign y (.num (some (.int 5))), .ret (.call f [.var y])]]
  have hp : Pipeline.Spells "function f(n){x=n;return x;}function main(){y=5;return f(y);}" p := by
    refine ⟨[⟨.functionWord, none⟩, ⟨.identifier, f⟩, ⟨.lparen, none⟩, ⟨.identifier, n⟩,
      ⟨.rparen, none⟩, ⟨.lbrace, none⟩, ⟨.identifier, x⟩, ⟨.assign, none⟩, ⟨.identifier, n⟩,
      ⟨.semi, none⟩, ⟨.returnWord, none⟩, ⟨.identifier, x⟩, ⟨.semi, none⟩, ⟨.rbrace, none⟩,
      ⟨.functionWord, none⟩, ⟨.identifier, Program.mainName⟩, ⟨.lparen, none⟩, ⟨.rparen, none⟩,
      ⟨.lbrace, none⟩, ⟨.identifier, y⟩, ⟨.assign, none⟩, ⟨.number, some (.int 5)⟩, ⟨.semi, none⟩,
      ⟨.returnWord, none⟩, ⟨.identifier, f⟩, ⟨.lparen, none⟩, ⟨.identifier, y⟩, ⟨.rparen, none⟩,
      ⟨.semi, none⟩, ⟨.rbrace, none⟩, ⟨.eof, none⟩], by decide +kernel, by cbv⟩
  have hreturns : p.AlwaysReturns := by
    intro g params body h
    simp only [p, List.mem_cons, Stmt.func.injEq, List.not_mem_nil, or_false] at h
    rcases h with ⟨-, -, rfl⟩ | ⟨-, -, rfl⟩
    · exact .inr (.inl trivial)
    · exact .inr (.inl trivial)
  obtain ⟨code', t', hcode⟩ := exists_of_run_ok (x := Pipeline.compile
    "function f(n){x=n;return x;}function main(){y=5;return f(y);}") (s := {}) (by decide +kernel)
  let code : List Instruction := [⟨.push, 0⟩, ⟨.jmp, 7⟩, ⟨.push, -1⟩, ⟨.loada, 0⟩, ⟨.storel, 0⟩,
    ⟨.loadl, 0⟩, ⟨.ret, 0⟩, ⟨.push, -1⟩, ⟨.push, 5⟩, ⟨.storel, 0⟩, ⟨.push, -1⟩, ⟨.ldpc, 8⟩,
    ⟨.loadl, 0⟩, ⟨.push, 1⟩, ⟨.strargc, 0⟩, ⟨.ldbp, 0⟩, ⟨.ldsp, 0⟩, ⟨.strbp, 0⟩, ⟨.jmp, 2⟩,
    ⟨.push, 0⟩, ⟨.strargc, 0⟩, ⟨.ret, 0⟩]
  have hlayout : code' = code := by
    rw [(Pipeline.compile_ok hcode hp).1]
    decide
  rw [hlayout] at hcode
  let s : Session := ofCode code none Sink.silent false
  let r₁ : Run := { machine := { stack := #[0], pc := 1 }, steps := 1, peak := 1 }
  let r₂ : Run := { machine := { stack := #[0], pc := 7 }, steps := 2, peak := 1 }
  let r₃ : Run := { machine := { stack := #[0, -1], pc := 8 }, steps := 3, peak := 2 }
  let r₄ : Run := { machine := { stack := #[0, -1, 5], pc := 9 }, steps := 4, peak := 3 }
  let r₅ : Run := { machine := { stack := #[0, 5], pc := 10 }, steps := 5, peak := 3 }
  let r₆ : Run := { machine := { stack := #[0, 5, -1], pc := 11 }, steps := 6, peak := 3 }
  let r₇ : Run := { machine := { stack := #[0, 5, -1, 19], pc := 12 }, steps := 7, peak := 4 }
  let A : Activation := Activation.store (Activation.grow {}) 0 5
  have h₁ : s.Recorded (fun _ _ => False) r₁ [{}] := .step (i := ⟨.push, 0⟩) .start rfl rfl id
  have h₂ : s.Recorded (fun _ _ => False) r₂ [{}] := .step h₁ rfl rfl id
  have h₃ : s.Recorded (fun _ _ => False) r₃ [Activation.grow {}] := .step h₂ rfl rfl id
  have h₄ : s.Recorded (fun _ _ => False) r₄ [Activation.grow {}] := .step h₃ rfl rfl id
  have h₅ : s.Recorded (fun _ _ => False) r₅ [A] := .step h₄ rfl rfl id
  have h₆ : s.Recorded (fun _ _ => False) r₆ [A] := .step h₅ rfl rfl id
  have h₇ : s.Recorded (fun _ _ => False) r₇ [A] := .step h₆ rfl rfl id
  have hupfront : p.UpfrontAt r₇.machine.pc :=
    ⟨⟨_, 7, 22⟩, List.mem_cons_of_mem _ List.mem_cons_self, _, _, ⟨_, rfl⟩,
      ⟨by decide, by decide⟩, trivial, trivial, trivial⟩
  exact ⟨code, t', p, hcode, hp, hreturns, (loadl_reads_own_slot hcode hp rfl).2 rfl hreturns, r₇,
    A, h₇, rfl, rfl, hupfront⟩

/-- A variable whose only assignment is in a branch that is not taken has no cell. In its place an
operand of the expression is read, though control does not stray and nothing was stored. -/
theorem skipped_assignment_reads_operand :
    ∃ (code : List Instruction) (t' : Transcript) (p : Program) (r r' : Run) (A : Activation),
      (Pipeline.compile "function main() { if (0) { x = 1; } return x + 5; }").run {} =
        .ok code t' ∧
      Pipeline.Spells "function main() { if (0) { x = 1; } return x + 5; }" p ∧
      p.AlwaysReturns ∧
      (ofCode code none Sink.silent false).Recorded (fun _ _ => False) r [A] ∧
      (ofCode code none Sink.silent false).fetch? r.machine = some ⟨.loadl, 0⟩ ∧
      A.stored 0 = none ∧
      ((ofCode code none Sink.silent false).step ⟨.loadl, 0⟩).run r = .ok () r' ∧
      r.machine.stack = #[0, 5] ∧ r'.machine.stack = #[0, 5, 5] := by
  let x : Label := some (.word "x")
  let p : Program :=
    [.func Program.mainName []
      [.ifThen (.num (some (.int 0))) (.block [.assign x (.num (some (.int 1)))]),
       .ret (.binary .add (.var x) (.num (some (.int 5))))]]
  have hp : Pipeline.Spells "function main() { if (0) { x = 1; } return x + 5; }" p := by
    refine ⟨[⟨.functionWord, none⟩, ⟨.identifier, Program.mainName⟩, ⟨.lparen, none⟩,
      ⟨.rparen, none⟩, ⟨.lbrace, none⟩, ⟨.ifWord, none⟩, ⟨.lparen, none⟩,
      ⟨.number, some (.int 0)⟩, ⟨.rparen, none⟩, ⟨.lbrace, none⟩, ⟨.identifier, x⟩,
      ⟨.assign, none⟩, ⟨.number, some (.int 1)⟩, ⟨.semi, none⟩, ⟨.rbrace, none⟩,
      ⟨.returnWord, none⟩, ⟨.identifier, x⟩, ⟨.plus, none⟩, ⟨.number, some (.int 5)⟩,
      ⟨.semi, none⟩, ⟨.rbrace, none⟩, ⟨.eof, none⟩], by decide +kernel, by cbv⟩
  have hreturns : p.AlwaysReturns := by
    intro g params body h
    simp only [p, List.mem_cons, Stmt.func.injEq, List.not_mem_nil, or_false] at h
    obtain ⟨-, -, rfl⟩ := h
    exact .inr (.inl trivial)
  obtain ⟨code', t', hcode⟩ := exists_of_run_ok (x := Pipeline.compile
    "function main() { if (0) { x = 1; } return x + 5; }") (s := {}) (by decide +kernel)
  let code : List Instruction := [⟨.push, 0⟩, ⟨.jmp, 2⟩, ⟨.push, 0⟩, ⟨.beq0, 7⟩, ⟨.push, -1⟩,
    ⟨.push, 1⟩, ⟨.storel, 0⟩, ⟨.push, 5⟩, ⟨.loadl, 0⟩, ⟨.binary .add, 0⟩, ⟨.ret, 0⟩]
  have hlayout : code' = code := by
    rw [(Pipeline.compile_ok hcode hp).1]
    decide
  rw [hlayout] at hcode
  let s : Session := ofCode code none Sink.silent false
  let r₁ : Run := { machine := { stack := #[0], pc := 1 }, steps := 1, peak := 1 }
  let r₂ : Run := { machine := { stack := #[0], pc := 2 }, steps := 2, peak := 1 }
  let r₃ : Run := { machine := { stack := #[0, 0], pc := 3 }, steps := 3, peak := 2 }
  let r₄ : Run := { machine := { stack := #[0], pc := 7 }, steps := 4, peak := 2 }
  let r₅ : Run := { machine := { stack := #[0, 5], pc := 8 }, steps := 5, peak := 2 }
  let r₆ : Run := { machine := { stack := #[0, 5, 5], pc := 9 }, steps := 6, peak := 3 }
  have h₁ : s.Recorded (fun _ _ => False) r₁ [{}] := .step (i := ⟨.push, 0⟩) .start rfl rfl id
  have h₂ : s.Recorded (fun _ _ => False) r₂ [{}] := .step h₁ rfl rfl id
  have h₃ : s.Recorded (fun _ _ => False) r₃ [{}] := .step h₂ rfl rfl id
  have h₄ : s.Recorded (fun _ _ => False) r₄ [{}] := .step h₃ rfl rfl id
  have h₅ : s.Recorded (fun _ _ => False) r₅ [{}] := .step h₄ rfl rfl id
  exact ⟨code, t', p, r₅, r₆, {}, hcode, hp, hreturns, h₅, rfl, rfl, rfl, rfl, rfl⟩

end StackLang
