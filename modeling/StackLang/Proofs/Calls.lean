import StackLang.Proofs.Elements

namespace StackLang

open Session Machine

section Layout

variable {s : Session} {first close stop entry n k back : Nat}

/-- The code from `first` to `stop` is a call with `n` arguments of the function at `entry`, made in
a function that has `k` parameters. At `close` the arguments have been evaluated, and `back` is the
return address. -/
structure CallLayout (s : Session) (first close stop entry n k back : Nat) : Prop where
  /-- A cell for the result and the return address come first. -/
  opens : ∀ (bp argc : Int) (S : List Int),
    s.Moves 2 (running first bp argc S) (running (first + 2) bp argc (S ++ [-1, (back : Int)]))
  count : s.program[close]? = some ⟨.push, n⟩
  enters : ∀ (bp argc : Int) (S vs : List Int), vs.length = n →
    s.Moves 6 (running close bp argc (S ++ -1 :: (back : Int) :: vs))
      (running entry ((S.length + n + 2 : Nat) : Int) n (S ++ -1 :: (back : Int) :: (vs ++ [bp])))
  /-- The arguments are numbered from the last one. -/
  arguments : ∀ (bp : Int) (S vs : List Int), vs.length = n →
    ∀ (i : Nat) (v : Int), i < n → vs[n - 1 - i]? = some v →
      (execute s.config.haltOnReturn s.sink s.program.size ⟨.loada, i⟩).run
          (running entry ((S.length + n + 2 : Nat) : Int) n
            (S ++ -1 :: (back : Int) :: (vs ++ [bp]))) =
        .ok none (running (entry + 1) ((S.length + n + 2 : Nat) : Int) n
          (S ++ -1 :: (back : Int) :: (vs ++ [bp]) ++ [v]))
  returns : ∀ (pc : Nat) (bp : Int) (S ws X : List Int) (r : Int), s.IsReturn pc → ws.length = n →
    s.Moves 3
      (running pc ((S.length + n + 2 : Nat) : Int) n
        (S ++ -1 :: (back : Int) :: (ws ++ bp :: X) ++ [r]))
      (running stop bp k (S ++ [r]))

theorem moves_enter {pc : Nat} {code : List Instruction}
    (hc : s.Holds pc (⟨.push, n⟩ :: ⟨.strargc, 0⟩ :: ⟨.ldbp, 0⟩ :: ⟨.ldsp, 0⟩ :: ⟨.strbp, 0⟩ ::
      ⟨.jmp, entry⟩ :: code)) (hentry : entry ≤ s.program.size) (bp argc cell target : Int)
    {S vs : List Int} (hn : vs.length = n) :
    s.Moves 6 (running pc bp argc (S ++ cell :: target :: vs))
      (running entry ((S.length + n + 2 : Nat) : Int) n
        (S ++ cell :: target :: (vs ++ [bp]))) := by
  have hframe : s.Moves 5 (running pc bp argc (S ++ cell :: target :: vs)) _ := moves_frame hc
  have hbase : (S ++ cell :: target :: vs).length = S.length + n + 2 := by
    simp only [List.length_append, List.length_cons]
    omega
  have hstack : S ++ cell :: target :: vs ++ [bp] = S ++ cell :: target :: (vs ++ [bp]) := by simp
  rw [hbase, hstack] at hframe
  have hjump := hc.tail.tail.tail.tail.tail
  exact hframe.trans (hjump.step (execute_jmp _ _ _ hentry)).moves

theorem execute_argument (pc : Nat) (bp cell target argc : Int) {S vs : List Int} {i : Nat}
    {v : Int} (hi : i < n) (hv : vs[n - 1 - i]? = some v) :
    (execute s.config.haltOnReturn s.sink s.program.size ⟨.loada, i⟩).run
        (running pc ((S.length + n + 2 : Nat) : Int) argc
          (S ++ cell :: target :: (vs ++ [bp]))) =
      .ok none (running (pc + 1) ((S.length + n + 2 : Nat) : Int) argc
        (S ++ cell :: target :: (vs ++ [bp]) ++ [v])) := by
  apply execute_loada _ _ _ (by omega)
  have hindex : S.length + n + 2 - i - 1 - S.length = n - 1 - i + 1 + 1 := by omega
  rw [List.getElem?_append_right (by omega), hindex, List.getElem?_cons_succ,
    List.getElem?_cons_succ]
  exact getElem?_append_of_some hv [bp]

/-- A return from a frame with `n` arguments goes to its return address, and the argument count of
the caller is restored there. -/
theorem moves_return {target pc : Nat} {code : List Instruction}
    (hc : s.Holds target (⟨.push, k⟩ :: ⟨.strargc, 0⟩ :: code)) (hret : s.IsReturn pc)
    (bp cell : Int) {S ws X : List Int} {r : Int} (hn : ws.length = n) :
    s.Moves 3
      (running pc ((S.length + n + 2 : Nat) : Int) n
        (S ++ cell :: (target : Int) :: (ws ++ bp :: X) ++ [r]))
      (running (target + 2) bp k (S ++ [r])) := by
  obtain ⟨a, ha, hop⟩ := hret
  obtain ⟨i, hi, hret⟩ := Option.map_eq_some_iff.mp hop
  obtain ⟨op, operand⟩ := i
  cases hret
  have hpc : a = pc := by omega
  rw [hpc] at hi
  have htarget := hc.le
  have hstep : (execute s.config.haltOnReturn s.sink s.program.size ⟨.ret, operand⟩).run
      (running pc ((S.length + n + 2 : Nat) : Int) n
        (S ++ cell :: (target : Int) :: (ws ++ bp :: X) ++ [r])) =
      .ok none (running target bp n (S ++ [r])) :=
    execute_ret s.config.haltOnReturn s.sink s.program.size (by omega) hn (by omega)
  exact .step ⟨_, fetch?_running hi _ _ _, hstep⟩ (moves_epilogue hc)

theorem callLayout_of_holds {Γ : Context} {f : Label} {args : List Expr} {info : FunctionInfo}
    {a : Nat} (hc : s.Holds a ((Expr.call f args).code Γ)) (hf : Γ.functions.get? f = some info)
    (hentry : info.address ≤ s.program.size) :
    CallLayout s a (a + 2 + Expr.sizeAll args) (a + (Expr.call f args).size) info.address
      args.length Γ.argc (a + 2 + Expr.sizeAll args + 6) := by
  have haddress : Γ.entry f = info.address := by simp [Context.entry, hf]
  rw [Expr.code, haddress, Expr.length_codeAll] at hc
  obtain ⟨hc, hclose⟩ := hc.append
  obtain ⟨hopen, -⟩ := hc.append
  rw [List.length_append, Expr.length_codeAll, ← Nat.add_assoc] at hclose
  have hback := hclose.tail.tail.tail.tail.tail.tail
  refine ⟨fun bp argc S => ?_, hclose.getElem?, ?_, ?_, ?_⟩
  · have hldpc : (execute s.config.haltOnReturn s.sink s.program.size
        ⟨.ldpc, (Expr.sizeAll args : Int) + 7⟩).run (running (a + 1) bp argc (S ++ [-1])) = _ :=
      execute_ldpc _ _ _ (Expr.sizeAll args + 7)
    have htarget : a + 1 + (Expr.sizeAll args + 7) = a + 2 + Expr.sizeAll args + 6 := by omega
    rw [htarget, List.append_assoc] at hldpc
    exact .step (hopen.step (execute_push _ _ _ _)) (hopen.tail.step hldpc).moves
  · exact fun bp argc S vs hn => moves_enter hclose hentry bp argc _ _ hn
  · exact fun bp S vs _ i v hi hv => execute_argument _ bp _ _ _ hi hv
  · intro pc bp S ws X r hret hn
    have hstop : a + (Expr.call f args).size = a + 2 + Expr.sizeAll args + 6 + 2 := by
      rw [Expr.size]
      omega
    rw [hstop]
    exact moves_return hback hret bp _ hn

end Layout

/-- Wherever a call stands in a program, its instructions and a return agree on the frame. The
called function starts with its arguments below its base and the caller's base above them. A return
from there, whatever became of the arguments and whatever stands above the base, leaves the result
in place of the frame, and everything else as the caller had it. -/
theorem call_agrees_with_return {source : String} {t t' : Transcript} {code : List Instruction}
    (hcode : (Pipeline.compile source).run t = .ok code t') {p : Program}
    (hp : Pipeline.Spells source p) {s : Session} (hs : s.program = code.toArray)
    {before after : List Stmt} {S : Stmt} (hS : p = before ++ S :: after) {y : Site}
    (hy : y ∈ S.sitesFrom before (Program.addressAfter before)) {f : Label} {args : List Expr}
    (hcall : y.expr = .call f args) :
    ∃ b params body rest, p = b ++ .func f params body :: rest ∧ params.length = args.length ∧
      ∃ back, CallLayout s y.address (y.address + 2 + Expr.sizeAll args) (y.address + y.expr.size)
        (Program.addressAfter b) args.length S.parameters.length back := by
  obtain ⟨rfl, haccepted, -⟩ := Pipeline.compile_ok hcode hp
  obtain ⟨ts, hscan, hparse⟩ := hp
  have hnamed := Program.named_of_proper (parseProgram_proper (tokenize_proper hscan) hparse)
  have hlist : s.program.toList = p.code := by rw [hs]
  obtain ⟨Γ, hΓ, -, hr, hc⟩ := element_placed hlist haccepted hnamed hS y hy
  rw [hcall] at hr hc
  obtain ⟨⟨info, hf, hcount⟩, -⟩ := hr
  have hdeclared := hf
  rw [hΓ.functions] at hdeclared
  obtain ⟨b, params, body, rest, hbefore, rfl⟩ := Program.declared_of_get? hdeclared
  have hb : p = b ++ .func f params body :: (rest ++ after) := by
    rw [hS, List.append_cons, hbefore]
    simp
  have hentry := (Program.holds_element hlist hb).le
  refine ⟨b, params, body, rest ++ after, hb, hcount.symm,
    y.address + 2 + Expr.sizeAll args + 6, ?_⟩
  rw [hcall, ← hΓ.argc]
  exact callLayout_of_holds hc hf (by simp only; omega)

/-- The inner one of two nested calls, made where the caller has one parameter. -/
theorem call_agrees_with_return_nested :
    ∃ (code : List Instruction) (t' : Transcript),
      (Pipeline.compile
        "function f(a,b){return a-b;}function g(n){return f(n,f(n,1));}function main(){return g(9);}"
        ).run {} = .ok code t' ∧
      ∃ back, CallLayout (ofCode code none Sink.silent false) 9 13 21 2 2 1 back := by
  let a : Label := some (.word "a")
  let b : Label := some (.word "b")
  let f : Label := some (.word "f")
  let g : Label := some (.word "g")
  let n : Label := some (.word "n")
  let inner : Expr := .call f [.var n, .num (some (.int 1))]
  let p : Program :=
    [.func f [a, b] [.ret (.binary .sub (.var a) (.var b))],
     .func g [n] [.ret (.call f [.var n, inner])],
     .func Program.mainName [] [.ret (.call g [.num (some (.int 9))])]]
  have hp : Pipeline.Spells
      "function f(a,b){return a-b;}function g(n){return f(n,f(n,1));}function main(){return g(9);}"
      p := by
    refine ⟨[⟨.functionWord, none⟩, ⟨.identifier, f⟩, ⟨.lparen, none⟩, ⟨.identifier, a⟩,
      ⟨.comma, none⟩, ⟨.identifier, b⟩, ⟨.rparen, none⟩, ⟨.lbrace, none⟩, ⟨.returnWord, none⟩,
      ⟨.identifier, a⟩, ⟨.minus, none⟩, ⟨.identifier, b⟩, ⟨.semi, none⟩, ⟨.rbrace, none⟩,
      ⟨.functionWord, none⟩, ⟨.identifier, g⟩, ⟨.lparen, none⟩, ⟨.identifier, n⟩,
      ⟨.rparen, none⟩, ⟨.lbrace, none⟩, ⟨.returnWord, none⟩, ⟨.identifier, f⟩, ⟨.lparen, none⟩,
      ⟨.identifier, n⟩, ⟨.comma, none⟩, ⟨.identifier, f⟩, ⟨.lparen, none⟩, ⟨.identifier, n⟩,
      ⟨.comma, none⟩, ⟨.number, some (.int 1)⟩, ⟨.rparen, none⟩, ⟨.rparen, none⟩, ⟨.semi, none⟩,
      ⟨.rbrace, none⟩, ⟨.functionWord, none⟩, ⟨.identifier, Program.mainName⟩, ⟨.lparen, none⟩,
      ⟨.rparen, none⟩, ⟨.lbrace, none⟩, ⟨.returnWord, none⟩, ⟨.identifier, g⟩, ⟨.lparen, none⟩,
      ⟨.number, some (.int 9)⟩, ⟨.rparen, none⟩, ⟨.semi, none⟩, ⟨.rbrace, none⟩, ⟨.eof, none⟩],
      by decide +kernel, by cbv⟩
  obtain ⟨code, t', hcode⟩ := exists_of_run_ok (x := Pipeline.compile
    "function f(a,b){return a-b;}function g(n){return f(n,f(n,1));}function main(){return g(9);}")
    (s := {}) (by decide +kernel)
  have hsite : (⟨inner, [], 9⟩ : Site) ∈ (p[1]).sitesFrom [p[0]] 6 := by
    right
    right
    left
  have hg : p = [p[0]] ++ p[1] :: [p[2]] := rfl
  obtain ⟨before, params, body, rest, hbefore, -, hlayout⟩ :=
    call_agrees_with_return hcode hp (s := ofCode code none Sink.silent false) rfl hg hsite rfl
  -- no other function has the name of the first one
  have hnil : before = [] := by
    rcases before with _ | ⟨x, _ | ⟨y, _ | ⟨z, before⟩⟩⟩
    · rfl
    all_goals simp [p, f, g, Program.mainName] at hbefore
  subst hnil
  exact ⟨code, t', hcode, hlayout⟩

end StackLang
