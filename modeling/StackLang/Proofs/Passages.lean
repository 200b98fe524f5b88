import StackLang.Proofs.Confinement
import StackLang.Proofs.Correctness

namespace StackLang

namespace Session

variable {s : Session} {r r' : Run}

/-- One step of a run. -/
def Advances (s : Session) (r r' : Run) : Prop :=
  ∃ i, s.fetch? r.machine = some i ∧ (s.step i).run r = .ok () r'

/-- The run has come to this point, and none of its steps was a bad one. -/
inductive Reached (s : Session) (bad : Machine → Machine → Prop) : Run → Prop where
  | start : Reached s bad {}
  | step {r r' : Run} : Reached s bad r → s.Advances r r' → ¬ bad r.machine r'.machine →
      Reached s bad r'

theorem Reached.avoids {bad bad' : Machine → Machine → Prop} (h : s.Reached bad r)
    (hno : ∀ r r', s.Reached bad' r → s.Advances r r' → ¬ bad' r.machine r'.machine) :
    s.Reached bad' r := by
  induction h with
  | start => exact .start
  | step _ hadvances _ ih => exact .step ih hadvances (hno _ _ ih hadvances)

theorem Advances.next (h : s.Advances r r') : s.Next r.machine r'.machine := by
  obtain ⟨i, hi, hstep⟩ := h
  obtain ⟨o, hrun, -⟩ := (round_of_step hstep).executes
  exact ⟨i, o, hi, hrun⟩

end Session

open Session Machine

section Passages

variable {s : Session} {p : Program} {m m' : Machine}

/-- How control goes on in a step that does not leave a function at its end. -/
inductive Passes (s : Session) (p : Program) (m m' : Machine) : Prop where
  | start : m.pc = 0 → m'.pc = 1 → Passes s p m m'
  | bootstrap {n : Int} : m.pc = 1 → p.Enters m'.pc n → Passes s p m m'
  | within {x : Span} {params : List Label} {body : List Stmt} : x ∈ p.spans →
      x.Declares params body → x.Covers m.pc → x.Covers m'.pc → Passes s p m m'
  | call : p.InFunction m.pc → s.IsCall m.pc → p.Enters m'.pc m'.argc → Passes s p m m'
  | ret : p.InFunction m.pc → s.IsReturn m.pc → m'.halted = true ∨ p.InFunction m'.pc →
      Passes s p m m'

/-- The bootstrap is being executed, or it has been and control stays in functions. -/
def Confined (s : Session) (p : Program) (m : Machine) : Prop :=
  m = running 0 0 0 [] ∨ m = running 1 0 0 [0] ∨ ∀ k, Safe s p k m fun m => m.halted = true

theorem Session.Next.passes (hlaid : ∀ x ∈ p.spans, x.Laid s p) (h : s.Next m m') {x : Span}
    (hx : x ∈ p.spans) (hm : x.Covers m.pc) :
    s.IsReturn m.pc ∨ s.IsCall m.pc ∧ (∃ a n : Nat, m'.pc = a ∧ p.Declares a n) ∨
      ¬ s.IsReturn m.pc ∧ ¬ s.IsCall m.pc ∧ (x.Covers m'.pc ∨ m'.pc = x.stop) := by
  obtain ⟨hlow, hhigh⟩ := hm
  obtain ⟨pc, hpc⟩ : ∃ pc : Nat, m.pc = pc := ⟨m.pc.toNat, by omega⟩
  have hflow : Flow s p x.first x.stop pc := Span.flow hx (hlaid x hx) (by omega) (by omega)
  rw [hpc]
  rcases h.flow hpc hflow (by omega) (by omega) with h | h | ⟨hreturn, hcall, hlow', hhigh'⟩
  · exact .inl h
  · exact .inr (.inl h)
  · refine .inr (.inr ⟨hreturn, hcall, ?_⟩)
    simp only [Span.Covers]
    omega

/-- A step leaves the machine confined, unless it leaves a function at its end. -/
def Proceeds (s : Session) (p : Program) (m m' : Machine) : Prop :=
  (FallsOff s p m m' → ¬ p.AlwaysReturns) ∧
    (¬ FallsOff s p m m' → Confined s p m' ∧ Passes s p m m')

theorem bootstrap_push_proceeds {code : List Instruction} (hboot : s.Holds 0 (⟨.push, 0⟩ :: code))
    (h : s.Next (running 0 0 0 []) m') : Proceeds s p (running 0 0 0 []) m' := by
  obtain ⟨i, o, hi, hrun⟩ := h.fetch rfl
  rw [hboot.getElem?] at hi
  cases hi
  rw [execute_push] at hrun
  cases hrun
  refine ⟨?_, fun _ => ⟨.inr (.inl rfl), .start rfl rfl⟩⟩
  rintro (⟨hx, -, hcovers, -⟩ | ⟨hone, -⟩ | ⟨⟨b, hb, -⟩, -⟩)
  · exact absurd hcovers (not_covers_of_lt hx (by decide))
  · cases hone
  · have hb' : (0 : Int) = ((b + 1 : Nat) : Int) := hb
    omega

theorem bootstrap_jump_proceeds (hlaid : ∀ x ∈ p.spans, x.Laid s p)
    (hhalt : s.config.haltOnReturn = true) {a n : Nat} (ha : p.Declares a n)
    (hboot : s.Holds 0 [⟨.push, 0⟩, ⟨.jmp, a⟩]) (h : s.Next (running 1 0 0 [0]) m') :
    Proceeds s p (running 1 0 0 [0]) m' := by
  obtain ⟨i, o, hi, hrun⟩ := h.fetch rfl
  rw [hboot.tail.getElem?] at hi
  cases hi
  rw [execute_jmp _ _ _ (address_le hlaid ha)] at hrun
  cases hrun
  constructor
  · rintro (⟨hx, -, hcovers, -⟩ | ⟨-, hno⟩ | ⟨⟨b, hb, hstrbp, -⟩, -⟩) hreturns
    · exact not_covers_of_lt hx (by decide) hcovers
    · exact hno n (enters_of_declares hlaid hreturns ha)
    · have hb' : (1 : Int) = ((b + 1 : Nat) : Int) := hb
      have hzero : b = 0 := by omega
      rw [hzero, hboot.getElem?] at hstrbp
      cases hstrbp
  · intro hno
    obtain ⟨n', henters⟩ : ∃ n', p.Enters a n' := by
      by_contra hnone
      exact hno (.main rfl fun n' h => hnone ⟨n', h⟩)
    exact ⟨.inr (.inr (main_safe hlaid hhalt henters)), .bootstrap rfl henters⟩

theorem safe_proceeds (hlaid : ∀ x ∈ p.spans, x.Laid s p)
    (hsafe : ∀ k, Safe s p k m fun m => m.halted = true) (h : s.Next m m') :
    Proceeds s p m m' := by
  have hstep : ∀ k, p.InFunction m.pc ∧ (FallsOff s p m m' → ¬ p.AlwaysReturns) ∧
      (¬ FallsOff s p m m' → Safe s p k m' fun m => m.halted = true) := by
    intro k
    rcases hsafe (k + 1) with hhalted | ⟨hin, hnext⟩
    · rw [h.not_halted] at hhalted
      cases hhalted
    · exact ⟨hin, hnext m' h⟩
  obtain ⟨hin, hfall, -⟩ := hstep 0
  refine ⟨hfall, fun hno => ⟨.inr (.inr fun k => (hstep k).2.2 hno), ?_⟩⟩
  have hin₀ := hin
  obtain ⟨x, hx, params, body, hd, hcovers⟩ := hin₀
  rcases h.passes hlaid hx hcovers with hreturn | ⟨hcall, -⟩ | ⟨hreturn, hcall, hwithin | hstop⟩
  · refine .ret hin hreturn ?_
    rcases (hstep 1).2.2 hno with hhalted | ⟨hin', -⟩
    · exact .inl hhalted
    · exact .inr hin'
  · refine .call hin hcall ?_
    by_contra hnone
    exact hno (.call hcall hnone)
  · exact .within hx hd hcovers hwithin
  · exact absurd (.atEnd hx hd hcovers hstop hreturn hcall) hno

theorem Confined.step (hlaid : ∀ x ∈ p.spans, x.Laid s p) (hhalt : s.config.haltOnReturn = true)
    {a n : Nat} (ha : p.Declares a n) (hboot : s.Holds 0 [⟨.push, 0⟩, ⟨.jmp, a⟩])
    (hm : Confined s p m) (h : s.Next m m') : Proceeds s p m m' := by
  rcases hm with rfl | rfl | hsafe
  · exact bootstrap_push_proceeds hboot h
  · exact bootstrap_jump_proceeds hlaid hhalt ha hboot h
  · exact safe_proceeds hlaid hsafe h

theorem Confined.not_covers (hm : Confined s p m) (h : s.Next m m') {x : Span} (hx : x ∈ p.spans)
    {y : Label} {e : Expr} (he : x.element = .assign y e) : ¬ x.Covers m.pc := by
  rcases hm with rfl | rfl | hsafe
  · exact not_covers_of_lt hx (by decide)
  · exact not_covers_of_lt hx (by decide)
  · intro hcovers
    rcases hsafe 1 with hhalted | ⟨⟨z, hz, params, body, ⟨f, hf⟩, hcovers'⟩, -⟩
    · rw [h.not_halted] at hhalted
      cases hhalted
    · rw [Program.eq_of_covers hx hz hcovers hcovers', hf] at he
      cases he

theorem Session.Reached.confined (hlaid : ∀ x ∈ p.spans, x.Laid s p)
    (hhalt : s.config.haltOnReturn = true) {a n : Nat} (ha : p.Declares a n)
    (hboot : s.Holds 0 [⟨.push, 0⟩, ⟨.jmp, a⟩]) {r : Run} (h : s.Reached (FallsOff s p) r) :
    Confined s p r.machine := by
  induction h with
  | start => exact .inl rfl
  | step _ hadvances hno ih => exact ((ih.step hlaid hhalt ha hboot hadvances.next).2 hno).1

end Passages

/-- In every state control leaves the code of an element only by a return, by a call or at its end.
In a run in which no function has been left at its end yet, control goes through the bootstrap into
functions, and from there on by calls and returns; the next step is again of that kind or leaves a
function at its end, and no assignment outside the functions is executed. If every path through
every function comes to a return, all steps of all runs are so. -/
theorem passes_or_fallsOff {source : String} {t t' : Transcript} {code : List Instruction}
    (hcode : (Pipeline.compile source).run t = .ok code t') {p : Program}
    (hp : Pipeline.Spells source p) {s : Session} (hs : s.program = code.toArray)
    (hhalt : s.config.haltOnReturn = true) :
    (∀ r r', s.Advances r r' → ∀ x ∈ p.spans, x.Covers r.machine.pc →
      x.Covers r'.machine.pc ∨ r'.machine.pc = x.stop ∨ s.IsReturn r.machine.pc ∨
        s.IsCall r.machine.pc ∧ ∃ a n : Nat, r'.machine.pc = a ∧ p.Declares a n) ∧
    (∀ r r', s.Reached (FallsOff s p) r → s.Advances r r' →
      (Passes s p r.machine r'.machine ∨ FallsOff s p r.machine r'.machine) ∧
        ∀ x ∈ p.spans, ∀ y e, x.element = .assign y e → ¬ x.Covers r.machine.pc) ∧
    (p.AlwaysReturns → ∀ r r', s.Reached (fun _ _ => False) r → s.Advances r r' →
      Passes s p r.machine r'.machine ∧
        ∀ x ∈ p.spans, ∀ y e, x.element = .assign y e → ¬ x.Covers r.machine.pc) := by
  obtain ⟨rfl, haccepted, info, hmain⟩ := Pipeline.compile_ok hcode hp
  have hlist : s.program.toList = p.code := by rw [hs]
  have hlaid := spans_laid haccepted hlist
  have hboot := code_boot hlist hmain
  have hdeclares : p.Declares info.address info.paramCount :=
    declaresAll_elementsContext declaresAll_start (fun _ h => h) _ info hmain
  have hconfined : ∀ r, s.Reached (FallsOff s p) r → Confined s p r.machine :=
    fun r hr => hr.confined hlaid hhalt hdeclares hboot
  have hstep : ∀ r r', s.Reached (FallsOff s p) r → s.Advances r r' →
      Proceeds s p r.machine r'.machine := fun r r' hr hadvances =>
    (hconfined r hr).step hlaid hhalt hdeclares hboot hadvances.next
  refine ⟨?_, ?_, ?_⟩
  · intro r r' hadvances x hx hcovers
    rcases hadvances.next.passes hlaid hx hcovers with h | h | ⟨-, -, h | h⟩
    · exact .inr (.inr (.inl h))
    · exact .inr (.inr (.inr h))
    · exact .inl h
    · exact .inr (.inl h)
  · intro r r' hr hadvances
    refine ⟨?_, fun x hx y e he => (hconfined r hr).not_covers hadvances.next hx he⟩
    by_cases hfall : FallsOff s p r.machine r'.machine
    · exact .inr hfall
    · exact .inl ((hstep r r' hr hadvances).2 hfall).2
  · intro hreturns r r' hr hadvances
    have horderly : s.Reached (FallsOff s p) r :=
      hr.avoids fun r r' hr h hfall => (hstep r r' hr h).1 hfall hreturns
    have hno : ¬ FallsOff s p r.machine r'.machine :=
      fun hfall => (hstep r r' horderly hadvances).1 hfall hreturns
    exact ⟨((hstep r r' horderly hadvances).2 hno).2,
      fun x hx y e he => (hconfined r horderly).not_covers hadvances.next hx he⟩

theorem passes_or_fallsOff_call :
    ∃ (code : List Instruction) (t' : Transcript) (p : Program),
      (Pipeline.compile "y=3;function f(n){return n;}function main(){return f(1);}").run {} =
        .ok code t' ∧
      Pipeline.Spells "y=3;function f(n){return n;}function main(){return f(1);}" p ∧
      p.AlwaysReturns ∧ (∃ y e, .assign y e ∈ p) ∧
      ∀ r r', (ofCode code none Sink.silent false).Reached (fun _ _ => False) r →
        (ofCode code none Sink.silent false).Advances r r' →
        Passes (ofCode code none Sink.silent false) p r.machine r'.machine ∧
          ∀ x ∈ p.spans, ∀ y e, x.element = .assign y e → ¬ x.Covers r.machine.pc := by
  let f : Label := some (.word "f")
  let y : Label := some (.word "y")
  let n : Label := some (.word "n")
  let p : Program :=
    [.assign y (.num (some (.int 3))), .func f [n] [.ret (.var n)],
     .func Program.mainName [] [.ret (.call f [.num (some (.int 1))])]]
  have hp : Pipeline.Spells "y=3;function f(n){return n;}function main(){return f(1);}" p := by
    refine ⟨[⟨.identifier, y⟩, ⟨.assign, none⟩, ⟨.number, some (.int 3)⟩, ⟨.semi, none⟩,
      ⟨.functionWord, none⟩, ⟨.identifier, f⟩, ⟨.lparen, none⟩, ⟨.identifier, n⟩,
      ⟨.rparen, none⟩, ⟨.lbrace, none⟩, ⟨.returnWord, none⟩, ⟨.identifier, n⟩, ⟨.semi, none⟩,
      ⟨.rbrace, none⟩, ⟨.functionWord, none⟩, ⟨.identifier, Program.mainName⟩, ⟨.lparen, none⟩,
      ⟨.rparen, none⟩, ⟨.lbrace, none⟩, ⟨.returnWord, none⟩, ⟨.identifier, f⟩, ⟨.lparen, none⟩,
      ⟨.number, some (.int 1)⟩, ⟨.rparen, none⟩, ⟨.semi, none⟩, ⟨.rbrace, none⟩, ⟨.eof, none⟩],
      by decide +kernel, by cbv⟩
  have hreturns : p.AlwaysReturns := by
    intro g params body h
    simp only [p, List.mem_cons, Stmt.func.injEq, reduceCtorEq, false_or, List.not_mem_nil,
      or_false] at h
    rcases h with ⟨-, -, rfl⟩ | ⟨-, -, rfl⟩
    · exact .inl trivial
    · exact .inl trivial
  obtain ⟨code, t', hcode⟩ := exists_of_run_ok (x := Pipeline.compile
    "y=3;function f(n){return n;}function main(){return f(1);}") (s := {}) (by decide +kernel)
  exact ⟨code, t', p, hcode, hp, hreturns, ⟨_, _, List.mem_cons_self⟩,
    (passes_or_fallsOff hcode hp rfl rfl).2.2 hreturns⟩

/-- A function without a return is left at its end: control runs on into the assignment behind it,
by a step that is neither a call nor a return, and the assignment is executed. -/
theorem assignment_behind_function_executed :
    ∃ (code : List Instruction) (t' : Transcript) (p : Program) (r r₁ r₂ : Run),
      (Pipeline.compile "function main() { x = 1; } y = 3;").run {} = .ok code t' ∧
      Pipeline.Spells "function main() { x = 1; } y = 3;" p ∧
      (ofCode code none Sink.silent false).Reached (fun _ _ => False) r ∧
      (ofCode code none Sink.silent false).Advances r r₁ ∧
      (ofCode code none Sink.silent false).Advances r₁ r₂ ∧
      p.InFunction r.machine.pc ∧ ¬ (ofCode code none Sink.silent false).IsCall r.machine.pc ∧
      ¬ (ofCode code none Sink.silent false).IsReturn r.machine.pc ∧
      ∃ x ∈ p.spans, (∃ y e, x.element = .assign y e) ∧ x.Covers r₁.machine.pc := by
  let x : Label := some (.word "x")
  let y : Label := some (.word "y")
  let p : Program :=
    [.func Program.mainName [] [.assign x (.num (some (.int 1)))],
     .assign y (.num (some (.int 3)))]
  have hp : Pipeline.Spells "function main() { x = 1; } y = 3;" p := by
    refine ⟨[⟨.functionWord, none⟩, ⟨.identifier, Program.mainName⟩, ⟨.lparen, none⟩,
      ⟨.rparen, none⟩, ⟨.lbrace, none⟩, ⟨.identifier, x⟩, ⟨.assign, none⟩,
      ⟨.number, some (.int 1)⟩, ⟨.semi, none⟩, ⟨.rbrace, none⟩, ⟨.identifier, y⟩, ⟨.assign, none⟩,
      ⟨.number, some (.int 3)⟩, ⟨.semi, none⟩, ⟨.eof, none⟩], by decide +kernel, by cbv⟩
  obtain ⟨code', t', hcode⟩ := exists_of_run_ok (x := Pipeline.compile
    "function main() { x = 1; } y = 3;") (s := {}) (by decide +kernel)
  let code : List Instruction := [⟨.push, 0⟩, ⟨.jmp, 2⟩, ⟨.push, -1⟩, ⟨.push, 1⟩, ⟨.storel, 0⟩,
    ⟨.push, -1⟩, ⟨.push, 3⟩, ⟨.storel, 0⟩]
  have hlayout : code' = code := by
    rw [(Pipeline.compile_ok hcode hp).1]
    decide
  rw [hlayout] at hcode
  let s : Session := ofCode code none Sink.silent false
  let r₁ : Run := { machine := { stack := #[0], pc := 1 }, steps := 1, peak := 1 }
  let r₂ : Run := { machine := { stack := #[0], pc := 2 }, steps := 2, peak := 1 }
  let r₃ : Run := { machine := { stack := #[0, -1], pc := 3 }, steps := 3, peak := 2 }
  let r₄ : Run := { machine := { stack := #[0, -1, 1], pc := 4 }, steps := 4, peak := 3 }
  let r₅ : Run := { machine := { stack := #[0, 1], pc := 5 }, steps := 5, peak := 3 }
  let r₆ : Run := { machine := { stack := #[0, 1, -1], pc := 6 }, steps := 6, peak := 3 }
  have h₁ : s.Reached (fun _ _ => False) r₁ := .step .start ⟨_, rfl, rfl⟩ id
  have h₂ : s.Reached (fun _ _ => False) r₂ := .step h₁ ⟨_, rfl, rfl⟩ id
  have h₃ : s.Reached (fun _ _ => False) r₃ := .step h₂ ⟨_, rfl, rfl⟩ id
  have h₄ : s.Reached (fun _ _ => False) r₄ := .step h₃ ⟨_, rfl, rfl⟩ id
  have hstore : s.program[4]? = some ⟨.storel, 0⟩ := rfl
  refine ⟨code, t', p, r₄, r₅, r₆, hcode, hp, h₄, ⟨_, rfl, rfl⟩, ⟨_, rfl, rfl⟩, ?_,
    not_isCall_of_ne hstore (by decide), not_isReturn_of_ne hstore (by decide), ?_⟩
  · exact ⟨⟨_, 2, 5⟩, List.mem_cons_self, _, _, ⟨_, rfl⟩, by decide, by decide⟩
  · exact ⟨⟨_, 5, 8⟩, List.mem_cons_of_mem _ List.mem_cons_self, ⟨_, _, rfl⟩, by decide, by decide⟩

end StackLang
