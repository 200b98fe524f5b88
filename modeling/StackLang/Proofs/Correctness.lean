import StackLang.Pipeline.Basic
import StackLang.Proofs.Generation
import StackLang.Proofs.Linking
import StackLang.Proofs.Numerals
import StackLang.Proofs.Reading
import StackLang.Proofs.Runs
import Mathlib.Data.List.Permutation

namespace StackLang

/-- The source text is that of the program. -/
def Pipeline.Spells (source : String) (p : Program) : Prop :=
  ∃ ts, tokenize source = .ok ts ∧ parseProgram ts = .ok p

/-- Execution of code in which nothing is shown and a return at the top level halts the machine. -/
def Session.ofCode (code : List Instruction) (maxSteps : Option Int) (sink : Sink)
    (recorded : Bool) : Session where
  program := code.toArray
  config := { maxSteps, verbose := false, haltOnReturn := true }
  sink
  recorded

namespace Pipeline

variable {source : String} {t t' : Transcript} {code : List Instruction} {p : Program}

theorem scan_ok {ts : List Token} (h : (scan source).run t = .ok ts t') :
    tokenize source = .ok ts := by
  unfold scan at h
  split at h
  next => cases h
  next ts' hts =>
    obtain ⟨_, _, _, h⟩ := run_bind_eq_ok.mp h
    cases h
    exact hts

theorem parse_ok {ts : List Token} (h : (parse ts).run t = .ok p t') :
    parseProgram ts = .ok p := by
  unfold parse at h
  split at h
  next => cases h
  next p' hp =>
    obtain ⟨_, _, _, h⟩ := run_bind_eq_ok.mp h
    cases h
    exact hp

theorem emit_ok {s : Emitter} (h : (emit p).run t = .ok s t') :
    Emitter.generate p.toTree = .ok () s := by
  unfold emit at h
  split at h
  next =>
    obtain ⟨_, _, _, h⟩ := run_bind_eq_ok.mp h
    cases h
  next s' hs =>
    simp only [run_bind_eq_ok] at h
    obtain ⟨_, _, _, _, _, _, h⟩ := h
    cases h
    exact hs

theorem compile_ok (h : (compile source).run t = .ok code t') (hp : Spells source p) :
    code = p.code ∧ Program.Accepted Program.start 2 p ∧
      ∃ info, (Program.elementsContext Program.start 2 p).functions.get? Program.mainName =
        some info := by
  simp only [compile, run_bind_eq_ok] at h
  obtain ⟨_, _, _, ts, _, hscan, q, _, hparse, s, _, hemit, h⟩ := h
  cases h
  obtain ⟨ts', hts', hp⟩ := hp
  have hts := scan_ok hscan
  rw [hts'] at hts
  cases hts
  have hq := parse_ok hparse
  rw [hp] at hq
  cases hq
  exact generate_ok (parseProgram_element hp) (emit_ok hemit)

/-- The machine follows the main function of a compiled program from the start. -/
theorem compile_follows (h : (compile source).run t = .ok code t') (hp : Spells source p)
    (hb : p.Bounded) (maxSteps : Option Int) (sink : Sink) (recorded : Bool) (fuel : Nat) :
    (Session.ofCode code maxSteps sink recorded).Follows fuel {}
      (p.invoke fuel Program.mainName []) fun v m =>
        ∃ pc argc st, m = { Machine.running pc 0 argc (v :: st) with halted := true } := by
  obtain ⟨rfl, haccepted, info, hmain⟩ := compile_ok h hp
  exact main_follows hb rfl (code_linked haccepted rfl) hmain (code_boot rfl hmain) fuel

end Pipeline

open Session

theorem moves_ofCode {code : List Instruction} {limit : Option Int} {sink : Sink} {recorded : Bool}
    {n : Nat} {m m' : Machine} (h : (ofCode code none sink recorded).Moves n m m') :
    (ofCode code limit sink recorded).Moves n m m' := by
  induction h with
  | refl m => exact .refl m
  | step hs _ ih => exact .step hs ih

/-- If the program means a value, the machine halts with that value at the bottom of its stack, and
it prints and writes nothing. -/
theorem run_of_returns {source : String} {t t' : Transcript} {code : List Instruction}
    (hcode : (Pipeline.compile source).run t = .ok code t') {p : Program}
    (hp : Pipeline.Spells source p) (hb : p.Bounded) {v : Int} (hv : p.Returns v) (sink : Sink)
    (recorded : Bool) :
    ∃ n : Nat, ∀ maxSteps : Option Int, (∀ limit, maxSteps = some limit → (n : Int) ≤ limit) →
      ∃ r : Run, (∀ budget, n < budget →
          (ofCode code maxSteps sink recorded).run budget = some (.ok () r)) ∧
        r.machine.halted = true ∧ r.machine.stack[0]? = some v ∧ r.machine.bp = 0 ∧
        r.steps = n ∧ r.printed = #[] ∧ r.out = "" := by
  obtain ⟨fuel, hfuel⟩ := hv
  have hfollows := Pipeline.compile_follows hcode hp hb none sink recorded fuel
  rw [hfuel] at hfollows
  obtain ⟨n, m, hmoves, pc, argc, st, rfl⟩ := hfollows
  refine ⟨n, fun maxSteps hlimit => ?_⟩
  have hallows : (ofCode code maxSteps sink recorded).Allows n := by
    intro limit h
    have := hlimit limit h
    omega
  obtain ⟨r, hr, hrun⟩ := run_of_halts rfl (moves_ofCode hmoves) rfl hallows
  refine ⟨r, hrun, ?_, ?_, ?_, ?_, hr.printed, hr.out⟩
  · rw [hr.machine]
  · rw [hr.machine]
    rfl
  · rw [hr.machine]
    rfl
  · simpa using hr.steps

theorem run_of_returns_call :
    ∃ (code : List Instruction) (t' : Transcript),
      (Pipeline.compile "function f(n){return n*n;}function main(){x=3;return f(x)-2;}").run {} =
        .ok code t' ∧
      ∃ n : Nat, ∀ maxSteps : Option Int, (∀ limit, maxSteps = some limit → (n : Int) ≤ limit) →
        ∃ r : Run, (∀ budget, n < budget →
            (ofCode code maxSteps Sink.lines false).run budget = some (.ok () r)) ∧
          r.machine.halted = true ∧ r.machine.stack[0]? = some 7 ∧ r.machine.bp = 0 ∧
          r.steps = n ∧ r.printed = #[] ∧ r.out = "" := by
  let f : Label := some (.word "f")
  let x : Label := some (.word "x")
  let n : Label := some (.word "n")
  let p : Program :=
    [.func f [n] [.ret (.binary .mul (.var n) (.var n))],
     .func Program.mainName []
      [.assign x (.num (some (.int 3))),
       .ret (.binary .sub (.call f [.var x]) (.num (some (.int 2))))]]
  have hp : Pipeline.Spells
      "function f(n){return n*n;}function main(){x=3;return f(x)-2;}" p := by
    refine ⟨[⟨.functionWord, none⟩, ⟨.identifier, f⟩, ⟨.lparen, none⟩, ⟨.identifier, n⟩,
      ⟨.rparen, none⟩, ⟨.lbrace, none⟩, ⟨.returnWord, none⟩, ⟨.identifier, n⟩, ⟨.star, none⟩,
      ⟨.identifier, n⟩, ⟨.semi, none⟩, ⟨.rbrace, none⟩, ⟨.functionWord, none⟩,
      ⟨.identifier, Program.mainName⟩, ⟨.lparen, none⟩, ⟨.rparen, none⟩, ⟨.lbrace, none⟩,
      ⟨.identifier, x⟩, ⟨.assign, none⟩, ⟨.number, some (.int 3)⟩, ⟨.semi, none⟩,
      ⟨.returnWord, none⟩, ⟨.identifier, f⟩, ⟨.lparen, none⟩, ⟨.identifier, x⟩, ⟨.rparen, none⟩,
      ⟨.minus, none⟩, ⟨.number, some (.int 2)⟩, ⟨.semi, none⟩, ⟨.rbrace, none⟩, ⟨.eof, none⟩],
      by decide +kernel, by cbv⟩
  have hb : p.Bounded := by
    intro g params body h
    rcases List.mem_cons.mp h with h | h
    · cases h
      decide
    · cases List.mem_singleton.mp h
      decide
  have hv : p.Returns 7 := ⟨3, by decide⟩
  obtain ⟨code, t', hcode⟩ := exists_of_run_ok (x := Pipeline.compile
    "function f(n){return n*n;}function main(){x=3;return f(x)-2;}") (s := {}) (by decide +kernel)
  exact ⟨code, t', hcode, run_of_returns hcode hp hb hv Sink.lines false⟩

/-- If the program runs for ever, every limit stops the machine, and for that reason only. -/
theorem run_of_diverges {source : String} {t t' : Transcript} {code : List Instruction}
    (hcode : (Pipeline.compile source).run t = .ok code t') {p : Program}
    (hp : Pipeline.Spells source p) (hb : p.Bounded) (hd : p.Diverges) (sink : Sink)
    (recorded : Bool) {limit : Int} (hlimit : limit.toNat < 10 ^ maxDigits)
    (hlength : code.length < 10 ^ maxDigits) :
    ∃ (pc : Nat) (r : Run), (∀ budget, limit.toNat < budget →
        (ofCode code (some limit) sink recorded).run budget =
          some (.error (.stepLimit limit.toNat pc) r)) ∧
      (Fault.stepLimit limit.toNat pc).message =
        .ok ("VMError: Step limit exceeded: stopped after " ++ Numeral.text limit.toNat ++
          " steps at pc=" ++ Numeral.text pc) ∧
      r.printed = #[] ∧ r.out = "" := by
  have hfollows := Pipeline.compile_follows hcode hp hb (some limit) sink recorded (limit.toNat + 1)
  rw [hd] at hfollows
  obtain ⟨n, m', hn, hmoves⟩ := hfollows
  obtain ⟨k, rfl⟩ : ∃ k, n = limit.toNat + (k + 1) := ⟨n - limit.toNat - 1, by omega⟩
  obtain ⟨m, hm, hmore⟩ := hmoves.split
  cases hmore with | step hs _
  obtain ⟨i, pc, hi, hpc, hsize⟩ := hs.fetch
  obtain ⟨r, hr, hrun⟩ := run_of_limit rfl rfl hm hi
  rw [hpc] at hrun
  have hsize' : pc < code.length := hsize
  refine ⟨pc, r, hrun, ?_, hr.printed, hr.out⟩
  have hsteps : Numeral.Writable limit.toNat := Numeral.writable_iff.mpr hlimit
  have hwritable : Numeral.Writable pc :=
    Numeral.writable_iff.mpr (Nat.lt_trans hsize' hlength)
  simp only [Fault.message, Numeral.write, if_pos hsteps, if_pos hwritable]
  rfl

theorem run_of_diverges_empty_loop :
    ∃ (code : List Instruction) (t' : Transcript),
      (Pipeline.compile "function main(){while(1);}").run {} = .ok code t' ∧
      ∃ (pc : Nat) (r : Run), (∀ budget, 1000 < budget →
          (ofCode code (some 1000) Sink.lines false).run budget =
            some (.error (.stepLimit 1000 pc) r)) ∧
        (Fault.stepLimit 1000 pc).message =
          .ok ("VMError: Step limit exceeded: stopped after " ++ Numeral.text 1000 ++
            " steps at pc=" ++ Numeral.text pc) ∧
        r.printed = #[] ∧ r.out = "" := by
  let p : Program := [.func Program.mainName [] [.loop (.num (some (.int 1))) .noop]]
  have hp : Pipeline.Spells "function main(){while(1);}" p := by
    refine ⟨[⟨.functionWord, none⟩, ⟨.identifier, Program.mainName⟩, ⟨.lparen, none⟩,
      ⟨.rparen, none⟩, ⟨.lbrace, none⟩, ⟨.whileWord, none⟩, ⟨.lparen, none⟩,
      ⟨.number, some (.int 1)⟩, ⟨.rparen, none⟩, ⟨.semi, none⟩, ⟨.rbrace, none⟩, ⟨.eof, none⟩],
      by decide +kernel, by cbv⟩
  have hb : p.Bounded := by
    intro g params body h
    cases List.mem_singleton.mp h
    decide
  have hloop : ∀ n env, Stmt.iterate (fun _ => .done 1) (fun env => .done (.normal env)) n env =
      .exhausted := by
    intro n
    induction n with
    | zero => exact fun _ => rfl
    | succ n ih => exact fun env => ih env
  have hd : p.Diverges := by
    intro fuel
    cases fuel with
    | zero => rfl
    | succ fuel =>
      change ((Stmt.iterate (fun _ => .done 1) (fun env => .done (.normal env)) fuel {}).bind
        _).bind _ = _
      rw [hloop]
      rfl
  obtain ⟨code, t', hcode⟩ := exists_of_run_ok (x := Pipeline.compile
    "function main(){while(1);}") (s := {}) (by decide +kernel)
  have hpower : 10 ^ 4 ≤ 10 ^ maxDigits := Nat.pow_le_pow_right (by decide) (by decide)
  have hlimit : (1000 : Int).toNat < 10 ^ maxDigits := Nat.lt_of_lt_of_le (by decide) hpower
  have hlength : code.length < 10 ^ maxDigits := by
    have h : p.code.length < 10 ^ 4 := by decide
    rw [(Pipeline.compile_ok hcode hp).1]
    exact Nat.lt_of_lt_of_le h hpower
  exact ⟨code, t', hcode, run_of_diverges hcode hp hb hd Sink.lines false hlimit hlength⟩

end StackLang
