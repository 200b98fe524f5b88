import StackLang.Proofs.Correctness
import StackLang.Proofs.Listings

namespace StackLang

/-- An operand that means nothing is not looked at. -/
theorem Machine.execute_normal (halting : Bool) (sink : Sink) (size : Int) (i : Instruction) :
    execute halting sink size i.normal = execute halting sink size i := by
  obtain ⟨op, operand⟩ := i
  cases op with
  | _ => rfl

namespace Session

variable {s : Session}

def normal (s : Session) : Session :=
  { s with program := s.program.map Instruction.normal }

theorem fetch?_normal (m : Machine) : s.normal.fetch? m = (s.fetch? m).map Instruction.normal := by
  unfold fetch?
  split
  next => rfl
  next => exact Array.getElem?_map

theorem step_normal (hv : s.config.verbose = false) (hr : s.recorded = false) (i : Instruction)
    (r : Run) : (s.normal.step i.normal).run r = (s.step i).run r := by
  have hobserve : ∀ (t : Session) (j : Instruction), t.config.verbose = false →
      t.recorded = false → t.observe j = pure () := by
    intro t j htv htr
    funext r
    simp [observe, observe.keep, htv, htr]
    rfl
  have hperform : s.normal.perform i.normal = s.perform i := by
    funext r
    simp only [perform, normal, Machine.execute_normal, Array.size_map]
  rw [step, step, hobserve s.normal i.normal hv hr, hobserve s i hv hr, hperform]
  rfl

theorem loopWith_normal (hv : s.config.verbose = false) (hr : s.recorded = false)
    (listener : Listener) (budget : Nat) (r : Run) :
    s.normal.loopWith listener budget r = s.loopWith listener budget r := by
  induction budget generalizing r with
  | zero => rfl
  | succ budget ih =>
    have hstep : ∀ i : Instruction, ((s.normal.withSink (listener r.printed)).step i.normal).run r =
        ((s.withSink (listener r.printed)).step i).run r :=
      fun i => step_normal (s := s.withSink (listener r.printed)) hv hr i r
    rw [loopWith, loopWith, fetch?_normal]
    cases s.fetch? r.machine with
    | none => rfl
    | some i =>
      simp only [Option.map_some, hstep]
      cases ((s.withSink (listener r.printed)).step i).run r with
      | error e r' => rfl
      | ok u r' => exact ih r'

theorem runWith_normal (hv : s.config.verbose = false) (hr : s.recorded = false)
    (listener : Listener) (budget : Nat) :
    s.normal.runWith listener budget = s.runWith listener budget := by
  rw [runWith, runWith, loopWith_normal hv hr]
  rfl

end Session

/-- The machine knows all opcodes in the code. -/
def KnownCode (c : List Instruction) : Prop :=
  ∀ i ∈ c, i.opcode ∈ Opcode.known

theorem KnownCode.append {c d : List Instruction} (hc : KnownCode c) (hd : KnownCode d) :
    KnownCode (c ++ d) :=
  List.forall_mem_append.mpr ⟨hc, hd⟩

theorem knownCode_single {op : Opcode} (h : op ∈ Opcode.known) (n : Int) : KnownCode [⟨op, n⟩] :=
  List.forall_mem_singleton.mpr h

namespace Expr

theorem load_known (Γ : Context) (x : Label) : KnownCode [Γ.load x] := by
  unfold Context.load
  split
  next => exact knownCode_single (by decide) _
  next => exact knownCode_single (by decide) _

mutual

theorem code_known (Γ : Context) : (e : Expr) → KnownCode (e.code Γ)
  | num v => knownCode_single (by decide) _
  | var x => load_known Γ x
  | call f args => by
    refine (KnownCode.append ?_ (codeAll_known Γ args)).append ?_
    · simp only [KnownCode, List.forall_mem_cons, List.not_mem_nil, false_implies, implies_true]
      decide
    · simp only [KnownCode, List.forall_mem_cons, List.not_mem_nil, false_implies, implies_true]
      decide
  | binary op l r => by
    refine ((code_known Γ r).append (code_known Γ l)).append (knownCode_single ?_ 0)
    cases op with
    | _ => decide

theorem codeAll_known (Γ : Context) : (es : List Expr) → KnownCode (codeAll Γ es)
  | [] => nofun
  | e :: es => (code_known Γ e).append (codeAll_known Γ es)

end

end Expr

namespace Stmt

mutual

theorem code_known (Γ : Context) (a : Nat) : (S : Stmt) → KnownCode (S.code Γ a)
  | assign x e => by
    refine (KnownCode.append ?_ (e.code_known _)).append (knownCode_single (by decide) _)
    split
    next => nofun
    next => exact knownCode_single (by decide) _
  | noop => nofun
  | ifThen c t =>
    ((c.code_known Γ).append (knownCode_single (by decide) _)).append (code_known Γ _ t)
  | ifElse c t e =>
    ((((c.code_known Γ).append (knownCode_single (by decide) _)).append (code_known Γ _ t)).append
      (knownCode_single (by decide) _)).append (code_known _ _ e)
  | loop c b =>
    (((c.code_known Γ).append (knownCode_single (by decide) _)).append (code_known Γ _ b)).append
      (knownCode_single (by decide) _)
  | func _ _ _ => nofun
  | ret e => (e.code_known Γ).append (knownCode_single (by decide) _)
  | block ss => codeAll_known Γ a ss

theorem codeAll_known (Γ : Context) (a : Nat) : (ss : List Stmt) → KnownCode (codeAll Γ a ss)
  | [] => nofun
  | S :: ss => (code_known Γ a S).append (codeAll_known _ _ ss)

end

end Stmt

namespace Program

theorem elementsCode_known (Γ : Context) (a : Nat) (q : List Stmt) :
    KnownCode (elementsCode Γ a q) := by
  induction q generalizing Γ a with
  | nil => nofun
  | cons S q ih =>
    refine KnownCode.append ?_ (ih _ _)
    cases S with
    | func f params body => exact Stmt.codeAll_known _ a body
    | _ => exact Stmt.code_known Γ a _

theorem code_known (p : Program) : KnownCode p.code := by
  have hboot : ∀ n : Int, KnownCode [⟨.push, 0⟩, ⟨.jmp, n⟩] := by
    intro n
    simp only [KnownCode, List.forall_mem_cons, List.not_mem_nil, false_implies, implies_true]
    decide
  exact (hboot _).append (elementsCode_known start 2 p)

end Program

namespace PipelineM

variable {α β : Type}

/-- The stage has this result whatever was written and logged before, and it writes nothing. -/
def Gives (x : PipelineM α) (a : α) : Prop :=
  ∀ t, ∃ t', x.run t = .ok a t' ∧ t'.out = t.out

theorem gives_pure (a : α) : Gives (pure a) a :=
  fun t => ⟨t, rfl, rfl⟩

theorem gives_info (stage : Stage) (text : String) : Gives (info stage text) () :=
  fun _ => ⟨_, rfl, rfl⟩

theorem Gives.bind {x : PipelineM α} {f : α → PipelineM β} {a : α} {b : β} (hx : x.Gives a)
    (hf : (f a).Gives b) : Gives (x >>= f) b := by
  intro t
  obtain ⟨t₁, hrun, hout⟩ := hx t
  obtain ⟨t₂, hrun', hout'⟩ := hf t₁
  exact ⟨t₂, (run_bind_of_ok hrun).trans hrun', hout'.trans hout⟩

theorem gives_warnings (stage : Stage) (texts : Array String) :
    Gives (texts.forM (warn stage)) () := by
  rw [Array.forM, ← Array.foldlM_toList]
  induction texts.toList with
  | nil => exact gives_pure ()
  | cons text texts ih =>
    rw [List.foldlM_cons]
    have hwarn : Gives (warn stage text) () := fun _ => ⟨_, rfl, rfl⟩
    exact hwarn.bind ih

end PipelineM

namespace Pipeline

open PipelineM

variable {source : String} {code : List Instruction} {t t' : Transcript}

theorem scan_gives {ts : List Token} (h : tokenize source = .ok ts) : (scan source).Gives ts := by
  rw [scan, h]
  exact (gives_info _ _).bind (gives_pure ts)

theorem parse_gives {ts : List Token} {p : Program} (h : parseProgram ts = .ok p) :
    (parse ts).Gives p := by
  rw [parse, h]
  exact (gives_info _ _).bind (gives_pure p)

theorem emit_gives {p : Program} {s : Emitter} (h : Emitter.generate p.toTree = .ok () s) :
    (emit p).Gives s := by
  rw [emit, h]
  exact (gives_warnings _ _).bind ((gives_info _ _).bind (gives_pure s))

theorem prepare_gives (h : (compile source).run t = .ok code t') :
    ∃ report, (prepare source false).Gives (code, report) := by
  simp only [compile, run_bind_eq_ok] at h
  obtain ⟨_, _, _, ts, _, hscan, p, _, hparse, s, _, hemit, h⟩ := h
  cases h
  exact ⟨_, (scan_gives (scan_ok hscan)).bind ((parse_gives (parse_ok hparse)).bind
    ((emit_gives (emit_ok hemit)).bind (gives_pure _)))⟩

theorem compile_known (h : (compile source).run t = .ok code t') :
    ∀ i ∈ code, i.opcode ∈ Opcode.known := by
  have hcompile := h
  simp only [compile, run_bind_eq_ok] at hcompile
  obtain ⟨_, _, _, ts, _, hscan, p, _, hparse, -⟩ := hcompile
  obtain ⟨rfl, -⟩ := compile_ok h ⟨ts, scan_ok hscan, parse_ok hparse⟩
  exact p.code_known

theorem dumpListing_ok {text : String} (h : (dumpListing source).run t = .ok text t') :
    ∃ code t₁, (compile source).run t = .ok code t₁ ∧ Listing.format code true = .ok text := by
  obtain ⟨code, t₁, hcompile, hwritten⟩ := run_bind_eq_ok.mp h
  refine ⟨code, t₁, hcompile, ?_⟩
  unfold written at hwritten
  split at hwritten
  next text' htext =>
    cases hwritten
    exact htext
  next => cases hwritten

theorem loadListing_gives {text : String} {is : List Instruction}
    (h : Listing.parse text = .ok is) : (loadListing text).Gives is := by
  rw [loadListing, h]
  exact (gives_info _ _).bind (gives_pure is)

/-- How a run ended, the log apart: the machine or the failure, and the text written. -/
def ending {α : Type} (machine : α → Machine) :
    EStateM.Result Failure Transcript α → Except Failure Machine × String
  | .ok a t => (.ok (machine a), t.out)
  | .error e t => (.error e, t.out)

/-- A run of the code and a run of what was read back from a listing of it end alike. -/
theorem run_eq_executeListing {budget : Nat} {config : Config} {is : List Instruction}
    {text : String} (hcompile : (compile source).run t = .ok code t')
    (hparse : Listing.parse text = .ok is) (hv : config.verbose = false)
    (hrun : Session.run { program := is.toArray, config, sink := Sink.lines } budget =
      Session.run { program := code.toArray, config, sink := Sink.lines } budget)
    (u : Transcript) :
    (run budget source config u).map (ending id) =
      (executeListing budget text config false u).map (ending Run.machine) := by
  obtain ⟨report, hprepare⟩ := prepare_gives hcompile
  obtain ⟨u₁, hrun₁, hout₁⟩ := hprepare u
  obtain ⟨u₂, hrun₂, hout₂⟩ := loadListing_gives hparse u
  rw [run, executeListing, andThen, andThen, hv, hrun₁, hrun₂]
  simp only [followedBy, execute, hrun]
  have hout : u₁.out = u₂.out := hout₁.trans hout₂.symm
  cases Session.run { program := code.toArray, config, sink := Sink.lines } budget with
  | none => rfl
  | some r =>
    cases r with
    | ok v r =>
      change some (_, u₁.out ++ r.out) = some (_, u₂.out ++ r.out)
      rw [hout]
      rfl
    | error e r =>
      change some (_, u₁.out ++ r.out) = some (_, u₂.out ++ r.out)
      rw [hout]

end Pipeline

/-- What is read back from the listing of a program runs as the program does, whoever listens to the
values that it prints: it ends in the same state or with the same fault, after the same steps and
the same printed values, or does not end. So a source text runs as its listing does. -/
theorem listing_runs_alike :
    (∀ (is : List Instruction) (close : Bool) (text : String),
      (∀ i ∈ is, i.opcode ∈ Opcode.known) → Listing.format is close = .ok text →
      ∃ js, Listing.parse text = .ok js ∧
        ∀ (config : Config) (sink : Sink) (listener : Listener) (budget : Nat),
          config.verbose = false →
            Session.runWith { program := js.toArray, config, sink } listener budget =
              Session.runWith { program := is.toArray, config, sink } listener budget) ∧
    ∀ (source text : String) (t t' : Transcript),
      (Pipeline.dumpListing source).run t = .ok text t' →
      ∀ (config : Config) (budget : Nat) (u : Transcript), config.verbose = false →
        (Pipeline.run budget source config u).map (Pipeline.ending id) =
          (Pipeline.executeListing budget text config false u).map
            (Pipeline.ending Run.machine) := by
  have hruns : ∀ (is : List Instruction) (config : Config) (sink : Sink) (listener : Listener)
      (budget : Nat), config.verbose = false →
        Session.runWith { program := (is.map Instruction.normal).toArray, config, sink } listener
            budget =
          Session.runWith { program := is.toArray, config, sink } listener budget := by
    intro is config sink listener budget hv
    rw [← List.map_toArray]
    exact Session.runWith_normal (s := { program := is.toArray, config, sink }) hv rfl listener
      budget
  constructor
  · intro is close text hknown hformat
    exact ⟨_, Listing.parse_format hknown hformat, hruns is⟩
  · intro source text t t' hdump config budget u hv
    obtain ⟨code, t₁, hcompile, hformat⟩ := Pipeline.dumpListing_ok hdump
    have hparse := Listing.parse_format (Pipeline.compile_known hcompile) hformat
    have hrun := hruns code config Sink.lines (fun _ => Sink.lines) budget hv
    exact Pipeline.run_eq_executeListing hcompile hparse hv hrun u

/-- Stray operands are lost in the listing, but the value is printed, and when it comes again a
listener that wants no value twice refuses it. -/
theorem listing_runs_alike_stray_operands :
    let listener : Listener := fun printed n =>
      if n ∈ printed.toList then .error .tooManyDigits else .ok ""
    Listing.format [⟨.push, 7⟩, ⟨.print, 5⟩, ⟨.push, 7⟩, ⟨.print, -3⟩] true =
        .ok "push 7\nprint\npush 7\nprint\nstack\n" ∧
      (∃ js, Listing.parse "push 7\nprint\npush 7\nprint\nstack\n" = .ok js ∧
        ∃ r, Session.runWith { program := js.toArray } listener 5 =
            some (.error (.unwritable .tooManyDigits) r) ∧ r.printed = #[7]) ∧
      ∃ text t', (Pipeline.dumpListing "function main(){return 1;}").run {} = .ok text t' ∧
        ∀ budget, (Pipeline.run budget "function main(){return 1;}" {} {}).map
            (Pipeline.ending id) =
          (Pipeline.executeListing budget text {} false {}).map
            (Pipeline.ending Run.machine) := by
  intro listener
  have hformat : Listing.format [⟨.push, 7⟩, ⟨.print, 5⟩, ⟨.push, 7⟩, ⟨.print, -3⟩] true =
      .ok "push 7\nprint\npush 7\nprint\nstack\n" := by decide +kernel
  obtain ⟨js, hparse, hrun⟩ := listing_runs_alike.1 _ true _ (by decide) hformat
  obtain ⟨text, t', hdump⟩ := exists_of_run_ok
    (x := Pipeline.dumpListing "function main(){return 1;}") (s := {}) (by decide +kernel)
  refine ⟨hformat, ⟨js, hparse, ?_⟩, text, t', hdump, fun budget => ?_⟩
  · rw [hrun {} Sink.silent listener 5 rfl]
    exact ⟨_, rfl, rfl⟩
  · exact listing_runs_alike.2 _ _ _ _ hdump {} budget {} rfl

end StackLang
