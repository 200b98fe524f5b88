import StackLang.Proofs.Linking
import StackLang.Proofs.Outcomes

namespace StackLang

open Session Machine

/-- An element, the address where its code starts, and the one behind its code. -/
structure Span where
  element : Stmt
  first : Nat
  stop : Nat

namespace Span

def Covers (x : Span) (pc : Int) : Prop :=
  x.first ≤ pc ∧ pc < x.stop

def Declares (x : Span) (params : List Label) (body : List Stmt) : Prop :=
  ∃ f, x.element = .func f params body

end Span

namespace Program

def spansFrom (Γ : Context) (a : Nat) : List Stmt → List Span
  | [] => []
  | st :: q =>
    ⟨st, a, a + (st.elementCode Γ a).length⟩ ::
      spansFrom (st.elementContext Γ a) (a + (st.elementCode Γ a).length) q

/-- The spans of the elements, in their order. The bootstrap stands in front of them. -/
def spans (p : Program) : List Span :=
  spansFrom start 2 p

theorem mem_of_mem_spansFrom {Γ : Context} {a : Nat} {q : List Stmt} {x : Span}
    (hx : x ∈ spansFrom Γ a q) : x.element ∈ q := by
  induction q generalizing Γ a with
  | nil => cases hx
  | cons st q ih =>
    rcases List.mem_cons.mp hx with rfl | hx
    · exact List.mem_cons_self
    · exact List.mem_cons_of_mem _ (ih hx)

theorem le_of_mem_spansFrom {Γ : Context} {a : Nat} {q : List Stmt} {x : Span}
    (hx : x ∈ spansFrom Γ a q) : a ≤ x.first := by
  induction q generalizing Γ a with
  | nil => cases hx
  | cons st q ih =>
    rcases List.mem_cons.mp hx with rfl | hx
    · exact Nat.le_refl a
    · have h := ih hx
      omega

/-- The spans do not overlap. -/
theorem eq_of_covers {Γ : Context} {a : Nat} {q : List Stmt} {x y : Span} {pc : Int}
    (hx : x ∈ spansFrom Γ a q) (hy : y ∈ spansFrom Γ a q) (hpx : x.Covers pc)
    (hpy : y.Covers pc) : x = y := by
  induction q generalizing Γ a with
  | nil => cases hx
  | cons st q ih =>
    obtain ⟨hx₁, hx₂⟩ := hpx
    obtain ⟨hy₁, hy₂⟩ := hpy
    rcases List.mem_cons.mp hx with rfl | hx
    · rcases List.mem_cons.mp hy with rfl | hy
      · rfl
      · have h := le_of_mem_spansFrom hy
        simp only at hx₂
        omega
    · rcases List.mem_cons.mp hy with rfl | hy
      · have h := le_of_mem_spansFrom hx
        simp only at hy₂
        omega
      · exact ih hx hy

/-- Control is in the code of a function. -/
def InFunction (p : Program) (pc : Int) : Prop :=
  ∃ x ∈ p.spans, ∃ params body, x.Declares params body ∧ x.Covers pc

/-- A function with so many parameters is declared at an address. -/
def Declares (p : Program) (a n : Nat) : Prop :=
  ∃ x ∈ p.spans, ∃ params body, x.Declares params body ∧ x.first = a ∧ params.length = n

/-- The code of a function with so many parameters starts at an address. -/
def Enters (p : Program) (pc n : Int) : Prop :=
  ∃ x ∈ p.spans, ∃ params body, x.Declares params body ∧ x.Covers pc ∧ pc = x.first ∧
    n = params.length

end Program

theorem not_covers_of_lt {p : Program} {x : Span} (hx : x ∈ p.spans) {pc : Int} (h : pc < 2) :
    ¬ x.Covers pc := by
  intro hcovers
  have hfirst := Program.le_of_mem_spansFrom hx
  have hlow := hcovers.1
  omega

theorem Program.InFunction.two_le {p : Program} {pc : Int} (h : p.InFunction pc) : 2 ≤ pc := by
  obtain ⟨x, hx, -, -, -, hcovers⟩ := h
  by_contra hlt
  exact not_covers_of_lt hx (by omega) hcovers

theorem Program.Enters.span {p : Program} {a : Nat} {n : Int} (h : p.Enters a n) :
    ∃ x ∈ p.spans, ∃ params body, x.Declares params body ∧ a = x.first ∧ n = params.length ∧
      x.first < x.stop := by
  obtain ⟨x, hx, params, body, hd, ⟨hlow, hhigh⟩, hfirst, hn⟩ := h
  exact ⟨x, hx, params, body, hd, by omega, hn, by omega⟩

def Program.DeclaresAll (p : Program) (functions : Table FunctionInfo) : Prop :=
  ∀ f info, functions.get? f = some info → p.Declares info.address info.paramCount

section Code

variable {s : Session} {p : Program}

theorem Program.DeclaresAll.insert {functions : Table FunctionInfo} (h : p.DeclaresAll functions)
    {x : Span} (hx : x ∈ p.spans) {params : List Label} {body : List Stmt}
    (hd : x.Declares params body) (f : Label) :
    p.DeclaresAll (functions.insert f ⟨x.first, params.length⟩) := by
  intro g info hg
  rw [Table.get?_insert] at hg
  by_cases hgf : g = f
  · rw [if_pos hgf] at hg
    cases hg
    exact ⟨x, hx, params, body, hd, rfl, rfl⟩
  · rw [if_neg hgf] at hg
    exact h g info hg

theorem Program.DeclaresAll.element {Γ : Context} (h : p.DeclaresAll Γ.functions) {x : Span}
    (hx : x ∈ p.spans) : p.DeclaresAll (x.element.elementContext Γ x.first).functions := by
  cases hst : x.element with
  | func f params body =>
    rw [elementContext_func]
    exact h.insert hx ⟨f, hst⟩ f
  | _ => rwa [elementContext_of_not_func Γ x.first (by simp)]

theorem declaresAll_start : p.DeclaresAll Program.start.functions :=
  fun _ _ h => nomatch h

theorem declaresAll_elementsContext {Γ : Context} {a : Nat} {q : List Stmt}
    (h : p.DeclaresAll Γ.functions) (hsub : Program.spansFrom Γ a q ⊆ p.spans) :
    p.DeclaresAll (Program.elementsContext Γ a q).functions := by
  induction q generalizing Γ a with
  | nil => exact h
  | cons st q ih =>
    have hhead : (⟨st, a, a + (st.elementCode Γ a).length⟩ : Span) ∈ p.spans :=
      hsub List.mem_cons_self
    exact ih (h.element hhead) fun y hy => hsub (List.mem_cons_of_mem _ hy)

/-- The code of a span stands where it says, and it was made from names that were known there. -/
def Span.Laid (x : Span) (s : Session) (p : Program) : Prop :=
  ∃ Γ : Context, p.DeclaresAll Γ.functions ∧ x.element.Accepted Γ x.first ∧
    x.stop = x.first + (x.element.elementCode Γ x.first).length ∧
    s.Holds x.first (x.element.elementCode Γ x.first)

theorem spansFrom_laid {Γ : Context} {a : Nat} {q : List Stmt} (hΓ : p.DeclaresAll Γ.functions)
    (hq : Program.Accepted Γ a q) (hc : s.Holds a (Program.elementsCode Γ a q))
    (hsub : Program.spansFrom Γ a q ⊆ p.spans) :
    ∀ x ∈ Program.spansFrom Γ a q, x.Laid s p := by
  induction q generalizing Γ a with
  | nil => exact fun x hx => nomatch hx
  | cons st q ih =>
    obtain ⟨hcst, hcq⟩ := hc.append
    have hhead : (⟨st, a, a + (st.elementCode Γ a).length⟩ : Span) ∈ p.spans :=
      hsub List.mem_cons_self
    intro x hx
    rcases List.mem_cons.mp hx with rfl | hx
    · exact ⟨Γ, hΓ, hq.1, rfl, hcst⟩
    · exact ih (hΓ.element hhead) hq.2 hcq (fun y hy => hsub (List.mem_cons_of_mem _ hy)) x hx

theorem spans_laid (hp : Program.Accepted Program.start 2 p) (hc : s.program.toList = p.code) :
    ∀ x ∈ p.spans, x.Laid s p :=
  spansFrom_laid declaresAll_start hp (holds_elements hc) fun _ h => h

end Code

namespace Session

variable {s : Session} {p : Program} {lo hi a pc : Nat} {c c' : List Instruction} {i : Instruction}

/-- The instruction is the jump of a call: it stands behind the one that sets the base of the new
frame. -/
def IsCall (s : Session) (pc : Int) : Prop :=
  ∃ a : Nat, pc = (a + 1 : Nat) ∧ s.program[a]?.map (·.opcode) = some .strbp ∧
    s.program[a + 1]?.map (·.opcode) = some .jmp

def IsReturn (s : Session) (pc : Int) : Prop :=
  ∃ a : Nat, pc = a ∧ s.program[a]?.map (·.opcode) = some .ret

theorem Holds.isCall {j : Instruction} (h : s.Holds pc (i :: j :: c)) (hi : i.opcode = .strbp)
    (hj : j.opcode = .jmp) : s.IsCall (pc + 1 : Nat) := by
  refine ⟨pc, rfl, ?_, ?_⟩
  · rw [h.getElem?, Option.map_some, hi]
  · rw [h.tail.getElem?, Option.map_some, hj]

theorem not_isCall_of_ne (hi : s.program[pc]? = some i) (hne : i.opcode ≠ .jmp) :
    ¬ s.IsCall pc := by
  rintro ⟨b, hb, -, hjmp⟩
  have hpc : b + 1 = pc := by omega
  rw [hpc, hi] at hjmp
  exact hne (Option.some.inj hjmp)

theorem not_isReturn_of_ne (hi : s.program[pc]? = some i) (hne : i.opcode ≠ .ret) :
    ¬ s.IsReturn pc := by
  rintro ⟨b, hb, hret⟩
  have hpc : b = pc := by omega
  rw [hpc, hi] at hret
  exact hne (Option.some.inj hret)

/-- The code does not break off in front of the jump of a call. -/
def Settled (c : List Instruction) : Prop :=
  ∀ i ∈ c.getLast?, i.opcode ≠ .strbp

theorem Settled.append (h : Settled c) (h' : Settled c') : Settled (c ++ c') := by
  intro i hi
  rw [List.getLast?_append, Option.mem_def, Option.or_eq_some_iff] at hi
  rcases hi with hi | ⟨-, hi⟩
  · exact h' i hi
  · exact h i hi

theorem settled_nil : Settled [] :=
  fun _ h => nomatch h

theorem settled_concat (c : List Instruction) (h : i.opcode ≠ .strbp) : Settled (c ++ [i]) := by
  intro j hj
  rw [List.getLast?_concat] at hj
  cases hj
  exact h

theorem Holds.not_isCall (h : s.Holds a (c ++ c')) (hne : c ≠ []) (hc : Settled c) :
    ¬ s.IsCall ((a + c.length : Nat) : Int) := by
  rintro ⟨b, hb, hstrbp, -⟩
  obtain ⟨d, j, rfl⟩ := c.eq_nil_or_concat'.resolve_left hne
  have hj : s.program[a + d.length]? = some j := (h.append.1.append.2).getElem?
  have hpc : b = a + d.length := by
    simp only [List.length_append, List.length_cons, List.length_nil] at hb
    omega
  rw [hpc, hj] at hstrbp
  exact hc j (by simp) (Option.some.inj hstrbp)

end Session

mutual

theorem Stmt.settled_code : (S : Stmt) → (Γ : Context) → (a : Nat) → Settled (S.code Γ a)
  | .assign x e, Γ, a => by
    rw [Stmt.code]
    exact settled_concat _ nofun
  | .noop, _, _ => settled_nil
  | .ifThen c t, Γ, a => by
    rw [Stmt.code]
    apply Settled.append
    · exact settled_concat (c.code Γ) nofun
    · exact settled_code t _ _
  | .ifElse c t e, Γ, a => by
    rw [Stmt.code]
    apply Settled.append
    · exact settled_concat _ nofun
    · exact settled_code e _ _
  | .loop c d, Γ, a => by
    rw [Stmt.code]
    exact settled_concat _ nofun
  | .func _ _ _, _, _ => settled_nil
  | .ret e, Γ, a => settled_concat (e.code Γ) nofun
  | .block ss, Γ, a => settled_codeAll ss Γ a

theorem Stmt.settled_codeAll : (ss : List Stmt) → (Γ : Context) → (a : Nat) →
    Settled (Stmt.codeAll Γ a ss)
  | [], _, _ => settled_nil
  | S :: ss, Γ, a => (settled_code S Γ a).append (settled_codeAll ss _ _)

end

theorem settled_test (c : List Instruction) (t : Int) (S : Stmt) (Γ : Context) (a : Nat) :
    Settled (c ++ [⟨.beq0, t⟩] ++ S.code Γ a) := by
  apply Settled.append
  · exact settled_concat c nofun
  · exact S.settled_code Γ a

section Flow

variable {s : Session} {p : Program} {lo hi a pc : Nat} {c c' : List Instruction}

/-- The instruction goes to the next one. -/
def Instruction.Plain (i : Instruction) : Prop :=
  i.opcode ≠ .jmp ∧ i.opcode ≠ .beq0 ∧ i.opcode ≠ .ret ∧ i.opcode ≠ .strpc

/-- Where control can go from an address in code between `lo` and `hi`. -/
inductive Flow (s : Session) (p : Program) (lo hi pc : Nat) : Prop where
  | plain {i : Instruction} : s.program[pc]? = some i → i.Plain → Flow s p lo hi pc
  | branch {i : Instruction} {t : Nat} : s.program[pc]? = some i →
      i.opcode = .jmp ∨ i.opcode = .beq0 → i.operand = t → ¬ s.IsCall pc → lo ≤ t → t ≤ hi →
      Flow s p lo hi pc
  | call {f n : Nat} : s.program[pc]? = some ⟨.jmp, f⟩ → s.IsCall pc → p.Declares f n →
      Flow s p lo hi pc
  | ret : s.program[pc]? = some ⟨.ret, 0⟩ → Flow s p lo hi pc

def Flows (s : Session) (p : Program) (lo hi a : Nat) (c : List Instruction) : Prop :=
  ∀ pc, a ≤ pc → pc < a + c.length → Flow s p lo hi pc

theorem Flows.append (h : Flows s p lo hi a c) (h' : Flows s p lo hi (a + c.length) c') :
    Flows s p lo hi a (c ++ c') := by
  intro pc hlow hhigh
  rw [List.length_append] at hhigh
  by_cases hpc : pc < a + c.length
  · exact h pc hlow hpc
  · exact h' pc (by omega) (by omega)

theorem flows_singleton {i : Instruction} (h : Flow s p lo hi a) : Flows s p lo hi a [i] := by
  intro pc hlow hhigh
  simp only [List.length_singleton] at hhigh
  have hpc : pc = a := by omega
  rwa [hpc]

theorem flows_plain (hc : s.Holds a c) (h : ∀ i ∈ c, i.Plain) : Flows s p lo hi a c := by
  induction c generalizing a with
  | nil =>
    intro pc hlow hhigh
    simp only [List.length_nil] at hhigh
    omega
  | cons i c ih =>
    apply Flows.append (c := [i])
    · exact flows_singleton (.plain hc.getElem? (h i List.mem_cons_self))
    · exact ih hc.tail fun j hj => h j (List.mem_cons_of_mem i hj)

mutual

theorem Expr.flows {Γ : Context} (hΓ : p.DeclaresAll Γ.functions) : (e : Expr) → {a : Nat} →
    e.Resolved Γ → s.Holds a (e.code Γ) → Flows s p lo hi a (e.code Γ)
  | .num v, a, _, hc => flows_plain hc (by simp [Expr.code, Instruction.Plain])
  | .var x, a, _, hc => by
    apply flows_plain hc
    intro i hi
    rw [List.mem_singleton.mp hi, Context.load]
    split
    · simp [Instruction.Plain]
    · simp [Instruction.Plain]
  | .binary op l r, a, hr, hc => by
    obtain ⟨hc, hop⟩ := hc.append
    obtain ⟨hcr, hcl⟩ := hc.append
    apply Flows.append
    · exact (flows hΓ r hr.1 hcr).append (flows hΓ l hr.2 hcl)
    · exact flows_plain hop (by simp [Instruction.Plain])
  | .call f args, a, hr, hc => by
    obtain ⟨⟨info, hinfo, -⟩, hrargs⟩ := hr
    obtain ⟨hc, hclose⟩ := hc.append
    obtain ⟨hopen, hcargs⟩ := hc.append
    have hbase := hclose.tail.tail.tail.tail
    have hjump := hbase.tail
    have hentry : Γ.entry f = info.address := by simp [Context.entry, hinfo]
    rw [hentry] at hjump
    rw [Expr.code]
    apply Flows.append
    · apply Flows.append
      · exact flows_plain hopen (by simp [Instruction.Plain])
      · exact flows_all hΓ args hrargs hcargs
    · apply Flows.append (c := [⟨.push, args.length⟩, ⟨.strargc, 0⟩, ⟨.ldbp, 0⟩, ⟨.ldsp, 0⟩,
        ⟨.strbp, 0⟩])
      · exact flows_plain (Holds.append hclose).1 (by simp [Instruction.Plain])
      · apply Flows.append (c := [⟨.jmp, Γ.entry f⟩])
        · exact flows_singleton (.call hjump.getElem? (hbase.isCall rfl rfl) (hΓ f info hinfo))
        · exact flows_plain hjump.tail (by simp [Instruction.Plain])

theorem Expr.flows_all {Γ : Context} (hΓ : p.DeclaresAll Γ.functions) : (es : List Expr) →
    {a : Nat} → Expr.ResolvedAll Γ es → s.Holds a (Expr.codeAll Γ es) →
    Flows s p lo hi a (Expr.codeAll Γ es)
  | [], a, _, hc => flows_plain hc (by simp [Expr.codeAll])
  | e :: es, a, hr, hc => by
    obtain ⟨hce, hces⟩ := hc.append
    exact (flows hΓ e hr.1 hce).append (flows_all hΓ es hr.2 hces)

end

theorem flows_branch {i : Instruction} {t : Nat} (hc : s.Holds a (i :: c)) (hop : i.opcode = .beq0)
    (ht : i.operand = t) (hlow : lo ≤ t) (hhigh : t ≤ hi) : Flows s p lo hi a [i] := by
  have hcall : ¬ s.IsCall a := not_isCall_of_ne hc.getElem? (by simp [hop])
  exact flows_singleton (.branch hc.getElem? (.inr hop) ht hcall hlow hhigh)

theorem flows_jump {t : Nat} (hc : s.Holds a (c ++ [⟨.jmp, t⟩])) (hne : c ≠ []) (hs : Settled c)
    (hlow : lo ≤ t) (hhigh : t ≤ hi) : Flows s p lo hi (a + c.length) [⟨.jmp, t⟩] := by
  have hjump := hc.append.2.getElem?
  exact flows_singleton (.branch hjump (.inl rfl) rfl (hc.not_isCall hne hs) hlow hhigh)

theorem Stmt.flows_assign {Γ : Context} {x : Label} {e : Expr} (hΓ : p.DeclaresAll Γ.functions)
    (hr : (Stmt.assign x e).Resolved Γ) (hc : s.Holds a ((Stmt.assign x e).code Γ a)) :
    Flows s p lo hi a ((Stmt.assign x e).code Γ a) := by
  obtain ⟨hc, hstore⟩ := hc.append
  obtain ⟨hcell, hce⟩ := hc.append
  have hΓ' : p.DeclaresAll (Γ.allot x).functions := hΓ
  rw [Stmt.code]
  apply Flows.append
  · apply Flows.append
    · apply flows_plain hcell
      split
      · nofun
      · simp [Instruction.Plain]
    · exact e.flows hΓ' hr hce
  · exact flows_plain hstore (by simp [Instruction.Plain, Context.store])

mutual

theorem Stmt.flows : (S : Stmt) → {Γ : Context} → {a : Nat} → p.DeclaresAll Γ.functions →
    S.Resolved Γ → s.Holds a (S.code Γ a) → lo ≤ a → a + (S.code Γ a).length ≤ hi →
    Flows s p lo hi a (S.code Γ a)
  | .noop, _, _, _, _, hc, _, _ => flows_plain hc (by simp [Stmt.code])
  | .func _ _ _, _, _, _, hr, _, _, _ => hr.elim
  | .ret e, Γ, a, hΓ, hr, hc, hlow, hhigh => by
    obtain ⟨hce, hret⟩ := hc.append
    exact (e.flows hΓ hr hce).append (flows_singleton (.ret hret.getElem?))
  | .block ss, Γ, a, hΓ, hr, hc, hlow, hhigh => flows_all ss hΓ hr hc hlow hhigh
  | .assign x e, _, _, hΓ, hr, hc, _, _ => flows_assign hΓ hr hc
  | .ifThen c t, Γ, a, hΓ, hr, hc, hlow, hhigh => by
    obtain ⟨hcond, hbranch, hbody⟩ := hc.ifThen rfl
    rw [Stmt.end_ifThen Γ a c t rfl] at hhigh
    rw [Stmt.code]
    apply Flows.append
    · apply Flows.append
      · exact c.flows hΓ hr.1 hcond
      · exact flows_branch hbranch rfl rfl (by omega) hhigh
    · simp only [List.length_append, List.length_singleton, ← Nat.add_assoc]
      exact flows t hΓ hr.2 hbody (by omega) hhigh
  | .ifElse c t e, Γ, a, hΓ, hr, hc, hlow, hhigh => by
    obtain ⟨hcond, hbranch, hbody, -, hother⟩ := hc.ifElse rfl rfl
    have hΓ' : p.DeclaresAll (t.context Γ).functions := by rwa [(Stmt.context_keeps Γ t).1]
    rw [Stmt.end_ifElse Γ a c t e rfl rfl] at hhigh
    rw [Stmt.code]
    apply Flows.append
    · apply Flows.append
      · apply Flows.append
        · apply Flows.append
          · exact c.flows hΓ hr.1 hcond
          · exact flows_branch hbranch rfl rfl (by omega) (by omega)
        · simp only [List.length_append, List.length_singleton, ← Nat.add_assoc]
          exact flows t hΓ hr.2.1 hbody (by omega) (by omega)
      · exact flows_jump hc.append.1 (by simp) (settled_test _ _ t Γ _) (by omega) hhigh
    · simp only [List.length_append, List.length_singleton, ← Nat.add_assoc]
      exact flows e hΓ' hr.2.2 hother (by omega) hhigh
  | .loop c d, Γ, a, hΓ, hr, hc, hlow, hhigh => by
    obtain ⟨hcond, hbranch, hbody, -⟩ := hc.loop rfl
    rw [Stmt.end_loop Γ a c d rfl] at hhigh
    rw [Stmt.code]
    apply Flows.append
    · apply Flows.append
      · apply Flows.append
        · exact c.flows hΓ hr.1 hcond
        · exact flows_branch hbranch rfl rfl (by omega) hhigh
      · simp only [List.length_append, List.length_singleton, ← Nat.add_assoc]
        exact flows d hΓ hr.2 hbody (by omega) (by omega)
    · exact flows_jump hc (by simp) (settled_test _ _ d Γ _) hlow (by omega)

theorem Stmt.flows_all : (ss : List Stmt) → {Γ : Context} → {a : Nat} →
    p.DeclaresAll Γ.functions → Stmt.ResolvedAll Γ ss → s.Holds a (Stmt.codeAll Γ a ss) → lo ≤ a →
    a + (Stmt.codeAll Γ a ss).length ≤ hi → Flows s p lo hi a (Stmt.codeAll Γ a ss)
  | [], _, _, _, _, hc, _, _ => flows_plain hc (by simp [Stmt.codeAll])
  | S :: ss, Γ, a, hΓ, hr, hc, hlow, hhigh => by
    obtain ⟨hcS, hcss⟩ := hc.append
    simp only [Stmt.codeAll, List.length_append, ← Nat.add_assoc] at hhigh
    have hΓ' : p.DeclaresAll (S.context Γ).functions := by rwa [(Stmt.context_keeps Γ S).1]
    exact (flows S hΓ hr.1 hcS hlow (by omega)).append
      (flows_all ss hΓ' hr.2 hcss (by omega) hhigh)

end

/-- In the code of an element control goes to another place of that code, to its end, to a declared
function, or back to a caller. -/
theorem Span.flow {x : Span} (hx : x ∈ p.spans) (hl : x.Laid s p) (hlow : x.first ≤ pc)
    (hhigh : pc < x.stop) : Flow s p x.first x.stop pc := by
  obtain ⟨Γ, hΓ, haccepted, hstop, hc⟩ := hl
  have hflows : Flows s p x.first x.stop x.first (x.element.elementCode Γ x.first) := by
    cases hst : x.element with
    | func f params body =>
      rw [hst] at haccepted hstop hc
      exact Stmt.flows_all body (hΓ.insert hx ⟨f, hst⟩ f) haccepted.2 hc (Nat.le_refl _) hstop.ge
    | _ =>
      rw [hst] at haccepted hstop hc
      exact Stmt.flows _ hΓ haccepted hc (Nat.le_refl _) hstop.ge
  exact hflows pc hlow (by omega)

end Flow

namespace Session

variable {s : Session} {p : Program} {lo hi pc : Nat} {m m' : Machine}

/-- One step, whatever is printed in it. -/
def Next (s : Session) (m m' : Machine) : Prop :=
  ∃ i o, s.fetch? m = some i ∧
    (Machine.execute s.config.haltOnReturn s.sink s.program.size i).run m = .ok o m'

theorem Next.not_halted (h : s.Next m m') : m.halted = false := by
  obtain ⟨i, o, hi, -⟩ := h
  exact (fetch?_eq_some_iff.mp hi).1

theorem Next.fetch (h : s.Next m m') (hm : m.pc = pc) : ∃ i o, s.program[pc]? = some i ∧
    (Machine.execute s.config.haltOnReturn s.sink s.program.size i).run m = .ok o m' := by
  obtain ⟨i, o, hi, hrun⟩ := h
  obtain ⟨-, hlow, hget⟩ := fetch?_eq_some_iff.mp hi
  have hpc : m.pc.toNat = pc := by omega
  rw [hpc] at hget
  exact ⟨i, o, hget, hrun⟩

theorem Next.flow (h : s.Next m m') (hm : m.pc = pc) (hf : Flow s p lo hi pc) (hlow : lo ≤ pc)
    (hhigh : pc < hi) :
    s.IsReturn pc ∨ s.IsCall pc ∧ (∃ a n : Nat, m'.pc = a ∧ p.Declares a n) ∨
      ¬ s.IsReturn pc ∧ ¬ s.IsCall pc ∧ lo ≤ m'.pc ∧ m'.pc ≤ hi := by
  obtain ⟨j, o, hj, hrun⟩ := h.fetch hm
  cases hf with
  | @plain i hi hplain =>
    rw [hj] at hi
    cases hi
    obtain ⟨hjmp, hbeq0, hret, hstrpc⟩ := hplain
    have hpc : m'.pc = m.pc + 1 := by
      rcases execute_pc hret hstrpc hrun with ⟨h, -⟩ | ⟨h | h, -⟩
      · exact h
      · exact absurd h hjmp
      · exact absurd h hbeq0
    have hcall := not_isCall_of_ne hj hjmp
    have hreturn := not_isReturn_of_ne hj hret
    exact .inr (.inr ⟨hreturn, hcall, by omega, by omega⟩)
  | @branch i t hi hop ht hcall ht₁ ht₂ =>
    rw [hj] at hi
    cases hi
    have hret : j.opcode ≠ .ret := by rcases hop with h | h <;> simp [h]
    have hstrpc : j.opcode ≠ .strpc := by rcases hop with h | h <;> simp [h]
    have hpc := execute_pc hret hstrpc hrun
    have hreturn := not_isReturn_of_ne hj hret
    exact .inr (.inr ⟨hreturn, hcall, by omega, by omega⟩)
  | @call f n hi hcall hd =>
    rw [hj] at hi
    cases hi
    rcases execute_pc (by simp) (by simp) hrun with ⟨-, h⟩ | ⟨-, hpc⟩
    · exact absurd rfl h
    · exact .inr (.inl ⟨hcall, f, n, hpc, hd⟩)
  | ret hi => exact .inl ⟨pc, rfl, by rw [hi]; rfl⟩

end Session

end StackLang
