import StackLang.Proofs.Elements
import StackLang.Proofs.Fragments

namespace StackLang

open Session

/-- The opcodes that code is generated from. -/
def Emitter.opcodes : List Opcode :=
  [.push] ++ Operator.all.map .binary ++
    [.beq0, .jmp, .ret, .loadl, .storel, .loada, .ldbp, .strbp, .ldsp, .ldpc, .strargc]

theorem getElem?_between {α : Type} {b m e : List α} {j : Nat} {x : α}
    (h : (b ++ m ++ e)[j]? = some x) :
    b[j]? = some x ∨ (∃ k, j = b.length + k ∧ m[k]? = some x) ∨
      ∃ k, j = b.length + m.length + k ∧ e[k]? = some x := by
  by_cases hb : j < b.length
  · rw [List.append_assoc, List.getElem?_append_left hb] at h
    exact .inl h
  · by_cases hc : j < b.length + m.length
    · rw [List.append_assoc, List.getElem?_append_right (by omega),
        List.getElem?_append_left (by omega)] at h
      exact .inr (.inl ⟨j - b.length, by omega, h⟩)
    · rw [List.getElem?_append_right (by simp only [List.length_append]; omega),
        List.length_append] at h
      exact .inr (.inr ⟨j - (b.length + m.length), by omega, h⟩)

theorem getElem?_append_between {α : Type} {m : List α} {k : Nat} {x : α} (h : m[k]? = some x)
    (b e : List α) : (b ++ m ++ e)[b.length + k]? = some x := by
  have hk := (List.getElem?_eq_some_iff.mp h).1
  rw [List.append_assoc, List.getElem?_append_right (by omega),
    List.getElem?_append_left (by omega), Nat.add_sub_cancel_left, h]

/-- The `ldpc` at `j` and the jump at `k` belong to one call: the return address is behind the jump,
which leads to a function, and there an argument count is restored. -/
structure CallAt (functions : Table FunctionInfo) (code : List Instruction) (j k : Nat) : Prop where
  address : code[j]? = some ⟨.ldpc, (k : Int) + 1 - j⟩
  jump : ∃ f info, functions.get? f = some info ∧ code[k]? = some ⟨.jmp, info.address⟩
  count : ∃ n, code[k + 1]? = some ⟨.push, n⟩
  restore : code[k + 2]? = some ⟨.strargc, 0⟩

/-- The instruction `i` at `j` is part of a call, if it is one that only calls are made of. -/
def PairedAt (functions : Table FunctionInfo) (code : List Instruction) (j : Nat)
    (i : Instruction) : Prop :=
  (i.opcode = .ldpc → ∃ k, CallAt functions code j k) ∧
    (i.opcode = .strbp → ∃ a, CallAt functions code a (j + 1))

def Paired (functions : Table FunctionInfo) (code : List Instruction) : Prop :=
  ∀ j i, code[j]? = some i → PairedAt functions code j i

section Fragments

variable {functions : Table FunctionInfo} {size : Nat} {c c' : List Instruction}

theorem CallAt.between {j k : Nat} (h : CallAt functions c j k) (b e : List Instruction) :
    CallAt functions (b ++ c ++ e) (b.length + j) (b.length + k) where
  address := by
    have hj := getElem?_append_between h.address b e
    have hoffset : ((b.length + k : Nat) : Int) + 1 - ((b.length + j : Nat) : Int) =
        (k : Int) + 1 - j := by omega
    rwa [hoffset]
  jump := by
    obtain ⟨f, info, hf, hk⟩ := h.jump
    exact ⟨f, info, hf, getElem?_append_between hk b e⟩
  count := by
    obtain ⟨n, hn⟩ := h.count
    exact ⟨n, getElem?_append_between hn b e⟩
  restore := getElem?_append_between h.restore b e

theorem PairedAt.between {j : Nat} {i : Instruction} (h : PairedAt functions c j i)
    (b e : List Instruction) : PairedAt functions (b ++ c ++ e) (b.length + j) i := by
  refine ⟨fun hi => ?_, fun hi => ?_⟩
  · obtain ⟨k, hk⟩ := h.1 hi
    exact ⟨b.length + k, hk.between b e⟩
  · obtain ⟨a, ha⟩ := h.2 hi
    exact ⟨b.length + a, ha.between b e⟩

theorem pairedAt_of_ne {j : Nat} {i : Instruction} (hldpc : i.opcode ≠ .ldpc)
    (hstrbp : i.opcode ≠ .strbp) : PairedAt functions c j i :=
  ⟨fun h => absurd h hldpc, fun h => absurd h hstrbp⟩

theorem paired_singleton {i : Instruction} (hldpc : i.opcode ≠ .ldpc)
    (hstrbp : i.opcode ≠ .strbp) : Paired functions [i] := by
  intro j x hx
  have hxi := List.mem_singleton.mp (List.mem_of_getElem? hx)
  subst hxi
  exact pairedAt_of_ne hldpc hstrbp

theorem Paired.append (h : Paired functions c) (h' : Paired functions c') :
    Paired functions (c ++ c') := by
  intro j i hj
  by_cases hlt : j < c.length
  · rw [List.getElem?_append_left hlt] at hj
    have hpaired := (h j i hj).between [] c'
    rwa [List.nil_append, List.length_nil, Nat.zero_add] at hpaired
  · rw [List.getElem?_append_right (by omega)] at hj
    have hpaired := (h' (j - c.length) i hj).between c []
    rwa [List.append_nil, Nat.add_sub_cancel' (by omega)] at hpaired

theorem callAt_callCode {f : Label} {info : FunctionInfo} (hf : functions.get? f = some info)
    (c : List Instruction) (n k : Nat) :
    CallAt functions (callCode c n info.address k) 1 (c.length + 7) := by
  have htail : ∀ {i : Nat} {x : Instruction},
      [⟨.push, n⟩, ⟨.strargc, 0⟩, ⟨.ldbp, 0⟩, ⟨.ldsp, 0⟩, ⟨.strbp, 0⟩, ⟨.jmp, info.address⟩,
        ⟨.push, k⟩, ⟨.strargc, 0⟩][i]? = some x →
      (callCode c n info.address k)[c.length + 2 + i]? = some x := by
    intro i x hx
    rw [callCode, List.getElem?_append_right (by simp)]
    simpa [Nat.add_comm c.length 2] using hx
  refine ⟨?_, ⟨f, info, hf, htail (i := 5) rfl⟩, ⟨k, htail (i := 6) rfl⟩, htail (i := 7) rfl⟩
  simp [callCode]

theorem paired_callCode {f : Label} {info : FunctionInfo} (hf : functions.get? f = some info)
    (hc : Paired functions c) (n k : Nat) : Paired functions (callCode c n info.address k) := by
  have hcall := callAt_callCode hf c n k
  intro j i hj
  rcases getElem?_between hj with hopen | ⟨m, rfl, hm⟩ | ⟨m, rfl, hm⟩
  · rcases j with _ | _ | j
    · cases hopen
      exact pairedAt_of_ne nofun nofun
    · exact ⟨fun _ => ⟨_, hcall⟩, by cases hopen; nofun⟩
    · cases hopen
  · exact (hc m i hm).between _ _
  · -- behind the arguments only the fifth instruction sets the base of a frame
    by_cases hbase : m = 4
    · subst hbase
      cases hm
      refine ⟨nofun, fun _ => ⟨1, ?_⟩⟩
      have hindex : [(⟨.push, Emitter.placeholder⟩ : Instruction),
          ⟨.ldpc, c.length + 7⟩].length + c.length + 4 + 1 = c.length + 7 := by
        simp only [List.length_cons, List.length_nil]
        omega
      rwa [hindex]
    · rcases m with _ | _ | _ | _ | _ | _ | _ | _ | m
      all_goals first | exact absurd rfl hbase | cases hm
      all_goals exact pairedAt_of_ne nofun nofun

theorem Fragment.paired (h : Fragment functions size c) : Paired functions c := by
  induction h with
  | nil =>
    intro j i hj
    cases hj
  | @straight i hi =>
    have hmem : ∀ op ∈ straightOpcodes, op ≠ .ldpc ∧ op ≠ .strbp := by decide
    exact paired_singleton (hmem _ hi.1).1 (hmem _ hi.1).2
  | branch hop ht =>
    rcases hop with rfl | rfl <;> exact paired_singleton (by rintro ⟨⟩) (by rintro ⟨⟩)
  | boot hf => exact paired_singleton (by rintro ⟨⟩) (by rintro ⟨⟩)
  | append _ _ ih ih' => exact ih.append ih'
  | call n k hf _ ih => exact paired_callCode hf ih n k

theorem Fragment.target (h : Fragment functions size c) : ∀ i ∈ c,
    i.opcode = .beq0 ∨ i.opcode = .jmp →
      (∃ target : Nat, i.operand = target ∧ target ≤ size) ∨
        ∃ f info, functions.get? f = some info ∧ i.operand = info.address := by
  refine h.all_of ?_ ?_ ?_ ?_ ?_
  · intro i hi hop
    have hmem : ∀ op ∈ straightOpcodes, ¬ (op = .beq0 ∨ op = .jmp) := by decide
    exact absurd hop (hmem _ hi.1)
  · exact fun op target _ ht _ => .inl ⟨target, rfl, ht⟩
  · exact fun f info hf _ => .inr ⟨f, info, hf, rfl⟩
  · exact fun n hop => by simp at hop
  · exact fun hop => by simp at hop

theorem Fragment.opcode (h : Fragment functions size c) : ∀ i ∈ c,
    i.opcode ∈ Emitter.opcodes ∧ (i.opcode.hasOperand = false → i.operand = 0) := by
  refine h.all_of ?_ ?_ ?_ ?_ ?_
  · intro i hi
    have hmem : ∀ op ∈ straightOpcodes, op ∈ Emitter.opcodes := by decide
    exact ⟨hmem _ hi.1, hi.2⟩
  · rintro op target (rfl | rfl) - <;> exact ⟨by simp [Emitter.opcodes], nofun⟩
  · exact fun f info _ => ⟨by simp [Emitter.opcodes], nofun⟩
  · exact fun n => ⟨by simp [Emitter.opcodes], nofun⟩
  · exact ⟨by decide, fun _ => rfl⟩

end Fragments

section Programs

variable {σ : Session} {p : Program} {x : Span} {pc : Nat}

theorem exists_span {Γ : Context} {a : Nat} {q : List Stmt} (hlow : a ≤ pc)
    (hhigh : pc < a + (Program.elementsCode Γ a q).length) :
    ∃ x ∈ Program.spansFrom Γ a q, x.Covers pc := by
  induction q generalizing Γ a with
  | nil =>
    simp only [Program.elementsCode, List.length_nil] at hhigh
    omega
  | cons S q ih =>
    simp only [Program.elementsCode, List.length_append] at hhigh
    by_cases hpc : pc < a + (S.elementCode Γ a).length
    · exact ⟨_, List.mem_cons_self, by simp only; omega, by simp only; omega⟩
    · have hrest : pc < a + (S.elementCode Γ a).length + (Program.elementsCode
          (S.elementContext Γ a) (a + (S.elementCode Γ a).length) q).length := by omega
      obtain ⟨x, hx, hcovers⟩ := ih (by omega) hrest
      exact ⟨x, List.mem_cons_of_mem _ hx, hcovers⟩

theorem Span.flow_toplevel {lo hi : Nat} (hx : x.element.Element)
    (hnot : ∀ f params body, x.element ≠ .func f params body) (hl : x.Laid σ p)
    (hlow : x.first ≤ pc) (hhigh : pc < x.stop) : Flow σ p lo hi pc := by
  obtain ⟨Γ, hΓ, haccepted, hstop, hc⟩ := hl
  cases hS : x.element with
  | assign y e =>
    rw [hS] at haccepted hstop hc
    simp only [Stmt.elementCode] at hstop
    exact Stmt.flows_assign hΓ haccepted hc pc hlow (by omega)
  | noop =>
    rw [hS] at hstop
    simp only [Stmt.elementCode, Stmt.code, List.length_nil] at hstop
    omega
  | func f params body => exact absurd hS (hnot f params body)
  | ifThen c t => exact (hS ▸ hx).elim
  | ifElse c t e => exact (hS ▸ hx).elim
  | loop c b => exact (hS ▸ hx).elim
  | ret e => exact (hS ▸ hx).elim
  | block ss => exact (hS ▸ hx).elim

/-- A branch in the code of an element is the jump of a call, or the element is a function and the
branch stays in it. -/
theorem Span.branch (hp : ∀ S ∈ p, S.Element) (hx : x ∈ p.spans) (hl : x.Laid σ p)
    (hcovers : x.Covers pc) {i : Instruction} (hget : σ.program[pc]? = some i)
    (hop : i.opcode = .beq0 ∨ i.opcode = .jmp) :
    σ.IsCall pc ∨ (∃ f params body, x.element = .func f params body) ∧
      x.first ≤ i.operand ∧ i.operand ≤ x.stop := by
  obtain ⟨hlow, hhigh⟩ := hcovers
  have hflow : ∀ {lo hi : Nat}, Flow σ p lo hi pc →
      σ.IsCall pc ∨ lo ≤ i.operand ∧ i.operand ≤ hi := by
    intro lo hi hf
    cases hf with
    | plain hj hplain =>
      rw [hget] at hj
      cases hj
      rcases hop with hop | hop
      · exact absurd hop hplain.2.1
      · exact absurd hop hplain.1
    | branch hj _ ht _ h₁ h₂ =>
      rw [hget] at hj
      cases hj
      exact .inr ⟨by omega, by omega⟩
    | call _ hcall _ => exact .inl hcall
    | ret hj =>
      rw [hget] at hj
      cases hj
      simp at hop
  by_cases hfunc : ∃ f params body, x.element = .func f params body
  · exact (hflow (Span.flow hx hl (by omega) (by omega))).imp_right fun h => ⟨hfunc, h⟩
  · have helement := hp _ (Program.mem_of_mem_spansFrom hx)
    have hnot : ∀ f params body, x.element ≠ .func f params body :=
      fun f params body h => hfunc ⟨f, params, body, h⟩
    -- no address is in an empty interval
    have hempty : Flow σ p 1 0 pc :=
      Span.flow_toplevel helement hnot hl (by omega) (by omega)
    exact (hflow hempty).imp_right fun h => by omega

theorem Session.IsCall.callAt {functions : Table FunctionInfo}
    (hpaired : Paired functions σ.program.toList) (h : σ.IsCall pc) :
    ∃ a, CallAt functions σ.program.toList a pc := by
  obtain ⟨a, ha, hstrbp, -⟩ := h
  obtain ⟨i, hi, hop⟩ := Option.map_eq_some_iff.mp hstrbp
  have hpc : pc = a + 1 := by omega
  rw [hpc]
  exact (hpaired a i (by simpa using hi)).2 hop

theorem functions_of_span {s : Emitter} (hp : ∀ S ∈ p, S.Element)
    (h : Emitter.generate p.toTree = .ok () s) (hx : x ∈ p.spans) {f : Label}
    {params : List Label} {body : List Stmt} (hf : x.element = .func f params body) :
    s.functions.get? f = some ⟨x.first, params.length⟩ := by
  obtain ⟨-, haccepted, -⟩ := generate_ok hp h
  have helements := holds_elements (s := ofCode p.code none Sink.silent false) rfl
  obtain ⟨Δ, hsub, -, -⟩ := spansFrom_inside haccepted helements hx hf
  rw [generate_functions hp h]
  apply hsub
  simp [Stmt.inside, Table.get?_insert]

end Programs

theorem generate_fragment {t : Tree} {s : Emitter} (h : Emitter.generate t = .ok () s) :
    Fragment s.functions s.code.size s.code.toList ∧ s.Anchored := by
  obtain ⟨c, hc, hf⟩ := Emitter.gen_finishes t h
  have hcode : s.code.toList = c := by simp [hc.code]
  rw [hcode]
  exact ⟨hf, hc.anchored nofun⟩

/-- Whatever tree code is generated for, nothing in it is left open: branches stay in the code,
every return address is behind the jump of its call to a function, and what has no operand has none.
In the code of a program the branches of a function stay in the function; besides them there are the
bootstrap and the jumps of calls. -/
theorem addresses_resolved {t : Tree} {s : Emitter} (h : Emitter.generate t = .ok () s) :
    (∀ i ∈ s.code.toList, i.opcode = .beq0 ∨ i.opcode = .jmp →
      0 ≤ i.operand ∧ i.operand ≤ s.code.size) ∧
    (∀ (a : Nat) (d : Int), s.code.toList[a]? = some ⟨.ldpc, d⟩ →
      ∃ k : Nat, (k : Int) = a + d - 1 ∧ CallAt s.functions s.code.toList a k) ∧
    (∀ i ∈ s.code.toList, i.opcode ∈ Emitter.opcodes ∧
      (i.opcode.hasOperand = false → i.operand = 0)) ∧
    ∀ ts p, parseProgram ts = .ok p → t = p.toTree →
      ∀ (pc : Nat) (i : Instruction), s.code.toList[pc]? = some i →
        i.opcode = .beq0 ∨ i.opcode = .jmp →
        pc = 1 ∧ i.opcode = .jmp ∨ (∃ a, CallAt s.functions s.code.toList a pc) ∨
          ∃ x ∈ p.spans, ∃ f params body, x.element = .func f params body ∧
            s.functions.get? f = some ⟨x.first, params.length⟩ ∧ x.Covers pc ∧
            (x.first : Int) ≤ i.operand ∧ i.operand ≤ x.stop := by
  obtain ⟨hfragment, hanchored⟩ := generate_fragment h
  refine ⟨fun i hi hop => ?_, fun a d ha => ?_, hfragment.opcode, ?_⟩
  · rcases hfragment.target i hi hop with ⟨target, htarget, hsize⟩ | ⟨f, info, hf, htarget⟩
    · omega
    · have haddress := hanchored f info hf
      omega
  · obtain ⟨k, hk⟩ := (hfragment.paired a _ ha).1 rfl
    have hoffset := hk.address
    rw [ha] at hoffset
    cases hoffset
    exact ⟨k, by omega, hk⟩
  · rintro ts p hparse rfl pc i hi hop
    have hp := parseProgram_element hparse
    obtain ⟨hcode, haccepted, -⟩ := generate_ok hp h
    let σ := ofCode p.code none Sink.silent false
    have hlist : σ.program.toList = p.code := rfl
    have hget : σ.program[pc]? = some i := by
      rw [← Array.getElem?_toList, hlist, ← hcode]
      exact hi
    rcases pc with _ | _ | pc
    · rw [hcode, Program.code] at hi
      cases hi
      simp at hop
    · rw [hcode, Program.code] at hi
      cases hi
      exact .inl ⟨rfl, rfl⟩
    · right
      have hsize := (List.getElem?_eq_some_iff.mp hi).1
      rw [hcode, Program.code, List.length_cons, List.length_cons] at hsize
      have hlow : 2 ≤ pc + 2 := by omega
      have hhigh : pc + 2 < 2 + (Program.elementsCode Program.start 2 p).length := by omega
      obtain ⟨x, hx, hcovers⟩ := exists_span hlow hhigh
      rcases Span.branch hp hx (spans_laid haccepted hlist x hx) hcovers hget hop with
        hcall | ⟨⟨f, params, body, hf⟩, hlow, hhigh⟩
      · rw [hcode]
        rw [hcode] at hfragment
        exact .inl (hcall.callAt hfragment.paired)
      · exact .inr ⟨x, hx, f, params, body, hf, functions_of_span hp h hx hf, hcovers, hlow, hhigh⟩

/-- A call inside a function, whose callee is declared in the condition around it; and a loop that
source text has. -/
theorem addresses_resolved_nested_declaration :
    (∃ s, Emitter.generate
        (.node .toplevel none [.node .functionDecl Program.mainName [.node .ifStmt none
          [.node .functionDecl (some (.word "g"))
            [.node .returnStmt none [.leaf .number (some (.int 1))]],
           .node .call (some (.word "g")) []]]]) = .ok () s ∧
      s.code.toList[6]? = some ⟨.ldpc, 7⟩ ∧ CallAt s.functions s.code.toList 6 12) ∧
    ∃ (ts : List Token) (p : Program) (s : Emitter),
      tokenize "function main(){i=3;while(i)i=i-1;return i;}" = .ok ts ∧ parseProgram ts = .ok p ∧
      Emitter.generate p.toTree = .ok () s ∧ s.code.toList[6]? = some ⟨.beq0, 12⟩ ∧
      ∃ x ∈ p.spans, x.Covers 6 ∧ (x.first : Int) ≤ 12 ∧ 12 ≤ (x.stop : Int) := by
  constructor
  · obtain ⟨_, s, hs, hldpc⟩ := exists_of_run_satisfies (x := Emitter.gen
      (.node .toplevel none [.node .functionDecl Program.mainName [.node .ifStmt none
        [.node .functionDecl (some (.word "g"))
          [.node .returnStmt none [.leaf .number (some (.int 1))]],
         .node .call (some (.word "g")) []]]])) (s := {})
      (P := fun _ s => s.code.toList[6]? = some ⟨.ldpc, 7⟩) (by decide +kernel)
    obtain ⟨k, hk, hcall⟩ := (addresses_resolved hs).2.1 6 7 hldpc
    have hk' : k = 12 := by omega
    exact ⟨s, hs, hldpc, hk' ▸ hcall⟩
  · let i : Label := some (.word "i")
    let ts : List Token :=
      [⟨.functionWord, none⟩, ⟨.identifier, Program.mainName⟩, ⟨.lparen, none⟩, ⟨.rparen, none⟩,
       ⟨.lbrace, none⟩, ⟨.identifier, i⟩, ⟨.assign, none⟩, ⟨.number, some (.int 3)⟩, ⟨.semi, none⟩,
       ⟨.whileWord, none⟩, ⟨.lparen, none⟩, ⟨.identifier, i⟩, ⟨.rparen, none⟩, ⟨.identifier, i⟩,
       ⟨.assign, none⟩, ⟨.identifier, i⟩, ⟨.minus, none⟩, ⟨.number, some (.int 1)⟩, ⟨.semi, none⟩,
       ⟨.returnWord, none⟩, ⟨.identifier, i⟩, ⟨.semi, none⟩, ⟨.rbrace, none⟩, ⟨.eof, none⟩]
    let p : Program :=
      [.func Program.mainName []
        [.assign i (.num (some (.int 3))),
         .loop (.var i) (.assign i (.binary .sub (.var i) (.num (some (.int 1))))),
         .ret (.var i)]]
    have hscan : tokenize "function main(){i=3;while(i)i=i-1;return i;}" = .ok ts := by
      decide +kernel
    have hparse : parseProgram ts = .ok p := by cbv
    obtain ⟨_, s, hs, hbranch⟩ := exists_of_run_satisfies (x := Emitter.gen p.toTree) (s := {})
      (P := fun _ s => s.code.toList[6]? = some ⟨.beq0, 12⟩) (by decide +kernel)
    refine ⟨ts, p, s, hscan, hparse, hs, hbranch, ?_⟩
    rcases (addresses_resolved hs).2.2.2 ts p hparse rfl 6 _ hbranch (.inl rfl) with
      ⟨h, -⟩ | ⟨a, hcall⟩ | ⟨x, hx, f, params, body, -, -, hcovers, hlow, hhigh⟩
    · cases h
    · obtain ⟨f, info, -, hjump⟩ := hcall.jump
      rw [hbranch] at hjump
      cases hjump
    · exact ⟨x, hx, hcovers, hlow, hhigh⟩

end StackLang
