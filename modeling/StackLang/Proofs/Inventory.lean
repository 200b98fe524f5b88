import StackLang.Instruction.Census
import StackLang.Proofs.Registration
import Mathlib.Data.List.Permutation
import Mathlib.Tactic.Ring

namespace StackLang

namespace Tree

mutual

def nodes : Tree → List Tree
  | node k v cs => node k v cs :: nodesAll cs

def nodesAll : List Tree → List Tree
  | [] => []
  | t :: ts => nodes t ++ nodesAll ts

end

/-- The children of a node but for the target of an assignment. -/
def operands (t : Tree) : List Tree :=
  if t.kind = .assignment then t.children.tail else t.children

def count (T : Tree) (k : Kind) : Nat :=
  T.nodes.countP (·.kind = k)

/-- How many conditional statements have an alternative. -/
def alternatives (T : Tree) : Nat :=
  T.nodes.countP fun t => t.kind = .ifStmt ∧ t.children.length = 3

/-- How many identifiers stand in a tree, apart from the targets of assignments. -/
def reads (T : Tree) : Nat :=
  (T.nodes.flatMap operands).countP (·.kind = .identifier)

end Tree

namespace Census

/-- How often a mnemonic occurs, from the counts of those that do. -/
def frequency (counts : List (String × Nat)) (m : String) : Nat :=
  (counts.lookup m).getD 0

/-- The mnemonics that generated code is made of. -/
def emitted : List String :=
  Operator.all.map Operator.name ++
    ["ret", "storel", "loadl", "loada", "beq0", "jmp", "ldpc", "ldbp", "ldsp", "strbp", "strargc",
     "push"]

/-- The counts of the code of a tree whose scopes have so many local slots. -/
structure Mirrors (counts : List (String × Nat)) (T : Tree) (slots : Nat) : Prop where
  distinct : (counts.map Prod.fst).Nodup
  positive : ∀ c ∈ counts, 0 < c.2
  ret : frequency counts "ret" = T.count .returnStmt
  binary : ∀ op : Operator, frequency counts op.name = T.count (.binary op)
  storel : frequency counts "storel" = T.count .assignment
  load : frequency counts "loadl" + frequency counts "loada" = T.reads
  beq0 : frequency counts "beq0" = T.count .ifStmt + T.count .whileStmt
  jmp : frequency counts "jmp" = 1 + T.count .call + T.count .whileStmt + T.alternatives
  frame : ∀ m ∈ ["ldpc", "ldbp", "ldsp", "strbp"], frequency counts m = T.count .call
  strargc : frequency counts "strargc" = 2 * T.count .call
  push : frequency counts "push" = 1 + T.count .number + 3 * T.count .call + slots
  others : ∀ m, m ∉ emitted → frequency counts m = 0

section Frequencies

variable {counts : List (String × Nat)}

theorem frequency_cons (k : String) (n : Nat) (counts : List (String × Nat)) (m : String) :
    frequency ((k, n) :: counts) m = if m = k then n else frequency counts m := by
  by_cases h : m = k
  · simp [frequency, h]
  · have hbeq : (m == k) = false := by simp [h]
    simp [frequency, List.lookup_cons, hbeq, h]

theorem frequency_increment (counts : List (String × Nat)) (s m : String) :
    frequency (increment s counts) m = frequency counts m + if m = s then 1 else 0 := by
  induction counts with
  | nil =>
    rw [increment, frequency_cons]
    simp [frequency]
  | cons c counts ih =>
    obtain ⟨k, n⟩ := c
    rw [increment]
    split
    next hk =>
      rw [frequency_cons, frequency_cons]
      grind
    next hk =>
      rw [frequency_cons, frequency_cons, ih]
      grind

/-- The counted mnemonics stay different, and each has occurred. -/
theorem increment_wellFormed (s : String) (hd : (counts.map Prod.fst).Nodup)
    (hp : ∀ c ∈ counts, 0 < c.2) :
    ((increment s counts).map Prod.fst).Nodup ∧ (∀ c ∈ increment s counts, 0 < c.2) ∧
      ∀ k ∈ (increment s counts).map Prod.fst, k = s ∨ k ∈ counts.map Prod.fst := by
  induction counts with
  | nil => simp [increment]
  | cons c counts ih =>
    obtain ⟨k, n⟩ := c
    rw [List.map_cons, List.nodup_cons] at hd
    obtain ⟨hnodup, hpos, hkeys⟩ := ih hd.2 fun c hc => hp c (List.mem_cons_of_mem _ hc)
    rw [increment]
    split
    next hk =>
      refine ⟨List.nodup_cons.mpr hd, ?_, fun j hj => .inr hj⟩
      rintro c (_ | ⟨_, hc⟩)
      · exact Nat.succ_pos n
      · exact hp c (List.mem_cons_of_mem _ hc)
    next hk =>
      refine ⟨List.nodup_cons.mpr ⟨fun hmem => ?_, hnodup⟩, ?_, ?_⟩
      · rcases hkeys k hmem with h | h
        · exact hk h
        · exact hd.1 h
      · rintro c (_ | ⟨_, hc⟩)
        · exact hp _ List.mem_cons_self
        · exact hpos c hc
      · rintro j (_ | ⟨_, hj⟩)
        · exact .inr List.mem_cons_self
        · exact (hkeys j hj).imp_right (List.mem_cons_of_mem k)

theorem opcodes_concat (code : List Instruction) (i : Instruction) :
    opcodes (code ++ [i]) = increment i.opcode.mnemonic (opcodes code) := by
  simp [opcodes]

theorem opcodes_wellFormed (code : List Instruction) :
    ((opcodes code).map Prod.fst).Nodup ∧ ∀ c ∈ opcodes code, 0 < c.2 := by
  induction code using List.reverseRecOn with
  | nil => exact ⟨List.nodup_nil, fun c hc => by cases hc⟩
  | append_singleton code i ih =>
    rw [opcodes_concat]
    obtain ⟨hnodup, hpos, -⟩ := increment_wellFormed i.opcode.mnemonic ih.1 ih.2
    exact ⟨hnodup, hpos⟩

/-- The weight of code, if each opcode has one. -/
def weight (w : Opcode → Nat) (code : List Instruction) : Nat :=
  (code.map (w ·.opcode)).sum

/-- One for the opcodes with a certain mnemonic, zero for all others. -/
def indicator (m : String) (op : Opcode) : Nat :=
  if m = op.mnemonic then 1 else 0

@[simp] theorem weight_nil (w : Opcode → Nat) : weight w [] = 0 :=
  rfl

@[simp] theorem weight_cons (w : Opcode → Nat) (i : Instruction) (code : List Instruction) :
    weight w (i :: code) = w i.opcode + weight w code := by
  simp [weight]

@[simp] theorem weight_append (w : Opcode → Nat) (code code' : List Instruction) :
    weight w (code ++ code') = weight w code + weight w code' := by
  simp [weight]

theorem weight_add (w v : Opcode → Nat) (code : List Instruction) :
    weight (fun op => w op + v op) code = weight w code + weight v code := by
  induction code with
  | nil => rfl
  | cons i code ih =>
    simp only [weight_cons, ih]
    omega

theorem frequency_opcodes (code : List Instruction) (m : String) :
    frequency (opcodes code) m = weight (indicator m) code := by
  induction code using List.reverseRecOn with
  | nil => rfl
  | append_singleton code i ih =>
    rw [opcodes_concat, frequency_increment, ih, weight_append, weight_cons, weight_nil]
    rfl

theorem callSites_eq (code : List Instruction) :
    callSites code = weight (fun op => if op = .ldpc then 1 else 0) code := by
  induction code with
  | nil => rfl
  | cons i code ih =>
    rw [weight_cons, ← ih, callSites, List.countP_cons, callSites]
    simp [Nat.add_comm]

end Frequencies

end Census

open Census

namespace Tree

/-- The weight of the instruction that reads a tree, if it is a variable. -/
def fare (w : Opcode → Nat) (t : Tree) : Nat :=
  if t.kind = .identifier then w .loadl else 0

/-- The weight of the instructions that a node with so many children adds to theirs. -/
def own (w : Opcode → Nat) (k : Kind) (arity : Nat) : Nat :=
  match k with
  | .number => w .push
  | .call => 3 * w .push + w .ldpc + w .ldbp + w .ldsp + w .strbp + w .jmp + 2 * w .strargc
  | .binary op => w (.binary op)
  | .assignment => w .storel
  | .ifStmt => w .beq0 + if arity = 3 then w .jmp else 0
  | .whileStmt => w .beq0 + w .jmp
  | .returnStmt => w .ret
  | _ => 0

/-- A node pays for its own instructions and for the variables among its children. -/
def cost (w : Opcode → Nat) (t : Tree) : Nat :=
  own w t.kind t.children.length + (t.operands.map (fare w)).sum

def costs (w : Opcode → Nat) (ns : List Tree) : Nat :=
  (ns.map (cost w)).sum

@[simp] theorem costs_nil (w : Opcode → Nat) : costs w [] = 0 :=
  rfl

@[simp] theorem costs_cons (w : Opcode → Nat) (t : Tree) (ns : List Tree) :
    costs w (t :: ns) = cost w t + costs w ns := by
  simp [costs]

@[simp] theorem costs_append (w : Opcode → Nat) (ns ms : List Tree) :
    costs w (ns ++ ms) = costs w ns + costs w ms := by
  simp [costs]

theorem sum_fares (w : Opcode → Nat) (ts : List Tree) :
    (ts.map (fare w)).sum = w .loadl * ts.countP (·.kind = .identifier) := by
  induction ts with
  | nil => rfl
  | cons t ts ih =>
    rw [List.map_cons, List.sum_cons, ih, List.countP_cons, fare]
    by_cases h : t.kind = .identifier
    · simp only [h, if_true, decide_true]
      ring
    · simp [h]

theorem costs_node (w : Opcode → Nat) {k : Kind} (hk : k ≠ .assignment) (v : Label)
    (cs : List Tree) :
    costs w (node k v cs).nodes =
      own w k cs.length + (cs.map (fare w)).sum + costs w (nodesAll cs) := by
  rw [nodes, costs_cons, cost, operands, kind, if_neg hk, children]

theorem costs_assignment (w : Opcode → Nat) (v : Label) (t u : Tree) :
    costs w (node .assignment v [t, u]).nodes =
      w .storel + fare w u + costs w t.nodes + costs w u.nodes := by
  simp only [nodes, nodesAll, costs_cons, costs_append, costs_nil, cost, operands, kind, children,
    own, if_true, List.tail_cons, List.map_cons, List.map_nil, List.sum_cons, List.sum_nil]
  omega

theorem costs_leaf (w : Opcode → Nat) {k : Kind} (hk : k ≠ .assignment) (v : Label) :
    costs w (leaf k v).nodes = own w k 0 := by
  rw [leaf, costs_node w hk]
  rfl

theorem costs_pair (w : Opcode → Nat) {k : Kind} (hk : k ≠ .assignment) (v : Label) (t u : Tree) :
    costs w (node k v [t, u]).nodes =
      own w k 2 + fare w t + fare w u + costs w t.nodes + costs w u.nodes := by
  rw [costs_node w hk, show [t, u].length = 2 from rfl]
  simp only [nodesAll, costs_append, costs_nil, List.map_cons, List.map_nil, List.sum_cons,
    List.sum_nil]
  omega

theorem costs_eq (w : Opcode → Nat) (ns : List Tree) :
    costs w ns =
      w .push * (ns.countP (·.kind = .number) + 3 * ns.countP (·.kind = .call)) +
      (w .ldpc + w .ldbp + w .ldsp + w .strbp + 2 * w .strargc) * ns.countP (·.kind = .call) +
      w .jmp * (ns.countP (·.kind = .call) + ns.countP (·.kind = .whileStmt) +
        ns.countP fun t => t.kind = .ifStmt ∧ t.children.length = 3) +
      w .beq0 * (ns.countP (·.kind = .ifStmt) + ns.countP (·.kind = .whileStmt)) +
      w .storel * ns.countP (·.kind = .assignment) +
      w .ret * ns.countP (·.kind = .returnStmt) +
      (Operator.all.map fun op => w (.binary op) * ns.countP (·.kind = .binary op)).sum +
      w .loadl * (ns.flatMap operands).countP (·.kind = .identifier) := by
  induction ns with
  | nil => simp [Operator.all]
  | cons t ns ih =>
    rw [costs_cons, ih, cost, sum_fares]
    simp only [List.countP_cons, List.flatMap_cons, List.countP_append, Operator.all, List.map_cons,
      List.map_nil, List.sum_cons, List.sum_nil]
    cases t.kind with
    -- only here it matters how many children there are
    | ifStmt =>
      by_cases h : t.children.length = 3
      · simp only [own, h]
        simp
        ring
      · simp only [own, h]
        simp
        ring
    | binary op => cases op <;> (simp [own]; ring)
    | _ =>
      simp [own]
      ring

end Tree

section Weights

variable {w : Opcode → Nat}

namespace Expr

mutual

/-- The code of an expression weighs what its nodes cost. A variable is paid for by what it stands
in. -/
theorem weight_code (hw : w .loada = w .loadl) (Γ : Context) : (e : Expr) →
    weight w (e.code Γ) = Tree.costs w e.toTree.nodes + Tree.fare w e.toTree
  | num v => by
    rw [toTree, Tree.costs_leaf w (by simp), code.eq_def]
    rfl
  | var x => by
    have hload : w (Γ.load x).opcode = w .loadl := by
      unfold Context.load
      split
      next => rfl
      next => exact hw
    rw [code, toTree, Tree.costs_leaf w (by simp), weight_cons, hload]
    exact Nat.add_comm _ _
  | call f args => by
    have hargs := weight_codeAll hw Γ args
    have hfare : Tree.fare w (.node .call f (toTrees args)) = 0 := rfl
    rw [code, toTree, Tree.costs_node w (by simp), hfare, Tree.own]
    simp only [weight_append, weight_cons, weight_nil]
    omega
  | binary op l r => by
    have hl := weight_code hw Γ l
    have hr := weight_code hw Γ r
    have hfare : Tree.fare w (.node (.binary op) none [l.toTree, r.toTree]) = 0 := rfl
    rw [code, toTree, Tree.costs_pair w (by simp), hfare, Tree.own]
    simp only [weight_append, weight_cons, weight_nil]
    omega

theorem weight_codeAll (hw : w .loada = w .loadl) (Γ : Context) : (es : List Expr) →
    weight w (codeAll Γ es) =
      Tree.costs w (Tree.nodesAll (toTrees es)) + ((toTrees es).map (Tree.fare w)).sum
  | [] => rfl
  | e :: es => by
    have he := weight_code hw Γ e
    have hes := weight_codeAll hw Γ es
    simp only [codeAll, toTrees, Tree.nodesAll, weight_append, Tree.costs_append, List.map_cons,
      List.sum_cons]
    omega

end

end Expr

namespace Stmt

theorem fare_eq_zero (S : Stmt) : Tree.fare w S.toTree = 0 := by
  cases S with
  | _ => rfl

theorem sum_fares_eq_zero (ss : List Stmt) : ((toTrees ss).map (Tree.fare w)).sum = 0 := by
  induction ss with
  | nil => rfl
  | cons S ss ih => rw [toTrees, List.map_cons, List.sum_cons, fare_eq_zero, ih]

theorem weight_room (σ : Scope) (x : Label) :
    weight w (if σ.locals.contains x then [] else [⟨.push, Emitter.placeholder⟩]) +
        w .push * σ.locals.size = w .push * (σ.allot x).locals.size := by
  by_cases h : σ.locals.contains x = true
  · simp [Scope.allot, h]
  · have hnone : σ.locals.get? x = none := by simpa [Table.contains] using h
    rw [if_neg h, Scope.allot_of_none hnone, Table.size_insert hnone, weight_cons, weight_nil]
    ring

mutual

theorem weight_code (hw : w .loada = w .loadl) : (S : Stmt) → S.Plain → (Γ : Context) → (a : Nat) →
    weight w (S.code Γ a) + w .push * Γ.scope.locals.size =
      Tree.costs w S.toTree.nodes + w .push * (S.context Γ).scope.locals.size
  | assign x e, _, Γ, a => by
    have hroom := weight_room (w := w) Γ.scope x
    have he := e.weight_code hw (Γ.allot x)
    -- The target is a leaf like a variable that is read, but nothing is paid for it.
    have htarget := Tree.costs_leaf w (k := .identifier) (by simp) x
    rw [toTree, Tree.costs_assignment]
    simp only [code, context, weight_append, weight_cons, weight_nil, Tree.own] at htarget ⊢
    have hscope : (Γ.allot x).scope = Γ.scope.allot x := rfl
    have hstore : w ((Γ.allot x).store x).opcode = w .storel := rfl
    rw [hscope]
    omega
  | noop, _, Γ, a => by
    rw [toTree, Tree.costs_leaf w (by simp)]
    rfl
  | ifThen c t, hplain, Γ, a => by
    have hc := c.weight_code hw Γ
    have ht := weight_code hw t hplain Γ (a + (c.code Γ).length + 1)
    rw [toTree, Tree.costs_pair w (by simp), fare_eq_zero, Tree.own, if_neg (by omega), context,
      code]
    simp only [weight_append, weight_cons, weight_nil]
    omega
  | ifElse c t e, hplain, Γ, a => by
    have hc := c.weight_code hw Γ
    have ht := weight_code hw t hplain.1 Γ (a + (c.code Γ).length + 1)
    have he := weight_code hw e hplain.2 (t.context Γ)
      (a + (c.code Γ).length + 1 + (t.code Γ (a + (c.code Γ).length + 1)).length + 1)
    rw [toTree, Tree.costs_node w (by simp), context, code]
    simp only [Tree.own, Tree.nodesAll, Tree.costs_append, Tree.costs_nil, List.map_cons,
      List.map_nil, List.sum_cons, List.sum_nil, fare_eq_zero, weight_append, weight_cons,
      weight_nil, List.length_cons, List.length_nil, if_true]
    omega
  | loop c b, hplain, Γ, a => by
    have hc := c.weight_code hw Γ
    have hb := weight_code hw b hplain Γ (a + (c.code Γ).length + 1)
    rw [toTree, Tree.costs_pair w (by simp), fare_eq_zero, Tree.own, context, code]
    simp only [weight_append, weight_cons, weight_nil]
    omega
  | func _ _ _, hplain, _, _ => hplain.elim
  | ret e, _, Γ, a => by
    have he := e.weight_code hw Γ
    rw [toTree, Tree.costs_node w (by simp), Tree.own, context, code]
    simp only [Tree.nodesAll, Tree.costs_append, Tree.costs_nil, List.map_cons, List.map_nil,
      List.sum_cons, List.sum_nil, weight_append, weight_cons, weight_nil]
    omega
  | block ss, hplain, Γ, a => by
    have hss := weight_codeAll hw ss hplain Γ a
    have hown : Tree.own w .block (toTrees ss).length = 0 := rfl
    rw [toTree, Tree.costs_node w (by simp), sum_fares_eq_zero, hown, context, code]
    omega

theorem weight_codeAll (hw : w .loada = w .loadl) : (ss : List Stmt) → PlainAll ss →
    (Γ : Context) → (a : Nat) →
    weight w (codeAll Γ a ss) + w .push * Γ.scope.locals.size =
      Tree.costs w (Tree.nodesAll (toTrees ss)) + w .push * (contextAll Γ ss).scope.locals.size
  | [], _, Γ, a => by simp [codeAll, contextAll, toTrees, Tree.nodesAll]
  | S :: ss, hplain, Γ, a => by
    have hS := weight_code hw S hplain.1 Γ a
    have hss := weight_codeAll hw ss hplain.2 (S.context Γ) (a + (S.code Γ a).length)
    simp only [codeAll, contextAll, toTrees, Tree.nodesAll, weight_append, Tree.costs_append]
    omega

end

/-- How many local slots the scope of a declared function has. -/
def ownSlots : Stmt → Nat
  | func _ _ body => (assignedAll [] body).length
  | _ => 0

theorem costs_func (f : Label) (params : List Label) (body : List Stmt) :
    Tree.costs w (func f params body).toTree.nodes =
      Tree.costs w (Tree.nodesAll (toTrees body)) := by
  have hparams : Tree.costs w (Tree.nodesAll (params.map (.leaf .parameter))) = 0 ∧
      ((params.map (Tree.leaf .parameter)).map (Tree.fare w)).sum = 0 := by
    induction params with
    | nil => exact ⟨rfl, rfl⟩
    | cons x params ih =>
      rw [List.map_cons, Tree.nodesAll, Tree.costs_append, Tree.costs_leaf w (by simp), ih.1,
        List.map_cons, List.sum_cons, ih.2]
      exact ⟨rfl, rfl⟩
  have hbody : Tree.fare w (.node .block none (toTrees body)) = 0 := rfl
  rw [toTree, Tree.costs_node w (by simp), List.map_cons, List.sum_cons, hparams.2, Tree.nodesAll,
    Tree.costs_append, hparams.1, Tree.costs_node w (by simp), sum_fares_eq_zero, hbody]
  simp [Tree.own]

theorem weight_elementCode (hw : w .loada = w .loadl) {S : Stmt} (hS : S.Element)
    (hn : Program.Named [S]) (Γ : Context) (a : Nat) :
    weight w (S.elementCode Γ a) + w .push * Γ.scope.locals.size =
      Tree.costs w S.toTree.nodes + w .push * (S.elementContext Γ a).scope.locals.size +
        w .push * S.ownSlots := by
  cases S with
  | assign x e => exact weight_code hw (assign x e) trivial Γ a
  | noop => exact weight_code hw noop trivial Γ a
  | func f params body =>
    have hbody := weight_codeAll hw body hS (inside Γ a f params) a
    have hlocals : (contextAll (inside Γ a f params) body).scope.locals.Numbers
        (assignedAll [] body) := numbers_contextAll body Table.numbers_nil
    have hempty : (inside Γ a f params).scope.locals.size = 0 := rfl
    rw [hlocals.size, hempty, Nat.mul_zero, Nat.add_zero] at hbody
    rw [costs_func, elementContext, if_neg (hn f params body List.mem_cons_self), elementCode,
      ownSlots]
    dsimp only
    omega
  | _ => exact hS.elim

end Stmt

namespace Program

theorem weight_elementsCode (hw : w .loada = w .loadl) {ss : List Stmt} (hss : ∀ S ∈ ss, S.Element)
    (hn : Named ss) (Γ : Context) (a : Nat) :
    weight w (elementsCode Γ a ss) + w .push * Γ.scope.locals.size =
      Tree.costs w (Tree.nodesAll (Stmt.toTrees ss)) +
        w .push * ((elementsContext Γ a ss).scope.locals.size + (ss.map Stmt.ownSlots).sum) := by
  induction ss generalizing Γ a with
  | nil => simp [elementsCode, elementsContext, Stmt.toTrees, Tree.nodesAll]
  | cons S ss ih =>
    have hnS : Named [S] := fun f params body hmem =>
      hn f params body (List.mem_of_mem_head? (List.mem_singleton.mp hmem ▸ rfl))
    have hS := Stmt.weight_elementCode hw (hss S List.mem_cons_self) hnS Γ a
    have hrest := ih (fun T hT => hss T (List.mem_cons_of_mem S hT))
      (fun f params body hmem => hn f params body (List.mem_cons_of_mem S hmem))
      (S.elementContext Γ a) (a + (S.elementCode Γ a).length)
    rw [elementsCode, elementsContext, Stmt.toTrees, Tree.nodesAll, weight_append,
      Tree.costs_append, List.map_cons, List.sum_cons]
    simp only [Nat.mul_add] at hrest ⊢
    omega

/-- The code of a program weighs what the nodes of its tree cost, the bootstrap, and a `push` for
each local slot. -/
theorem weight_code (hw : w .loada = w .loadl) {p : Program} (hp : ∀ S ∈ p, S.Element)
    (hn : Named p) :
    weight w p.code = w .push + w .jmp + Tree.costs w p.toTree.nodes +
      w .push * ((Stmt.assignedAll [] p).length + (p.map Stmt.ownSlots).sum) := by
  have helements := weight_elementsCode hw hp hn start 2
  have hlocals : (elementsContext start 2 p).scope.locals.Numbers (Stmt.assignedAll [] p) :=
    (contextAfter_toplevel hn).1.locals
  have hempty : start.scope.locals.size = 0 := rfl
  rw [hlocals.size, hempty, Nat.mul_zero, Nat.add_zero] at helements
  have hown : Tree.own w .toplevel (Stmt.toTrees p).length = 0 := rfl
  rw [code, weight_cons, weight_cons, helements, toTree, Tree.costs_node w (by simp),
    Stmt.sum_fares_eq_zero, hown]
  dsimp only
  omega

end Program

end Weights

/-- How many local slots there are in all functions and at the top level. -/
def Emitter.slots (s : Emitter) : Nat :=
  (s.scope Scope.toplevel).locals.size +
    (s.functions.entries.map fun entry => (s.scope entry.1).locals.size).sum

theorem Emitter.Registers.slots_eq {s : Emitter} {p : List Stmt} (h : s.Registers p) :
    s.slots = (Stmt.assignedAll [] p).length + (p.map Stmt.ownSlots).sum := by
  have hfunctions : ∀ ss : List Stmt, (∀ S ∈ ss, S ∈ p) →
      ((Program.functionNames ss).map fun f => (s.scope f).locals.size).sum =
        (ss.map Stmt.ownSlots).sum := by
    intro ss hss
    induction ss with
    | nil => rfl
    | cons S ss ih =>
      have hrest := ih fun T hT => hss T (List.mem_cons_of_mem S hT)
      rw [← List.singleton_append, Program.functionNames_append, List.map_append, List.sum_append,
        hrest, List.map_append, List.sum_append]
      cases S with
      | func f params body =>
        have hscope := h.scope f params body (hss _ List.mem_cons_self)
        simp [Program.functionNames, Stmt.ownSlots, hscope.locals.size]
      | _ => rfl
  have hnames : s.functions.entries.map (fun entry => (s.scope entry.1).locals.size) =
      (Program.functionNames p).map fun f => (s.scope f).locals.size := by
    rw [h.functions, ← Program.map_fst_declarations, List.map_map]
    rfl
  rw [slots, hnames, hfunctions p fun S hS => hS, h.toplevel.locals.size]

/-- The weight of generated code, sorted by opcodes. -/
theorem weight_generated {w : Opcode → Nat} (hw : w .loada = w .loadl) {p : Program}
    (hp : ∀ S ∈ p, S.Element) (hn : Program.Named p) {s : Emitter}
    (h : Emitter.generate p.toTree = .ok () s) :
    weight w s.code.toList =
      w .push * (1 + p.toTree.count .number + 3 * p.toTree.count .call + s.slots) +
      (w .ldpc + w .ldbp + w .ldsp + w .strbp + 2 * w .strargc) * p.toTree.count .call +
      w .jmp * (1 + p.toTree.count .call + p.toTree.count .whileStmt + p.toTree.alternatives) +
      w .beq0 * (p.toTree.count .ifStmt + p.toTree.count .whileStmt) +
      w .storel * p.toTree.count .assignment + w .ret * p.toTree.count .returnStmt +
      (Operator.all.map fun op => w (.binary op) * p.toTree.count (.binary op)).sum +
      w .loadl * p.toTree.reads := by
  have hcode := (generate_ok hp h).1
  have hslots := (Emitter.registers_of_generate hp hn h).slots_eq
  rw [hcode, Program.weight_code hw hp hn, Tree.costs_eq, hslots]
  simp only [Tree.count, Tree.alternatives, Tree.reads]
  ring

/-- Each opcode occurs in the code of a program as often as its tree demands it: the operators, the
reads, the stores and the returns once for their nodes, the jumps and the frame once for each call,
and a `push` for each number, three times for each call, and for each local slot. -/
theorem opcode_counts_mirror {ts : List Token} {p : Program} {s : Emitter}
    (hts : ∀ t ∈ ts, t.kind = .identifier → t.value ≠ Scope.toplevel)
    (hparse : parseProgram ts = .ok p) (h : Emitter.generate p.toTree = .ok () s) :
    Mirrors (opcodes s.code.toList) p.toTree s.slots ∧
      callSites s.code.toList = p.toTree.count .call := by
  have hp := parseProgram_element hparse
  have hn := Program.named_of_tokens hts hparse
  have hfrequency : ∀ m, m ≠ "loadl" → m ≠ "loada" → frequency (opcodes s.code.toList) m = _ :=
    fun m hl ha => (frequency_opcodes s.code.toList m).trans
      (weight_generated (by simp [indicator, Opcode.mnemonic, hl, ha]) hp hn h)
  obtain ⟨hdistinct, hpositive⟩ := opcodes_wellFormed s.code.toList
  constructor
  · refine ⟨hdistinct, hpositive, ?ret, ?binary, ?storel, ?load, ?beq0, ?jmp, ?frame, ?strargc,
      ?push, ?others⟩
    case binary =>
      intro op
      cases op <;> simp [hfrequency, indicator, Opcode.mnemonic, Operator.all, Operator.name]
    case load =>
      rw [frequency_opcodes, frequency_opcodes, ← weight_add,
        weight_generated (by simp [indicator, Opcode.mnemonic]) hp hn h]
      simp [indicator, Opcode.mnemonic, Operator.all, Operator.name]
    case frame =>
      intro m hm
      simp only [List.mem_cons, List.not_mem_nil, or_false] at hm
      rcases hm with rfl | rfl | rfl | rfl <;>
        simp [hfrequency, indicator, Opcode.mnemonic, Operator.all, Operator.name]
    case others =>
      intro m hm
      simp only [emitted, Operator.all, Operator.name, List.map_cons, List.map_nil,
        List.cons_append, List.nil_append, List.mem_cons, List.not_mem_nil, or_false,
        not_or] at hm
      simp [hfrequency, indicator, Opcode.mnemonic, Operator.all, Operator.name, hm]
    all_goals simp [hfrequency, indicator, Opcode.mnemonic, Operator.all, Operator.name]
  · rw [callSites_eq, weight_generated rfl hp hn h]
    simp [Operator.all]

/-- A parameter is assigned, a call stands in an operation, and a loop has a branch in it. -/
theorem opcode_counts_mirror_loop :
    let source := "x=1;function f(a){while(a)if(a>2)a=a-1;else b=a;return a;}" ++
      "function main(){return f(3)+2;}"
    ∃ (ts : List Token) (p : Program) (s : Emitter),
      tokenize source = .ok ts ∧ parseProgram ts = .ok p ∧ Emitter.generate p.toTree = .ok () s ∧
      s.slots = 3 ∧ p.toTree.count .call = 1 ∧ p.toTree.reads = 5 ∧
      Mirrors (opcodes s.code.toList) p.toTree s.slots ∧
      callSites s.code.toList = p.toTree.count .call := by
  intro source
  let f : Label := some (.word "f")
  let a : Label := some (.word "a")
  let b : Label := some (.word "b")
  let x : Label := some (.word "x")
  let name (x : Label) : Token := ⟨.identifier, x⟩
  let number (k : Int) : Token := ⟨.number, some (.int k)⟩
  let ts : List Token :=
    [name x, ⟨.assign, none⟩, number 1, ⟨.semi, none⟩,
     ⟨.functionWord, none⟩, name f, ⟨.lparen, none⟩, name a, ⟨.rparen, none⟩, ⟨.lbrace, none⟩,
     ⟨.whileWord, none⟩, ⟨.lparen, none⟩, name a, ⟨.rparen, none⟩,
     ⟨.ifWord, none⟩, ⟨.lparen, none⟩, name a, ⟨.greater, none⟩, number 2, ⟨.rparen, none⟩,
     name a, ⟨.assign, none⟩, name a, ⟨.minus, none⟩, number 1, ⟨.semi, none⟩,
     ⟨.elseWord, none⟩, name b, ⟨.assign, none⟩, name a, ⟨.semi, none⟩,
     ⟨.returnWord, none⟩, name a, ⟨.semi, none⟩, ⟨.rbrace, none⟩,
     ⟨.functionWord, none⟩, name Program.mainName, ⟨.lparen, none⟩, ⟨.rparen, none⟩,
     ⟨.lbrace, none⟩, ⟨.returnWord, none⟩, name f, ⟨.lparen, none⟩, number 3, ⟨.rparen, none⟩,
     ⟨.plus, none⟩, number 2, ⟨.semi, none⟩, ⟨.rbrace, none⟩, ⟨.eof, none⟩]
  let one : Expr := .num (some (.int 1))
  let two : Expr := .num (some (.int 2))
  let p : Program :=
    [.assign x one,
     .func f [a]
      [.loop (.var a) (.ifElse (.binary .gt (.var a) two)
        (.assign a (.binary .sub (.var a) one)) (.assign b (.var a))), .ret (.var a)],
     .func Program.mainName [] [.ret (.binary .add (.call f [.num (some (.int 3))]) two)]]
  have hscan : tokenize source = .ok ts := by decide +kernel
  have hparse : parseProgram ts = .ok p := by cbv
  obtain ⟨_, s, hs, hslots⟩ := exists_of_run_satisfies (x := Emitter.gen p.toTree) (s := {})
    (P := fun _ s => s.slots = 3) (by decide +kernel)
  exact ⟨ts, p, s, hscan, hparse, hs, hslots, by decide +kernel, by decide +kernel,
    opcode_counts_mirror (by decide +kernel) hparse hs⟩

end StackLang
