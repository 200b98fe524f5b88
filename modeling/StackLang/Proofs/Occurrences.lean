import StackLang.Proofs.Elements
import Mathlib.Data.List.Nodup
import Mathlib.Data.List.Perm.Basic

namespace StackLang

/-- A name where it stands in the text, assigned or read, and where the instruction for it is. -/
structure Occurrence where
  name : Label
  assigns : Bool
  address : Nat

namespace Occurrence

/-- The names that are assigned, in the order of the text. -/
def targets (os : List Occurrence) : List Label :=
  (os.filter (·.assigns)).map (·.name)

/-- The names assigned up to an occurrence, if `names` are those assigned before it. -/
def note (names : List Label) (o : Occurrence) : List Label :=
  if o.assigns then noteName names o.name else names

theorem targets_append (os us : List Occurrence) :
    targets (os ++ us) = targets os ++ targets us := by
  simp [targets]

theorem foldl_note (names : List Label) (os : List Occurrence) :
    os.foldl note names = (targets os).foldl noteName names := by
  induction os generalizing names with
  | nil => rfl
  | cons o os ih =>
    rw [List.foldl_cons, ih, note, targets, targets]
    cases ho : o.assigns with
    | true => simp [ho]
    | false => simp [ho]

/-- The instruction for an occurrence, if `names` are assigned at or before it. What is not among
them is a parameter. -/
inductive Means (σ : Scope) (names : List Label) : Occurrence → Instruction → Prop where
  | store {x : Label} {a slot : Nat} : σ.locals.get? x = some slot →
      Means σ names ⟨x, true, a⟩ ⟨.storel, slot⟩
  | load {x : Label} {a slot : Nat} : x ∈ names → σ.locals.get? x = some slot →
      Means σ names ⟨x, false, a⟩ ⟨.loadl, slot⟩
  | argument {x : Label} {a slot : Nat} : x ∉ names → σ.params.get? x = some slot →
      Means σ names ⟨x, false, a⟩ ⟨.loada, slot⟩

theorem Means.congr {σ : Scope} {names names' : List Label} {o : Occurrence} {i : Instruction}
    (h : o.Means σ names i) (hx : o.name ∈ names ↔ o.name ∈ names') : o.Means σ names' i := by
  cases h with
  | store hs => exact .store hs
  | load hn hs => exact .load (hx.mp hn) hs
  | argument hn hs => exact .argument (fun h => hn (hx.mpr h)) hs

/-- The instructions for the occurrences of a text, with their addresses. -/
inductive Compiled (σ : Scope) : List Label → List Occurrence → List (Instruction × Nat) → Prop
    where
  | nil {names : List Label} : Compiled σ names [] []
  | cons {names : List Label} {o : Occurrence} {os : List Occurrence} {i : Instruction}
      {is : List (Instruction × Nat)} : o.Means σ (o.note names) i →
      Compiled σ (o.note names) os is → Compiled σ names (o :: os) ((i, o.address) :: is)

namespace Compiled

variable {σ : Scope} {names : List Label} {os us : List Occurrence}
  {is js : List (Instruction × Nat)}

theorem append (h : Compiled σ names os is) (h' : Compiled σ (os.foldl note names) us js) :
    Compiled σ names (os ++ us) (is ++ js) := by
  induction h with
  | nil => exact h'
  | cons hi _ ih => exact .cons hi (ih h')

theorem addresses (h : Compiled σ names os is) : is.map (·.2) = os.map (·.address) := by
  induction h with
  | nil => rfl
  | cons _ _ ih => rw [List.map_cons, List.map_cons, ih]

/-- What is assigned up to an occurrence is what stands before it in the text, and itself. -/
theorem at_index (h : Compiled σ names os is) {k : Nat} {o : Occurrence} (ho : os[k]? = some o) :
    ∃ i, is[k]? = some (i, o.address) ∧ o.Means σ ((os.take (k + 1)).foldl note names) i := by
  induction h generalizing k with
  | nil => cases ho
  | @cons names o' os i is hi _ ih =>
    cases k with
    | zero =>
      cases ho
      exact ⟨i, rfl, hi⟩
    | succ k =>
      obtain ⟨j, hj, hm⟩ := ih ho
      exact ⟨j, hj, hm⟩

end Compiled

end Occurrence

def Instruction.isAccess (i : Instruction) : Bool :=
  match i.opcode with
  | .loadl | .storel | .loada => true
  | _ => false

/-- The instructions for variables in code that stands at `a`, with their addresses. -/
def accesses (a : Nat) (code : List Instruction) : List (Instruction × Nat) :=
  (code.zipIdx a).filter (·.1.isAccess)

theorem accesses_append (a : Nat) (code code' : List Instruction) :
    accesses a (code ++ code') = accesses a code ++ accesses (a + code.length) code' := by
  simp [accesses, List.zipIdx_append]

theorem mem_accesses {a pc : Nat} {code : List Instruction} {i : Instruction} :
    (i, pc) ∈ accesses a code ↔ (a ≤ pc ∧ code[pc - a]? = some i) ∧ i.isAccess = true := by
  rw [accesses, List.mem_filter, List.mem_zipIdx_iff_le_and_getElem?_sub]

theorem nodup_accesses (a : Nat) (code : List Instruction) :
    ((accesses a code).map (·.2)).Nodup := by
  have hsub : ((accesses a code).map (·.2)).Sublist ((code.zipIdx a).map (·.2)) :=
    List.filter_sublist.map _
  rw [List.zipIdx_map_snd] at hsub
  exact hsub.nodup List.nodup_range'

theorem accesses_eq_nil {code : List Instruction} (h : code.filter (·.isAccess) = []) (a : Nat) :
    accesses a code = [] := by
  apply List.eq_nil_iff_forall_not_mem.mpr
  rintro ⟨i, pc⟩ hmem
  obtain ⟨⟨-, hget⟩, hi⟩ := mem_accesses.mp hmem
  exact List.filter_eq_nil_iff.mp h i (List.mem_of_getElem? hget) hi

/-- Code at `a` accesses variables as the occurrences `os` of a text say that stands behind
assignments to `names`. -/
def Renders (σ : Scope) (names : List Label) (os : List Occurrence) (a : Nat)
    (code : List Instruction) : Prop :=
  ∃ is, Occurrence.Compiled σ names os is ∧ (accesses a code).Perm is

namespace Renders

variable {σ : Scope} {names : List Label} {os us : List Occurrence} {a : Nat}
  {code code' : List Instruction}

theorem plain (hc : code.filter (·.isAccess) = []) : Renders σ names [] a code :=
  ⟨[], .nil, by rw [accesses_eq_nil hc]⟩

theorem append {names' : List Label} {b : Nat} (h : Renders σ names os a code)
    (hnames : os.foldl Occurrence.note names = names') (hb : a + code.length = b)
    (h' : Renders σ names' us b code') : Renders σ names (os ++ us) a (code ++ code') := by
  subst hnames hb
  obtain ⟨is, his, hc⟩ := h
  obtain ⟨js, hjs, hc'⟩ := h'
  refine ⟨is ++ js, his.append hjs, ?_⟩
  rw [accesses_append]
  exact hc.append hc'

theorem append_plain (h : Renders σ names os a code) (hc' : code'.filter (·.isAccess) = []) :
    Renders σ names os a (code ++ code') := by
  have happend := h.append rfl rfl (plain hc')
  rwa [List.append_nil] at happend

theorem plain_append {b : Nat} (hc : code.filter (·.isAccess) = []) (hb : a + code.length = b)
    (h : Renders σ names os b code') : Renders σ names os a (code ++ code') :=
  (plain hc).append rfl hb h

/-- The code of what comes first in the text may stand second, if nothing is assigned in it. -/
theorem append_swapped {b : Nat} (h : Renders σ names us a code) (hb : a + code.length = b)
    (h' : Renders σ names os b code') (hos : os.foldl Occurrence.note names = names) :
    Renders σ names (os ++ us) a (code ++ code') := by
  subst hb
  obtain ⟨js, hjs, hc⟩ := h
  obtain ⟨is, his, hc'⟩ := h'
  refine ⟨is ++ js, his.append (hos.symm ▸ hjs), ?_⟩
  rw [accesses_append]
  exact List.perm_append_comm.trans (hc'.append hc)

theorem load {x : Label} {i : Instruction} (h : Occurrence.Means σ names ⟨x, false, a⟩ i) :
    Renders σ names [⟨x, false, a⟩] a [i] := by
  refine ⟨[(i, a)], .cons h .nil, ?_⟩
  cases h with
  | load => exact .refl _
  | argument => exact .refl _

/-- The value of an assignment is in front of the instruction for its target. -/
theorem store {x : Label} {slot : Nat} (h : Renders σ (noteName names x) os a code)
    (hslot : σ.locals.get? x = some slot) :
    Renders σ names (⟨x, true, a + code.length⟩ :: os) a (code ++ [⟨.storel, slot⟩]) := by
  obtain ⟨is, his, hc⟩ := h
  refine ⟨(⟨.storel, slot⟩, a + code.length) :: is, .cons (.store hslot) his, ?_⟩
  rw [accesses_append]
  exact (List.perm_append_singleton _ _).trans (hc.cons _)

theorem nodup_addresses (h : Renders σ names os a code) : (os.map (·.address)).Nodup := by
  obtain ⟨is, his, hc⟩ := h
  rw [← his.addresses]
  exact (hc.map _).nodup_iff.mp (nodup_accesses a code)

theorem at_index (h : Renders σ names os a code) {k : Nat} {o : Occurrence} (ho : os[k]? = some o) :
    ∃ i, a ≤ o.address ∧ code[o.address - a]? = some i ∧
      o.Means σ ((os.take (k + 1)).foldl Occurrence.note names) i := by
  obtain ⟨is, his, hc⟩ := h
  obtain ⟨i, hi, hm⟩ := his.at_index ho
  obtain ⟨⟨hle, hget⟩, -⟩ := mem_accesses.mp (hc.mem_iff.mpr (List.mem_of_getElem? hi))
  exact ⟨i, hle, hget, hm⟩

theorem exists_occurrence (h : Renders σ names os a code) {k : Nat} {i : Instruction}
    (hi : code[k]? = some i) (haccess : i.isAccess = true) : ∃ o ∈ os, o.address = a + k := by
  obtain ⟨is, his, hc⟩ := h
  have hmem : (i, a + k) ∈ accesses a code :=
    mem_accesses.mpr ⟨⟨Nat.le_add_right a k, by rwa [Nat.add_sub_cancel_left]⟩, haccess⟩
  have haddress := List.mem_map_of_mem (f := (·.2)) (hc.mem_iff.mp hmem)
  rw [his.addresses] at haddress
  exact List.mem_map.mp haddress

end Renders

namespace Expr

mutual

/-- The names in an expression whose code starts at `a`, in the order of the text. The code of a
right operand stands in front of that of the left one. -/
def occurrences (a : Nat) : Expr → List Occurrence
  | num _ => []
  | var x => [⟨x, false, a⟩]
  | call _ args => occurrencesAll (a + 2) args
  | binary _ l r => occurrences (a + r.size) l ++ occurrences a r

def occurrencesAll (a : Nat) : List Expr → List Occurrence
  | [] => []
  | e :: es => occurrences a e ++ occurrencesAll (a + e.size) es

end

mutual

theorem targets_occurrences : (e : Expr) → (a : Nat) → Occurrence.targets (e.occurrences a) = []
  | num _, _ => rfl
  | var _, _ => rfl
  | call _ args, a => targets_occurrencesAll args (a + 2)
  | binary _ l r, a => by
    rw [occurrences, Occurrence.targets_append, targets_occurrences l, targets_occurrences r]
    rfl

theorem targets_occurrencesAll : (es : List Expr) → (a : Nat) →
    Occurrence.targets (occurrencesAll a es) = []
  | [], _ => rfl
  | e :: es, a => by
    rw [occurrencesAll, Occurrence.targets_append, targets_occurrences e,
      targets_occurrencesAll es]
    rfl

end

theorem foldl_occurrences (e : Expr) (a : Nat) (names : List Label) :
    (e.occurrences a).foldl Occurrence.note names = names := by
  rw [Occurrence.foldl_note, targets_occurrences]
  rfl

end Expr

namespace Stmt

mutual

/-- The targets of the assignments in a statement, in the order of the text. What is assigned in a
function does not belong to the text around it. -/
def targets : Stmt → List Label
  | assign x _ => [x]
  | noop => []
  | ifThen _ t => targets t
  | ifElse _ t e => targets t ++ targets e
  | loop _ b => targets b
  | func _ _ _ => []
  | ret _ => []
  | block ss => targetsAll ss

def targetsAll : List Stmt → List Label
  | [] => []
  | s :: ss => targets s ++ targetsAll ss

end

mutual

theorem assigned_eq : (S : Stmt) → (names : List Label) →
    S.assigned names = S.targets.foldl noteName names
  | assign _ _, _ => rfl
  | noop, _ => rfl
  | ifThen _ t, names => assigned_eq t names
  | ifElse _ t e, names => by
    rw [assigned, targets, List.foldl_append, assigned_eq t, assigned_eq e]
  | loop _ b, names => assigned_eq b names
  | func _ _ _, _ => rfl
  | ret _, _ => rfl
  | block ss, names => assignedAll_eq ss names

theorem assignedAll_eq : (ss : List Stmt) → (names : List Label) →
    assignedAll names ss = (targetsAll ss).foldl noteName names
  | [], _ => rfl
  | S :: ss, names => by
    rw [assignedAll, targetsAll, List.foldl_append, assigned_eq S, assignedAll_eq ss]

end

mutual

/-- The names in a statement whose code starts at `a`, in the order of the text, if `names` are
assigned before it. The target of an assignment stands in front of its value. -/
def occurrences (names : List Label) (a : Nat) : Stmt → List Occurrence
  | assign x e =>
    let first := a + if x ∈ names then 0 else 1
    ⟨x, true, first + e.size⟩ :: e.occurrences first
  | noop => []
  | ifThen c t => c.occurrences a ++ occurrences names (a + c.size + 1) t
  | ifElse c t e =>
    c.occurrences a ++ occurrences names (a + c.size + 1) t ++
      occurrences (assigned names t) (a + c.size + 1 + size names t + 1) e
  | loop c b => c.occurrences a ++ occurrences names (a + c.size + 1) b
  | func _ _ _ => []
  | ret e => e.occurrences a
  | block ss => occurrencesAll names a ss

def occurrencesAll (names : List Label) (a : Nat) : List Stmt → List Occurrence
  | [] => []
  | s :: ss => occurrences names a s ++ occurrencesAll (assigned names s) (a + size names s) ss

end

mutual

theorem targets_occurrences : (S : Stmt) → (names : List Label) → (a : Nat) →
    Occurrence.targets (S.occurrences names a) = S.targets
  | assign x e, names, a => by
    have he := e.targets_occurrences (a + if x ∈ names then 0 else 1)
    rw [Occurrence.targets] at he
    simp only [occurrences, Occurrence.targets, targets, List.filter_cons, List.map_cons, he,
      if_true]
  | noop, _, _ => rfl
  | ifThen c t, names, a => by
    rw [occurrences, Occurrence.targets_append, c.targets_occurrences, targets_occurrences t]
    rfl
  | ifElse c t e, names, a => by
    rw [occurrences, Occurrence.targets_append, Occurrence.targets_append, c.targets_occurrences,
      targets_occurrences t, targets_occurrences e]
    rfl
  | loop c b, names, a => by
    rw [occurrences, Occurrence.targets_append, c.targets_occurrences, targets_occurrences b]
    rfl
  | func _ _ _, _, _ => rfl
  | ret e, _, a => e.targets_occurrences a
  | block ss, names, a => targets_occurrencesAll ss names a

theorem targets_occurrencesAll : (ss : List Stmt) → (names : List Label) → (a : Nat) →
    Occurrence.targets (occurrencesAll names a ss) = targetsAll ss
  | [], _, _ => rfl
  | S :: ss, names, a => by
    rw [occurrencesAll, Occurrence.targets_append, targets_occurrences S,
      targets_occurrencesAll ss]
    rfl

end

theorem foldl_occurrences (S : Stmt) (names : List Label) (a : Nat) :
    (S.occurrences names a).foldl Occurrence.note names = S.assigned names := by
  rw [Occurrence.foldl_note, targets_occurrences, assigned_eq]

end Stmt

section Code

variable {σ : Scope} {all : List Label}

/-- A name that is read is a local variable if it has been assigned up to there. -/
theorem Context.means_load {Γ : Context} {names : List Label} (hσ : σ.locals.Numbers all)
    (hp : Γ.scope.params = σ.params) (hn : Γ.Names names all) {x : Label} (a : Nat)
    (hr : (Expr.var x).Resolved Γ) : Occurrence.Means σ names ⟨x, false, a⟩ (Γ.load x) := by
  by_cases hx : x ∈ names
  · have hall : σ.locals.get? x = some (all.idxOf x) := by
      rw [hσ.get?, if_pos (hn.within.subset hx)]
    rw [Context.load, hn.slot hx]
    exact .load hx hall
  · have hnone : Γ.scope.locals.get? x = none := by
      rw [hn.locals.get?, if_neg hx]
    have hparam : σ.params.contains x = true := by
      rcases hr with hr | hr
      · rw [Table.contains, hnone] at hr
        cases hr
      · rwa [hp] at hr
    obtain ⟨slot, hslot⟩ := Option.isSome_iff_exists.mp hparam
    rw [Context.load, hnone, hp, hslot]
    exact .argument hx hslot

mutual

theorem Expr.renders {Γ : Context} {names : List Label} (hσ : σ.locals.Numbers all)
    (hp : Γ.scope.params = σ.params) (hn : Γ.Names names all) : (e : Expr) → (a : Nat) →
    e.Resolved Γ → Renders σ names (e.occurrences a) a (e.code Γ)
  | .num v, a, _ => .plain rfl
  | .var x, a, hr => .load (Context.means_load hσ hp hn a hr)
  | .call f args, a, hr => by
    have hargs := Expr.rendersAll hσ hp hn args (a + 2) hr.2
    exact .append_plain (.plain_append rfl rfl hargs) rfl
  | .binary op l r, a, hr => by
    have hright := Expr.renders hσ hp hn r a hr.1
    have hleft := Expr.renders hσ hp hn l (a + r.size) hr.2
    have hboth := hright.append_swapped (by rw [Expr.length_code]) hleft (l.foldl_occurrences _ _)
    exact hboth.append_plain rfl

theorem Expr.rendersAll {Γ : Context} {names : List Label} (hσ : σ.locals.Numbers all)
    (hp : Γ.scope.params = σ.params) (hn : Γ.Names names all) : (es : List Expr) → (a : Nat) →
    Expr.ResolvedAll Γ es → Renders σ names (Expr.occurrencesAll a es) a (Expr.codeAll Γ es)
  | [], a, _ => .plain rfl
  | e :: es, a, hr => by
    have hes := Expr.rendersAll hσ hp hn es (a + e.size) hr.2
    exact (Expr.renders hσ hp hn e a hr.1).append (e.foldl_occurrences _ _)
      (by rw [Expr.length_code]) hes

end

mutual

theorem Stmt.renders (hσ : σ.locals.Numbers all) : (S : Stmt) → {Γ : Context} →
    {names : List Label} → (a : Nat) → Γ.scope.params = σ.params → Γ.Names names all →
    S.assigned names <+: all → S.Resolved Γ →
    Renders σ names (S.occurrences names a) a (S.code Γ a)
  | .assign x e, Γ, names, a, hp, hn, hs, hr => by
    have hcell := Stmt.length_cell hn.locals x
    have hkeep := (Stmt.context_keeps Γ (.assign x e)).2.2
    have hvalue := Expr.renders hσ (hkeep.trans hp) (hn.allot hs) e
      (a + if x ∈ names then 0 else 1) hr
    have hx := Stmt.mem_noteName names x
    have hslot : σ.locals.get? x = some (all.idxOf x) := by
      rw [hσ.get?, if_pos (hs.subset hx)]
    have hstore : (Γ.allot x).store x = ⟨.storel, all.idxOf x⟩ := by
      rw [Context.store, (hn.allot hs).slot hx, Option.getD_some]
    have hassign := hvalue.store hslot
    rw [Expr.length_code] at hassign
    rw [Stmt.code, hstore, List.append_assoc]
    refine .plain_append ?_ (by rw [hcell]) hassign
    split
    next => rfl
    next => rfl
  | .noop, _, _, _, _, _, _, _ => .plain rfl
  | .func _ _ _, _, _, _, _, _, _, _ => .plain rfl
  | .ret e, Γ, names, a, hp, hn, _, hr =>
    (Expr.renders hσ hp hn e a hr).append_plain rfl
  | .block ss, Γ, names, a, hp, hn, hs, hr => Stmt.rendersAll hσ ss a hp hn hs hr
  | .ifThen c t, Γ, names, a, hp, hn, hs, hr => by
    have hcond := Expr.renders hσ hp hn c a hr.1
    have hbody := Stmt.renders hσ t (a + c.size + 1) hp hn hs hr.2
    simp only [Stmt.code, Expr.length_code]
    refine (hcond.append_plain rfl).append (c.foldl_occurrences _ _) ?_ hbody
    rw [List.length_append, Expr.length_code]
    rfl
  | .ifElse c t e, Γ, names, a, hp, hn, hs, hr => by
    have ht := (Stmt.prefix_assigned e (t.assigned names)).trans hs
    have hcond := Expr.renders hσ hp hn c a hr.1
    have hbody := Stmt.renders hσ t (a + c.size + 1) hp hn ht hr.2.1
    have hother := Stmt.renders hσ e (a + c.size + 1 + t.size names + 1)
      ((Stmt.context_keeps Γ t).2.2.trans hp) (hn.context ht) hs hr.2.2
    simp only [Stmt.code, Expr.length_code, Stmt.length_code t hn.locals]
    refine (((hcond.append_plain rfl).append (c.foldl_occurrences _ _) ?_ hbody).append_plain
      rfl).append ?_ ?_ hother
    · rw [List.length_append, Expr.length_code]
      rfl
    · rw [List.foldl_append, c.foldl_occurrences, t.foldl_occurrences]
    · simp only [List.length_append, List.length_singleton, Expr.length_code,
        Stmt.length_code t hn.locals]
      omega
  | .loop c b, Γ, names, a, hp, hn, hs, hr => by
    have hcond := Expr.renders hσ hp hn c a hr.1
    have hbody := Stmt.renders hσ b (a + c.size + 1) hp hn hs hr.2
    simp only [Stmt.code, Expr.length_code]
    refine ((hcond.append_plain rfl).append (c.foldl_occurrences _ _) ?_ hbody).append_plain rfl
    rw [List.length_append, Expr.length_code]
    rfl

theorem Stmt.rendersAll (hσ : σ.locals.Numbers all) : (ss : List Stmt) → {Γ : Context} →
    {names : List Label} → (a : Nat) → Γ.scope.params = σ.params → Γ.Names names all →
    Stmt.assignedAll names ss <+: all → Stmt.ResolvedAll Γ ss →
    Renders σ names (Stmt.occurrencesAll names a ss) a (Stmt.codeAll Γ a ss)
  | [], _, _, _, _, _, _, _ => .plain rfl
  | S :: ss, Γ, names, a, hp, hn, hs, hr => by
    have hS := (Stmt.prefix_assignedAll ss (S.assigned names)).trans hs
    have hrest := Stmt.rendersAll hσ ss (a + S.size names)
      ((Stmt.context_keeps Γ S).2.2.trans hp) (hn.context hS) hs hr.2
    rw [Stmt.codeAll, Stmt.length_code S hn.locals]
    exact (Stmt.renders hσ S a hp hn hS hr.1).append (S.foldl_occurrences names a)
      (by rw [Stmt.length_code S hn.locals]) hrest

end

end Code

namespace Stmt

/-- The text of the scope of an element that stands behind `before`, up to the element. -/
def textBefore (before : List Stmt) : Stmt → List Stmt
  | func _ _ _ => []
  | _ => before

/-- The names in an element behind `before` whose code starts at `a`. -/
def occurrencesFrom (before : List Stmt) (a : Nat) : Stmt → List Occurrence
  | func _ _ body => occurrencesAll [] a body
  | S => occurrences (assignedAll [] before) a S

end Stmt

/-- The code of an element accesses variables as its text says. -/
theorem element_renders {p before after : List Stmt} {S : Stmt}
    (hp : Program.Accepted Program.start 2 p) (hn : Program.Named p)
    (hS : p = before ++ S :: after) {σ : Scope} (hσ : σ.Numbers (S.scopeNames p) S.parameters) :
    Renders σ (Stmt.assignedAll [] (S.textBefore before))
      (S.occurrencesFrom before (Program.addressAfter before)) (Program.addressAfter before)
      (S.elementCode (Program.contextAfter before) (Program.addressAfter before)) := by
  have haccepted := Program.accepted_element hp hS
  have hbefore : Program.Named before := fun f params body hmem =>
    hn f params body (hS ▸ List.mem_append_left _ hmem)
  cases S with
  | func f params body =>
    exact Stmt.rendersAll hσ.locals body _ hσ.params.symm ⟨Table.numbers_nil, List.nil_prefix⟩
      List.prefix_rfl haccepted.2
  | _ =>
    obtain ⟨hscope, -⟩ := Program.contextAfter_toplevel hbefore
    have hprefix := Stmt.prefix_assignedAll_element hS
    exact Stmt.renders hσ.locals _ _ (hscope.params.trans hσ.params.symm)
      ⟨hscope.locals, (Stmt.prefix_assigned _ _).trans hprefix⟩ hprefix haccepted

end StackLang
