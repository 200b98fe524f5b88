import StackLang.Proofs.Correctness
import StackLang.Proofs.Spans

namespace StackLang

open Session Machine

/-- An expression at its place. -/
structure Site where
  expr : Expr
  /-- The names assigned at or before it in the text, in the order of their first assignments. -/
  names : List Label
  /-- Where its code starts. -/
  address : Nat

namespace Expr

mutual

/-- The number of instructions of an expression. -/
def size : Expr → Nat
  | num _ => 1
  | var _ => 1
  | call _ args => 2 + sizeAll args + 8
  | binary _ l r => size r + size l + 1

def sizeAll : List Expr → Nat
  | [] => 0
  | e :: es => size e + sizeAll es

end

mutual

/-- An expression whose code starts at address `a`, and the expressions in it. They come in the
order in which they are looked at: the right operand before the left one, a call before its
arguments. -/
def sites (names : List Label) (a : Nat) : Expr → List Site
  | num v => [⟨num v, names, a⟩]
  | var x => [⟨var x, names, a⟩]
  | call f args => ⟨call f args, names, a⟩ :: sitesAll names (a + 2) args
  | binary op l r => ⟨binary op l r, names, a⟩ :: (sites names a r ++ sites names (a + r.size) l)

def sitesAll (names : List Label) (a : Nat) : List Expr → List Site
  | [] => []
  | e :: es => sites names a e ++ sitesAll names (a + e.size) es

end

mutual

theorem length_code (Γ : Context) : (e : Expr) → (e.code Γ).length = e.size
  | num _ => rfl
  | var _ => rfl
  | call f args => by rw [length_code_call, size, length_codeAll Γ args]
  | binary op l r => by
    rw [code, size, List.length_append, List.length_append, length_code Γ r, length_code Γ l]
    rfl

theorem length_codeAll (Γ : Context) : (es : List Expr) → (codeAll Γ es).length = sizeAll es
  | [] => rfl
  | e :: es => by
    rw [codeAll, sizeAll, List.length_append, length_code Γ e, length_codeAll Γ es]

end

end Expr

namespace Stmt

mutual

def size (names : List Label) : Stmt → Nat
  | assign x e => (if x ∈ names then 0 else 1) + e.size + 1
  | noop => 0
  | ifThen c t => c.size + 1 + size names t
  | ifElse c t e => c.size + 1 + size names t + 1 + size (assigned names t) e
  | loop c b => c.size + 1 + size names b + 1
  | func _ _ _ => 0
  | ret e => e.size + 1
  | block ss => sizeAll names ss

def sizeAll (names : List Label) : List Stmt → Nat
  | [] => 0
  | s :: ss => size names s + sizeAll (assigned names s) ss

end

mutual

/-- The expressions of a statement whose code starts at address `a`, in the order of the text. The
target of an assignment counts before the value. -/
def sites (names : List Label) (a : Nat) : Stmt → List Site
  | assign x e => e.sites (noteName names x) (a + if x ∈ names then 0 else 1)
  | noop => []
  | ifThen c t => c.sites names a ++ sites names (a + c.size + 1) t
  | ifElse c t e =>
    c.sites names a ++ sites names (a + c.size + 1) t ++
      sites (assigned names t) (a + c.size + 1 + size names t + 1) e
  | loop c b => c.sites names a ++ sites names (a + c.size + 1) b
  | func _ _ _ => []
  | ret e => e.sites names a
  | block ss => sitesAll names a ss

def sitesAll (names : List Label) (a : Nat) : List Stmt → List Site
  | [] => []
  | s :: ss => sites names a s ++ sitesAll (assigned names s) (a + size names s) ss

end

theorem length_cell {Γ : Context} {names : List Label} (h : Γ.scope.locals.Numbers names)
    (x : Label) : (if Γ.scope.locals.contains x then [] else [⟨.push, Emitter.placeholder⟩] :
      List Instruction).length = if x ∈ names then 0 else 1 := by
  have hx := h.contains x
  by_cases hn : x ∈ names
  · rw [if_pos (hx.mpr hn), if_pos hn]
    rfl
  · rw [if_neg fun hc => hn (hx.mp hc), if_neg hn]
    rfl

mutual

theorem length_code : (S : Stmt) → {Γ : Context} → {names : List Label} →
    Γ.scope.locals.Numbers names → (a : Nat) → (S.code Γ a).length = S.size names
  | assign x e, Γ, names, h, a => by
    rw [code, size, List.length_append, List.length_append, Expr.length_code, length_cell h]
    rfl
  | noop, _, _, _, _ => rfl
  | ifThen c t, Γ, names, h, a => by
    simp only [code, size, List.length_append, List.length_singleton, Expr.length_code,
      length_code t h]
  | ifElse c t e, Γ, names, h, a => by
    simp only [code, size, List.length_append, List.length_singleton, Expr.length_code,
      length_code t h, length_code e (numbers_context t h)]
  | loop c b, Γ, names, h, a => by
    simp only [code, size, List.length_append, List.length_singleton, Expr.length_code,
      length_code b h]
  | func _ _ _, _, _, _, _ => rfl
  | ret e, Γ, names, h, a => by
    rw [code, size, List.length_append, Expr.length_code]
    rfl
  | block ss, _, _, h, a => length_codeAll ss h a

theorem length_codeAll : (ss : List Stmt) → {Γ : Context} → {names : List Label} →
    Γ.scope.locals.Numbers names → (a : Nat) → (codeAll Γ a ss).length = sizeAll names ss
  | [], _, _, _, _ => rfl
  | S :: ss, Γ, names, h, a => by
    rw [codeAll, sizeAll, List.length_append, length_code S h,
      length_codeAll ss (numbers_context S h)]

end

end Stmt

section Placement

variable {s : Session} {functions : Table FunctionInfo} {params : Table Nat} {k : Nat}
  {all : List Label}

/-- The code of the expression stands at its address, and it was made with the names that are known
there. -/
def Site.Placed (y : Site) (s : Session) (functions : Table FunctionInfo) (params : Table Nat)
    (k : Nat) (all : List Label) : Prop :=
  ∃ Γ : Context, Γ.In functions params k ∧ Γ.Names y.names all ∧ y.expr.Resolved Γ ∧
    s.Holds y.address (y.expr.code Γ)

mutual

theorem Expr.placed {Γ : Context} {names : List Label} (hΓ : Γ.In functions params k)
    (hn : Γ.Names names all) : (e : Expr) → {a : Nat} → e.Resolved Γ → s.Holds a (e.code Γ) →
    ∀ y ∈ e.sites names a, y.Placed s functions params k all
  | .num v, a, hr, hc, y, hy => by
    rw [List.mem_singleton.mp hy]
    exact ⟨Γ, hΓ, hn, hr, hc⟩
  | .var x, a, hr, hc, y, hy => by
    rw [List.mem_singleton.mp hy]
    exact ⟨Γ, hΓ, hn, hr, hc⟩
  | .call f args, a, hr, hc, y, hy => by
    rcases List.mem_cons.mp hy with rfl | hy
    · exact ⟨Γ, hΓ, hn, hr, hc⟩
    · exact placedAll hΓ hn args hr.2 hc.append.1.append.2 y hy
  | .binary op l r, a, hr, hc, y, hy => by
    obtain ⟨hcr, hcl⟩ := hc.append.1.append
    rw [Expr.length_code] at hcl
    rcases List.mem_cons.mp hy with rfl | hy
    · exact ⟨Γ, hΓ, hn, hr, hc⟩
    · rcases List.mem_append.mp hy with hy | hy
      · exact placed hΓ hn r hr.1 hcr y hy
      · exact placed hΓ hn l hr.2 hcl y hy

theorem Expr.placedAll {Γ : Context} {names : List Label} (hΓ : Γ.In functions params k)
    (hn : Γ.Names names all) : (es : List Expr) → {a : Nat} → Expr.ResolvedAll Γ es →
    s.Holds a (Expr.codeAll Γ es) → ∀ y ∈ Expr.sitesAll names a es,
      y.Placed s functions params k all
  | [], _, _, _, _, hy => nomatch hy
  | e :: es, a, hr, hc, y, hy => by
    obtain ⟨hce, hces⟩ := hc.append
    rw [Expr.length_code] at hces
    rcases List.mem_append.mp hy with hy | hy
    · exact placed hΓ hn e hr.1 hce y hy
    · exact placedAll hΓ hn es hr.2 hces y hy

end

mutual

theorem Stmt.placed : (S : Stmt) → {Γ : Context} → {names : List Label} → {a : Nat} →
    Γ.In functions params k → Γ.Names names all → S.assigned names <+: all → S.Resolved Γ →
    s.Holds a (S.code Γ a) → ∀ y ∈ S.sites names a, y.Placed s functions params k all
  | .assign x e, Γ, names, a, hΓ, hn, hs, hr, hc, y, hy => by
    obtain ⟨-, hce⟩ := hc.append.1.append
    rw [Stmt.length_cell hn.locals] at hce
    exact e.placed (hΓ.context (.assign x e)) (hn.allot hs) hr hce y hy
  | .noop, _, _, _, _, _, _, _, _, _, hy => nomatch hy
  | .func _ _ _, _, _, _, _, _, _, _, _, _, hy => nomatch hy
  | .ret e, Γ, names, a, hΓ, hn, _, hr, hc, y, hy => e.placed hΓ hn hr hc.append.1 y hy
  | .block ss, Γ, names, a, hΓ, hn, hs, hr, hc, y, hy => placedAll ss hΓ hn hs hr hc y hy
  | .ifThen c t, Γ, names, a, hΓ, hn, hs, hr, hc, y, hy => by
    obtain ⟨hcond, -, hbody⟩ := hc.ifThen rfl
    rw [Expr.length_code] at hbody
    rcases List.mem_append.mp hy with hy | hy
    · exact c.placed hΓ hn hr.1 hcond y hy
    · exact placed t hΓ hn hs hr.2 hbody y hy
  | .ifElse c t e, Γ, names, a, hΓ, hn, hs, hr, hc, y, hy => by
    have ht := (Stmt.prefix_assigned e (t.assigned names)).trans hs
    obtain ⟨hcond, -, hbody, -, hother⟩ := hc.ifElse rfl rfl
    rw [Expr.length_code] at hbody
    rw [Expr.length_code, Stmt.length_code t hn.locals] at hother
    rcases List.mem_append.mp hy with hy | hy
    · rcases List.mem_append.mp hy with hy | hy
      · exact c.placed hΓ hn hr.1 hcond y hy
      · exact placed t hΓ hn ht hr.2.1 hbody y hy
    · exact placed e (hΓ.context t) (hn.context ht) hs hr.2.2 hother y hy
  | .loop c d, Γ, names, a, hΓ, hn, hs, hr, hc, y, hy => by
    obtain ⟨hcond, -, hbody, -⟩ := hc.loop rfl
    rw [Expr.length_code] at hbody
    rcases List.mem_append.mp hy with hy | hy
    · exact c.placed hΓ hn hr.1 hcond y hy
    · exact placed d hΓ hn hs hr.2 hbody y hy

theorem Stmt.placedAll : (ss : List Stmt) → {Γ : Context} → {names : List Label} → {a : Nat} →
    Γ.In functions params k → Γ.Names names all → Stmt.assignedAll names ss <+: all →
    Stmt.ResolvedAll Γ ss → s.Holds a (Stmt.codeAll Γ a ss) →
    ∀ y ∈ Stmt.sitesAll names a ss, y.Placed s functions params k all
  | [], _, _, _, _, _, _, _, _, _, hy => nomatch hy
  | S :: ss, Γ, names, a, hΓ, hn, hs, hr, hc, y, hy => by
    have hS := (Stmt.prefix_assignedAll ss (S.assigned names)).trans hs
    obtain ⟨hcS, hcss⟩ := hc.append
    rw [Stmt.length_code S hn.locals] at hcss
    rcases List.mem_append.mp hy with hy | hy
    · exact placed S hΓ hn hS hr.1 hcS y hy
    · exact placedAll ss (hΓ.context S) (hn.context hS) hs hr.2 hcss y hy

end

theorem spansFrom_inside {Γ : Context} {a : Nat} {q : List Stmt} (hq : Program.Accepted Γ a q)
    (hc : s.Holds a (Program.elementsCode Γ a q)) {x : Span} (hx : x ∈ Program.spansFrom Γ a q)
    {f : Label} {names : List Label} {body : List Stmt} (hf : x.element = .func f names body) :
    ∃ Δ : Context, (∀ g info, (Stmt.inside Δ x.first f names).functions.get? g = some info →
        (Program.elementsContext Γ a q).functions.get? g = some info) ∧
      Stmt.ResolvedAll (Stmt.inside Δ x.first f names) body ∧
      s.Holds x.first (Stmt.codeAll (Stmt.inside Δ x.first f names) x.first body) := by
  induction q generalizing Γ a with
  | nil => cases hx
  | cons S q ih =>
    obtain ⟨hS, hq⟩ := hq
    obtain ⟨hcS, hcq⟩ := hc.append
    rcases List.mem_cons.mp hx with rfl | hx
    · have hS' : S = .func f names body := hf
      subst hS'
      refine ⟨Γ, fun g info hg => ?_, hS.2, hcS⟩
      apply elementsContext_grows hq
      rw [elementContext_func]
      exact hg
    · exact ih hq hcq hx

end Placement

/-- Wherever an expression stands in a function, from the start of its code on the machine comes to
the end of it with the value of the expression pushed and all else as it was: the stack below, the
base of the frame and the argument count. The stack may hold anything besides the variables of the
activation. -/
theorem expression_pushes_value {source : String} {t t' : Transcript} {code : List Instruction}
    (hcode : (Pipeline.compile source).run t = .ok code t') {p : Program}
    (hp : Pipeline.Spells source p) (hb : p.Bounded) {s : Session} (hs : s.program = code.toArray)
    {x : Span} (hx : x ∈ p.spans) {g : Label} {params : List Label} {body : List Stmt}
    (hg : x.element = .func g params body) {y : Site} (hy : y ∈ Stmt.sitesAll [] x.first body)
    {arg : Label → Option Int} {env : Table Int} {b : Nat} {st : List Int}
    (hf : Frame (Stmt.assignedAll [] body) (Emitter.paramSlots params) arg env b st) {fuel : Nat}
    {v : Int} (hv : y.expr.eval (p.invoke fuel) (Stmt.valueOf arg y.names env) = .done v) :
    ∃ n, s.Moves n (running y.address b params.length st)
      (running (y.address + y.expr.size) b params.length (st ++ [v])) := by
  obtain ⟨rfl, haccepted, -⟩ := Pipeline.compile_ok hcode hp
  have hlist : s.program.toList = p.code := by rw [hs]
  have helements : s.Holds 2 (Program.elementsCode Program.start 2 p) :=
    ⟨p.code.take 2, [], by simp [hlist, Program.code], rfl⟩
  obtain ⟨Δ, hsub, hr, hc⟩ := spansFrom_inside haccepted helements hx hg
  obtain ⟨Γ, hΓ, hn, hry, hcy⟩ := Stmt.placedAll body ⟨rfl, rfl, rfl⟩
    ⟨Table.numbers_nil, List.nil_prefix⟩ List.prefix_rfl hr hc y hy
  have hcalls := (calls_follow hb (code_linked haccepted hlist) fuel).mono hsub
  have hfollows : s.Follows fuel (running y.address b params.length st) _ _ :=
    expr_follows_in hcalls hΓ hn y.expr hry hcy hf
  rw [hv, Expr.length_code] at hfollows
  obtain ⟨n, m, hmoves, argc, rfl, hk⟩ := hfollows
  have hargc : argc = params.length := hk.argc rfl
  rw [hargc] at hmoves
  exact ⟨n, hmoves⟩

theorem expression_pushes_value_recursive :
    ∃ (code : List Instruction) (t' : Transcript),
      (Pipeline.compile
        "function f(n){if(n>0)return n*f(n-1);return 1;}function main(){x=3;return f(x)-2;}").run
        {} = .ok code t' ∧
      ∃ n, (ofCode code none Sink.silent false).Moves n (running 28 0 0 [0, 3, 2])
        (running 39 0 0 [0, 3, 2, 6]) := by
  let f : Label := some (.word "f")
  let x : Label := some (.word "x")
  let n : Label := some (.word "n")
  let p : Program :=
    [.func f [n]
      [.ifThen (.binary .gt (.var n) (.num (some (.int 0))))
        (.ret (.binary .mul (.var n) (.call f [.binary .sub (.var n) (.num (some (.int 1)))]))),
       .ret (.num (some (.int 1)))],
     .func Program.mainName []
      [.assign x (.num (some (.int 3))),
       .ret (.binary .sub (.call f [.var x]) (.num (some (.int 2))))]]
  have hp : Pipeline.Spells
      "function f(n){if(n>0)return n*f(n-1);return 1;}function main(){x=3;return f(x)-2;}" p := by
    refine ⟨[⟨.functionWord, none⟩, ⟨.identifier, f⟩, ⟨.lparen, none⟩, ⟨.identifier, n⟩,
      ⟨.rparen, none⟩, ⟨.lbrace, none⟩, ⟨.ifWord, none⟩, ⟨.lparen, none⟩, ⟨.identifier, n⟩,
      ⟨.greater, none⟩, ⟨.number, some (.int 0)⟩, ⟨.rparen, none⟩, ⟨.returnWord, none⟩,
      ⟨.identifier, n⟩, ⟨.star, none⟩, ⟨.identifier, f⟩, ⟨.lparen, none⟩, ⟨.identifier, n⟩,
      ⟨.minus, none⟩, ⟨.number, some (.int 1)⟩, ⟨.rparen, none⟩, ⟨.semi, none⟩,
      ⟨.returnWord, none⟩, ⟨.number, some (.int 1)⟩, ⟨.semi, none⟩, ⟨.rbrace, none⟩,
      ⟨.functionWord, none⟩, ⟨.identifier, Program.mainName⟩, ⟨.lparen, none⟩, ⟨.rparen, none⟩,
      ⟨.lbrace, none⟩, ⟨.identifier, x⟩, ⟨.assign, none⟩, ⟨.number, some (.int 3)⟩, ⟨.semi, none⟩,
      ⟨.returnWord, none⟩, ⟨.identifier, f⟩, ⟨.lparen, none⟩, ⟨.identifier, x⟩, ⟨.rparen, none⟩,
      ⟨.minus, none⟩, ⟨.number, some (.int 2)⟩, ⟨.semi, none⟩, ⟨.rbrace, none⟩, ⟨.eof, none⟩],
      by decide +kernel, by cbv⟩
  have hb : p.Bounded := by
    intro g params body h
    rcases List.mem_cons.mp h with h | h
    · cases h
      decide
    · cases List.mem_singleton.mp h
      decide
  have hf : Frame [x] (Emitter.paramSlots []) (fun _ => none) (Table.insert {} x 3) 0
      [0, 3, 2] := by
    refine ⟨by decide, fun y v hy => ?_, fun _ _ hy => by cases hy⟩
    rw [Table.get?_insert] at hy
    split at hy
    next hyx =>
      cases hy
      rw [hyx]
      exact ⟨List.mem_singleton_self x, rfl⟩
    next => cases hy
  obtain ⟨code, t', hcode⟩ := exists_of_run_ok (x := Pipeline.compile
    "function f(n){if(n>0)return n*f(n-1);return 1;}function main(){x=3;return f(x)-2;}") (s := {})
    (by decide +kernel)
  have hmain : (⟨p[1], 24, 41⟩ : Span) ∈ p.spans := List.mem_cons_of_mem _ List.mem_cons_self
  have hsite : (⟨.call f [.var x], [x], 28⟩ : Site) ∈
      Stmt.sitesAll [] 24 [.assign x (.num (some (.int 3))),
        .ret (.binary .sub (.call f [.var x]) (.num (some (.int 2))))] := by
    right
    right
    right
    left
  have hv : (Expr.call f [.var x]).eval (p.invoke 5)
      (Stmt.valueOf (fun _ => none) [x] (Table.insert {} x 3)) = .done 6 := by decide
  exact ⟨code, t', hcode, expression_pushes_value hcode hp hb rfl hmain rfl hsite hf hv⟩

end StackLang
