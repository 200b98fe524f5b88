import StackLang.Proofs.Reading
import StackLang.Token.Scanner

namespace StackLang

/-- A name that a source text can have. -/
def Label.Name (x : Label) : Prop :=
  ∃ w, x = some (.word w) ∧ w ≠ ""

/-- The label of the token is what its kind calls for. -/
structure Token.Proper (t : Token) : Prop where
  name : t.kind = .identifier → t.value.Name
  number : t.kind = .number → ∃ n : Nat, t.value = some (.int n)

theorem Token.Kind.ne_of_mem {k : Token.Kind} (h : k ∈ punctuation ∨ k ∈ reserved) :
    k ≠ .identifier ∧ k ≠ .number := by
  constructor
  · rintro rfl
    revert h
    decide
  · rintro rfl
    revert h
    decide

namespace Scanner

theorem proper_of_mem {k : Token.Kind} {v : Label}
    (h : k ∈ Token.Kind.punctuation ∨ k ∈ Token.Kind.reserved) : Token.Proper ⟨k, v⟩ :=
  ⟨fun hk => absurd hk (Token.Kind.ne_of_mem h).1, fun hk => absurd hk (Token.Kind.ne_of_mem h).2⟩

theorem wordToken_proper {word : List Char} (h : word ≠ []) : (wordToken word).Proper := by
  unfold wordToken
  dsimp only
  split
  next kind hk => exact proper_of_mem (.inr (List.mem_of_find?_eq_some hk))
  next =>
    refine ⟨fun _ => ⟨String.ofList word, rfl, fun hw => h ?_⟩, nofun⟩
    have hlist := congrArg String.toList hw
    simpa using hlist

theorem lexeme_proper {s s' : Scanner} {t : Token} (h : s.lexeme = .ok t s') : t.Proper := by
  unfold lexeme at h
  split at h
  next =>
    cases h
    exact ⟨by rintro ⟨⟩, by rintro ⟨⟩⟩
  next c cs hr =>
    split at h
    next kind hk =>
      cases h
      exact proper_of_mem (.inl (List.mem_of_find?_eq_some hk))
    next =>
      split at h
      next hl =>
        cases h
        apply wordToken_proper
        have hc : isWordChar c = true := by simp [isWordChar, hl]
        simp [hr, hc]
      next =>
        split at h
        next =>
          cases h
          exact ⟨by rintro ⟨⟩, fun _ => ⟨_, rfl⟩⟩
        next => cases h

theorem tokens_proper {s : Scanner} {ts : List Token} (h : s.tokens = .ok ts) :
    ∀ t ∈ ts, t.Proper := by
  rw [tokens] at h
  split at h
  next => cases h
  next t s' hrun =>
    have ht : t.Proper := lexeme_proper hrun
    split at h
    next =>
      cases h
      exact fun u hu => List.mem_singleton.mp hu ▸ ht
    next hne =>
      have hshorter : s'.rest.length < s.rest.length := length_next_lt hrun hne
      cases hrest : s'.tokens with
      | error e =>
        rw [hrest] at h
        cases h
      | ok us =>
        rw [hrest] at h
        cases h
        intro u hu
        rcases List.mem_cons.mp hu with rfl | hu
        · exact ht
        · exact tokens_proper hrest u hu
termination_by s.rest.length

end Scanner

theorem tokenize_proper {source : String} {ts : List Token} (h : tokenize source = .ok ts) :
    ∀ t ∈ ts, t.Proper :=
  Scanner.tokens_proper h

namespace Tree

/-- The label is what the kind of its node calls for. -/
def Kind.Suits : Kind → Label → Prop
  | number, v => ∃ n : Nat, v = some (.int n)
  | identifier, v | call, v | functionDecl, v | parameter, v => v.Name
  | _, _ => True

mutual

/-- All labels of the tree are what their nodes call for. -/
def Proper : Tree → Prop
  | node k v cs => k.Suits v ∧ ProperAll cs

def ProperAll : List Tree → Prop
  | [] => True
  | t :: ts => Proper t ∧ ProperAll ts

end

end Tree

/-- Of the label of the token, `N` holds if it is a name, and `M` if it is a number. -/
structure Token.Carries (N M : Label → Prop) (t : Token) : Prop where
  name : t.kind = .identifier → N t.value
  number : t.kind = .number → M t.value

theorem Token.Proper.carries {t : Token} (h : t.Proper) :
    t.Carries Label.Name fun v => ∃ n : Nat, v = some (.int n) :=
  ⟨h.name, h.number⟩

namespace Tree

/-- Of the label of a node, `N` holds if it is a name, and `M` if it is a number. Other nodes have
no label. -/
def Kind.Carries (N M : Label → Prop) : Kind → Label → Prop
  | number, v => M v
  | identifier, v | call, v | functionDecl, v | parameter, v => N v
  | _, v => v = none

mutual

def Carries (N M : Label → Prop) : Tree → Prop
  | node k v cs => k.Carries N M v ∧ CarriesAll N M cs

def CarriesAll (N M : Label → Prop) : List Tree → Prop
  | [] => True
  | t :: ts => Carries N M t ∧ CarriesAll N M ts

end

theorem Kind.Carries.suits {k : Kind} {v : Label}
    (h : k.Carries Label.Name (fun v => ∃ n : Nat, v = some (.int n)) v) : k.Suits v := by
  cases k with
  | number => exact h
  | identifier => exact h
  | call => exact h
  | functionDecl => exact h
  | parameter => exact h
  | _ => trivial

mutual

theorem Carries.proper : {t : Tree} →
    t.Carries Label.Name (fun v => ∃ n : Nat, v = some (.int n)) → t.Proper
  | node _ _ _, h => ⟨h.1.suits, CarriesAll.proper h.2⟩

theorem CarriesAll.proper : {ts : List Tree} →
    CarriesAll Label.Name (fun v => ∃ n : Nat, v = some (.int n)) ts → ProperAll ts
  | [], _ => trivial
  | _ :: _, h => ⟨h.1.proper, CarriesAll.proper h.2⟩

end

end Tree

namespace Grammar

open StackLang.Tree

variable {N M : Label → Prop}

theorem carries_leaf {k : Kind} {v : Label} (h : k.Carries N M v) : (leaf k v).Carries N M :=
  ⟨h, trivial⟩

theorem carries_operation {op : Operator} {l r : Tree} (hl : l.Carries N M)
    (hr : r.Carries N M) : (operation op l r).Carries N M :=
  ⟨rfl, hl, hr, trivial⟩

def Carry (N M : Label → Prop) (us : List Token) : Prop :=
  ∀ t ∈ us, t.Carries N M

theorem carry_cons {t : Token} {us : List Token} :
    Carry N M (t :: us) ↔ t.Carries N M ∧ Carry N M us :=
  List.forall_mem_cons

theorem carry_append {us vs : List Token} :
    Carry N M (us ++ vs) ↔ Carry N M us ∧ Carry N M vs :=
  List.forall_mem_append

mutual

theorem Factor.carries : {us : List Token} → {e : Tree} → Factor us e → Carry N M us →
    e.Carries N M
  | _, _, .number hk, h => carries_leaf ((carry_cons.mp h).1.number hk)
  | _, _, .name hk, h => carries_leaf ((carry_cons.mp h).1.name hk)
  | _, _, .call hk _ hargs _ _, h => by
    obtain ⟨hf, h⟩ := carry_cons.mp h
    obtain ⟨hus, -⟩ := carry_append.mp (carry_cons.mp h).2
    exact ⟨hf.name hk, hargs.carries hus⟩
  | _, _, .group _ he _, h => he.carries (carry_append.mp (carry_cons.mp h).2).1

theorem Arguments.carries : {us : List Token} → {es : List Tree} → Arguments us es →
    Carry N M us → CarriesAll N M es
  | _, _, .none, _ => trivial
  | _, _, .some he hes, h =>
    ⟨he.carries (carry_append.mp h).1, hes.carries (carry_append.mp h).2⟩

theorem MoreArguments.carries : {us : List Token} → {es : List Tree} → MoreArguments us es →
    Carry N M us → CarriesAll N M es
  | _, _, .none, _ => trivial
  | _, _, .some _ he hes, h => by
    obtain ⟨hus, hvs⟩ := carry_append.mp (carry_cons.mp h).2
    exact ⟨he.carries hus, hes.carries hvs⟩

theorem Term.carries : {us : List Token} → {e : Tree} → Term us e → Carry N M us → e.Carries N M
  | _, _, .factor he, h => he.carries h
  | _, _, .product hl _ hr, h => by
    obtain ⟨hus, hvs⟩ := carry_append.mp h
    exact carries_operation (hl.carries hus) (hr.carries (carry_cons.mp hvs).2)

theorem Additive.carries : {us : List Token} → {e : Tree} → Additive us e → Carry N M us →
    e.Carries N M
  | _, _, .term he, h => he.carries h
  | _, _, .sum hl _ hr, h => by
    obtain ⟨hus, hvs⟩ := carry_append.mp h
    exact carries_operation (hl.carries hus) (hr.carries (carry_cons.mp hvs).2)

theorem Expression.carries : {us : List Token} → {e : Tree} → Expression us e → Carry N M us →
    e.Carries N M
  | _, _, .additive he, h => he.carries h
  | _, _, .comparison hl _ hr, h => by
    obtain ⟨hus, hvs⟩ := carry_append.mp h
    exact carries_operation (hl.carries hus) (hr.carries (carry_cons.mp hvs).2)

end

theorem Assignment.carries {us : List Token} {e : Tree} (he : Assignment us e)
    (h : Carry N M us) : e.Carries N M := by
  cases he with
  | assign hk _ _ he _ =>
    obtain ⟨hx, h⟩ := carry_cons.mp h
    obtain ⟨hus, -⟩ := carry_append.mp (carry_cons.mp h).2
    exact ⟨rfl, carries_leaf (hx.name hk), he.carries hus, trivial⟩
  | empty _ => exact carries_leaf rfl

theorem Condition.carries {keyword : Token.Kind} {us : List Token} {e : Tree}
    (he : Condition keyword us e) (h : Carry N M us) : e.Carries N M := by
  cases he with
  | intro _ _ he _ =>
    obtain ⟨-, h⟩ := carry_cons.mp h
    exact he.carries (carry_append.mp (carry_cons.mp h).2).1

mutual

theorem Statement.carries : {us : List Token} → {e : Tree} → Statement us e → Carry N M us →
    e.Carries N M
  | _, _, .block he, h => he.carries h
  | _, _, .assignment he, h => he.carries h
  | _, _, .loop hc hb, h => by
    obtain ⟨hus, hvs⟩ := carry_append.mp h
    exact ⟨rfl, hc.carries hus, hb.carries hvs, trivial⟩
  | _, _, .ifThen hc ht, h => by
    obtain ⟨hus, hvs⟩ := carry_append.mp h
    exact ⟨rfl, hc.carries hus, ht.carries hvs, trivial⟩
  | _, _, .ifElse hc ht _ _ he, h => by
    obtain ⟨hus, h⟩ := carry_append.mp h
    obtain ⟨hvs, hws⟩ := carry_append.mp h
    exact ⟨rfl, hc.carries hus, ht.carries hvs, he.carries (carry_cons.mp hws).2, trivial⟩
  | _, _, .ret _ he _, h =>
    ⟨rfl, he.carries (carry_append.mp (carry_cons.mp h).2).1, trivial⟩

theorem Block.carries : {us : List Token} → {e : Tree} → Block us e → Carry N M us → e.Carries N M
  | _, _, .intro _ he hes _, h => by
    obtain ⟨hus, h⟩ := carry_append.mp (carry_cons.mp h).2
    exact ⟨rfl, he.carries hus, hes.carries (carry_append.mp h).1⟩

theorem Statements.carries : {us : List Token} → {es : List Tree} → Statements us es →
    Carry N M us → CarriesAll N M es
  | _, _, .nil, _ => trivial
  | _, _, .cons he hes, h =>
    ⟨he.carries (carry_append.mp h).1, hes.carries (carry_append.mp h).2⟩

end

theorem MoreParameters.carries : {us : List Token} → {xs : List Label} → MoreParameters us xs →
    Carry N M us → CarriesAll N M (xs.map (.leaf .parameter))
  | _, _, .none, _ => trivial
  | _, _, .some _ hk hxs, h => by
    obtain ⟨hx, h⟩ := carry_cons.mp (carry_cons.mp h).2
    exact ⟨carries_leaf (hx.name hk), hxs.carries h⟩

theorem Parameters.carries {us : List Token} {xs : List Label} (hxs : Parameters us xs)
    (h : Carry N M us) : CarriesAll N M (xs.map (.leaf .parameter)) := by
  cases hxs with
  | none => trivial
  | some hk hxs =>
    obtain ⟨hx, h⟩ := carry_cons.mp h
    exact ⟨carries_leaf (hx.name hk), hxs.carries h⟩

theorem Declaration.carries {us : List Token} {e : Tree} (he : Declaration us e)
    (h : Carry N M us) : e.Carries N M := by
  cases he with
  | intro _ hk _ _ hparams _ hb =>
    obtain ⟨-, h⟩ := carry_cons.mp h
    obtain ⟨hf, h⟩ := carry_cons.mp h
    obtain ⟨hus, hvs⟩ := carry_append.mp (carry_cons.mp h).2
    exact ⟨hf.name hk, hb.carries (carry_cons.mp hvs).2, hparams.carries hus⟩

theorem Elements.carries {us : List Token} {es : List Tree} (hes : Elements us es)
    (h : Carry N M us) : CarriesAll N M es := by
  induction hes with
  | nil => trivial
  | assignment he _ ih =>
    obtain ⟨hus, hvs⟩ := carry_append.mp h
    exact ⟨he.carries hus, ih hvs⟩
  | declaration he _ ih =>
    obtain ⟨hus, hvs⟩ := carry_append.mp h
    exact ⟨he.carries hus, ih hvs⟩

end Grammar

theorem parseProgram_carries {N M : Label → Prop} {ts : List Token} {p : Program}
    (hts : ∀ t ∈ ts, t.Carries N M) (h : parseProgram ts = .ok p) :
    Tree.CarriesAll N M (Stmt.toTrees p) := by
  rcases parseProgram_cases ts with ⟨q, hq, helements, -⟩ | ⟨e, he, -⟩
  · rw [h] at hq
    cases hq
    exact helements.carries fun t ht => hts t ((List.takeWhile_sublist _).subset ht)
  · rw [h] at he
    cases he

theorem parseProgram_proper {ts : List Token} {p : Program} (hts : ∀ t ∈ ts, t.Proper)
    (h : parseProgram ts = .ok p) : Tree.ProperAll (Stmt.toTrees p) :=
  (parseProgram_carries (fun t ht => (hts t ht).carries) h).proper

theorem Stmt.proper_of_mem {ss : List Stmt} (h : Tree.ProperAll (Stmt.toTrees ss)) {S : Stmt}
    (hS : S ∈ ss) : S.toTree.Proper := by
  induction ss with
  | nil => cases hS
  | cons T ss ih =>
    rcases List.mem_cons.mp hS with rfl | hS
    · exact h.1
    · exact ih h.2 hS

end StackLang
