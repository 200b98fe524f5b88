import StackLang.Proofs.Labels
import StackLang.Proofs.Numerals
import StackLang.Proofs.Scanning
import Mathlib.Data.List.Permutation

namespace StackLang

/-- A run of characters without the separating ones ends at the first of these. -/
theorem append_inj_of_boundary {p : Char → Bool} {xs ys r r' : List Char}
    (hx : ∀ c ∈ xs, p c = false) (hy : ∀ c ∈ ys, p c = false)
    (hr : ∀ c ∈ r.head?, p c = true) (hr' : ∀ c ∈ r'.head?, p c = true)
    (h : xs ++ r = ys ++ r') : xs = ys ∧ r = r' := by
  have htake : ∀ zs t : List Char, (∀ c ∈ zs, p c = false) → (∀ c ∈ t.head?, p c = true) →
      (zs ++ t).takeWhile (!p ·) = zs := by
    intro zs t hz ht
    rw [List.takeWhile_append_of_pos fun c hc => by simp [hz c hc]]
    cases t with
    | nil => simp
    | cons c t => simp [ht c rfl]
  have hxy : xs = ys := by
    rw [← htake xs r hx hr, h, htake ys r' hy hr']
  subst hxy
  exact ⟨rfl, List.append_cancel_left h⟩

namespace Numeral

theorem digits_injective {m n : Nat} (h : digits m = digits n) : m = n := by
  obtain ⟨ds, hds⟩ := exists_decimal m
  obtain ⟨es, hes⟩ := exists_decimal n
  have hlist := digitList?_map hds.nonempty hds.small
  rw [← hds.spelled, h, hes.spelled, digitList?_map hes.nonempty hes.small] at hlist
  rw [← hds.value, ← hes.value, Option.some.inj hlist]

end Numeral

namespace Label

def Written (v : Label) : Prop :=
  ∃ w, v = some (.word w) ∧ Token.IsName w

def Counted (v : Label) : Prop :=
  ∃ n : Nat, v = some (.int n)

/-- How a label is shown behind a kind. -/
def suffix : Label → List Char
  | none => []
  | some (.word w) => ':' :: w.toList
  | some (.int n) => ':' :: (Numeral.text n).toList

end Label

theorem tokenize_lexical {source : String} {ts : List Token} (h : tokenize source = .ok ts) :
    ∀ t ∈ ts, t.Lexical ∨ t = Token.terminal := by
  rcases tokenize_cases source with ⟨-, us, ⟨ls, _, rfl, -⟩, hus⟩ | ⟨_, _, _, -, -, -, herror⟩
  · rw [h] at hus
    cases hus
    intro t ht
    rcases List.mem_append.mp ht with ht | ht
    · obtain ⟨l, -, rfl⟩ := List.mem_map.mp ht
      exact .inl l.lexical
    · exact .inr (List.mem_singleton.mp ht)
  · rw [h] at herror
    cases herror

theorem tokenize_carries {source : String} {ts : List Token} (h : tokenize source = .ok ts) :
    ∀ t ∈ ts, t.Carries Label.Written Label.Counted := by
  intro t ht
  rcases tokenize_lexical h t ht with hlexical | rfl
  · cases hlexical with
    | symbol hk =>
      have hne := Token.Kind.ne_of_mem (.inl hk)
      exact ⟨fun h => absurd h hne.1, fun h => absurd h hne.2⟩
    | reserved hk =>
      have hne := Token.Kind.ne_of_mem (.inr hk)
      exact ⟨fun h => absurd h hne.1, fun h => absurd h hne.2⟩
    | name hw => exact ⟨fun _ => ⟨_, rfl, hw⟩, by rintro ⟨⟩⟩
    | number n => exact ⟨by rintro ⟨⟩, fun _ => ⟨n, rfl⟩⟩
  · exact ⟨by rintro ⟨⟩, by rintro ⟨⟩⟩

namespace Tree

/-- The characters that end a head. -/
def delimits (c : Char) : Bool :=
  c = ' ' || c = '(' || c = ')'

def head (k : Kind) (v : Label) : List Char :=
  k.text.toList ++ v.suffix

mutual

/-- The text of a tree, whatever the length of its numbers. -/
def spell : Tree → List Char
  | node k v [] => head k v
  | node k v (c :: cs) => '(' :: head k v ++ spellAll (c :: cs) ++ [')']

def spellAll : List Tree → List Char
  | [] => []
  | t :: ts => ' ' :: spell t ++ spellAll ts

end

section Heads

theorem Kind.text_injective {k l : Kind} (h : k.text = l.text) : k = l := by
  have hread : ∀ k : Kind, ofText? k.text = some k := by
    intro k
    cases k with
    | binary op =>
      cases op with
      | _ => decide
    | _ => decide
  have hk := hread k
  rw [h, hread l] at hk
  exact (Option.some.inj hk).symm

theorem Kind.text_plain (k : Kind) :
    k.text.toList ≠ [] ∧ ∀ c ∈ k.text.toList, delimits c = false ∧ c ≠ ':' := by
  have hplain : k.text.toList ≠ [] ∧
      (k.text.toList.all fun c => !delimits c && c != ':') = true := by
    cases k with
    | binary op =>
      cases op with
      | _ => decide
    | _ => decide
  refine ⟨hplain.1, fun c hc => ?_⟩
  have hc := List.all_eq_true.mp hplain.2 c hc
  simpa using hc

/-- The label of a node that was read from a source. -/
abbrev Labelled (k : Kind) (v : Label) : Prop :=
  k.Carries Label.Written Label.Counted v

theorem labelled_sort (k : Kind) : (∀ v, Labelled k v → v = none) ∨
    (∀ v, Labelled k v → v.Written) ∨ ∀ v, Labelled k v → v.Counted := by
  cases k with
  | number => exact .inr (.inr fun _ h => h)
  | identifier | call | functionDecl | parameter => exact .inr (.inl fun _ h => h)
  | _ => exact .inl fun _ h => h

theorem plain_of_isAlphanum {c : Char} (h : c.isAlphanum = true) : delimits c = false := by
  have hne : ∀ d : Char, d.isAlphanum = false → c ≠ d := by
    rintro d hd rfl
    rw [h] at hd
    cases hd
  simp [delimits, hne ' ' (by decide), hne '(' (by decide), hne ')' (by decide)]

theorem plain_of_mem_digits {n : Nat} {c : Char} (h : c ∈ Numeral.digits n) :
    delimits c = false := by
  obtain ⟨ds, hds⟩ := Numeral.exists_decimal n
  rw [hds.spelled] at h
  obtain ⟨d, hd, rfl⟩ := List.mem_map.mp h
  have hplain : ∀ d, d < 10 → delimits (Nat.digitChar d) = false := by decide
  exact hplain d (hds.small d hd)

theorem suffix_natural (n : Nat) :
    Label.suffix (some (.int n)) = ':' :: Numeral.digits n := by
  have hn : ¬ (n : Int) < 0 := by omega
  rw [Label.suffix, Numeral.text, if_neg hn, String.toList_ofList]
  rfl

theorem suffix_plain {k : Kind} {v : Label} (h : Labelled k v) :
    ∀ c ∈ v.suffix, delimits c = false := by
  rcases labelled_sort k with hnone | hname | hnumber
  · rw [hnone v h]
    exact fun c hc => by cases hc
  · obtain ⟨w, rfl, hw⟩ := hname v h
    intro c hc
    rcases List.mem_cons.mp hc with rfl | hc
    · decide
    · exact plain_of_isAlphanum (List.all_eq_true.mp hw.all c hc)
  · obtain ⟨n, rfl⟩ := hnumber v h
    rw [suffix_natural]
    intro c hc
    rcases List.mem_cons.mp hc with rfl | hc
    · decide
    · exact plain_of_mem_digits hc

theorem suffix_injective {k : Kind} {v v' : Label} (h : Labelled k v) (h' : Labelled k v')
    (hs : v.suffix = v'.suffix) : v = v' := by
  rcases labelled_sort k with hnone | hname | hnumber
  · rw [hnone v h, hnone v' h']
  · obtain ⟨w, rfl, -⟩ := hname v h
    obtain ⟨w', rfl, -⟩ := hname v' h'
    rw [String.toList_inj.mp (List.cons.inj hs).2]
  · obtain ⟨n, rfl⟩ := hnumber v h
    obtain ⟨n', rfl⟩ := hnumber v' h'
    rw [suffix_natural, suffix_natural] at hs
    rw [Numeral.digits_injective (List.cons.inj hs).2]

theorem head_plain {k : Kind} {v : Label} (h : Labelled k v) :
    ∀ c ∈ head k v, delimits c = false := by
  intro c hc
  rcases List.mem_append.mp hc with hc | hc
  · exact (k.text_plain.2 c hc).1
  · exact suffix_plain h c hc

theorem head_injective {k k' : Kind} {v v' : Label} (h : Labelled k v) (h' : Labelled k' v')
    (hhead : head k v = head k' v') : k = k' ∧ v = v' := by
  have hcolon : ∀ v : Label, ∀ c ∈ v.suffix.head?, (c == ':') = true := by
    intro v c hc
    rcases v with _ | ⟨w | n⟩
    · cases hc
    · cases hc
      rfl
    · cases hc
      rfl
  have htext : ∀ k : Kind, ∀ c ∈ k.text.toList, (c == ':') = false :=
    fun k c hc => by simp [(k.text_plain.2 c hc).2]
  -- The text of the kind ends at the first colon, or with the head.
  obtain ⟨hkind, hs⟩ :=
    append_inj_of_boundary (htext k) (htext k') (hcolon v) (hcolon v') hhead
  obtain rfl := Kind.text_injective (String.toList_inj.mp hkind)
  exact ⟨rfl, suffix_injective h h' hs⟩

end Heads

section Spellings

/-- Nothing that follows goes on with a head. -/
def Ends (r : List Char) : Prop :=
  ∀ c ∈ r.head?, delimits c = true

theorem ends_spellAll (ts : List Tree) (r : List Char) : Ends (spellAll ts ++ ')' :: r) := by
  cases ts with
  | nil =>
    intro c hc
    cases hc
    rfl
  | cons t ts =>
    intro c hc
    cases hc
    rfl

theorem head_append_ne {k : Kind} {v : Label} (h : Labelled k v) (r s : List Char) :
    head k v ++ r ≠ '(' :: s := by
  intro heq
  cases hhead : head k v with
  | nil => exact k.text_plain.1 (List.append_eq_nil_iff.mp hhead).1
  | cons c cs =>
    rw [hhead] at heq
    obtain ⟨rfl, -⟩ := List.cons.inj heq
    have hplain := head_plain h '(' (hhead ▸ List.mem_cons_self)
    cases hplain

-- The induction is on the first tree. What stands behind it must be arbitrary, since the texts of
-- the children follow one another.
mutual

/-- The text of a tree determines the tree and where the text ends. -/
theorem spell_append_inj : (t t' : Tree) → {r r' : List Char} →
    t.Carries Label.Written Label.Counted → t'.Carries Label.Written Label.Counted →
    Ends r → Ends r' → spell t ++ r = spell t' ++ r' → t = t' ∧ r = r'
  | node k v [], node k' v' [], r, r', h, h', hr, hr', heq => by
    obtain ⟨hhead, hrest⟩ :=
      append_inj_of_boundary (head_plain h.1) (head_plain h'.1) hr hr' heq
    obtain ⟨rfl, rfl⟩ := head_injective h.1 h'.1 hhead
    exact ⟨rfl, hrest⟩
  | node k v [], node k' v' (c' :: cs'), r, r', h, _, _, _, heq => by
    rw [spell, spell] at heq
    exact absurd heq (head_append_ne h.1 _ _)
  | node k v (c :: cs), node k' v' [], r, r', _, h', _, _, heq => by
    rw [spell, spell] at heq
    exact absurd heq.symm (head_append_ne h'.1 _ _)
  | node k v (c :: cs), node k' v' (c' :: cs'), r, r', h, h', _, _, heq => by
    simp only [spell, List.cons_append, List.append_assoc, List.nil_append] at heq
    obtain ⟨hhead, hrest⟩ := append_inj_of_boundary (head_plain h.1) (head_plain h'.1)
      (ends_spellAll (c :: cs) r) (ends_spellAll (c' :: cs') r') (List.cons.inj heq).2
    obtain ⟨rfl, rfl⟩ := head_injective h.1 h'.1 hhead
    obtain ⟨hcs, hr⟩ := spellAll_append_inj (c :: cs) (c' :: cs') h.2 h'.2 hrest
    rw [hcs]
    exact ⟨rfl, hr⟩

theorem spellAll_append_inj : (ts ts' : List Tree) → {r r' : List Char} →
    CarriesAll Label.Written Label.Counted ts → CarriesAll Label.Written Label.Counted ts' →
    spellAll ts ++ ')' :: r = spellAll ts' ++ ')' :: r' → ts = ts' ∧ r = r'
  | [], [], _, _, _, _, heq => ⟨rfl, (List.cons.inj heq).2⟩
  | [], t' :: ts', _, _, _, _, heq => by
    rw [spellAll, spellAll] at heq
    exact absurd (List.cons.inj heq).1 (by decide)
  | t :: ts, [], _, _, _, _, heq => by
    rw [spellAll, spellAll] at heq
    exact absurd (List.cons.inj heq).1 (by decide)
  | t :: ts, t' :: ts', r, r', h, h', heq => by
    simp only [spellAll, List.cons_append, List.append_assoc] at heq
    obtain ⟨rfl, hrest⟩ := spell_append_inj t t' h.1 h'.1 (ends_spellAll ts r)
      (ends_spellAll ts' r') (List.cons.inj heq).2
    obtain ⟨rfl, hr⟩ := spellAll_append_inj ts ts' h.2 h'.2 hrest
    exact ⟨rfl, hr⟩

end

end Spellings

section Texts

theorem tagged_ok {k : Kind} {v : Label} {a : String} (h : v.tagged k.text ":" "" = .ok a) :
    a.toList = head k v := by
  rcases v with _ | ⟨w | n⟩
  · cases h
    simp [head, Label.suffix]
  · cases h
    simp [head, Label.suffix]
  · rw [Label.tagged, Literal.text, Numeral.write] at h
    split at h
    next =>
      cases h
      simp [head, Label.suffix]
    next => cases h

theorem toList_intercalate_blank (part : String) (parts : List String) :
    ' ' :: (" ".intercalate (part :: parts)).toList =
      (part :: parts).flatMap fun s => ' ' :: s.toList := by
  rw [String.toList_intercalate]
  induction parts generalizing part with
  | nil => simp
  | cons next parts ih =>
    rw [List.map_cons, List.map_cons, List.intercalate_cons_cons, List.flatMap_cons, ← ih next]
    simp

theorem textAll_cons_ok {t : Tree} {ts : List Tree} {parts : List String}
    (h : textAll (t :: ts) = .ok parts) :
    ∃ a rest, text t = .ok a ∧ textAll ts = .ok rest ∧ parts = a :: rest := by
  rw [textAll] at h
  cases ht : text t with
  | error e =>
    rw [ht] at h
    cases h
  | ok a =>
    cases hts : textAll ts with
    | error e =>
      rw [ht] at h
      simp only [hts] at h
      cases h
    | ok rest =>
      rw [ht] at h
      simp only [hts] at h
      cases h
      exact ⟨a, rest, rfl, rfl, rfl⟩

mutual

theorem toList_of_text : (t : Tree) → {a : String} → t.text = .ok a → a.toList = spell t
  | node k v cs, a, h => by
    rw [text] at h
    cases htag : v.tagged k.text ":" "" with
    | error e =>
      rw [htag] at h
      cases h
    | ok b =>
      rw [htag] at h
      cases cs with
      | nil =>
        cases h
        exact tagged_ok htag
      | cons c cs =>
        cases hparts : textAll (c :: cs) with
        | error e =>
          simp only [hparts] at h
          cases h
        | ok parts =>
          simp only [hparts] at h
          cases h
          have hall := toList_of_textAll (c :: cs) hparts
          obtain ⟨part, rest, -, -, rfl⟩ := textAll_cons_ok hparts
          rw [spell, ← hall, ← toList_intercalate_blank, ← tagged_ok htag]
          simp

theorem toList_of_textAll : (ts : List Tree) → {parts : List String} →
    textAll ts = .ok parts → (parts.flatMap fun s => ' ' :: s.toList) = spellAll ts
  | [], parts, h => by
    rw [textAll] at h
    cases h
    rfl
  | t :: ts, parts, h => by
    obtain ⟨a, rest, ht, hts, rfl⟩ := textAll_cons_ok h
    rw [List.flatMap_cons, toList_of_textAll ts hts, toList_of_text t ht, spellAll]

end

end Texts

end Tree

/-- Two sources whose trees have the same text have the same tree. -/
theorem printed_tree_unambiguous {a b text : String} {ts us : List Token} {p q : Program}
    (ha : tokenize a = .ok ts) (hp : parseProgram ts = .ok p) (hb : tokenize b = .ok us)
    (hq : parseProgram us = .ok q) (hptext : p.toTree.text = .ok text)
    (hqtext : q.toTree.text = .ok text) : p.toTree = q.toTree := by
  have hspell : Tree.spell p.toTree ++ [] = Tree.spell q.toTree ++ [] := by
    rw [← Tree.toList_of_text p.toTree hptext, ← Tree.toList_of_text q.toTree hqtext]
  have hends : Tree.Ends [] := fun c hc => by cases hc
  have hcarries : ∀ {source : String} {ts : List Token} {p : Program}, tokenize source = .ok ts →
      parseProgram ts = .ok p → p.toTree.Carries Label.Written Label.Counted :=
    fun hscan hparse => ⟨rfl, parseProgram_carries (tokenize_carries hscan) hparse⟩
  exact (Tree.spell_append_inj _ _ (hcarries ha hp) (hcarries hb hq) hends hends hspell).1

/-- The second source has more blanks and parentheses than the first one, and a zero in front of a
number. -/
theorem printed_tree_unambiguous_blanks :
    ∃ (ts us : List Token) (p q : Program) (text : String),
      tokenize "function f(x){x=x+1*2;return f;}" = .ok ts ∧ parseProgram ts = .ok p ∧
      tokenize "function f( x ) {  x = (x) + (1 * 02); return f; }" = .ok us ∧
      parseProgram us = .ok q ∧ p.toTree.text = .ok text ∧ q.toTree.text = .ok text ∧
      ts ≠ us ∧ p.toTree = q.toTree := by
  let f : Label := some (.word "f")
  let x : Label := some (.word "x")
  let name (x : Label) : Token := ⟨.identifier, x⟩
  let number (k : Int) : Token := ⟨.number, some (.int k)⟩
  let opening : List Token :=
    [⟨.functionWord, none⟩, name f, ⟨.lparen, none⟩, name x, ⟨.rparen, none⟩, ⟨.lbrace, none⟩,
     name x, ⟨.assign, none⟩]
  let closing : List Token :=
    [⟨.semi, none⟩, ⟨.returnWord, none⟩, name f, ⟨.semi, none⟩, ⟨.rbrace, none⟩, ⟨.eof, none⟩]
  let ts : List Token :=
    opening ++ [name x, ⟨.plus, none⟩, number 1, ⟨.star, none⟩, number 2] ++ closing
  let us : List Token :=
    opening ++ [⟨.lparen, none⟩, name x, ⟨.rparen, none⟩, ⟨.plus, none⟩, ⟨.lparen, none⟩, number 1,
      ⟨.star, none⟩, number 2, ⟨.rparen, none⟩] ++ closing
  let product : Expr := .binary .mul (.num (some (.int 1))) (.num (some (.int 2)))
  let p : Program := [.func f [x] [.assign x (.binary .add (.var x) product), .ret (.var f)]]
  have hts : tokenize "function f(x){x=x+1*2;return f;}" = .ok ts := by decide +kernel
  have hus : tokenize "function f( x ) {  x = (x) + (1 * 02); return f; }" = .ok us := by
    decide +kernel
  have hp : parseProgram ts = .ok p := by cbv
  have hq : parseProgram us = .ok p := by cbv
  have htext : p.toTree.text = .ok ("(toplevel (function_decl:f (block (assignment identifier:x " ++
      "(add identifier:x (mul number:1 number:2))) (return identifier:f)) parameter:x))") := by
    decide +kernel
  exact ⟨ts, us, p, p, _, hts, hp, hus, hq, htext, htext, by decide +kernel,
    printed_tree_unambiguous hts hp hus hq htext htext⟩

end StackLang
