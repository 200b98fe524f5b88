import StackLang.Proofs.Moves
import StackLang.Proofs.Slots

namespace StackLang

theorem getElem?_append_of_some {xs : List Int} {i : Nat} {v : Int} (h : xs[i]? = some v)
    (ys : List Int) : (xs ++ ys)[i]? = some v := by
  rw [List.getElem?_append_left (List.getElem?_eq_some_iff.mp h).1, h]

/-- The stack holds the variables of an activation whose frame has its base at `b`. `all` are the
names that are assigned anywhere in the function. A local variable has its cell above the base and
a parameter below it; what else is on the stack is left open. -/
structure Frame (all : List Label) (params : Table Nat) (arg : Label → Option Int)
    (env : Table Int) (b : Nat) (st : List Int) : Prop where
  base : b < st.length
  locals : ∀ x v, env.get? x = some v → x ∈ all ∧ st[b + all.idxOf x + 1]? = some v
  params : ∀ x v, arg x = some v →
    ∃ slot, params.get? x = some slot ∧ slot < b ∧ st[b - slot - 1]? = some v

namespace Frame

variable {all : List Label} {params : Table Nat} {arg : Label → Option Int} {env : Table Int}
  {b : Nat} {st : List Int}

theorem append (h : Frame all params arg env b st) (cells : List Int) :
    Frame all params arg env b (st ++ cells) where
  base := by
    have := h.base
    simp only [List.length_append]
    omega
  locals x v hx := by
    obtain ⟨hall, hv⟩ := h.locals x v hx
    exact ⟨hall, getElem?_append_of_some hv cells⟩
  params x v hx := by
    obtain ⟨slot, hs, hb, hv⟩ := h.params x v hx
    exact ⟨slot, hs, hb, getElem?_append_of_some hv cells⟩

/-- A write to the cell of a local variable is seen there and nowhere else. -/
theorem write (h : Frame all params arg env b st) {x : Label} (hx : x ∈ all) (v : Int) :
    Frame all params arg (env.insert x v) b (Machine.written st (b + all.idxOf x + 1) v) where
  base := Nat.lt_of_lt_of_le h.base (Machine.length_le_written _ _ _)
  locals y w hy := by
    rw [Table.get?_insert] at hy
    by_cases hyx : y = x
    · rw [if_pos hyx] at hy
      cases hy
      subst hyx
      exact ⟨hx, Machine.getElem?_written_self _ _ _⟩
    · rw [if_neg hyx] at hy
      obtain ⟨hall, hw⟩ := h.locals y w hy
      have hne : all.idxOf y ≠ all.idxOf x := fun he => hyx (List.idxOf_inj hall |>.mp he)
      exact ⟨hall, Machine.getElem?_written_of_ne hw (by omega) v⟩
  params y w hy := by
    obtain ⟨slot, hs, hb, hw⟩ := h.params y w hy
    exact ⟨slot, hs, hb, Machine.getElem?_written_of_ne hw (by omega) v⟩

theorem enter {names : List Label} {args : List Int} (hl : args.length = names.length)
    (S : List Int) (cell target saved : Int) :
    Frame all (Emitter.paramSlots names) (Program.argument names args) {}
      (S.length + 2 + args.length) (S ++ cell :: target :: (args ++ [saved])) where
  base := by
    simp only [List.length_append, List.length_cons, List.length_nil]
    omega
  locals x v hx := by cases hx
  params x v hx := by
    obtain ⟨slot, hs, hlt, hv⟩ := paramSlots_argument hl hx
    refine ⟨slot, hs, by omega, ?_⟩
    have hindex : S.length + 2 + args.length - slot - 1 - S.length =
        args.length - 1 - slot + 1 + 1 := by omega
    rw [List.getElem?_append_right (by omega), hindex, List.getElem?_cons_succ,
      List.getElem?_cons_succ]
    exact getElem?_append_of_some hv _

theorem initial (names : List Label) (x : Int) :
    Frame all (Emitter.paramSlots names) (Program.argument names []) {} 0 [x] where
  base := by simp
  locals x v hx := by cases hx
  params x v hx := by simp [Program.argument] at hx

end Frame

/-- The context `Γ` knows the names assigned so far by the numbers that they have in `all`. -/
structure Context.Names (Γ : Context) (names all : List Label) : Prop where
  locals : Γ.scope.locals.Numbers names
  within : names <+: all

namespace Context.Names

variable {Γ : Context} {names all : List Label}

theorem slot (h : Γ.Names names all) {x : Label} (hx : x ∈ names) :
    Γ.scope.locals.get? x = some (all.idxOf x) := by
  rw [h.locals.get?, if_pos hx, idxOf_of_prefix h.within hx]

theorem allot (h : Γ.Names names all) {x : Label} (hx : noteName names x <+: all) :
    (Γ.allot x).Names (noteName names x) all :=
  ⟨numbers_allot h.locals x, hx⟩

theorem context (h : Γ.Names names all) {s : Stmt} (hs : s.assigned names <+: all) :
    (s.context Γ).Names (s.assigned names) all :=
  ⟨Stmt.numbers_context s h.locals, hs⟩

end Context.Names

theorem Frame.execute_load {all names : List Label} {Γ : Context} {arg : Label → Option Int}
    {env : Table Int} {b pc : Nat} {argc : Int} {st : List Int} {x : Label} {v : Int}
    (h : Frame all Γ.scope.params arg env b st) (hn : Γ.Names names all)
    (hv : Stmt.valueOf arg names env x = some v) (halting : Bool) (sink : Sink) (size : Nat) :
    (Machine.execute halting sink size (Γ.load x)).run (Machine.running pc b argc st) =
      .ok none (Machine.running (pc + 1) b argc (st ++ [v])) := by
  unfold Stmt.valueOf at hv
  split at hv
  next hx =>
    simp only [Context.load, hn.slot hx]
    exact Machine.execute_loadl halting sink size (h.locals x v hv).2
  next hx =>
    have hnone : Γ.scope.locals.get? x = none := by
      rw [hn.locals.get?, if_neg hx]
    obtain ⟨slot, hs, hb, hw⟩ := h.params x v hv
    simp only [Context.load, hnone, hs, Option.getD_some]
    exact Machine.execute_loada halting sink size hb hw

end StackLang
