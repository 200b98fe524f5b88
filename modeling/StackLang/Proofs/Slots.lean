import StackLang.Proofs.Evaluation
import StackLang.Proofs.Layout
import Mathlib.Data.List.Basic
import Mathlib.Data.List.Infix

namespace StackLang

/-- The labels of the table are `names`, numbered from zero on. -/
def Table.Numbers (t : Table Nat) (names : List Label) : Prop :=
  t.entries = names.zipIdx

theorem Table.numbers_nil : Numbers {} [] := rfl

namespace Table.Numbers

variable {t : Table Nat} {names : List Label}

theorem nodup (h : t.Numbers names) : names.Nodup := by
  have hdistinct := t.distinct
  rwa [h, List.zipIdx_map_fst] at hdistinct

theorem size (h : t.Numbers names) : t.size = names.length := by
  rw [Table.size, h, List.length_zipIdx]

theorem lookup_zipIdx (x : Label) (names : List Label) (k : Nat) :
    (names.zipIdx k).lookup x = if x ∈ names then some (k + names.idxOf x) else none := by
  induction names generalizing k with
  | nil => rfl
  | cons y names ih =>
    rw [List.zipIdx_cons, List.lookup_cons, ih]
    by_cases hy : x = y
    · simp [hy]
    · simp only [beq_false_of_ne hy, List.mem_cons, hy, false_or,
        List.idxOf_cons_ne names (Ne.symm hy)]
      split
      next =>
        rw [Option.some.injEq]
        omega
      next => rfl

theorem get? (h : t.Numbers names) (x : Label) :
    t.get? x = if x ∈ names then some (names.idxOf x) else none := by
  rw [Table.get?, h, lookup_zipIdx]
  simp only [Nat.zero_add]

theorem contains (h : t.Numbers names) (x : Label) : t.contains x = true ↔ x ∈ names := by
  rw [Table.contains, h.get?]
  split
  next hx => simp [hx]
  next hx => simp [hx]

/-- A new name gets the next number. -/
theorem insert (h : t.Numbers names) {x : Label} (hx : x ∉ names) :
    (t.insert x t.size).Numbers (names ++ [x]) := by
  have hnone : t.get? x = none := by rw [h.get?, if_neg hx]
  rw [Numbers, entries_insert hnone, h, h.size, List.zipIdx_append, Nat.zero_add]
  rfl

end Table.Numbers

/-- The tables of a scope in whose text `names` are assigned. -/
structure Scope.Numbers (σ : Scope) (names params : List Label) : Prop where
  locals : σ.locals.Numbers names
  params : σ.params = Emitter.paramSlots params

theorem numbers_allot {σ : Scope} {names : List Label} (h : σ.locals.Numbers names) (x : Label) :
    (σ.allot x).locals.Numbers (noteName names x) := by
  have hget := h.get? x
  by_cases hx : x ∈ names
  · rw [if_pos hx] at hget
    rwa [Scope.allot_of_some hget, noteName, if_pos hx]
  · rw [if_neg hx] at hget
    rw [Scope.allot_of_none hget, noteName, if_neg hx]
    exact h.insert hx

namespace Stmt

mutual

/-- The slots behind a statement number the names assigned up to there. -/
theorem numbers_context : (s : Stmt) → {Γ : Context} → {names : List Label} →
    Γ.scope.locals.Numbers names → (s.context Γ).scope.locals.Numbers (s.assigned names)
  | assign x _, _, _, h => numbers_allot h x
  | noop, _, _, h => h
  | ifThen _ t, _, _, h => numbers_context t h
  | ifElse _ t e, _, _, h => numbers_context e (numbers_context t h)
  | loop _ b, _, _, h => numbers_context b h
  | func _ _ _, _, _, h => h
  | ret _, _, _, h => h
  | block ss, _, _, h => numbers_contextAll ss h

theorem numbers_contextAll : (ss : List Stmt) → {Γ : Context} → {names : List Label} →
    Γ.scope.locals.Numbers names →
    (contextAll Γ ss).scope.locals.Numbers (assignedAll names ss)
  | [], _, _, h => h
  | s :: ss, _, _, h => numbers_contextAll ss (numbers_context s h)

end

theorem prefix_noteName (names : List Label) (x : Label) : names <+: noteName names x := by
  unfold noteName
  split
  next => exact List.prefix_rfl
  next => exact List.prefix_append _ _

theorem mem_noteName (names : List Label) (x : Label) : x ∈ noteName names x := by
  unfold noteName
  split
  next h => exact h
  next => simp

mutual

theorem prefix_assigned : (s : Stmt) → (names : List Label) → names <+: s.assigned names
  | assign x _, names => prefix_noteName names x
  | noop, _ => List.prefix_rfl
  | ifThen _ t, names => prefix_assigned t names
  | ifElse _ t e, names => (prefix_assigned t names).trans (prefix_assigned e _)
  | loop _ b, names => prefix_assigned b names
  | func _ _ _, _ => List.prefix_rfl
  | ret _, _ => List.prefix_rfl
  | block ss, names => prefix_assignedAll ss names

theorem prefix_assignedAll : (ss : List Stmt) → (names : List Label) →
    names <+: assignedAll names ss
  | [], _ => List.prefix_rfl
  | s :: ss, names => (prefix_assigned s names).trans (prefix_assignedAll ss _)

end

end Stmt

theorem idxOf_of_prefix {names all : List Label} (h : names <+: all) {x : Label}
    (hx : x ∈ names) : all.idxOf x = names.idxOf x := by
  obtain ⟨rest, rfl⟩ := h
  exact List.idxOf_append_of_mem hx

theorem paramSlots_cons (x : Label) (params : List Label) :
    Emitter.paramSlots (x :: params) = (Emitter.paramSlots params).insert x params.length := by
  simp [Emitter.paramSlots, List.zipIdx_append]

theorem argument_cons (x y : Label) (params : List Label) (v : Int) (args : List Int) :
    Program.argument (y :: params) (v :: args) x =
      if x = y then some v else Program.argument params args x := by
  unfold Program.argument
  rw [List.zip_cons_cons, List.lookup_cons]
  by_cases h : x = y
  · simp [h]
  · rw [beq_false_of_ne h, if_neg h]

/-- The slot of a parameter leads to its argument, counted from the last one. -/
theorem paramSlots_argument {params : List Label} {args : List Int} {x : Label} {v : Int}
    (hl : args.length = params.length) (h : Program.argument params args x = some v) :
    ∃ slot, (Emitter.paramSlots params).get? x = some slot ∧ slot < args.length ∧
      args[args.length - 1 - slot]? = some v := by
  induction params generalizing args with
  | nil => simp [Program.argument] at h
  | cons y params ih =>
    cases args with
    | nil => simp at hl
    | cons w args =>
      rw [argument_cons] at h
      simp only [List.length_cons, Nat.add_right_cancel_iff] at hl
      rw [paramSlots_cons, Table.get?_insert]
      by_cases hx : x = y
      · rw [if_pos hx] at h ⊢
        exact ⟨params.length, rfl, by simp [hl], by simpa [hl] using h⟩
      · rw [if_neg hx] at h ⊢
        obtain ⟨slot, hs, hlt, hv⟩ := ih hl h
        refine ⟨slot, hs, by simp only [List.length_cons]; omega, ?_⟩
        rw [List.length_cons, show args.length + 1 - 1 - slot = args.length - 1 - slot + 1 by omega]
        exact hv

end StackLang
