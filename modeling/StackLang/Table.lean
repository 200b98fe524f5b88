import StackLang.Label

namespace StackLang

/-- A table from labels to values, in the order in which the labels were first inserted. -/
structure Table (α : Type) where
  entries : List (Label × α)
  distinct : (entries.map Prod.fst).Nodup
deriving Repr

namespace Table

variable {α : Type}

instance : EmptyCollection (Table α) :=
  ⟨⟨[], List.Pairwise.nil⟩⟩

def get? (t : Table α) (x : Label) : Option α :=
  t.entries.lookup x

def contains (t : Table α) (x : Label) : Bool :=
  (t.get? x).isSome

def size (t : Table α) : Nat :=
  t.entries.length

@[simp]
theorem get?_empty (x : Label) : (∅ : Table α).get? x = none := rfl

/-- The labels without a value are those that do not occur. -/
theorem get?_eq_none_iff {t : Table α} {x : Label} :
    t.get? x = none ↔ x ∉ t.entries.map Prod.fst := by
  simp only [get?, List.lookup_eq_none_iff, bne_iff_ne, List.mem_map, not_exists, not_and]
  exact forall_congr' fun e => forall_congr' fun _ => ne_comm

/-- A new label goes to the end; the value of an old one is replaced where it stands. -/
def insertEntry (x : Label) (a : α) : List (Label × α) → List (Label × α)
  | [] => [(x, a)]
  | (y, b) :: rest => if y = x then (y, a) :: rest else (y, b) :: insertEntry x a rest

theorem insertEntry_of_not_mem {x : Label} {es : List (Label × α)} (h : x ∉ es.map Prod.fst)
    (a : α) : insertEntry x a es = es ++ [(x, a)] := by
  induction es with
  | nil => rfl
  | cons e es ih =>
    rw [List.map_cons, List.mem_cons, not_or] at h
    rw [insertEntry, if_neg (Ne.symm h.1), ih h.2, List.cons_append]

theorem map_fst_insertEntry {x : Label} {es : List (Label × α)} (h : x ∈ es.map Prod.fst) (a : α) :
    (insertEntry x a es).map Prod.fst = es.map Prod.fst := by
  induction es with
  | nil => simp at h
  | cons e es ih =>
    rw [insertEntry]
    split
    next => rfl
    next hne =>
      have hx : x ∈ es.map Prod.fst := List.mem_of_ne_of_mem (Ne.symm hne) h
      rw [List.map_cons, ih hx, List.map_cons]

theorem distinct_insertEntry {es : List (Label × α)} (h : (es.map Prod.fst).Nodup) (x : Label)
    (a : α) : ((insertEntry x a es).map Prod.fst).Nodup := by
  by_cases hx : x ∈ es.map Prod.fst
  · rwa [map_fst_insertEntry hx]
  · rw [insertEntry_of_not_mem hx, List.map_append]
    refine List.nodup_append.mpr ⟨h, List.pairwise_singleton _ x, fun y hy z hz => ?_⟩
    rw [List.mem_singleton.mp hz]
    rintro rfl
    exact hx hy

theorem lookup_insertEntry (x y : Label) (a : α) (es : List (Label × α)) :
    (insertEntry x a es).lookup y = if y = x then some a else es.lookup y := by
  induction es with
  | nil => grind [insertEntry]
  | cons e es ih => grind [insertEntry]

def insert (t : Table α) (x : Label) (a : α) : Table α :=
  ⟨insertEntry x a t.entries, distinct_insertEntry t.distinct x a⟩

/-- An insertion is seen at its label and nowhere else. -/
theorem get?_insert (t : Table α) (x y : Label) (a : α) :
    (t.insert x a).get? y = if y = x then some a else t.get? y :=
  lookup_insertEntry x y a t.entries

/-- A new label comes last. -/
theorem entries_insert {t : Table α} {x : Label} (h : t.get? x = none) (a : α) :
    (t.insert x a).entries = t.entries ++ [(x, a)] :=
  insertEntry_of_not_mem (get?_eq_none_iff.mp h) a

theorem size_insert {t : Table α} {x : Label} (h : t.get? x = none) (a : α) :
    (t.insert x a).size = t.size + 1 := by
  rw [size, entries_insert h, List.length_append]
  rfl

end Table

end StackLang
