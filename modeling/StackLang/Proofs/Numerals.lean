import StackLang.Numeral
import Mathlib.Algebra.Group.Nat.Defs
import Mathlib.Data.List.Basic

namespace StackLang

namespace Text

theorem trimBy_eq_self {p : Char → Bool} {cs : List Char}
    (hfirst : ∀ c, cs.head? = some c → p c = false)
    (hlast : ∀ c, cs.getLast? = some c → p c = false) : trimBy p cs = cs := by
  have hdrop : ∀ ds : List Char, (∀ c, ds.head? = some c → p c = false) → ds.dropWhile p = ds := by
    intro ds h
    cases ds with
    | nil => rfl
    | cons d ds => rw [List.dropWhile_cons_of_neg (by simp [h d rfl])]
  rw [trimBy, hdrop cs hfirst, hdrop cs.reverse (by simpa using hlast), List.reverse_reverse]

end Text

namespace Numeral

theorem digitValue?_digitChar : ∀ d, d < 10 → Text.digitValue? (Nat.digitChar d) = some d := by
  decide

theorem digitChar_plain : ∀ d, d < 10 → Nat.digitChar d ≠ '_' ∧ Nat.digitChar d ≠ '+' ∧
    Nat.digitChar d ≠ '-' ∧ Text.isBlank (Nat.digitChar d) = false := by
  decide

/-- The decimal digits of `n`, from the first to the last. -/
structure Decimal (n : Nat) (ds : List Nat) : Prop where
  spelled : digits n = ds.map Nat.digitChar
  small : ∀ d ∈ ds, d < 10
  nonempty : ds ≠ []
  value : ofDigits ds = n
  short : ∀ k, 0 < k → n < 10 ^ k → ds.length ≤ k

theorem exists_decimal (n : Nat) : ∃ ds, Decimal n ds := by
  induction n using Nat.strongRecOn with
  | ind n ih =>
    by_cases h : n < 10
    · refine ⟨[n], digits_of_lt h, by simpa using h, by simp, by simp [ofDigits], ?_⟩
      intro k hk _
      exact hk
    · obtain ⟨ds, hds⟩ := ih (n / 10) (by omega)
      refine ⟨ds ++ [n % 10], ?_, ?_, by simp, ?_, ?_⟩
      · rw [digits_of_le (by omega), hds.spelled, List.map_append]
        rfl
      · intro d hd
        rcases List.mem_append.mp hd with hd | hd
        · exact hds.small d hd
        · rw [List.mem_singleton.mp hd]
          omega
      · have hvalue := hds.value
        rw [ofDigits] at hvalue
        rw [ofDigits, List.foldl_append, hvalue, List.foldl_cons, List.foldl_nil]
        omega
      · intro k hk hn
        obtain ⟨k, rfl⟩ : ∃ j, k = j + 1 := ⟨k - 1, by omega⟩
        have hk' : 0 < k := by
          rcases Nat.eq_zero_or_pos k with rfl | hpos
          · omega
          · exact hpos
        have hlength := hds.short k hk' (by rw [Nat.pow_succ] at hn; omega)
        rw [List.length_append, List.length_singleton]
        omega

theorem digitList?_map {ds : List Nat} (hne : ds ≠ []) (hsmall : ∀ d ∈ ds, d < 10) :
    digitList? (ds.map Nat.digitChar) = some ds := by
  induction ds with
  | nil => exact absurd rfl hne
  | cons d ds ih =>
    have hd := digitValue?_digitChar d (hsmall d List.mem_cons_self)
    cases ds with
    | nil =>
      rw [List.map_cons, List.map_nil, digitList?, hd]
      rfl
    | cons e es =>
      have hrest := ih (by simp) fun x hx => hsmall x (List.mem_cons_of_mem d hx)
      have he := (digitChar_plain e (hsmall e (by simp))).1
      rw [List.map_cons, digitList?, hd, hrest]
      · rfl
      · simp
      · exact fun cs h => he (List.cons.inj h).1

theorem writable_iff {n : Int} : Writable n ↔ n.natAbs < 10 ^ maxDigits := by
  rw [Writable, Nat.pow_eq]

theorem unsigned?_digits {n : Nat} (h : n < 10 ^ maxDigits) : unsigned? (digits n) = some n := by
  obtain ⟨ds, hds⟩ := exists_decimal n
  have hlength : ds.length ≤ maxDigits := hds.short maxDigits (by decide) h
  rw [unsigned?, hds.spelled, digitList?_map hds.nonempty hds.small]
  simp [hlength, hds.value]

theorem mem_digits {n : Nat} {c : Char} (h : c ∈ digits n) :
    c ≠ '+' ∧ c ≠ '-' ∧ Text.isBlank c = false := by
  obtain ⟨ds, hds⟩ := exists_decimal n
  rw [hds.spelled] at h
  obtain ⟨d, hd, rfl⟩ := List.mem_map.mp h
  exact (digitChar_plain d (hds.small d hd)).2

theorem digits_ne_nil (n : Nat) : digits n ≠ [] := by
  obtain ⟨ds, hds⟩ := exists_decimal n
  rw [hds.spelled]
  simpa using hds.nonempty

theorem isBlank_of_mem_text {n : Int} {c : Char} (h : c ∈ (text n).toList) :
    Text.isBlank c = false := by
  unfold text at h
  split at h
  next =>
    rw [String.toList_ofList] at h
    rcases List.mem_cons.mp h with rfl | h
    · decide
    · exact (mem_digits h).2.2
  next =>
    rw [String.toList_ofList] at h
    exact (mem_digits h).2.2

theorem text_ne_nil (n : Int) : (text n).toList ≠ [] := by
  unfold text
  split
  next => simp
  next =>
    rw [String.toList_ofList]
    exact digits_ne_nil _

theorem trimBy_text (n : Int) : Text.trimBy isPadding (text n).toList = (text n).toList := by
  have hpad : ∀ c ∈ (text n).toList, isPadding c = false := by
    intro c hc
    simp [isPadding, isBlank_of_mem_text hc]
  exact Text.trimBy_eq_self (fun c hc => hpad c (List.mem_of_head? hc))
    fun c hc => hpad c (List.mem_of_getLast? hc)

theorem read?_text {n : Int} (h : Writable n) : read? (text n).toList = some n := by
  have hread := unsigned?_digits (writable_iff.mp h)
  rw [read?, trimBy_text, text]
  by_cases hn : n < 0
  · rw [if_pos hn, String.toList_ofList]
    have habs : -((n.natAbs : Nat) : Int) = n := by omega
    simp only [hread]
    exact congrArg some habs
  · rw [if_neg hn, String.toList_ofList]
    split
    next rest hcs => exact absurd rfl (mem_digits (hcs ▸ List.mem_cons_self)).1
    next rest hcs => exact absurd rfl (mem_digits (hcs ▸ List.mem_cons_self)).2.1
    next =>
      have habs : ((n.natAbs : Nat) : Int) = n := by omega
      simp only [hread]
      exact congrArg some habs

end Numeral

end StackLang
