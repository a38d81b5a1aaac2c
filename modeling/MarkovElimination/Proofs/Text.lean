import Mathlib
import MarkovElimination.Text.Blank

/-! # Cut and trimmed texts

A text is cut at its **first** separator, so nothing before the cut is one. Trimming takes away a
run of blanks at each end and nothing else. -/

namespace MarkovElimination.Text

variable {p : Char → Bool} {text before after : List Char}

/-! ### Cutting at a separator -/

/-- Without a separator a text is not cut. -/
theorem splitOnce_eq_none_iff : splitOnce p text = none ↔ ∀ c ∈ text, p c = false := by
  induction text with
  | nil => simp [splitOnce]
  | cons c text ih =>
    rw [splitOnce, List.forall_mem_cons]
    split
    case isTrue hc => simp [hc]
    case isFalse hc => simp [hc, ih]

/-- A text is cut at its first separator. -/
theorem splitOnce_append {c : Char} (hbefore : ∀ d ∈ before, p d = false) (hc : p c = true) :
    splitOnce p (before ++ c :: after) = some (before, after) := by
  induction before with
  | nil => simp [splitOnce, hc]
  | cons d before ih =>
    obtain ⟨hd, hbefore⟩ := List.forall_mem_cons.1 hbefore
    rw [List.cons_append, splitOnce, if_neg (by simp [hd]), ih hbefore]
    rfl

theorem forall_before_of_splitOnce (h : splitOnce p text = some (before, after)) :
    ∀ c ∈ before, p c = false := by
  induction text generalizing before after with
  | nil => cases h
  | cons c text ih =>
    rw [splitOnce] at h
    split at h
    case isTrue =>
      obtain ⟨rfl, -⟩ := Prod.mk.inj (Option.some.inj h)
      simp
    case isFalse hc =>
      obtain ⟨⟨b, a⟩, hs, heq⟩ := Option.map_eq_some_iff.1 h
      obtain ⟨rfl, -⟩ := Prod.mk.inj heq
      exact List.forall_mem_cons.2 ⟨by simpa using hc, ih hs⟩

/-! ### Trimming -/

/-- A text is its trimmed form between two runs of blanks. -/
theorem exists_eq_append_trim (text : List Char) : ∃ front back,
    text = front ++ (trim text ++ back) ∧ (∀ c ∈ front, isBlank c = true) ∧
      ∀ c ∈ back, isBlank c = true := by
  refine ⟨text.takeWhile isBlank, ((text.dropWhile isBlank).reverse.takeWhile isBlank).reverse,
    ?_, fun c hc => List.mem_takeWhile_imp hc,
    fun c hc => List.mem_takeWhile_imp (List.mem_reverse.1 hc)⟩
  rw [trim, ← List.reverse_append, List.takeWhile_append_dropWhile, List.reverse_reverse,
    List.takeWhile_append_dropWhile]

/-- Trimming leaves a text without blanks alone. -/
theorem trim_eq_self (h : ∀ c ∈ text, isBlank c = false) : trim text = text := by
  have hdrop {l : List Char} (hl : ∀ c ∈ l, isBlank c = false) : l.dropWhile isBlank = l := by
    cases l with
    | nil => rfl
    | cons c l => exact List.dropWhile_cons_of_neg (by simp [hl c List.mem_cons_self])
  rw [trim, hdrop h, hdrop (fun c hc => h c (List.mem_reverse.1 hc)), List.reverse_reverse]

/-- Trimming keeps the characters that are not blank. -/
theorem count_trim {c : Char} (hc : isBlank c = false) (text : List Char) :
    (trim text).count c = text.count c := by
  obtain ⟨front, back, hsplit, hfront, hback⟩ := exists_eq_append_trim text
  have hzero {l : List Char} (hl : ∀ d ∈ l, isBlank d = true) : l.count c = 0 := by
    refine List.count_eq_zero.2 fun hmem => ?_
    rw [hl c hmem] at hc
    cases hc
  conv_rhs => rw [hsplit]
  rw [List.count_append, List.count_append, hzero hfront, hzero hback, Nat.zero_add, Nat.add_zero]

end MarkovElimination.Text
