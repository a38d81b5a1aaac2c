import Mathlib
import MarkovElimination.Number.Rational
import MarkovElimination.Proofs.Matrix.Row
import MarkovElimination.Proofs.Outcome

/-! # Interpretations of weights

An **interpretation** gives some weights a value in a field, such that the arithmetic of weights
computes the arithmetic of the field. Rational numbers are interpreted by themselves; rational
functions have other interpretations, one for each valuation. What is proved about elimination under
an interpretation holds for all of them at once. An interpretation also says whether computing can
leave the range of weights.

The **dot product** of a row with a vector is the sum of its entries, each times the vector at its
column. Every operation on rows is described by what it does to dot products. -/

namespace MarkovElimination

/-- No operation leaves the range of weights. -/
structure Weight.Unbounded (α : Type) [Weight α] : Prop where
  addFits : ∀ a b : α, Weight.addFits a b = true
  mulFits : ∀ a b : α, Weight.mulFits a b = true
  simplifyFits : ∀ a : α, Weight.simplifyFits a = true

/-- **An interpretation** of weights in a field. -/
structure Interpretation (α K : Type) [Weight α] [Field K] where
  /-- The weights that have a value. -/
  Valid : α → Prop
  /-- The value of a weight. -/
  value : α → K
  /-- Whether an operation can leave the range of weights. -/
  Overflow : Prop
  unbounded : ¬Overflow → Weight.Unbounded α
  valid_zero : Valid 0
  value_zero : value 0 = 0
  valid_one : Valid 1
  value_one : value 1 = 1
  valid_add : ∀ {a b}, Valid a → Valid b → Valid (a + b)
  value_add : ∀ {a b}, Valid a → Valid b → value (a + b) = value a + value b
  valid_sub : ∀ {a b}, Valid a → Valid b → Valid (a - b)
  value_sub : ∀ {a b}, Valid a → Valid b → value (a - b) = value a - value b
  valid_mul : ∀ {a b}, Valid a → Valid b → Valid (a * b)
  value_mul : ∀ {a b}, Valid a → Valid b → value (a * b) = value a * value b
  valid_simplify : ∀ {a}, Valid a → Valid (Weight.simplify a)
  value_simplify : ∀ {a}, Valid a → value (Weight.simplify a) = value a
  /-- A quotient by a weight whose value is not zero can only fail by leaving the range. -/
  divide_meets : ∀ {a b}, Valid a → Valid b → value b ≠ 0 →
    Meets (fun f => Overflow ∧ f = .degreeOverflow)
      (fun c => Valid c ∧ value c = value a / value b) (Weight.divide a b)
  value_of_isZero : ∀ {a}, Valid a → Weight.isZero a = true → value a = 0
  value_of_isOne : ∀ {a}, Valid a → Weight.isOne a = true → value a = 1

/-- Rational numbers stand for themselves. -/
def Interpretation.rat : Interpretation ℚ ℚ where
  Valid _ := True
  value a := a
  Overflow := False
  unbounded _ := ⟨fun _ _ => rfl, fun _ _ => rfl, fun _ => rfl⟩
  valid_zero := trivial
  value_zero := rfl
  valid_one := trivial
  value_one := rfl
  valid_add _ _ := trivial
  value_add _ _ := rfl
  valid_sub _ _ := trivial
  value_sub _ _ := rfl
  valid_mul _ _ := trivial
  value_mul _ _ := rfl
  valid_simplify _ := trivial
  value_simplify _ := rfl
  divide_meets := by
    intro a b _ _ hb
    rw [show Weight.divide a b = .ok (a / b) from if_neg hb]
    exact ⟨trivial, rfl⟩
  value_of_isZero := by
    intro a _ h
    exact of_decide_eq_true h
  value_of_isOne := by
    intro a _ h
    exact of_decide_eq_true h

/-- **An exact interpretation**: weights of the same value have the same canonical form, and the one
is recognized. -/
structure Interpretation.Exact {α K : Type} [Weight α] [Field K] (I : Interpretation α K) :
    Prop where
  isOne_of_value : ∀ {a}, I.Valid a → I.value a = 1 → Weight.isOne a = true
  simplify_eq : ∀ {a b}, I.Valid a → I.Valid b → I.value a = I.value b →
    Weight.simplify a = Weight.simplify b
  checkedSame_self : ∀ a : α, Weight.checkedSame a a = .ok true

/-- Rational numbers stand for themselves exactly. -/
theorem Interpretation.exact_rat : Interpretation.rat.Exact where
  isOne_of_value _ h := decide_eq_true h
  simplify_eq _ _ h := h
  checkedSame_self _ := congrArg Except.ok (decide_eq_true rfl)

namespace Interpretation

variable {α K : Type} [Weight α] [Field K] (I : Interpretation α K)

/-- The faults of computations that leave the range of weights, where that can happen. -/
def RangeFault (f : Fault) : Prop := I.Overflow ∧ f = .degreeOverflow

/-- A range check passes, or reports that the range is left. -/
theorem requireRange_meets {fits : Bool} (h : Weight.Unbounded α → fits = true) :
    Meets I.RangeFault (fun _ => True) (requireRange fits) := by
  cases fits with
  | true => exact trivial
  | false =>
    refine ⟨?_, rfl⟩
    by_contra hover
    simpa using h (I.unbounded hover)

/-- Bringing a weight into its canonical form keeps its value. -/
theorem checkedSimplify_meets {a : α} (ha : I.Valid a) :
    Meets I.RangeFault (fun b => I.Valid b ∧ I.value b = I.value a) (Weight.checkedSimplify a) :=
  (I.requireRange_meets fun h => h.simplifyFits a).bind fun _ _ =>
    ⟨I.valid_simplify ha, I.value_simplify ha⟩

/-- A checked sum. -/
theorem checkedAdd_meets {a b : α} (ha : I.Valid a) (hb : I.Valid b) :
    Meets I.RangeFault (fun c => I.Valid c ∧ I.value c = I.value a + I.value b)
      (Weight.checkedAdd a b) :=
  (I.requireRange_meets fun h => h.addFits a b).bind fun _ _ =>
    ⟨I.valid_add ha hb, I.value_add ha hb⟩

/-- A checked product. -/
theorem checkedMul_meets {a b : α} (ha : I.Valid a) (hb : I.Valid b) :
    Meets I.RangeFault (fun c => I.Valid c ∧ I.value c = I.value a * I.value b)
      (Weight.checkedMul a b) :=
  (I.requireRange_meets fun h => h.mulFits a b).bind fun _ _ =>
    ⟨I.valid_mul ha hb, I.value_mul ha hb⟩

/-- **The factor of a self-loop** `L` other than one is `1 / (1 - L)`. -/
theorem loopFactor_meets {s : Nat} {loop : α} (hloop : I.Valid loop) (hne : I.value loop ≠ 1) :
    Meets I.RangeFault (fun f => I.Valid f ∧ I.value f = (1 - I.value loop)⁻¹)
      (loopFactor s loop) := by
  have hnot : ¬Weight.isOne loop = true := fun h => hne (I.value_of_isOne hloop h)
  have hsub : I.value (1 - loop) = 1 - I.value loop := by
    rw [I.value_sub I.valid_one hloop, I.value_one]
  have hdiv := I.divide_meets I.valid_one (I.valid_sub I.valid_one hloop)
    (by rw [hsub]; exact sub_ne_zero.2 (Ne.symm hne))
  rw [loopFactor, if_neg hnot]
  refine hdiv.bind fun c hc => (I.checkedSimplify_meets hc.1).mono fun f hf => ⟨hf.1, ?_⟩
  rw [hf.2, hc.2, hsub, I.value_one, one_div]

/-- The value of a simplified product. -/
theorem simplify_mul {a b : α} (ha : I.Valid a) (hb : I.Valid b) :
    I.Valid (Weight.simplify (a * b)) ∧
    I.value (Weight.simplify (a * b)) = I.value a * I.value b :=
  ⟨I.valid_simplify (I.valid_mul ha hb),
    by rw [I.value_simplify (I.valid_mul ha hb), I.value_mul ha hb]⟩

/-- The value of a simplified sum. -/
theorem simplify_add {a b : α} (ha : I.Valid a) (hb : I.Valid b) :
    I.Valid (Weight.simplify (a + b)) ∧
    I.value (Weight.simplify (a + b)) = I.value a + I.value b :=
  ⟨I.valid_simplify (I.valid_add ha hb),
    by rw [I.value_simplify (I.valid_add ha hb), I.value_add ha hb]⟩

/-! ### Rows -/

/-- All entries of a row have values. -/
def ValidRow (row : Row α) : Prop := ∀ e ∈ row, I.Valid e.value

/-- The sum of the entries of a row, each times the vector at its column. -/
def dot (row : Row α) (x : Nat → K) : K := (row.map fun e => I.value e.value * x e.column).sum

/-- The value in a column of a row, zero without an entry. -/
def coefficient (row : Row α) (c : Nat) : K := ((row.get? c).map I.value).getD 0

@[simp] theorem dot_nil (x : Nat → K) : I.dot [] x = 0 := rfl

@[simp] theorem dot_cons (e : Entry α) (row : Row α) (x : Nat → K) :
    I.dot (e :: row) x = I.value e.value * x e.column + I.dot row x := by
  simp [dot]

/-- Only the columns of a row matter. -/
theorem dot_congr {row : Row α} {x y : Nat → K} (h : ∀ c ∈ row.columns, x c = y c) :
    I.dot row x = I.dot row y := by
  rw [dot, dot]
  refine congrArg List.sum (List.map_congr_left fun e he => ?_)
  rw [h e.column (List.mem_map.2 ⟨e, he, rfl⟩)]

/-- A vector that vanishes on the columns of a row has dot product zero. -/
theorem dot_eq_zero {row : Row α} {x : Nat → K} (h : ∀ c ∈ row.columns, x c = 0) :
    I.dot row x = 0 := by
  rw [I.dot_congr (y := fun _ => 0) h]
  simp [dot]

/-- A row without an entry in a column. -/
theorem coefficient_of_not_mem {row : Row α} {c : Nat} (h : c ∉ row.columns) :
    I.coefficient row c = 0 := by
  rw [coefficient, Row.get?_eq_none_iff.2 h]
  rfl

/-- A row with an entry in a column. -/
theorem coefficient_of_get? {row : Row α} {c : Nat} {a : α} (h : row.get? c = some a) :
    I.coefficient row c = I.value a := by
  rw [coefficient, h]
  rfl

/-- The entry of a column is the first one, if the row starts with that column. -/
theorem coefficient_cons (e : Entry α) (row : Row α) (c : Nat) :
    I.coefficient (e :: row) c = if e.column = c then I.value e.value else I.coefficient row c := by
  rw [coefficient, coefficient, Row.get?_cons]
  by_cases h : e.column = c
  · simp [h]
  · rw [if_neg h, if_neg h]

/-- What is found in a valid row is valid. -/
theorem ValidRow.get? {row : Row α} (h : I.ValidRow row) {c : Nat} {a : α}
    (ha : row.get? c = some a) : I.Valid a := by
  obtain ⟨e, he, -, rfl⟩ := Row.exists_entry_of_get? ha
  exact h e he

/-- Erasing a column takes its product away. -/
theorem dot_erase {row : Row α} (h : row.Sorted) (c : Nat) (x : Nat → K) :
    I.dot (row.erase c) x = I.dot row x - I.coefficient row c * x c := by
  induction row with
  | nil => simp [Row.erase, coefficient, Row.get?]
  | cons e row ih =>
    obtain ⟨hlt, hrow⟩ := Row.sorted_cons.1 h
    rw [dot_cons, coefficient_cons]
    by_cases hc : e.column = c
    · -- The columns increase, so there is no second entry in the column.
      have hnot : c ∉ Row.columns row := by
        intro hmem
        have := hlt c hmem
        omega
      have herase : Row.erase (e :: row) c = Row.erase row c := by simp [Row.erase, hc]
      rw [herase, ih hrow, if_pos hc, I.coefficient_of_not_mem hnot, hc]
      ring
    · have herase : Row.erase (e :: row) c = e :: Row.erase row c := by
        simp [Row.erase, hc]
      rw [herase, dot_cons, ih hrow, if_neg hc]
      ring

/-- Scaling a row scales its dot products. -/
theorem dot_scale {row : Row α} {f : α} (hrow : I.ValidRow row) (hf : I.Valid f) (x : Nat → K) :
    I.dot (row.scale f) x = I.value f * I.dot row x := by
  induction row with
  | nil => simp [Row.scale]
  | cons e row ih =>
    obtain ⟨he, hrow⟩ := List.forall_mem_cons.1 hrow
    have hcons : Row.scale f (e :: row) =
        ⟨e.column, Weight.simplify (e.value * f)⟩ :: Row.scale f row := rfl
    rw [hcons, dot_cons, dot_cons, ih hrow, (I.simplify_mul he hf).2]
    ring

/-- A scaled row is valid. -/
theorem ValidRow.scale {row : Row α} {f : α} (hrow : I.ValidRow row) (hf : I.Valid f) :
    I.ValidRow (row.scale f) := by
  intro e he
  obtain ⟨d, hd, rfl⟩ := List.mem_map.1 he
  exact (I.simplify_mul (hrow d hd) hf).1

/-- **Adding a multiple of a row** adds the multiple of its dot products. -/
theorem dot_addScaled {m : α} {row other : Row α} (hm : I.Valid m) (hrow : I.ValidRow row)
    (hother : I.ValidRow other) (x : Nat → K) :
    I.dot (Row.addScaled m row other) x = I.dot row x + I.value m * I.dot other x := by
  fun_induction Row.addScaled m row other with
  | case1 row => simp
  | case2 f other ih =>
    obtain ⟨hf, hother⟩ := List.forall_mem_cons.1 hother
    rw [dot_cons, dot_cons, ih hrow hother, (I.simplify_mul hm hf).2]
    ring
  | case3 e row f other hcmp ih =>
    obtain ⟨he, hrow⟩ := List.forall_mem_cons.1 hrow
    rw [dot_cons, dot_cons, ih hrow hother]
    ring
  | case4 e row f other hcmp ih =>
    obtain ⟨hf, hother⟩ := List.forall_mem_cons.1 hother
    rw [dot_cons, ih hrow hother, dot_cons _ f, (I.simplify_mul hm hf).2]
    ring
  | case5 e row f other hcmp ih =>
    -- Two entries in one column become one.
    obtain ⟨he, hrow⟩ := List.forall_mem_cons.1 hrow
    obtain ⟨hf, hother⟩ := List.forall_mem_cons.1 hother
    have hmf := I.simplify_mul hm hf
    rw [dot_cons, dot_cons, dot_cons, ih hrow hother, (I.simplify_add he hmf.1).2, hmf.2,
      Nat.compare_eq_eq.1 hcmp]
    ring

/-- A sum of valid rows is valid. -/
theorem validRow_addScaled {m : α} {row other : Row α} (hm : I.Valid m) (hrow : I.ValidRow row)
    (hother : I.ValidRow other) : I.ValidRow (Row.addScaled m row other) :=
  Row.forall_addScaled (fun _ hb => (I.simplify_mul hm hb).1)
    (fun _ _ ha hb => (I.simplify_add ha hb).1) hrow hother

/-- The dot product with the entries in some columns. -/
theorem dot_filter (q : Nat → Bool) (row : Row α) (x : Nat → K) :
    I.dot (row.filter fun e => q e.column) x = I.dot row fun t => if q t then x t else 0 := by
  induction row with
  | nil => rfl
  | cons e row ih =>
    rw [List.filter_cons, I.dot_cons]
    cases q e.column with
    | false => simpa using ih
    | true => simp [ih]

/-- Adding up values one after the other. -/
theorem foldl_add {row : Row α} (h : I.ValidRow row) {a : α} (ha : I.Valid a) :
    I.Valid (row.foldl (fun total e => total + e.value) a) ∧
      I.value (row.foldl (fun total e => total + e.value) a) =
        I.value a + I.dot row fun _ => 1 := by
  induction row generalizing a with
  | nil => simpa using ha
  | cons e row ih =>
    obtain ⟨he, hrow⟩ := List.forall_mem_cons.1 h
    obtain ⟨hvalid, hvalue⟩ := ih hrow (I.valid_add ha he)
    rw [List.foldl_cons, hvalue, I.value_add ha he, dot_cons]
    exact ⟨hvalid, by ring⟩

/-- The sum of a row is its dot product with the constant one. -/
theorem sum_row {row : Row α} (h : I.ValidRow row) :
    I.Valid row.sum ∧ I.value row.sum = I.dot row fun _ => 1 := by
  obtain ⟨hvalid, hvalue⟩ := I.foldl_add h I.valid_zero
  rw [Row.sum, I.value_simplify hvalid, hvalue, I.value_zero, zero_add]
  exact ⟨I.valid_simplify hvalid, rfl⟩

end Interpretation

/-! ### Positive rows -/

namespace Interpretation

variable {α : Type} [Weight α] (I : Interpretation α ℚ)

/-- A weight with a positive value. -/
def Positive (a : α) : Prop := I.Valid a ∧ 0 < I.value a

/-- All entries of a row have positive values. -/
def PositiveRow (row : Row α) : Prop := ∀ e ∈ row, I.Positive e.value

variable {I}

/-- A positive weight is not zero. -/
theorem Positive.isZero_eq {a : α} (h : I.Positive a) : Weight.isZero a = false := by
  by_contra hz
  have := I.value_of_isZero h.1 (by simpa using hz)
  exact h.2.ne' this

/-- Positive rows are valid. -/
theorem PositiveRow.valid {row : Row α} (h : I.PositiveRow row) : I.ValidRow row :=
  fun e he => (h e he).1

/-- Positive rows have no zeros to drop. -/
theorem PositiveRow.dropZeros_eq {row : Row α} (h : I.PositiveRow row) : row.dropZeros = row := by
  rw [Row.dropZeros, List.filter_eq_self]
  intro e he
  rw [(h e he).isZero_eq]
  rfl

/-- The coefficients of a positive row are positive exactly at its columns. -/
theorem PositiveRow.coefficient_pos_iff {row : Row α} (h : I.PositiveRow row) {c : Nat} :
    0 < I.coefficient row c ↔ c ∈ row.columns := by
  constructor
  · intro hpos
    by_contra hc
    rw [I.coefficient_of_not_mem hc] at hpos
    exact lt_irrefl 0 hpos
  · intro hc
    obtain ⟨a, ha⟩ := Row.exists_get? hc
    obtain ⟨e, he, -, rfl⟩ := Row.exists_entry_of_get? ha
    rw [I.coefficient_of_get? ha]
    exact (h e he).2

/-- The coefficients of a positive row are not negative. -/
theorem PositiveRow.coefficient_nonneg {row : Row α} (h : I.PositiveRow row) (c : Nat) :
    0 ≤ I.coefficient row c := by
  by_cases hc : c ∈ row.columns
  · exact (h.coefficient_pos_iff.2 hc).le
  · rw [I.coefficient_of_not_mem hc]

/-- A positive row keeps inequalities. -/
theorem PositiveRow.dot_mono {row : Row α} (h : I.PositiveRow row) {x y : Nat → ℚ}
    (hxy : ∀ c ∈ row.columns, x c ≤ y c) : I.dot row x ≤ I.dot row y := by
  induction row with
  | nil => exact le_rfl
  | cons e row ih =>
    obtain ⟨he, hrow⟩ := List.forall_mem_cons.1 h
    obtain ⟨hle, hrest⟩ := List.forall_mem_cons.1 hxy
    rw [dot_cons, dot_cons]
    exact add_le_add (mul_le_mul_of_nonneg_left hle he.2.le) (ih hrow hrest)

/-- A positive row has non-negative dot products with non-negative vectors. -/
theorem PositiveRow.dot_nonneg {row : Row α} (h : I.PositiveRow row) {x : Nat → ℚ}
    (hx : ∀ c ∈ row.columns, 0 ≤ x c) : 0 ≤ I.dot row x := by
  have := h.dot_mono (x := fun _ => 0) hx
  simpa [dot] using this

/-- A positive row has a positive dot product with a non-negative vector that is positive at one of
its columns. -/
theorem PositiveRow.dot_pos {row : Row α} (h : I.PositiveRow row) {x : Nat → ℚ}
    (hx : ∀ c ∈ row.columns, 0 ≤ x c) {c : Nat} (hc : c ∈ row.columns) (hpos : 0 < x c) :
    0 < I.dot row x := by
  induction row with
  | nil => simp at hc
  | cons e row ih =>
    obtain ⟨he, hrow⟩ := List.forall_mem_cons.1 h
    obtain ⟨hhead, hrest⟩ := List.forall_mem_cons.1 hx
    rw [dot_cons]
    rcases List.mem_cons.1 hc with rfl | hc
    · exact add_pos_of_pos_of_nonneg (mul_pos he.2 hpos) (PositiveRow.dot_nonneg hrow hrest)
    · exact add_pos_of_nonneg_of_pos (mul_nonneg he.2.le hhead) (ih hrow hrest hc)

/-- A scaled positive row is positive. -/
theorem PositiveRow.scale {row : Row α} {f : α} (h : I.PositiveRow row) (hf : I.Positive f) :
    I.PositiveRow (row.scale f) := by
  intro e he
  obtain ⟨d, hd, rfl⟩ := List.mem_map.1 he
  obtain ⟨hvalid, hvalue⟩ := I.simplify_mul (h d hd).1 hf.1
  exact ⟨hvalid, by rw [hvalue]; exact mul_pos (h d hd).2 hf.2⟩

/-- A sum of positive rows is positive. -/
theorem PositiveRow.addScaled {m : α} {row other : Row α} (hm : I.Positive m)
    (hrow : I.PositiveRow row) (hother : I.PositiveRow other) :
    I.PositiveRow (Row.addScaled m row other) := by
  refine Row.forall_addScaled (fun b hb => ?_) (fun a b ha hb => ?_) hrow hother
  · obtain ⟨hvalid, hvalue⟩ := I.simplify_mul hm.1 hb.1
    exact ⟨hvalid, by rw [hvalue]; exact mul_pos hm.2 hb.2⟩
  · obtain ⟨hvalid, hvalue⟩ := I.simplify_add ha.1 hb.1
    exact ⟨hvalid, by rw [hvalue]; exact add_pos ha.2 hb.2⟩

end Interpretation

end MarkovElimination
