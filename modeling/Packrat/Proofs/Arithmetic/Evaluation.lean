import Packrat.Arithmetic.Expr

/-!
# Values of expressions

The operations of an expression are carried out on 64-bit numbers. One that has no result there
leaves the whole expression without a value, whatever stands around it, so a value that comes out is
the exact one.

* `Expr.value`: the value over the integers, which have no bounds.
* `Expr.parts`: an expression and all expressions inside of it.
* `Expr.Calculable`: every operation has a result, and all of these fit into 64 bits.
* `Expr.evaluate_exact_or_absent`: evaluation gives the exact value, or none.
-/

namespace Packrat.Arithmetic

/-- The integer fits into 64 bits. -/
def Fits (n : Int) : Prop := -9223372036854775808 ≤ n ∧ n ≤ 9223372036854775807

instance (n : Int) : Decidable (Fits n) := inferInstanceAs (Decidable (_ ∧ _))

theorem fits_toInt (v : Int64) : Fits v.toInt := ⟨v.le_toInt, v.toInt_le⟩

theorem Fits.toInt_ofInt {n : Int} (h : Fits n) : (Int64.ofInt n).toInt = n :=
  Int64.toInt_ofInt_of_le h.1 (by have := h.2; omega)

theorem int64?_eq_some_iff {n : Int} {v : Int64} : int64? n = some v ↔ v.toInt = n := by
  change (if Fits n then some (Int64.ofInt n) else none) = some v ↔ v.toInt = n
  constructor
  · intro h
    split at h
    · rename_i hn
      rw [← Option.some.inj h, hn.toInt_ofInt]
    · cases h
  · rintro rfl
    rw [if_pos (fits_toInt v), Int64.ofInt_toInt]

theorem fits_iff {n : Int} : Fits n ↔ ∃ v : Int64, v.toInt = n := by
  constructor
  · intro h
    exact ⟨_, h.toInt_ofInt⟩
  · rintro ⟨v, rfl⟩
    exact fits_toInt v

namespace Expr

/-- The exact value. Division drops the fraction. An operation without a result counts as zero. -/
def value : Expr → Int
  | .number n => n.toInt
  | .binary op lhs rhs =>
    match op with
    | '+' => lhs.value + rhs.value
    | '-' => lhs.value - rhs.value
    | '*' => lhs.value * rhs.value
    | '/' => Int.tdiv lhs.value rhs.value
    | _ => 0

/-- The expression and all expressions inside of it. -/
def parts : Expr → List Expr
  | .number n => [.number n]
  | .binary op lhs rhs => .binary op lhs rhs :: (lhs.parts ++ rhs.parts)

/-- Every operation in the expression has a result over the integers, and all results fit into 64
bits. -/
structure Calculable (e : Expr) : Prop where
  operators : ∀ op l r, .binary op l r ∈ e.parts → op ∈ ['+', '-', '*', '/']
  divisors : ∀ l r, .binary '/' l r ∈ e.parts → r.value ≠ 0
  fits : ∀ p ∈ e.parts, Fits p.value

variable {e l r p : Expr} {op : Char} {v : Int64}

/-! ## What the parts contribute -/

theorem mem_parts_self (e : Expr) : e ∈ e.parts := by
  cases e
  · exact List.mem_singleton.mpr rfl
  · exact List.mem_cons_self

theorem mem_parts_binary :
    p ∈ (binary op l r).parts ↔ p = binary op l r ∨ p ∈ l.parts ∨ p ∈ r.parts := by
  rw [parts, List.mem_cons, List.mem_append]

theorem parts_subset (hp : p ∈ e.parts) : p.parts ⊆ e.parts := by
  induction e with
  | number n =>
    obtain rfl := List.mem_singleton.mp hp
    exact List.Subset.refl _
  | binary op l r ihl ihr =>
    rcases mem_parts_binary.mp hp with rfl | hp | hp
    · exact List.Subset.refl _
    · exact fun q hq => mem_parts_binary.mpr (.inr (.inl (ihl hp hq)))
    · exact fun q hq => mem_parts_binary.mpr (.inr (.inr (ihr hp hq)))

theorem Calculable.of_mem_parts (h : e.Calculable) (hp : p ∈ e.parts) : p.Calculable where
  operators := fun op l r hq => h.operators op l r (parts_subset hp hq)
  divisors := fun l r hq => h.divisors l r (parts_subset hp hq)
  fits := fun q hq => h.fits q (parts_subset hp hq)

theorem calculable_number (n : Int64) : (number n).Calculable where
  operators := by simp [parts]
  divisors := by simp [parts]
  fits := by
    intro p hp
    obtain rfl := List.mem_singleton.mp hp
    exact fits_toInt n

/-- The operation has a result over the integers, where `r` is the expression on its right. -/
def Operates (op : Char) (r : Expr) : Prop := op ∈ ['+', '-', '*', '/'] ∧ (op = '/' → r.value ≠ 0)

theorem calculable_binary : (binary op l r).Calculable ↔
    Operates op r ∧ Fits (binary op l r).value ∧ l.Calculable ∧ r.Calculable := by
  constructor
  · intro h
    have whole : binary op l r ∈ (binary op l r).parts := mem_parts_self _
    have hl : l.Calculable := h.of_mem_parts (mem_parts_binary.mpr (.inr (.inl (mem_parts_self l))))
    have hr : r.Calculable := h.of_mem_parts (mem_parts_binary.mpr (.inr (.inr (mem_parts_self r))))
    refine ⟨⟨h.operators op l r whole, ?_⟩, h.fits _ whole, hl, hr⟩
    rintro rfl
    exact h.divisors l r whole
  · rintro ⟨⟨hop, hdivisor⟩, hfits, hl, hr⟩
    constructor
    · intro op' l' r' hp
      rcases mem_parts_binary.mp hp with same | hp | hp
      · cases same
        exact hop
      · exact hl.operators _ _ _ hp
      · exact hr.operators _ _ _ hp
    · intro l' r' hp
      rcases mem_parts_binary.mp hp with same | hp | hp
      · cases same
        exact hdivisor rfl
      · exact hl.divisors _ _ hp
      · exact hr.divisors _ _ hp
    · intro p hp
      rcases mem_parts_binary.mp hp with rfl | hp | hp
      · exact hfits
      · exact hl.fits p hp
      · exact hr.fits p hp

/-- An operation on the values of two expressions has the value of the whole for its result. -/
theorem calculate?_eq_some_iff {n : Int} : calculate? op l.value r.value = some n ↔
    Operates op r ∧ (binary op l r).value = n := by
  unfold calculate?
  split
  case h_4 => by_cases zero : r.value = 0 <;> simp [Operates, value, zero]
  case h_5 hplus hminus htimes hslash =>
    have unknown : op ∉ ['+', '-', '*', '/'] := by
      simp only [List.mem_cons, List.not_mem_nil, or_false, not_or]
      exact ⟨hplus, hminus, htimes, hslash⟩
    refine ⟨nofun, ?_⟩
    rintro ⟨operates, -⟩
    exact absurd operates.1 unknown
  all_goals simp [Operates, value]

/-! ## Evaluation -/

/-- Evaluation carries out the operations one by one, and none of them hides what is missing inside
of its operands. -/
theorem evaluate_eq_some_iff : e.evaluate = some v ↔ e.Calculable ∧ v.toInt = e.value := by
  induction e generalizing v with
  | number n =>
    have same : v.toInt = n.toInt ↔ n = v := by rw [Int64.toInt_inj, eq_comm]
    simp [evaluate, calculable_number, value, same]
  | binary op l r ihl ihr =>
    rw [calculable_binary]
    constructor
    · intro h
      unfold evaluate at h
      split at h
      · rename_i a b ha hb
        obtain ⟨hl, hleft⟩ := ihl.mp ha
        obtain ⟨hr, hright⟩ := ihr.mp hb
        obtain ⟨n, hn, hv⟩ := Option.bind_eq_some_iff.mp h
        rw [hleft, hright] at hn
        obtain ⟨operates, rfl⟩ := calculate?_eq_some_iff.mp hn
        have value := int64?_eq_some_iff.mp hv
        exact ⟨⟨operates, fits_iff.mpr ⟨v, value⟩, hl, hr⟩, value⟩
      · cases h
    · rintro ⟨⟨operates, -, hl, hr⟩, value⟩
      obtain ⟨a, hleft⟩ := fits_iff.mp (hl.fits l (mem_parts_self l))
      obtain ⟨b, hright⟩ := fits_iff.mp (hr.fits r (mem_parts_self r))
      have ha := ihl.mpr ⟨hl, hleft⟩
      have hb := ihr.mpr ⟨hr, hright⟩
      have result : calculate? op l.value r.value = some (binary op l r).value :=
        calculate?_eq_some_iff.mpr ⟨operates, rfl⟩
      rw [evaluate, ha, hb]
      dsimp only
      rw [hleft, hright, result, Option.bind_some, int64?_eq_some_iff]
      exact value

/-- What evaluation makes of an expression. -/
structure Evaluates (e : Expr) : Prop where
  /-- A value is there exactly if everything can be calculated, and it is the exact one. -/
  exact : ∀ v, e.evaluate = some v ↔ e.Calculable ∧ v.toInt = e.value
  absent : e.evaluate = none ↔ ¬ e.Calculable
  /-- A part without a value leaves none to the whole. -/
  unmasked : ∀ p ∈ e.parts, p.evaluate = none → e.evaluate = none
  /-- So does a part that exceeds 64 bits, even where the exact value of the whole does not. -/
  overflow : ∀ p ∈ e.parts, ¬ Fits p.value → e.evaluate = none
  /-- The least number over minus one exceeds 64 bits. -/
  leastOverMinusOne : ∀ l r, .binary '/' l r ∈ e.parts → l.value = -9223372036854775808 →
    r.value = -1 → e.evaluate = none

theorem evaluate_eq_none_iff : e.evaluate = none ↔ ¬ e.Calculable := by
  rw [Option.eq_none_iff_forall_ne_some]
  constructor
  · intro h calculable
    obtain ⟨v, hv⟩ := fits_iff.mp (calculable.fits e (mem_parts_self e))
    exact h v (evaluate_eq_some_iff.mpr ⟨calculable, hv⟩)
  · intro h v hv
    exact h (evaluate_eq_some_iff.mp hv).1

/-- Evaluation gives the exact value if every operation has a result that fits into 64 bits, and
otherwise none. -/
theorem evaluate_exact_or_absent (e : Expr) : e.Evaluates where
  exact := fun _ => evaluate_eq_some_iff
  absent := evaluate_eq_none_iff
  unmasked := by
    intro p hp h
    rw [evaluate_eq_none_iff] at h ⊢
    exact fun calculable => h (calculable.of_mem_parts hp)
  overflow := by
    intro p hp h
    exact evaluate_eq_none_iff.mpr fun calculable => h (calculable.fits p hp)
  leastOverMinusOne := by
    intro l r hp hl hr
    refine evaluate_eq_none_iff.mpr fun calculable => ?_
    have fits := calculable.fits _ hp
    have quotient : (binary '/' l r).value = 9223372036854775808 := by
      rw [value, hl, hr]
      rfl
    rw [quotient] at fits
    exact absurd fits.2 (by decide)

/-- The exact value is one, but the quotient exceeds 64 bits. -/
example : (binary '-' (binary '/' (number Int64.minValue) (number (-1)))
    (number Int64.maxValue)).evaluate = none := by decide

end Expr

end Packrat.Arithmetic
