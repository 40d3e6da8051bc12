import Packrat.Proofs.Arithmetic.Notation
import Packrat.Proofs.Matching

/-!
# The notation is unambiguous

Two beginnings of one text that a rule derives are the same, and so are their trees, if what follows
cannot go on with the rule: no digit follows, and no sign that the rule would take for one more
operation. This is so whether the derivations are ordered or not.

* `Stops`: texts that do not go on with a rule.
* `Determined`: a text and its tree are the only ones at the beginning of a longer text.
* `Derives.eq_of_append_eq`: what is derived is determined.
-/

namespace Packrat.Arithmetic

variable {ordered : Bool} {r operand operator : Rule} {b w rest signs : List Char} {e : Expr}

/-! ## Where a rule stops -/

/-- The signs with which a rule goes on behind what it derives. -/
def continuing : Rule → List Char
  | .expression | .sum => ['+', '-', '*', '/']
  | .product => ['*', '/']
  | _ => []

/-- The text goes on neither with a number at the end of what the rule derives nor, behind blanks,
with an operation. -/
structure Stops (r : Rule) (rest : List Char) : Prop where
  digit : ∀ a ∈ rest.head?, a.isDigit = false
  sign : ∀ a ∈ (rest.dropWhile CharClass.space.contains).head?, a ∉ continuing r

theorem Stops.mono {r' : Rule} (h : Stops r rest) (hsub : continuing r' ⊆ continuing r) :
    Stops r' rest :=
  ⟨h.digit, fun a ha hmem => h.sign a ha (hsub hmem)⟩

theorem Blank.not_isDigit (hb : Blank b) {a : Char} (ha : a ∈ b) : a.isDigit = false := by
  rw [Bool.eq_false_iff]
  intro digit
  have hnot := not_space_of_isDigit digit
  rw [hb a ha] at hnot
  cases hnot

theorem head_dropWhile_blank {a : Char} {x : List Char} (hb : Blank b)
    (hspace : CharClass.space.contains a = false) :
    ((b ++ a :: x).dropWhile CharClass.space.contains).head? = some a := by
  rw [List.dropWhile_append_of_pos hb, List.dropWhile_cons, hspace]
  rfl

theorem stops_of_character {a : Char} {x : List Char} (hb : Blank b)
    (hspace : CharClass.space.contains a = false) (hdigit : a.isDigit = false)
    (hcont : a ∉ continuing r) : Stops r (b ++ a :: x) := by
  refine ⟨?_, ?_⟩
  · intro a' ha'
    cases b with
    | nil =>
      cases ha'
      exact hdigit
    | cons a₀ b =>
      cases ha'
      exact hb.not_isDigit List.mem_cons_self
  · intro a' ha'
    rw [head_dropWhile_blank hb hspace] at ha'
    cases ha'
    exact hcont

/-- No rule goes on behind the end of a text. -/
theorem stops_of_multispace (h : ∀ a ∈ rest, CharClass.multispace.contains a = true) :
    Stops r rest := by
  have space : ∀ a, CharClass.multispace.contains a = true →
      a.isDigit = false ∧ a ∉ continuing r := by
    intro a ha
    simp only [CharClass.contains, Bool.or_eq_true, beq_iff_eq] at ha
    rcases ha with ((rfl | rfl) | rfl) | rfl <;> cases r <;> decide
  refine ⟨fun a ha => (space a (h a (List.mem_of_mem_head? ha))).1, fun a ha => ?_⟩
  have hmem := (List.dropWhile_sublist CharClass.space.contains).subset (List.mem_of_mem_head? ha)
  exact (space a (h a hmem)).2

namespace Level

variable (hr : Level r operand operator signs)
include hr

theorem ends_operand {op : Char} (sign : op ∈ signs) :
    CharClass.space.contains op = false ∧ op.isDigit = false ∧ op ∉ continuing operand := by
  cases hr
  all_goals
    simp only [List.mem_cons, List.not_mem_nil, or_false] at sign
    rcases sign with rfl | rfl <;> decide

theorem signs_subset : signs ⊆ continuing r := by
  cases hr <;> simp [continuing]

theorem continuing_subset : continuing operand ⊆ continuing r := by
  cases hr <;> simp [continuing]

theorem not_stops {op : Char} {x : List Char} (hb : Blank b) (sign : op ∈ signs) :
    ¬ Stops r (b ++ op :: x) := by
  intro stops
  have hhead := head_dropWhile_blank (x := x) hb (hr.ends_operand sign).1
  exact stops.sign op hhead (hr.signs_subset sign)

theorem stops_operand {op : Char} {x : List Char} (hb : Blank b) (sign : op ∈ signs) :
    Stops operand (b ++ op :: x) := by
  obtain ⟨hspace, hdigit, hcont⟩ := hr.ends_operand sign
  exact stops_of_character hb hspace hdigit hcont

theorem operation_or_operand (h : Derives ordered r w e) :
    (∃ v b op b' u lhs rhs, Derives ordered operand v lhs ∧ Blank b ∧ op ∈ signs ∧ Blank b' ∧
      Derives ordered r u rhs ∧ w = v ++ b ++ op :: (b' ++ u) ∧ e = .binary op lhs rhs) ∨
    Derives ordered operand w e := by
  cases hr with
  | sum =>
    cases h with
    | sum lhs hb sign hb' rhs =>
      exact .inl ⟨_, _, _, _, _, _, _, lhs, hb, sign, hb', rhs, rfl, rfl⟩
    | sumProduct h => exact .inr h
  | product =>
    cases h with
    | product lhs hb sign hb' rhs =>
      exact .inl ⟨_, _, _, _, _, _, _, lhs, hb, sign, hb', rhs, rfl, rfl⟩
    | productTerm h => exact .inr h

end Level

/-! ## Texts that are determined -/

/-- Two runs of characters that pass a test, each before one that does not, are the same run. -/
theorem append_inj_of_head {test : Char → Bool} {x y x' y' : List Char}
    (hx : ∀ a ∈ x, test a = true) (hx' : ∀ a ∈ x', test a = true)
    (hy : ∀ a ∈ y.head?, test a = false) (hy' : ∀ a ∈ y'.head?, test a = false)
    (same : x ++ y = x' ++ y') : x = x' ∧ y = y' := by
  have hrun : x = x' := by
    rw [← takeWhile_append_of_head hx hy, same, takeWhile_append_of_head hx' hy']
  subst hrun
  exact ⟨rfl, List.append_cancel_left same⟩

theorem Derives.head_not_space (h : Derives ordered r w e) (x : List Char) :
    ∀ a ∈ (w ++ x).head?, CharClass.space.contains a = false := by
  obtain ⟨a, y, rfl, ha⟩ := h.head
  intro a' ha'
  cases ha'
  rcases ha with digit | rfl
  · exact not_space_of_isDigit digit
  · rfl

/-- No other text that the rule derives is at the beginning of a longer text, if both of them end
where the rule stops. -/
def Determined (r : Rule) (w : List Char) (e : Expr) : Prop :=
  ∀ ⦃w' rest rest' e'⦄, Derives false r w' e' → Stops r rest → Stops r rest' →
    w ++ rest = w' ++ rest' → w = w' ∧ e = e'

theorem determined_number {ds : List Char} {n : Int64} (digits : ∀ d ∈ ds, d.isDigit = true)
    (value : n.toInt = Nat.ofDigitChars 10 ds 0) : Determined .number ds (.number n) := by
  intro w' rest rest' e' h' stops stops' same
  cases h' with
  | number _ digits' value' =>
    obtain ⟨rfl, -⟩ := append_inj_of_head digits digits' stops.digit stops'.digit same
    rw [Int64.toInt_inj.mp (value.trans value'.symm)]
    exact ⟨rfl, rfl⟩

/-- Two pairs of parentheses at the beginning of one text have the same inside. -/
theorem split_parens {b₁ b₂ b₁' b₂' w' rest' : List Char} {e' : Expr}
    (determined : Determined .expression w e) (hb₁ : Blank b₁)
    (inside : Derives false .expression w e) (hb₂ : Blank b₂) (hb₁' : Blank b₁')
    (inside' : Derives false .expression w' e') (hb₂' : Blank b₂')
    (same : '(' :: (b₁ ++ w ++ b₂ ++ [')']) ++ rest =
      '(' :: (b₁' ++ w' ++ b₂' ++ [')']) ++ rest') :
    b₁ = b₁' ∧ w = w' ∧ e = e' ∧ b₂ = b₂' := by
  simp only [List.cons_append, List.append_assoc, List.cons.injEq, true_and,
    List.nil_append] at same
  obtain ⟨hb, behind⟩ := append_inj_of_head hb₁ hb₁' (inside.head_not_space _)
    (inside'.head_not_space _) same
  have closes : ∀ {b x : List Char}, Blank b → Stops .expression (b ++ ')' :: x) :=
    fun hb => stops_of_character hb rfl rfl (by decide)
  obtain ⟨hw, he⟩ := determined inside' (closes hb₂) (closes hb₂') behind
  rw [hw] at behind
  obtain ⟨hb', -⟩ := append_inj_of_head hb₂ hb₂' (by simp [CharClass.contains])
    (by simp [CharClass.contains]) (List.append_cancel_left behind)
  exact ⟨hb, hw, he, hb'⟩

theorem determined_parens {b₁ b₂ : List Char} (hb₁ : Blank b₁)
    (inside : Derives false .expression w e) (hb₂ : Blank b₂) (ih : Determined .expression w e) :
    Determined .parens ('(' :: (b₁ ++ w ++ b₂ ++ [')'])) e := by
  intro w' rest rest' e' h' stops stops' same
  cases h' with
  | parens hb₁' inside' hb₂' =>
    obtain ⟨rfl, rfl, rfl, rfl⟩ := split_parens ih hb₁ inside hb₂ hb₁' inside' hb₂' same
    exact ⟨rfl, rfl⟩

theorem Derives.head?_parens (h : Derives ordered .parens w e) (x : List Char) :
    (w ++ x).head? = some '(' := by
  cases h
  rfl

theorem Derives.head?_number (h : Derives ordered .number w e) (x : List Char) :
    (w ++ x).head? ≠ some '(' := by
  cases h with
  | number some digits _ =>
    rw [List.head?_append_of_ne_nil _ some]
    intro hhead
    cases digits '(' (List.mem_of_mem_head? hhead)

theorem not_number_of_parens {w' rest' : List Char} {e' : Expr}
    (h : Derives ordered .number w e) (h' : Derives ordered .parens w' e') :
    w ++ rest ≠ w' ++ rest' := by
  intro same
  have hhead := h.head?_number rest
  rw [same] at hhead
  exact hhead (h'.head?_parens rest')

theorem determined_term_of_number (h : Derives false .number w e) (ih : Determined .number w e) :
    Determined .term w e := by
  intro w' rest rest' e' h' stops stops' same
  cases h' with
  | termNumber h' =>
    exact ih h' (stops.mono (List.Subset.refl _)) (stops'.mono (List.Subset.refl _)) same
  | termParens h' => exact absurd same (not_number_of_parens h h')

theorem determined_term_of_parens (h : Derives false .parens w e) (ih : Determined .parens w e) :
    Determined .term w e := by
  intro w' rest rest' e' h' stops stops' same
  cases h' with
  | termNumber h' => exact absurd same.symm (not_number_of_parens h' h)
  | termParens h' =>
    exact ih h' (stops.mono (List.Subset.refl _)) (stops'.mono (List.Subset.refl _)) same

namespace Level

variable (hr : Level r operand operator signs)
include hr

theorem determined_operand (ih : Determined operand w e) : Determined r w e := by
  intro w' rest rest' e' h' stops stops' same
  have hsub := hr.continuing_subset
  rcases hr.operation_or_operand h' with
    ⟨v, b, op, b', u, lhs, rhs, hlhs, hb, sign, hb', hrhs, rfl, rfl⟩ | h'
  · rw [List.append_assoc, List.append_assoc] at same
    obtain ⟨rfl, -⟩ := ih hlhs (stops.mono hsub) (hr.stops_operand hb sign) same
    -- the operation goes on behind the operand, where the rule stops
    rw [List.append_cancel_left same] at stops
    exact absurd stops (hr.not_stops hb sign)
  · exact ih h' (stops.mono hsub) (stops'.mono hsub) same

/-- Two operations at the beginning of one text have the same left operand, blanks and sign. -/
theorem split_operation {v b₁ b₂ v' b₁' b₂' w' rest' : List Char} {op op' : Char}
    {lhs lhs' rhs rhs' : Expr} (determined : Determined operand v lhs) (hb₁ : Blank b₁)
    (sign : op ∈ signs) (hb₂ : Blank b₂) (hrhs : Derives false r w rhs)
    (hlhs' : Derives false operand v' lhs') (hb₁' : Blank b₁') (sign' : op' ∈ signs)
    (hb₂' : Blank b₂') (hrhs' : Derives false r w' rhs')
    (same : v ++ b₁ ++ op :: (b₂ ++ w) ++ rest = v' ++ b₁' ++ op' :: (b₂' ++ w') ++ rest') :
    v = v' ∧ lhs = lhs' ∧ b₁ = b₁' ∧ op = op' ∧ b₂ = b₂' ∧ w ++ rest = w' ++ rest' := by
  simp only [List.append_assoc, List.cons_append] at same
  obtain ⟨hv, hlhs⟩ := determined hlhs' (hr.stops_operand hb₁ sign) (hr.stops_operand hb₁' sign')
    same
  rw [hv] at same
  obtain ⟨hb, behind⟩ := append_inj_of_head hb₁ hb₁'
    (fun a ha => by cases ha; exact (hr.ends_operand sign).1)
    (fun a ha => by cases ha; exact (hr.ends_operand sign').1) (List.append_cancel_left same)
  rw [List.cons.injEq] at behind
  obtain ⟨hop, behind⟩ := behind
  obtain ⟨hb', right⟩ := append_inj_of_head hb₂ hb₂' (hrhs.head_not_space _)
    (hrhs'.head_not_space _) behind
  exact ⟨hv, hlhs, hb, hop, hb', right⟩

theorem determined_operation {v b₁ b₂ : List Char} {op : Char} {lhs rhs : Expr}
    (hb₁ : Blank b₁) (sign : op ∈ signs) (hb₂ : Blank b₂) (hrhs : Derives false r w rhs)
    (ih₁ : Determined operand v lhs) (ih₂ : Determined r w rhs) :
    Determined r (v ++ b₁ ++ op :: (b₂ ++ w)) (.binary op lhs rhs) := by
  intro w' rest rest' e' h' stops stops' same
  rcases hr.operation_or_operand h' with
    ⟨v', b₁', op', b₂', u, lhs', rhs', hlhs', hb₁', sign', hb₂', hrhs', rfl, rfl⟩ | h'
  · obtain ⟨rfl, rfl, rfl, rfl, rfl, right⟩ := hr.split_operation ih₁ hb₁ sign hb₂ hrhs hlhs'
      hb₁' sign' hb₂' hrhs' same
    obtain ⟨rfl, rfl⟩ := ih₂ hrhs' stops stops' right
    exact ⟨rfl, rfl⟩
  · rw [List.append_assoc, List.append_assoc] at same
    obtain ⟨rfl, -⟩ := ih₁ h' (hr.stops_operand hb₁ sign) (stops'.mono hr.continuing_subset) same
    rw [← List.append_cancel_left same] at stops'
    exact absurd stops' (hr.not_stops hb₁ sign)

end Level

/-- Where order does not matter, an expression is a sum, for parentheses are sums as well. -/
theorem derives_expression_iff :
    Derives false .expression w e ↔ Derives false .sum w e := by
  constructor
  · intro h
    cases h with
    | expressionParens h => exact .sumProduct (.productTerm (.termParens h))
    | expressionSum h _ => exact h
  · intro h
    exact .expressionSum h nofun

theorem determined_expression (ih : Determined .sum w e) : Determined .expression w e := by
  intro w' rest rest' e' h' stops stops' same
  exact ih (derives_expression_iff.mp h') (stops.mono (List.Subset.refl _))
    (stops'.mono (List.Subset.refl _)) same

/-- By induction on the derivation. Parentheses are told from a sum that begins with them by what
follows them, as an operand is from an operation. -/
theorem determined (h : Derives false r w e) : Determined r w e := by
  induction h with
  | expressionParens h ih =>
    have term := determined_term_of_parens h ih
    exact determined_expression
      (Level.sum.determined_operand (Level.product.determined_operand term))
  | expressionSum _ _ ih => exact determined_expression ih
  | sum _ hb sign hb' rhs ih₁ ih₂ =>
    exact Level.sum.determined_operation hb sign hb' rhs ih₁ ih₂
  | sumProduct _ ih => exact Level.sum.determined_operand ih
  | product _ hb sign hb' rhs ih₁ ih₂ =>
    exact Level.product.determined_operation hb sign hb' rhs ih₁ ih₂
  | productTerm _ ih => exact Level.product.determined_operand ih
  | termNumber h ih => exact determined_term_of_number h ih
  | termParens h ih => exact determined_term_of_parens h ih
  | parens hb inside hb' ih => exact determined_parens hb inside hb' ih
  | number _ digits value => exact determined_number digits value

/-- Two beginnings of one text that a rule derives, and behind which it stops, are the same and have
one tree. -/
theorem Derives.eq_of_append_eq {ordered' : Bool} {w' rest' : List Char} {e' : Expr}
    (h : Derives ordered r w e) (h' : Derives ordered' r w' e') (stops : Stops r rest)
    (stops' : Stops r rest') (same : w ++ rest = w' ++ rest') : w = w' ∧ e = e' :=
  determined h.unordered h'.unordered stops stops' same

theorem stops_nil : Stops r [] := stops_of_multispace nofun

/-- A text has one tree. -/
theorem Derives.unambiguous {ordered' : Bool} {e' : Expr} (h : Derives ordered r w e)
    (h' : Derives ordered' r w e') : e = e' :=
  (h.eq_of_append_eq h' stops_nil stops_nil rfl).2

theorem derives_inside {b' : List Char} {e' : Expr} (hb : Blank b)
    (inside : Derives false .expression w e) (hb' : Blank b')
    (h : Derives ordered .parens ('(' :: (b ++ w ++ b' ++ [')'])) e') :
    Derives ordered .expression w e := by
  generalize same : '(' :: (b ++ w ++ b' ++ [')']) = text at h
  cases h with
  | parens hb₁ inside' hb₂ =>
    obtain ⟨-, rfl, rfl, -⟩ := split_parens (determined inside) hb inside hb' hb₁
      inside'.unordered hb₂ (congrArg (· ++ ([] : List Char)) same)
    exact inside'

namespace Level

variable (hr : Level r operand operator signs)
include hr

/-- No operand goes on behind an operand with a sign. -/
theorem not_operand {ordered' : Bool} {v x : List Char} {op : Char} {lhs : Expr}
    (hlhs : Derives ordered operand v lhs) (hb : Blank b) (sign : op ∈ signs) :
    ¬ Derives ordered' operand (v ++ b ++ op :: x) e := by
  intro h
  rw [List.append_assoc] at h
  obtain ⟨same, -⟩ := hlhs.eq_of_append_eq h (hr.stops_operand hb sign) stops_nil
    (List.append_nil _).symm
  simp at same

theorem derives_as_operand {e' : Expr} (h : Derives ordered r w e)
    (h' : Derives false operand w e') : Derives ordered operand w e := by
  rcases hr.operation_or_operand h with
    ⟨v, b, op, b', u, lhs, rhs, hlhs, hb, sign, -, -, rfl, rfl⟩ | h
  · exact absurd h' (hr.not_operand hlhs hb sign)
  · exact h

/-- The parts of an operation are derived as the operation is. -/
theorem derives_parts {v b₁ b₂ : List Char} {op : Char} {lhs rhs : Expr}
    (hlhs : Derives false operand v lhs) (hb₁ : Blank b₁) (sign : op ∈ signs) (hb₂ : Blank b₂)
    (hrhs : Derives false r w rhs) (h : Derives ordered r (v ++ b₁ ++ op :: (b₂ ++ w)) e) :
    Derives ordered operand v lhs ∧ Derives ordered r w rhs := by
  obtain rfl : e = .binary op lhs rhs := h.unambiguous (hr.derives hlhs hb₁ sign hb₂ hrhs)
  rcases hr.operation_or_operand h with
    ⟨v', b₁', op', b₂', u, lhs', rhs', hlhs', hb₁', sign', hb₂', hrhs', same, tree⟩ | h
  · cases tree
    obtain ⟨rfl, -, -, -, -, right⟩ := hr.split_operation (determined hlhs) hb₁ sign hb₂ hrhs
      hlhs'.unordered hb₁' sign' hb₂' hrhs'.unordered (congrArg (· ++ ([] : List Char)) same)
    rw [List.append_nil, List.append_nil] at right
    subst right
    exact ⟨hlhs', hrhs'⟩
  · exact absurd h (hr.not_operand hlhs hb₁ sign)

end Level

end Packrat.Arithmetic
