import Packrat.Proofs.Arithmetic.Calls
import Packrat.Proofs.Arithmetic.RoundTrip

/-!
# The numbers of the grammar

The rule for numbers takes all the digits that come next, reads them from the left and stops where
the number no longer fits into 64 bits. What comes of that depends on the decimal value of all the
digits and on nothing else: it is that number if it fits, however many zeros stand in front, and a
failure at the first digit if it does not.

* `Parser.gives_run1_refusal`: the failure where no character of a class comes next.
* `digitsAt`, `valueAt`: the digits that come next and their decimal value.
* `numberAt`: what the rule makes of them, and `gives_number` that it does.
* `Query.numbers_read`: what every call of the rule returns.
-/

namespace Packrat

/-! ## Digits that are missing -/

/-- Why the token under the cursor does not pass a test. -/
def Cursor.refusal {τ : Type} (c : Cursor τ) : Cause τ :=
  match c.read? with
  | none => .endOfInput
  | some a => .untrue a

namespace Parser

variable {τ ρ : Type}

theorem gives_satisfying_refusal {grammar : Grammar τ ρ} {test : τ → Bool} {c : Cursor τ}
    (h : ∀ a ∈ c.remaining.head?, test a = false) :
    Gives grammar (.satisfying test) c (.error ⟨c.offset, c.refusal⟩) := by
  refine gives_site.mpr (gives_leaf.mpr ?_)
  rw [Cursor.head?_remaining] at h
  unfold Leaf.run Cursor.refusal
  cases hread : c.read? with
  | none => rfl
  | some a => simp [h a hread]

section

variable {grammar : Grammar Char ρ} {cls : CharClass} {c : Cursor Char}

/-- Without a character of the class the first attempt is the one that fails. -/
theorem gives_run1_refusal (h : c.remaining.takeWhile cls.contains = []) :
    Gives grammar (.run1 cls) c (.error ⟨c.offset, .within "many1" c.refusal⟩) := by
  have first : Gives grammar (.adapt (.within "many1") (.satisfying cls.contains)) c
      (.error ⟨c.offset, .within "many1" c.refusal⟩) :=
    gives_adapt.mpr ⟨_, gives_satisfying_refusal (head_of_takeWhile_eq_nil h), rfl⟩
  have run : Gives grammar (.many1 (.satisfying cls.contains)) c
      (.error ⟨c.offset, .within "many1" c.refusal⟩) :=
    gives_site.mpr (error_andThen.mpr (.inl first))
  exact gives_site.mpr (gives_site.mpr (gives_adapt.mpr ⟨_, run, rfl⟩))

/-- A run of characters of a class asks no table, so what it gives it returns in every state. -/
theorem returns_run1 {r : Result Char} (h : Gives grammar (.run1 cls) c r) :
    (run1 cls).Returns grammar c r := by
  intro ctx s
  have faithful : s.Faithful grammar (fun _ => none) fun _ => #[] := nofun
  obtain ⟨r', t, signals, hrun, hr, -⟩ := finishes_run1 cls ctx s faithful
  obtain rfl := h.unique hr
  refine ⟨⟨_, t, signals, hrun⟩, ?_⟩
  intro fuel r' t' signals' hrun'
  cases run_unique hrun hrun'
  rfl

end

end Parser

namespace Arithmetic

open Packrat.Parser

/-! ## Digits that come next -/

/-- All the digits that come next. -/
def digitsAt (c : Cursor Char) : List Char := c.remaining.takeWhile CharClass.digit.contains

/-- Their decimal value. -/
def valueAt (c : Cursor Char) : Nat := Nat.ofDigitChars 10 (digitsAt c) 0

/-- The result of the rule for numbers. -/
def numberAt (c : Cursor Char) : Result Char :=
  if digitsAt c = [] then .error ⟨c.offset, .within "many1" c.refusal⟩
  else if (valueAt c : Int) ≤ Int64.maxValue.toInt then
    .ok ⟨c.past CharClass.digit.contains, .expr (.number (.ofInt (valueAt c)))⟩
  else .error ⟨c.offset, .stated Text.IntegerError.tooLarge.message⟩

/-- What can be said of the result `r` of the rule for numbers at the cursor `c`. -/
structure NumberRead (c : Cursor Char) (r : Result Char) : Prop where
  /-- It is a match if there are digits and their value fits. -/
  isOk_iff : r.isOk = true ↔ digitsAt c ≠ [] ∧ (valueAt c : Int) ≤ Int64.maxValue.toInt
  /-- A match consumes all the digits and has their value. -/
  match_eq : ∀ m, r = .ok m → m.stop = c.past CharClass.digit.contains ∧
    ∃ n : Int64, n.toInt = valueAt c ∧ m.value = .expr (.number n)
  /-- Without digits it is what a run of digits returns. -/
  empty : digitsAt c = [] → ∃ f, r = .error f ∧
    ∀ {ρ : Type} (grammar : Grammar Char ρ), (run1 .digit).Returns grammar c (.error f)
  /-- A value that does not fit is a failure at the first digit. -/
  tooLarge : digitsAt c ≠ [] → Int64.maxValue.toInt < valueAt c → ∃ f, r = .error f ∧
    f.position = c.offset ∧ f.message = "number too large to fit in target type"
  /-- The text of a number that is not negative is read back, whatever but a digit follows. -/
  readBack : ∀ (n : Int64) x, 0 ≤ n.toInt → c.remaining = (toString n.toInt).toList ++ x →
    (∀ a ∈ x.head?, a.isDigit = false) →
      r = .ok ⟨⟨c.buffer, c.offset + (toString n.toInt).length⟩, .expr (.number n)⟩

variable {base? : Option Nat} {c : Cursor Char} {r : Result Char}

theorem maxValue_eq : Int64.maxValue.toInt = numberRange.most := rfl

theorem isDigit_of_mem_digitsAt {a : Char} (h : a ∈ digitsAt c) : a.isDigit = true :=
  List.mem_takeWhile_imp h

/-! ## The rule for numbers -/

theorem numberAt_of_empty (empty : digitsAt c = []) :
    numberAt c = .error ⟨c.offset, .within "many1" c.refusal⟩ := if_pos empty

theorem numberAt_of_fits (some : digitsAt c ≠ [])
    (fits : (valueAt c : Int) ≤ Int64.maxValue.toInt) :
    numberAt c = .ok ⟨c.past CharClass.digit.contains, .expr (.number (.ofInt (valueAt c)))⟩ := by
  rw [numberAt, if_neg some, if_pos fits]

theorem numberAt_of_tooLarge (some : digitsAt c ≠ [])
    (exceeds : Int64.maxValue.toInt < (valueAt c : Int)) :
    numberAt c = .error ⟨c.offset, .stated Text.IntegerError.tooLarge.message⟩ := by
  rw [numberAt, if_neg some, if_neg (Int.not_le.mpr exceeds)]

theorem gives_numberAt (base? : Option Nat) (c : Cursor Char) :
    Rule.number.call.Gives (rules base?) c (numberAt c) := by
  refine gives_call.mpr (gives_site.mpr (gives_adapt.mpr ?_))
  by_cases empty : digitsAt c = []
  · exact ⟨_, gives_run1_refusal empty, (numberAt_of_empty empty).symm⟩
  · have digits : Gives (rules base?) (.run1 .digit) c
        (.ok ⟨c.past CharClass.digit.contains, .text (.ofList (digitsAt c))⟩) :=
      ok_run1.mpr ⟨empty, rfl, rfl⟩
    refine ⟨_, digits, ?_⟩
    have read := readNumber_ofList empty fun _ => isDigit_of_mem_digitsAt
    by_cases fits : (valueAt c : Int) ≤ Int64.maxValue.toInt
    · rw [numberAt_of_fits empty fits, Adapter.apply]
      simp only [read.trans (if_pos fits), Except.mapError, valueAt]
    · rw [numberAt_of_tooLarge empty (Int.not_le.mp fits), Adapter.apply]
      simp only [read.trans (if_neg fits), Except.mapError]

theorem gives_number : Rule.number.call.Gives (rules base?) c r ↔ r = numberAt c := by
  constructor
  · intro h
    exact h.unique (gives_numberAt base? c)
  · rintro rfl
    exact gives_numberAt base? c

theorem toInt_ofInt_valueAt (fits : (valueAt c : Int) ≤ Int64.maxValue.toInt) :
    (Int64.ofInt (valueAt c)).toInt = valueAt c := by
  rw [maxValue_eq, numberRange_most] at fits
  exact Int64.toInt_ofInt_of_le (by omega) (by omega)

/-- The text of a number is made of digits, and has the number as its value. -/
theorem digitsAt_of_text {n : Int64} {x : List Char} (h : 0 ≤ n.toInt)
    (text : c.remaining = (toString n.toInt).toList ++ x)
    (behind : ∀ a ∈ x.head?, a.isDigit = false) :
    digitsAt c = (toString n.toInt).toList ∧ digitsAt c ≠ [] ∧ (valueAt c : Int) = n.toInt := by
  have toDigits : (toString n.toInt).toList = Nat.toDigits 10 n.toInt.toNat := display_number h
  have digits : digitsAt c = (toString n.toInt).toList := by
    refine (Cursor.over_past_of_append text ?_ behind).1
    rw [toDigits]
    exact fun d hd => Nat.isDigit_of_mem_toDigits (by decide) (by decide) hd
  refine ⟨digits, ?_, ?_⟩
  · rw [digits, toDigits]
    exact Nat.toDigits_ne_nil
  · rw [valueAt, digits, toDigits, Nat.ofDigitChars_ten_toDigits, Int.toNat_of_nonneg h]

theorem numberRead_numberAt (c : Cursor Char) : NumberRead c (numberAt c) where
  isOk_iff := by
    by_cases empty : digitsAt c = []
    · simp [numberAt_of_empty empty, empty, Except.isOk, Except.toBool]
    · by_cases fits : (valueAt c : Int) ≤ Int64.maxValue.toInt
      · simp [numberAt_of_fits empty fits, empty, fits, Except.isOk, Except.toBool]
      · simp [numberAt_of_tooLarge empty (Int.not_le.mp fits), fits, Except.isOk, Except.toBool]
  match_eq := by
    intro m hm
    by_cases empty : digitsAt c = []
    · cases (numberAt_of_empty empty).symm.trans hm
    · by_cases fits : (valueAt c : Int) ≤ Int64.maxValue.toInt
      · cases (numberAt_of_fits empty fits).symm.trans hm
        exact ⟨rfl, _, toInt_ofInt_valueAt fits, rfl⟩
      · cases (numberAt_of_tooLarge empty (Int.not_le.mp fits)).symm.trans hm
  empty h := ⟨_, numberAt_of_empty h, fun _ => returns_run1 (gives_run1_refusal h)⟩
  tooLarge some exceeds := ⟨_, numberAt_of_tooLarge some exceeds, rfl, rfl⟩
  readBack n x nonneg text behind := by
    obtain ⟨digits, some, value⟩ := digitsAt_of_text nonneg text behind
    have fits : (valueAt c : Int) ≤ Int64.maxValue.toInt := value ▸ n.toInt_le
    have stop : c.past CharClass.digit.contains =
        ⟨c.buffer, c.offset + (toString n.toInt).length⟩ := by
      rw [← String.length_toList, ← digits]
      rfl
    rw [numberAt_of_fits some fits, value, Int64.ofInt_toInt, stop]

/-! ## Calls of the rule -/

namespace Query

/-- Whatever calls were made before of the rules of one grammar, with tables or without: every call
returns, and one of the rule for numbers reads exactly the numbers of 64 bits that are not
negative. -/
theorem numbers_read (base? : Option Nat) {sources : Nat → Array Char} {queries : List Query}
    {s : Store Char} (cut : Cut sources queries) (unused : Unused base? s) :
    (∃ fuel, (runAll base? fuel queries s).isSome) ∧
      ∀ fuel results t signals, runAll base? fuel queries s = some (results, t, signals) →
        List.Forall₂ (fun q r => q.rule = .number → NumberRead q.start r) queries results := by
  refine ⟨exists_runAll cut unused, ?_⟩
  intro fuel results t signals h
  refine (gives_of_runAll cut unused h).imp ?_
  rintro ⟨ctx, rule, start⟩ r ⟨-, hr⟩ number
  subst number
  rw [gives_number.mp hr]
  exact numberRead_numberAt start

/-- A number with zeros in front, which is answered from the table after a call of another rule, and
one that is too large by one. -/
theorem numbers_read_of_two_texts :
    let zeros := startOf "007+1"
    let large : Cursor Char := .ofBuffer (.ofArray 1 "9223372036854775808".toList.toArray)
    let queries : List Query :=
      [⟨.plain, .term, zeros⟩, ⟨.plain, .number, zeros⟩, ⟨.plain, .number, large⟩]
    ∃ results t signals, runAll (some 0) 300 queries ∅ = some (results, t, signals) ∧
      (t.table (Rule.number.table 0)).hits = 1 ∧ results.map (·.isOk) = [true, true, false] ∧
      List.Forall₂ (fun q r => q.rule = .number → NumberRead q.start r) queries results := by
  intro zeros large queries
  let sources : Nat → Array Char := fun n =>
    if n = 0 then "007+1".toList.toArray else "9223372036854775808".toList.toArray
  have first : zeros.buffer.CutFrom sources := .ofArray 0
  have second : large.buffer.CutFrom sources := .ofArray 1
  have cut : Cut sources queries := by
    intro q hq
    simp only [queries, List.mem_cons, List.not_mem_nil, or_false] at hq
    rcases hq with rfl | rfl | rfl
    · exact first
    · exact first
    · exact second
  have returns : ((runAll (some 0) 300 queries ∅).map fun out =>
      ((out.2.1.table (Rule.number.table 0)).hits, out.1.map (·.isOk))) =
        some (1, [true, true, false]) := by
    decide +kernel
  obtain ⟨⟨results, t, signals⟩, h, outcome⟩ := Option.map_eq_some_iff.mp returns
  obtain ⟨hits, oks⟩ := Prod.mk.inj outcome
  exact ⟨results, t, signals, h, hits, oks,
    (numbers_read (some 0) cut (unused_empty (some 0))).2 _ _ _ _ h⟩

end Query

end Arithmetic

end Packrat
