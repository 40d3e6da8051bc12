import Packrat.Arithmetic.Rules

/-!
# Numbers from digits

Digits are read from the left, and reading stops as soon as the number exceeds the range. A number
only grows by further digits, so reading digits gives their decimal value if that lies in the range,
and nothing otherwise.

* `IntegerRange.readDigits_eq`: the digits after a number that was read already.
* `Arithmetic.readNumber_ofList`: what is read of a text of digits.
* `Arithmetic.readNumber_eq_ok`: the 64-bit number that a text of digits stands for.
-/

namespace Packrat

namespace Text

theorem digitValue?_of_isDigit {c : Char} (h : c.isDigit = true) :
    digitValue? c = some (c.toNat - '0'.toNat) := if_pos h

theorem le_ofDigitChars (ds : List Char) (n : Nat) : n ≤ Nat.ofDigitChars 10 ds n := by
  induction ds generalizing n with
  | nil => simp
  | cons d ds ih =>
    have hrest := ih (10 * n + (d.toNat - '0'.toNat))
    rw [Nat.ofDigitChars_cons]
    omega

namespace IntegerRange

variable {r : IntegerRange} {ds : List Char}

/-- Reading gives the decimal value of the digits, or stops at the first digit that leads beyond the
range. -/
theorem readDigits_eq (digits : ∀ d ∈ ds, d.isDigit = true) {n : Nat} (hn : (n : Int) ≤ r.most) :
    r.readDigits n ds = if (Nat.ofDigitChars 10 ds n : Int) ≤ r.most
      then .ok (Nat.ofDigitChars 10 ds n) else .error .tooLarge := by
  induction ds generalizing n with
  | nil => simp [readDigits, hn]
  | cons d ds ih =>
    obtain ⟨hd, digits⟩ := List.forall_mem_cons.mp digits
    have hnext : (n : Int) * 10 + ((d.toNat - '0'.toNat : Nat) : Int) =
        ((10 * n + (d.toNat - '0'.toNat) : Nat) : Int) := by
      push_cast
      omega
    simp only [readDigits, digitValue?_of_isDigit hd, hnext, Nat.ofDigitChars_cons]
    split
    · rename_i fits
      exact ih digits fits
    · rename_i exceeds
      have grows := le_ofDigitChars ds (10 * n + (d.toNat - '0'.toNat))
      rw [if_neg (by omega)]

/-- Digits have no sign, so all of them are read. -/
theorem read_eq (some : ds ≠ []) (digits : ∀ d ∈ ds, d.isDigit = true) (hr : 0 ≤ r.most) :
    r.read ds = if (Nat.ofDigitChars 10 ds 0 : Int) ≤ r.most
      then .ok (Nat.ofDigitChars 10 ds 0) else .error .tooLarge := by
  rw [← readDigits_eq digits (by simpa using hr)]
  cases ds with
  | nil => exact absurd rfl some
  | cons d ds =>
    have hd : d.isDigit = true := digits d List.mem_cons_self
    have hplus : d ≠ '+' := by
      rintro rfl
      cases hd
    have hminus : d ≠ '-' := by
      rintro rfl
      cases hd
    unfold read
    split <;> simp_all

end IntegerRange

end Text

namespace Arithmetic

theorem numberRange_most : numberRange.most = 9223372036854775807 := rfl

/-- A text of digits is read as its decimal value, or refused because the value is too large. -/
theorem readNumber_ofList {ds : List Char} (some : ds ≠ [])
    (digits : ∀ d ∈ ds, d.isDigit = true) : readNumber (.text (.ofList ds)) =
      if (Nat.ofDigitChars 10 ds 0 : Int) ≤ numberRange.most
        then .ok (.expr (.number (.ofInt (Nat.ofDigitChars 10 ds 0))))
        else .error Text.IntegerError.tooLarge.message := by
  have read := Text.IntegerRange.read_eq (r := numberRange) some digits (by decide)
  unfold readNumber
  rw [Value.content, String.toList_ofList, read]
  split <;> rename_i h <;> split at h <;> cases h
  · rename_i fits
    rw [if_pos fits]
  · rename_i exceeds
    rw [if_neg exceeds]

/-- A text of digits stands for the 64-bit number that is their decimal value, and for nothing if
there is none. -/
theorem readNumber_eq_ok {ds : List Char} (some : ds ≠ []) (digits : ∀ d ∈ ds, d.isDigit = true)
    {v : Value Char} :
    readNumber (.text (.ofList ds)) = .ok v ↔
      ∃ n : Int64, n.toInt = Nat.ofDigitChars 10 ds 0 ∧ v = .expr (.number n) := by
  rw [readNumber_ofList some digits, numberRange_most]
  split
  · rename_i fits
    constructor
    · intro h
      cases h
      have value := Int64.toInt_ofInt_of_le (n := (Nat.ofDigitChars 10 ds 0 : Int))
        (by omega) (by omega)
      exact ⟨_, value, rfl⟩
    · rintro ⟨n, hn, rfl⟩
      rw [← hn, Int64.ofInt_toInt]
  · rename_i exceeds
    constructor
    · exact nofun
    · rintro ⟨n, hn, rfl⟩
      have hn' : n.toInt ≤ 9223372036854775807 := n.toInt_le
      omega

end Arithmetic

end Packrat
