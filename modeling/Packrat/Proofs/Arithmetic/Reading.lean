import Mathlib.Data.List.TakeWhile
import Packrat.Proofs.Arithmetic.Notation
import Packrat.Proofs.Arithmetic.Numbers
import Packrat.Proofs.Matching

/-!
# What the rules of arithmetic read

Whatever a rule matches is, after blanks, a text that it derives, with the value of a match as the
tree of the derivation. The derivation is ordered, as the alternatives of a rule are. Memo tables are
no part of this, so it holds of the memoized rules and of the plain ones.

* `gives_call`: a rule gives what its body gives.
* `Level.ok_call`: the matches of sums and of products.
* `rule_induction`: from the rules that a rule calls to the rule itself.
* `Reading`: the text of a match and its derivation.
* `exists_reading`: every match of a rule that builds trees is a reading.
-/

namespace Packrat.Arithmetic

open Packrat.Parser

variable {base? : Option Nat} {c d : Cursor Char} {v : Value Char}

/-! ## Rules and their bodies -/

theorem gives_call {r : Rule} {out : Result Char} :
    r.call.Gives (rules base?) c out ↔ (body r).Gives (rules base?) c out := by
  rw [Rule.call, gives_unrolled rfl]
  cases base? with
  | none => exact gives_site
  | some base => exact gives_site.trans gives_memo

theorem fails_call {r : Rule} : r.call.Fails (rules base?) c ↔ (body r).Fails (rules base?) c :=
  exists_congr fun _ => gives_call

section

variable {grammar : Grammar Char Rule} {p q s : Parser Char Rule}

theorem ok_binary : (binary p q s).Gives grammar c (.ok ⟨d, v⟩) ↔
    ∃ c₁ c₂ u w x, p.Gives grammar c.pastBlanks (.ok ⟨c₁, u⟩) ∧
      q.Gives grammar c₁.pastBlanks (.ok ⟨c₂, w⟩) ∧
      s.Gives grammar c₂.pastBlanks (.ok ⟨d, x⟩) ∧ v = binaryOf (.list [u, w, x]) := by
  rw [binary, ok_map]
  simp only [ok_phrase, builtIn, gives_site]
  constructor
  · rintro ⟨_, ⟨c₁, c₂, u, w, x, hp, hq, hs, rfl⟩, rfl⟩
    exact ⟨c₁, c₂, u, w, x, hp, hq, hs, rfl⟩
  · rintro ⟨c₁, c₂, u, w, x, hp, hq, hs, rfl⟩
    exact ⟨_, ⟨c₁, c₂, u, w, x, hp, hq, hs, rfl⟩, rfl⟩

theorem fails_binary : (binary p q s).Fails grammar c ↔
    p.Fails grammar c.pastBlanks ∨ ∃ m, p.Gives grammar c.pastBlanks (.ok m) ∧
      (q.Fails grammar m.stop.pastBlanks ∨ ∃ n, q.Gives grammar m.stop.pastBlanks (.ok n) ∧
        s.Fails grammar n.stop.pastBlanks) := by
  rw [binary, fails_map, fails_phrase]
  simp only [builtIn, gives_site, fails_site]

end

namespace Level

variable {r operand operator : Rule} {signs : List Char}

theorem ok_operator (hr : Level r operand operator signs) :
    operator.call.Gives (rules base?) c (.ok ⟨d, v⟩) ↔
      ∃ op ∈ signs, c.remaining.head? = some op ∧ d = c.advance ∧ v = .token op := by
  rw [gives_call, hr.body_operator, ok_charIn, String.toList_ofList]

theorem fails_operator (hr : Level r operand operator signs) :
    operator.call.Fails (rules base?) c ↔ ∀ a ∈ c.remaining.head?, a ∉ signs := by
  rw [fails_call, hr.body_operator, fails_charIn, String.toList_ofList]

/-- An operation, or an operand alone where no operation is read. -/
theorem ok_call (hr : Level r operand operator signs) :
    r.call.Gives (rules base?) c (.ok ⟨d, v⟩) ↔
      (∃ e op l x, operand.call.Gives (rules base?) c.pastBlanks (.ok ⟨e, l⟩) ∧ op ∈ signs ∧
        e.pastBlanks.remaining.head? = some op ∧
        r.call.Gives (rules base?) e.pastBlanks.advance.pastBlanks (.ok ⟨d, x⟩) ∧
        v = .expr (.binary op (exprOf l) (exprOf x))) ∨
      (binary operand.call operator.call r.call).Fails (rules base?) c ∧
        operand.call.Gives (rules base?) c (.ok ⟨d, v⟩) := by
  rw [gives_call, hr.body_eq, ok_choice, ok_binary]
  refine or_congr_left ?_
  simp only [hr.ok_operator]
  constructor
  · rintro ⟨e, _, l, _, x, hlhs, ⟨op, sign, hhead, rfl, rfl⟩, hrhs, rfl⟩
    exact ⟨e, op, l, x, hlhs, sign, hhead, hrhs, rfl⟩
  · rintro ⟨e, op, l, x, hlhs, sign, hhead, hrhs, rfl⟩
    exact ⟨e, _, l, _, x, hlhs, ⟨op, sign, hhead, rfl, rfl⟩, hrhs, rfl⟩

end Level

/-! ## Induction over the rules -/

/-- The rules that build trees. -/
def treeRules : List Rule := [.expression, .parens, .sum, .product, .term, .number]

theorem Level.operand_mem_treeRules {r operand operator : Rule} {signs : List Char}
    (hr : Level r operand operator signs) : operand ∈ treeRules := by
  cases hr <;> decide

/-- What holds of numbers, and of each other rule if it holds of the rules that it calls, holds of all
rules at all cursors. Parentheses call for an expression, and an operation for itself, where fewer
characters are left. -/
theorem rule_induction {P : Rule → Cursor Char → Prop} (number : ∀ c, P .number c)
    (parens : ∀ c : Cursor Char,
      (∀ e : Cursor Char, e.remaining.length < c.remaining.length → P .expression e) → P .parens c)
    (term : ∀ c, P .number c → P .parens c → P .term c)
    (level : ∀ {r operand operator signs}, Level r operand operator signs → ∀ c : Cursor Char,
      (∀ e : Cursor Char, e.remaining.length ≤ c.remaining.length → P operand e) →
      (∀ e : Cursor Char, e.remaining.length < c.remaining.length → P r e) → P r c)
    (expression : ∀ c, P .parens c → P .sum c → P .expression c) :
    ∀ r ∈ treeRules, ∀ c, P r c := by
  suffices bounded : ∀ n, ∀ c : Cursor Char, c.remaining.length ≤ n → ∀ r ∈ treeRules, P r c from
    fun r hr c => bounded _ c (Nat.le_refl _) r hr
  intro n
  induction n using Nat.strongRecOn with
  | ind n ih =>
    have later : ∀ r ∈ treeRules, ∀ c : Cursor Char, c.remaining.length ≤ n → ∀ e : Cursor Char,
        e.remaining.length < c.remaining.length → P r e :=
      fun r hr c hc e he => ih e.remaining.length (by omega) e (Nat.le_refl _) r hr
    -- at one cursor, from the numbers up to the expressions
    have hparens : ∀ c : Cursor Char, c.remaining.length ≤ n → P .parens c :=
      fun c hc => parens c (later .expression (by decide) c hc)
    have hterm : ∀ c : Cursor Char, c.remaining.length ≤ n → P .term c :=
      fun c hc => term c (number c) (hparens c hc)
    have hproduct : ∀ c : Cursor Char, c.remaining.length ≤ n → P .product c :=
      fun c hc => level .product c (fun e he => hterm e (by omega))
        (later .product (by decide) c hc)
    have hsum : ∀ c : Cursor Char, c.remaining.length ≤ n → P .sum c :=
      fun c hc => level .sum c (fun e he => hproduct e (by omega)) (later .sum (by decide) c hc)
    intro c hc r hr
    simp only [treeRules, List.mem_cons, List.not_mem_nil, or_false] at hr
    rcases hr with rfl | rfl | rfl | rfl | rfl | rfl
    · exact expression c (hparens c hc) (hsum c hc)
    · exact hparens c hc
    · exact hsum c hc
    · exact hproduct c hc
    · exact hterm c hc
    · exact number c

/-! ## Matches are derived -/

theorem Blank.append {b b' : List Char} (hb : Blank b) (hb' : Blank b') : Blank (b ++ b') :=
  fun a ha => (List.mem_append.mp ha).elim (hb a) (hb' a)

theorem over_pastBlanks (c : Cursor Char) : ∃ b, Blank b ∧ c.Over b c.pastBlanks :=
  ⟨_, fun _ ha => List.mem_takeWhile_imp ha, c.over_past _⟩

theorem pastBlanks_pastBlanks (c : Cursor Char) : c.pastBlanks.pastBlanks = c.pastBlanks :=
  Cursor.past_past _ c

theorem length_pastBlanks_le (c : Cursor Char) :
    c.pastBlanks.remaining.length ≤ c.remaining.length :=
  Cursor.length_remaining_past _ c

theorem over_sign {a : Char} (h : c.pastBlanks.remaining.head? = some a) :
    ∃ b b', Blank b ∧ Blank b' ∧ c.Over (b ++ a :: b') c.pastBlanks.advance.pastBlanks := by
  obtain ⟨b, hb, before⟩ := over_pastBlanks c
  obtain ⟨b', hb', behind⟩ := over_pastBlanks c.pastBlanks.advance
  have whole := before.append ((Cursor.over_advance h).append behind)
  exact ⟨b, b', hb, hb', whole⟩

theorem length_advance_pastBlanks {a : Char} (h : c.pastBlanks.remaining.head? = some a) :
    c.pastBlanks.advance.remaining.length < c.remaining.length := by
  have hblanks := length_pastBlanks_le c
  have hsign := (Cursor.over_advance h).length_eq
  rw [List.length_singleton] at hsign
  omega

theorem length_behind_sign {a : Char} (h : c.pastBlanks.remaining.head? = some a) :
    c.pastBlanks.advance.pastBlanks.remaining.length < c.remaining.length :=
  Nat.lt_of_le_of_lt (length_pastBlanks_le _) (length_advance_pastBlanks h)

/-- The rule read blanks and then a text that it derives in order. A number alone is read only where
no blanks are before it, and where a text begins with a parenthesis, `parens` matches. -/
structure Reading (base? : Option Nat) (r : Rule) (c d : Cursor Char) (b w : List Char)
    (e : Expr) : Prop where
  blank : Blank b
  between : c.Over (b ++ w) d
  derives : Derives true r w e
  bare : b = [] ∨ ∃ a ∈ w, a.isDigit = false
  opening : w.head? = some '(' → ∃ m, Rule.parens.call.Gives (rules base?) c (.ok m)

/-- Every match of the rule at the cursor is a reading. -/
def Sound (base? : Option Nat) (r : Rule) (c : Cursor Char) : Prop :=
  ∀ {d v}, r.call.Gives (rules base?) c (.ok ⟨d, v⟩) →
    ∃ b w e, Reading base? r c d b w e ∧ v = .expr e

theorem sound_number (c : Cursor Char) : Sound base? .number c := by
  intro d v h
  obtain ⟨_, hrun, hread⟩ := ok_mapExcept.mp (gives_call.mp h)
  obtain ⟨some, rfl, rfl⟩ := ok_run1.mp hrun
  have digits : ∀ a ∈ c.remaining.takeWhile CharClass.digit.contains, a.isDigit = true :=
    fun _ ha => List.mem_takeWhile_imp ha
  obtain ⟨n, value, rfl⟩ := (readNumber_eq_ok some digits).mp hread
  refine ⟨[], _, _, ⟨blank_nil, c.over_past _, .number some digits value, .inl rfl, ?_⟩, rfl⟩
  intro hhead
  cases digits '(' (List.mem_of_mem_head? hhead)

theorem sound_parens
    (ih : ∀ e : Cursor Char, e.remaining.length < c.remaining.length → Sound base? .expression e) :
    Sound base? .parens c := by
  intro d v h
  obtain ⟨e, hopening, hinside, hclosing, rfl⟩ := ok_enclosedBy.mp (gives_call.mp h)
  obtain ⟨b₀, b₁, hb₀, hb₁, opening⟩ := over_sign hopening
  obtain ⟨b₂, hb₂, skip₂⟩ := over_pastBlanks e
  obtain ⟨b, w, e', inside, rfl⟩ := ih _ (length_behind_sign hopening) hinside
  have whole := (opening.append inside.between).append
    (skip₂.append (Cursor.over_advance hclosing))
  refine ⟨b₀, _, e', ⟨hb₀, ?_, .parens (hb₁.append inside.blank) inside.derives hb₂,
    .inr ⟨'(', List.mem_cons_self, rfl⟩, fun _ => ⟨_, h⟩⟩, rfl⟩
  simpa using whole

theorem sound_term (hnumber : Sound base? .number c) (hparens : Sound base? .parens c) :
    Sound base? .term c := by
  intro d v h
  rcases ok_choice.mp (gives_call.mp h) with h | ⟨-, h⟩
  · obtain ⟨b, w, e, hread, hv⟩ := hnumber h
    exact ⟨b, w, e, { hread with derives := .termNumber hread.derives }, hv⟩
  · obtain ⟨b, w, e, hread, hv⟩ := hparens h
    exact ⟨b, w, e, { hread with derives := .termParens hread.derives }, hv⟩

theorem parens_of_pastBlanks {m : Match Char}
    (h : Rule.parens.call.Gives (rules base?) c.pastBlanks (.ok m)) :
    Rule.parens.call.Gives (rules base?) c (.ok m) := by
  have h' := ok_enclosedBy.mp (gives_call.mp h)
  rw [pastBlanks_pastBlanks] at h'
  exact gives_call.mpr (ok_enclosedBy.mpr h')

theorem Level.not_isDigit {r operand operator : Rule} {signs : List Char}
    (hr : Level r operand operator signs) {op : Char} (sign : op ∈ signs) :
    op.isDigit = false := by
  cases hr
  all_goals
    simp only [List.mem_cons, List.not_mem_nil, or_false] at sign
    rcases sign with rfl | rfl <;> rfl

/-- The operands of an operation are read where it is read itself or further on, and the operation
on its right is read behind the sign. -/
theorem Level.sound {r operand operator : Rule} {signs : List Char}
    (hr : Level r operand operator signs)
    (hoperand : ∀ e : Cursor Char, e.remaining.length ≤ c.remaining.length → Sound base? operand e)
    (ih : ∀ e : Cursor Char, e.remaining.length < c.remaining.length → Sound base? r e) :
    Sound base? r c := by
  intro d v h
  rcases hr.ok_call.mp h with ⟨e, op, l, x, hlhs, sign, hhead, hrhs, rfl⟩ | ⟨-, h⟩
  · obtain ⟨b, v, l, left, rfl⟩ := hoperand _ (length_pastBlanks_le c) hlhs
    obtain ⟨b₀, hb₀, before⟩ := over_pastBlanks c
    obtain ⟨b₁, b₂, hb₁, hb₂, sign'⟩ := over_sign hhead
    have operation := (before.append left.between).append sign'
    have shorter : e.pastBlanks.advance.pastBlanks.remaining.length < c.remaining.length := by
      have hlength := (before.append left.between).length_eq
      have hsign := length_behind_sign hhead
      omega
    obtain ⟨b', w, x, right, rfl⟩ := ih _ shorter hrhs
    have whole := operation.append right.between
    refine ⟨b₀ ++ b, _, _, ⟨hb₀.append left.blank, ?_,
      hr.derives left.derives hb₁ sign (hb₂.append right.blank) right.derives,
      .inr ⟨op, by simp, hr.not_isDigit sign⟩, ?_⟩, rfl⟩
    · simpa using whole
    · intro hopening
      rw [List.append_assoc, List.head?_append_of_ne_nil _ left.derives.ne_nil] at hopening
      obtain ⟨m, hm⟩ := left.opening hopening
      exact ⟨m, parens_of_pastBlanks hm⟩
  · obtain ⟨b, w, e, hread, hv⟩ := hoperand c (Nat.le_refl _) h
    exact ⟨b, w, e, { hread with derives := hr.derives_operand hread.derives }, hv⟩

/-- A sum is read only where `parens` fails, so its text does not begin with a parenthesis. -/
theorem sound_expression (hparens : Sound base? .parens c) (hsum : Sound base? .sum c) :
    Sound base? .expression c := by
  intro d v h
  rcases ok_choice.mp (gives_call.mp h) with h | ⟨hfails, h⟩
  · obtain ⟨b, w, e, hread, hv⟩ := hparens h
    exact ⟨b, w, e, { hread with derives := .expressionParens hread.derives }, hv⟩
  · obtain ⟨b, w, e, hread, hv⟩ := hsum h
    refine ⟨b, w, e, { hread with derives := .expressionSum hread.derives fun _ hhead => ?_ }, hv⟩
    obtain ⟨m, hm⟩ := hread.opening hhead
    exact hfails.not_ok hm

/-- Every match of a rule that builds trees is a reading. -/
theorem exists_reading {r : Rule} (hr : r ∈ treeRules)
    (h : r.call.Gives (rules base?) c (.ok ⟨d, v⟩)) :
    ∃ b w e, Reading base? r c d b w e ∧ v = .expr e :=
  rule_induction (P := Sound base?) sound_number (fun _ => sound_parens) (fun _ => sound_term)
    (fun hr _ => hr.sound) (fun _ => sound_expression) r hr c h

theorem le_of_gives {r : Rule} (hr : r ∈ treeRules)
    (h : r.call.Gives (rules base?) c (.ok ⟨d, v⟩)) :
    d.buffer = c.buffer ∧ d.remaining.length ≤ c.remaining.length := by
  obtain ⟨b, w, e, read, -⟩ := exists_reading hr h
  have hlength := read.between.length_eq
  exact ⟨read.between.buffer_eq, by omega⟩

end Packrat.Arithmetic
