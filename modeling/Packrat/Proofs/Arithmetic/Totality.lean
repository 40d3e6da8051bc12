import Packrat.Proofs.Arithmetic.Reading
import Packrat.Proofs.Totality

/-!
# The recursion of the rules ends

A rule that begins where another one began stands below it: expressions are made of sums, sums of
products, products of terms, and terms of numbers and parentheses. A rule that is called further up
is called behind a token. So the depth of the recursion is linear in the number of characters that
are left, and every rule has an outcome at every cursor, with memo tables and without.

* `tableBody`: the parser of each memo table.
* `levels`: the fuel that is enough for a rule.
* `finishes_call`: every rule finishes.
* `parse?_eq_ok`: what is read of a whole text.
-/

namespace Packrat.Arithmetic

open Packrat.Parser

variable {base? : Option Nat} {sources : Nat → Array Char} {c d : Cursor Char} {n : Nat}
  {v : Value Char}

/-! ## The tables of the grammar -/

/-- The parser that a memo table is wrapped around, if the grammar has tables and this is one. -/
def tableBody (base? : Option Nat) (memo : Memo) : Option (Parser Char Rule) :=
  base?.bind fun base => (Rule.all.find? fun r => r.table base = memo).map body

theorem tableBody_table (base : Nat) (r : Rule) :
    tableBody (some base) (r.table base) = some (body r) := by
  cases r <;> simp [tableBody, Rule.all, Rule.table, Rule.index]

theorem withoutMemo_body (r : Rule) : (body r).withoutMemo = body r := by
  cases r <;> rfl

theorem uniform_body (base? : Option Nat) (r : Rule) : (body r).Uniform (tableBody base?) :=
  withoutMemo_body r ▸ uniform_withoutMemo (body r)

theorem uniform_rules (base? : Option Nat) (r : Rule) :
    (rules base? r).Uniform (tableBody base?) := by
  cases base? with
  | none => exact uniform_body none r
  | some base => exact ⟨tableBody_table base r, uniform_body (some base) r⟩

/-! ## The depth of the recursion -/

/-- The height of a rule over those that it calls where it begins. -/
def Rule.height : Rule → Nat
  | .expression => 5
  | .sum => 4
  | .product => 3
  | .term => 2
  | .parens => 1
  | .number | .sumOperator | .productOperator => 0

namespace Level

variable {r operand operator : Rule} {signs : List Char}

theorem height_eq (hr : Level r operand operator signs) : r.height = operand.height + 1 := by
  cases hr <;> rfl

theorem height_operator (hr : Level r operand operator signs) : operator.height = 0 := by
  cases hr <;> rfl

theorem height_le (hr : Level r operand operator signs) : r.height ≤ 4 := by
  cases hr <;> decide

end Level

/-- The fuel that is enough for a rule where so many characters are left. -/
def levels (r : Rule) (left : Nat) : Nat := 128 * (left + 1) + 16 * r.height

/-- The rule finishes at the cursor with the fuel for it. -/
def Ends (base? : Option Nat) (sources : Nat → Array Char) (r : Rule) (c : Cursor Char) : Prop :=
  c.buffer.CutFrom sources →
    r.call.Finishes (rules base?) (tableBody base?) sources (levels r c.remaining.length) c

theorem Ends.mono {r : Rule} (h : Ends base? sources r c) (hc : c.buffer.CutFrom sources)
    (hn : levels r c.remaining.length ≤ n) :
    r.call.Finishes (rules base?) (tableBody base?) sources n c :=
  Parser.Finishes.mono (h hc) hn

theorem ends_of_body {r : Rule} (hc : c.buffer.CutFrom sources)
    (h : (body r).Finishes (rules base?) (tableBody base?) sources n c)
    (hn : n + 3 ≤ levels r c.remaining.length) :
    r.call.Finishes (rules base?) (tableBody base?) sources (levels r c.remaining.length) c := by
  have rule : (rules base? r).Finishes (rules base?) (tableBody base?) sources (n + 2) c := by
    cases base? with
    | none => exact h.site.mono (by omega)
    | some base => exact (h.memo (tableBody_table base r) hc).site
  exact rule.rule.mono hn

theorem ends_number (c : Cursor Char) : Ends base? sources .number c := by
  intro hc
  refine ends_of_body hc ((finishes_run1 .digit).adapt _).site ?_
  simp only [levels, Rule.height]
  omega

theorem ends_choice {r q s : Rule} (hr : body r = .choice (q.call, s.call))
    (hq : q.height < r.height) (hs : s.height < r.height) (first : Ends base? sources q c)
    (second : Ends base? sources s c) : Ends base? sources r c := by
  intro hc
  have choice : (body r).Finishes (rules base?) (tableBody base?) sources
      (levels r c.remaining.length - 6 + 3) c := by
    rw [hr]
    refine (first.mono hc ?_).choice (second.mono hc ?_)
    all_goals
      simp only [levels]
      omega
  refine ends_of_body hc choice ?_
  simp only [levels]
  omega

theorem ends_parens
    (ih : ∀ e : Cursor Char, e.remaining.length < c.remaining.length →
      Ends base? sources .expression e) : Ends base? sources .parens c := by
  intro hc
  refine ends_of_body (n := 128 * (c.remaining.length + 1) + 5) hc ?_ ?_
  · refine Finishes.enclosedBy (by omega) ?_ ?_
    · intro hopening
      obtain ⟨b, b', -, -, sign⟩ := over_sign hopening
      have shorter := length_behind_sign hopening
      refine (ih _ shorter).mono (sign.buffer_eq ▸ hc) ?_
      simp only [levels, Rule.height]
      omega
    · rintro ⟨e, v⟩ hopening hinside
      have shorter := length_behind_sign hopening
      obtain ⟨-, hlength⟩ := le_of_gives (by decide) hinside
      exact Nat.le_trans hlength (Nat.le_of_lt shorter)
  · simp only [levels, Rule.height]
    omega

theorem finishes_binary {grammar : Grammar Char Rule} {tables : Memo → Option (Parser Char Rule)}
    {p q s : Parser Char Rule} (hn : c.remaining.length + 6 ≤ n)
    (hp : p.Finishes grammar tables sources n c.pastBlanks)
    (hq : ∀ e v, p.Gives grammar c.pastBlanks (.ok ⟨e, v⟩) →
      e.remaining.length ≤ c.remaining.length ∧ q.Finishes grammar tables sources n e.pastBlanks)
    (hs : ∀ e v e' v', p.Gives grammar c.pastBlanks (.ok ⟨e, v⟩) →
      q.Gives grammar e.pastBlanks (.ok ⟨e', v'⟩) →
      e'.remaining.length ≤ c.remaining.length ∧
        s.Finishes grammar tables sources n e'.pastBlanks) :
    (binary p q s).Finishes grammar tables sources (n + 6) c := by
  refine (Finishes.phrase (n := n + 1) (by omega) hp.site ?_ ?_).adapt _
  · intro m hm
    obtain ⟨hlength, second⟩ := hq _ _ (gives_site.mp hm)
    exact ⟨hlength, second.site⟩
  · intro m m' hm hm'
    obtain ⟨hlength, third⟩ := hs _ _ _ _ (gives_site.mp hm) (gives_site.mp hm')
    exact ⟨hlength, third.site⟩

namespace Level

variable {r operand operator : Rule} {signs : List Char} (hr : Level r operand operator signs)
include hr

theorem ends_operator (c : Cursor Char) : Ends base? sources operator c := by
  intro hc
  refine ends_of_body (n := 2) hc ?_ ?_
  · rw [hr.body_operator]
    exact (finishes_leaf _).site
  · simp only [levels]
    omega

/-- An operation stands above its operands, and its right side begins behind a sign. -/
theorem ends
    (hoperand : ∀ e : Cursor Char, e.remaining.length ≤ c.remaining.length →
      Ends base? sources operand e)
    (ih : ∀ e : Cursor Char, e.remaining.length < c.remaining.length → Ends base? sources r e) :
    Ends base? sources r c := by
  intro hc
  have hskip := length_pastBlanks_le c
  have left : ∀ e v, operand.call.Gives (rules base?) c.pastBlanks (.ok ⟨e, v⟩) →
      e.buffer.CutFrom sources ∧ e.remaining.length ≤ c.remaining.length := by
    intro e v hlhs
    obtain ⟨hbuffer, hlength⟩ := le_of_gives hr.operand_mem_treeRules hlhs
    exact ⟨hbuffer ▸ hc, by omega⟩
  have operation : (binary operand.call operator.call r.call).Finishes (rules base?)
      (tableBody base?) sources (levels operand c.remaining.length + 6) c := by
    refine finishes_binary ?_ ?_ ?_ ?_
    · simp only [levels]
      omega
    · refine (hoperand _ hskip).mono hc ?_
      simp only [levels]
      omega
    · intro e v hlhs
      obtain ⟨hcut, hlength⟩ := left e v hlhs
      have hskip := length_pastBlanks_le e
      refine ⟨hlength, (hr.ends_operator _).mono hcut ?_⟩
      simp only [levels, hr.height_operator]
      omega
    · intro e v e' v' hlhs hsign
      obtain ⟨hcut, hlength⟩ := left e v hlhs
      obtain ⟨op, -, hhead, rfl, -⟩ := hr.ok_operator.mp hsign
      obtain ⟨b, b', -, -, sign⟩ := over_sign hhead
      have hadvance := length_advance_pastBlanks hhead
      have shorter := length_behind_sign hhead
      refine ⟨by omega, (ih _ (by omega)).mono (sign.buffer_eq ▸ hcut) ?_⟩
      have hheight := hr.height_eq
      have hle := hr.height_le
      simp only [levels]
      omega
  refine ends_of_body (n := levels operand c.remaining.length + 9) hc ?_ ?_
  · rw [hr.body_eq]
    exact operation.choice ((hoperand c (Nat.le_refl _)).mono hc (by omega))
  · simp only [levels, hr.height_eq]
    omega

end Level

theorem finishes_call (base? : Option Nat) (hc : c.buffer.CutFrom sources) (r : Rule) :
    r.call.Finishes (rules base?) (tableBody base?) sources (levels r c.remaining.length) c := by
  have tree : ∀ r ∈ treeRules, ∀ c, Ends base? sources r c :=
    rule_induction ends_number (fun _ => ends_parens)
      (fun _ number parens => ends_choice rfl (by decide) (by decide) number parens)
      (fun hr _ => hr.ends)
      (fun _ parens sum => ends_choice rfl (by decide) (by decide) parens sum)
  cases r with
  | sumOperator => exact Level.sum.ends_operator c hc
  | productOperator => exact Level.product.ends_operator c hc
  | _ => exact tree _ (by decide) c hc

/-! ## Whole texts -/

/-- The start of a text. -/
def startOf (text : String) : Cursor Char := .ofBuffer (.ofArray 0 text.toList.toArray)

@[simp] theorem remaining_startOf (text : String) : (startOf text).remaining = text.toList := by
  simp [startOf, Cursor.ofBuffer, Buffer.ofArray, Cursor.remaining]

theorem cutFrom_startOf (text : String) :
    (startOf text).buffer.CutFrom fun _ => text.toList.toArray := Buffer.CutFrom.ofArray 0

theorem ok_wholeText : wholeText.Gives (rules base?) c (.ok ⟨d, v⟩) ↔
    ∃ e, Rule.expression.call.Gives (rules base?) c (.ok ⟨e, v⟩) ∧
      (∀ a ∈ e.remaining, CharClass.multispace.contains a = true) ∧
      d = e.past CharClass.multispace.contains := by
  rw [wholeText, toEnd, builtIn, gives_site, ok_keepLeft]
  simp only [ok_keepLeft, gives_run0, ok_endOfInput, Except.ok.injEq, Match.mk.injEq]
  constructor
  · rintro ⟨_, _, ⟨e, _, hexpr, rfl, rfl⟩, hend, rfl, -⟩
    rw [Cursor.remaining_past, List.dropWhile_eq_nil_iff] at hend
    exact ⟨e, hexpr, hend, rfl⟩
  · rintro ⟨e, hexpr, hspace, rfl⟩
    refine ⟨_, _, ⟨e, _, hexpr, rfl, rfl⟩, ?_, rfl, rfl⟩
    rwa [Cursor.remaining_past, List.dropWhile_eq_nil_iff]

theorem finishes_wholeText (base? : Option Nat) (hc : c.buffer.CutFrom sources)
    (hn : levels .expression c.remaining.length + 5 ≤ n) :
    wholeText.Finishes (rules base?) (tableBody base?) sources n c := by
  have spaced : (keepLeft Rule.expression.call (run0 .multispace)).Finishes (rules base?)
      (tableBody base?) sources (levels .expression c.remaining.length + 2) c := by
    refine (finishes_call base? hc .expression).keepLeft ?_
    rintro ⟨e, v⟩ h
    obtain ⟨-, hlength⟩ := le_of_gives (by decide) h
    refine (finishes_run0 .multispace).mono ?_
    change e.remaining.length + 7 ≤ _
    simp only [levels, Rule.height]
    omega
  have whole := spaced.keepLeft (q := endOfInput) fun _ _ => finishes_endOfInput.mono (by omega)
  exact whole.site.mono hn

/-- The fuel of `parse?` is enough for every text. -/
theorem parse?_eq (text : String) :
    ∃ r, wholeText.Gives (rules (some 0)) (startOf text) r ∧
      parse? text = some (r.map fun m => exprOf m.value) := by
  have size : (Buffer.ofArray 0 text.toList.toArray).size = (startOf text).remaining.length := by
    simp [Buffer.ofArray, Buffer.size]
  have fuel : levels .expression (startOf text).remaining.length + 5 ≤
      fuelFor (Buffer.ofArray 0 text.toList.toArray).size := by
    rw [size, fuelFor, levels, Rule.height]
    omega
  have unused : (∅ : Store Char).Faithful (rules (some 0)) (tableBody (some 0))
      fun _ => text.toList.toArray := Store.allAnswers_of_fresh fun _ _ => rfl
  have finishes := finishes_wholeText (some 0) (cutFrom_startOf text) fuel
  obtain ⟨r, t, signals, hrun, hr, -⟩ := finishes .plain ∅ unused
  refine ⟨r, hr, ?_⟩
  rw [startOf] at hrun
  rw [parse?]
  simp only [hrun]
  cases r <;> rfl

theorem parse?_eq_ok {text : String} {e : Expr} :
    parse? text = some (.ok e) ↔
      ∃ d v, Rule.expression.call.Gives (rules (some 0)) (startOf text) (.ok ⟨d, v⟩) ∧
        (∀ a ∈ d.remaining, CharClass.multispace.contains a = true) ∧ exprOf v = e := by
  obtain ⟨r, hr, hparse⟩ := parse?_eq text
  rw [hparse]
  constructor
  · intro h
    cases r with
    | error f => cases h
    | ok m =>
      cases h
      obtain ⟨d, hexpr, hspace, -⟩ := ok_wholeText.mp hr
      exact ⟨d, m.value, hexpr, hspace, rfl⟩
  · rintro ⟨d, v, hexpr, hspace, rfl⟩
    cases hr.unique (ok_wholeText.mpr ⟨d, hexpr, hspace, rfl⟩)
    rfl

end Packrat.Arithmetic
