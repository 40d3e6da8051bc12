import Mathlib.Data.List.DropRight
import Mathlib.Logic.Relation
import Packrat.Proofs.Arithmetic.Completeness

/-!
# White space between tokens

Two texts with the same tokens have the same derivations, wherever blanks stand between the tokens.
So white space may be added before and between the tokens of a text and behind the last one, and the
text is read as before, with the same tree. There is one exception: `expression` skips no blanks
before a text that is a number alone, so blanks in front of such a text are refused.

* `Spaced`: texts with more white space.
* `tokens`: a text without its blanks.
* `Derives.respaceable`: texts with the same tokens are derived alike.
* `parse?_spaced`: what becomes of a text with more white space.
-/

namespace Packrat.Arithmetic

/-! ## More white space -/

/-- One more character of white space: a space or a tab, not inside of a number, or any white space
behind the last token. -/
inductive Insertion : List Char → List Char → Prop where
  | blank {x y : List Char} {a : Char} (ha : CharClass.space.contains a = true)
      (between : ∀ d ∈ x.getLast?, ∀ d' ∈ y.head?, d.isDigit = true → d'.isDigit = false) :
      Insertion (x ++ y) (x ++ a :: y)
  | behind {x y : List Char} {a : Char} (ha : CharClass.multispace.contains a = true)
      (hy : ∀ d ∈ y, CharClass.multispace.contains d = true) : Insertion (x ++ y) (x ++ a :: y)

/-- The second text is the first one with more white space. -/
def Spaced : List Char → List Char → Prop := Relation.ReflTransGen Insertion

/-- The text without the white space behind its last token. -/
def content (t : List Char) : List Char := t.rdropWhile CharClass.multispace.contains

/-- The text is a number alone, with blanks in front of it. -/
def NumberBehindBlanks (t : List Char) : Prop :=
  ∃ b ds, t = b ++ ds ∧ b ≠ [] ∧ Blank b ∧ ds ≠ [] ∧ ∀ d ∈ ds, d.isDigit = true

variable {ordered : Bool} {r : Rule} {b w w' x y t t' : List Char} {a : Char} {e : Expr}

theorem multispace_of_space (h : CharClass.space.contains a = true) :
    CharClass.multispace.contains a = true := by
  simp only [CharClass.contains, Bool.or_eq_true] at h ⊢
  exact .inl (.inl h)

/-! ## Tokens -/

/-- The characters that are no blanks, each with whether it goes on with a number: whether it is a
digit directly behind another digit. At the beginning, `digit` says whether there is one before. -/
def tokens (digit : Bool) : List Char → List (Char × Bool)
  | [] => []
  | a :: x =>
    if CharClass.space.contains a then tokens false x
    else (a, digit && a.isDigit) :: tokens a.isDigit x

theorem tokens_cons_of_space (digit : Bool) (ha : CharClass.space.contains a = true) :
    tokens digit (a :: x) = tokens false x := if_pos ha

theorem tokens_cons (digit : Bool) (ha : CharClass.space.contains a = false) :
    tokens digit (a :: x) = (a, digit && a.isDigit) :: tokens a.isDigit x := by
  rw [tokens, ha]
  rfl

/-- Whether a digit stands at the end of a text, or before the text if it is empty. -/
def endsInDigit (digit : Bool) (x : List Char) : Bool := (x.getLast?.map Char.isDigit).getD digit

theorem tokens_append (digit : Bool) (x y : List Char) :
    tokens digit (x ++ y) = tokens digit x ++ tokens (endsInDigit digit x) y := by
  induction x generalizing digit with
  | nil => rfl
  | cons a x ih =>
    have hend : endsInDigit digit (a :: x) = endsInDigit a.isDigit x := by
      cases x <;> simp [endsInDigit, List.getLast?_cons]
    rw [List.cons_append, hend]
    cases ha : CharClass.space.contains a with
    | true =>
      have hdigit : a.isDigit = false := by
        rw [Bool.eq_false_iff]
        intro digit
        rw [not_space_of_isDigit digit] at ha
        cases ha
      rw [tokens_cons_of_space digit ha, tokens_cons_of_space digit ha, ih, hdigit]
    | false => rw [tokens_cons digit ha, tokens_cons digit ha, ih, List.cons_append]

/-- A character that is no digit does not go on with a number. -/
theorem tokens_eq_of_head (digit : Bool) (hy : ∀ a ∈ y.head?, a.isDigit = false) :
    tokens digit y = tokens false y := by
  cases y with
  | nil => rfl
  | cons a y =>
    have hdigit : a.isDigit = false := hy a rfl
    rw [tokens, tokens, hdigit, Bool.and_false, Bool.and_false]

theorem tokens_blank_append (digit : Bool) (hb : Blank b) (hx : ∀ a ∈ x.head?, a.isDigit = false) :
    tokens digit (b ++ x) = tokens false x := by
  induction b generalizing digit with
  | nil => exact tokens_eq_of_head digit hx
  | cons a b ih =>
    rw [List.cons_append, tokens_cons_of_space digit (hb a List.mem_cons_self)]
    exact ih false fun a' ha' => hb a' (List.mem_cons_of_mem _ ha')

theorem tokens_false_blank_append (hb : Blank b) (x : List Char) :
    tokens false (b ++ x) = tokens false x := by
  induction b with
  | nil => rfl
  | cons a b ih =>
    rw [List.cons_append, tokens_cons_of_space false (hb a List.mem_cons_self)]
    exact ih fun a' ha' => hb a' (List.mem_cons_of_mem _ ha')

theorem tokens_eq_nil {digit : Bool} : tokens digit x = [] ↔ Blank x := by
  induction x generalizing digit with
  | nil => simp [tokens, Blank]
  | cons a x ih =>
    cases ha : CharClass.space.contains a with
    | true =>
      rw [tokens_cons_of_space digit ha, ih]
      simp [Blank, ha]
    | false =>
      rw [tokens_cons digit ha]
      simp [Blank, ha]

theorem tokens_append_blank (digit : Bool) (hb : Blank b) (x : List Char) :
    tokens digit (x ++ b) = tokens digit x := by
  rw [tokens_append, tokens_eq_nil.mpr hb, List.append_nil]

theorem tokens_sign {b' : List Char} (hb : Blank b) (hspace : CharClass.space.contains a = false)
    (hdigit : a.isDigit = false) (hb' : Blank b') (x y : List Char) :
    tokens false (x ++ b ++ a :: (b' ++ y)) = tokens false x ++ (a, false) :: tokens false y := by
  have head : ∀ a' ∈ (a :: (b' ++ y)).head?, a'.isDigit = false := by
    intro a' ha'
    cases ha'
    exact hdigit
  rw [List.append_assoc, tokens_append, tokens_blank_append _ hb head, tokens_cons false hspace,
    hdigit, tokens_false_blank_append hb']
  rfl

theorem tokens_insert (ha : CharClass.space.contains a = true)
    (between : ∀ d ∈ x.getLast?, ∀ d' ∈ y.head?, d.isDigit = true → d'.isDigit = false) :
    tokens false (x ++ a :: y) = tokens false (x ++ y) := by
  rw [tokens_append, tokens_append, tokens_cons_of_space _ ha]
  cases hend : endsInDigit false x with
  | false => rfl
  | true =>
    obtain ⟨d, hd, digit⟩ : ∃ d ∈ x.getLast?, d.isDigit = true := by
      cases hlast : x.getLast? <;> simp_all [endsInDigit]
    rw [tokens_eq_of_head true fun d' hd' => between d hd d' hd' digit]

theorem head?_tokens_false (x : List Char) : ∀ p ∈ (tokens false x).head?, p.2 = false := by
  induction x with
  | nil => nofun
  | cons a x ih =>
    cases ha : CharClass.space.contains a with
    | true => rwa [tokens_cons_of_space false ha]
    | false =>
      rw [tokens_cons false ha]
      intro p hp
      cases hp
      rfl

/-- Where the tokens of a text have a sign, the text has it. -/
theorem exists_of_tokens_eq {digit flag : Bool} {l l' : List (Char × Bool)}
    (ha : a.isDigit = false) (h : tokens digit x = l ++ (a, flag) :: l') :
    ∃ y z, x = y ++ a :: z ∧ tokens digit y = l ∧ tokens false z = l' := by
  induction x generalizing digit l with
  | nil => simp [tokens] at h
  | cons a₀ x ih =>
    cases hspace : CharClass.space.contains a₀ with
    | true =>
      rw [tokens_cons_of_space digit hspace] at h
      obtain ⟨y, z, rfl, hy, hz⟩ := ih h
      exact ⟨a₀ :: y, z, rfl, by rw [tokens_cons_of_space digit hspace, hy], hz⟩
    | false =>
      rw [tokens_cons digit hspace] at h
      cases l with
      | nil =>
        obtain ⟨hhead, hrest⟩ := List.cons.inj h
        cases hhead
        rw [ha] at hrest
        exact ⟨[], x, rfl, rfl, hrest⟩
      | cons p l =>
        obtain ⟨rfl, hrest⟩ := List.cons.inj h
        obtain ⟨y, z, rfl, hy, hz⟩ := ih hrest
        exact ⟨a₀ :: y, z, rfl, by rw [tokens_cons digit hspace, hy], hz⟩

/-! ## Trimmed texts -/

/-- The text neither begins nor ends with a blank. -/
structure Trimmed (w : List Char) : Prop where
  head : ∀ a ∈ w.head?, CharClass.space.contains a = false
  last : ∀ a ∈ w.getLast?, CharClass.space.contains a = false

theorem head?_eq_of_tokens {digit digit' : Bool}
    (hx : ∀ a ∈ x.head?, CharClass.space.contains a = false)
    (hy : ∀ a ∈ y.head?, CharClass.space.contains a = false)
    (same : tokens digit x = tokens digit' y) : x.head? = y.head? := by
  have first : ∀ {digit x}, (∀ a ∈ x.head?, CharClass.space.contains a = false) →
      x.head? = (tokens digit x).head?.map Prod.fst := by
    intro digit x hx
    cases x with
    | nil => rfl
    | cons a x => simp [tokens_cons digit (hx a rfl)]
  rw [first hx, same, ← first hy]

/-- The blanks in front of a text, and the rest. -/
theorem exists_blank_append (x : List Char) : ∃ b y, x = b ++ y ∧ Blank b ∧
    ∀ a ∈ y.head?, CharClass.space.contains a = false := by
  refine ⟨_, _, (List.takeWhile_append_dropWhile (p := CharClass.space.contains)).symm,
    fun _ ha => List.mem_takeWhile_imp ha, fun a ha => ?_⟩
  have hhead := List.head?_dropWhile_not CharClass.space.contains x
  rw [ha] at hhead
  simpa using hhead

/-- The blanks at the end of a text, and what is before them. -/
theorem exists_append_blank (x : List Char) : ∃ y b, x = y ++ b ∧ Blank b ∧
    ∀ a ∈ y.getLast?, CharClass.space.contains a = false := by
  refine ⟨x.rdropWhile CharClass.space.contains, _, List.rdropWhile_append_rtakeWhile.symm,
    fun _ ha => List.mem_rtakeWhile_imp ha, fun a ha => ?_⟩
  obtain ⟨hne, rfl⟩ := List.mem_getLast?_eq_getLast ha
  simpa using List.rdropWhile_last_not CharClass.space.contains x hne

theorem exists_trimmed (x : List Char) :
    ∃ b w b', x = b ++ w ++ b' ∧ Blank b ∧ Blank b' ∧ Trimmed w := by
  obtain ⟨b, y, rfl, hb, hhead⟩ := exists_blank_append x
  obtain ⟨w, b', rfl, hb', hlast⟩ := exists_append_blank y
  refine ⟨b, w, b', by simp, hb, hb', fun a ha => hhead a ?_, hlast⟩
  rw [List.head?_append, ha]
  rfl

namespace Trimmed

/-- The parts of a trimmed text on both sides of a character, without the blanks around it. -/
theorem split (h : Trimmed (x ++ a :: y)) : ∃ v b b' w, x = v ++ b ∧ y = b' ++ w ∧ Blank b ∧
    Blank b' ∧ Trimmed v ∧ Trimmed w := by
  obtain ⟨v, b, rfl, hb, hlast⟩ := exists_append_blank x
  obtain ⟨b', w, rfl, hb', hhead⟩ := exists_blank_append y
  refine ⟨v, b, b', w, rfl, rfl, hb, hb', ⟨fun d hd => ?_, hlast⟩, hhead, fun d hd => ?_⟩
  · refine h.head d ?_
    cases v with
    | nil => cases hd
    | cons a' v => exact hd
  · refine h.last d ?_
    have hw : w ≠ [] := by
      rintro rfl
      cases hd
    rwa [← List.cons_append, ← List.append_assoc, List.getLast?_append_of_ne_nil _ hw]

theorem nil_of_blank_append (h : Trimmed (b ++ x)) (hb : Blank b) : b = [] := by
  cases b with
  | nil => rfl
  | cons a b =>
    have hnot := h.head a rfl
    rw [hb a List.mem_cons_self] at hnot
    cases hnot

theorem nil_of_append_blank (h : Trimmed (x ++ b)) (hb : Blank b) : b = [] := by
  rcases List.eq_nil_or_concat b with hb' | ⟨b', a, rfl⟩
  · exact hb'
  · have hnot := h.last a (by simp)
    rw [hb a (by simp)] at hnot
    cases hnot

end Trimmed

/-! ## Derivations -/

theorem tokens_digits (digits : ∀ d ∈ x, d.isDigit = true) :
    tokens true x = x.map fun d => (d, true) := by
  induction x with
  | nil => rfl
  | cons d x ih =>
    obtain ⟨hd, digits⟩ := List.forall_mem_cons.mp digits
    rw [tokens_cons true (not_space_of_isDigit hd), hd, ih digits]
    rfl

/-- Digits that all go on with a number stand side by side. -/
theorem exists_of_tokens_digits (h : tokens true x = y.map fun d => (d, true)) :
    ∃ b, x = y ++ b ∧ Blank b := by
  induction y generalizing x with
  | nil => exact ⟨x, rfl, tokens_eq_nil.mp h⟩
  | cons d y ih =>
    cases x with
    | nil => cases h
    | cons a x =>
      cases ha : CharClass.space.contains a with
      | true =>
        -- behind a blank no character goes on with a number
        rw [tokens_cons_of_space true ha] at h
        have first := head?_tokens_false x
        rw [h] at first
        cases first _ rfl
      | false =>
        rw [tokens_cons true ha] at h
        obtain ⟨hhead, hrest⟩ := List.cons.inj h
        obtain ⟨rfl, hdigit⟩ := Prod.mk.inj hhead
        rw [Bool.true_and] at hdigit
        rw [hdigit] at hrest
        obtain ⟨b, rfl, hb⟩ := ih hrest
        exact ⟨b, rfl, hb⟩

theorem Trimmed.eq_of_digits {ds : List Char} (h : Trimmed w) (some : ds ≠ [])
    (digits : ∀ d ∈ ds, d.isDigit = true) (same : tokens false w = tokens false ds) : w = ds := by
  cases ds with
  | nil => exact absurd rfl some
  | cons d ds =>
    obtain ⟨hd, digits⟩ := List.forall_mem_cons.mp digits
    rw [tokens_cons false (not_space_of_isDigit hd), hd, tokens_digits digits] at same
    cases w with
    | nil => cases same
    | cons a w =>
      rw [tokens_cons false (h.head a rfl)] at same
      obtain ⟨hhead, hrest⟩ := List.cons.inj same
      obtain ⟨rfl, -⟩ := Prod.mk.inj hhead
      rw [hd] at hrest
      obtain ⟨b, rfl, hb⟩ := exists_of_tokens_digits hrest
      rw [Trimmed.nil_of_append_blank (x := a :: ds) h hb, List.append_nil]

/-- Every trimmed text with these tokens is derived as this one. -/
def Respaceable (ordered : Bool) (r : Rule) (w : List Char) (e : Expr) : Prop :=
  ∀ ⦃w'⦄, Trimmed w' → tokens false w' = tokens false w → Derives ordered r w' e

theorem Level.respaceable {operand operator : Rule} {signs v b₁ b₂ : List Char} {op : Char}
    {lhs rhs : Expr} (hr : Level r operand operator signs) (hb₁ : Blank b₁) (sign : op ∈ signs)
    (hb₂ : Blank b₂) (ih₁ : Respaceable ordered operand v lhs)
    (ih₂ : Respaceable ordered r w rhs) :
    Respaceable ordered r (v ++ b₁ ++ op :: (b₂ ++ w)) (.binary op lhs rhs) := by
  intro text trimmed same
  obtain ⟨hspace, hdigit, -⟩ := hr.ends_operand sign
  rw [tokens_sign hb₁ hspace hdigit hb₂] at same
  obtain ⟨x, y, rfl, hx, hy⟩ := exists_of_tokens_eq hdigit same
  obtain ⟨v', b, b', w', rfl, rfl, hb, hb', left, right⟩ := trimmed.split
  rw [tokens_append_blank false hb] at hx
  rw [tokens_false_blank_append hb'] at hy
  exact hr.derives (ih₁ left hx) hb sign hb' (ih₂ right hy)

theorem respaceable_parens {b₁ b₂ : List Char} (hb₁ : Blank b₁) (hb₂ : Blank b₂)
    (ih : Respaceable ordered .expression w e) :
    Respaceable ordered .parens ('(' :: (b₁ ++ w ++ b₂ ++ [')'])) e := by
  intro text trimmed same
  have signs : '(' :: (b₁ ++ w ++ b₂ ++ [')']) =
      [] ++ [] ++ '(' :: (b₁ ++ (w ++ b₂ ++ ')' :: ([] ++ []))) := by simp
  rw [signs, tokens_sign blank_nil rfl rfl hb₁, tokens_sign hb₂ rfl rfl blank_nil] at same
  obtain ⟨x, _, rfl, hx, hrest⟩ := exists_of_tokens_eq rfl same
  obtain ⟨y, z, rfl, hy, hz⟩ := exists_of_tokens_eq rfl hrest
  -- nothing is before the one parenthesis or behind the other
  obtain rfl : x = [] := trimmed.nil_of_blank_append (tokens_eq_nil.mp hx)
  obtain rfl : z = [] := by
    have trimmed : Trimmed ('(' :: y ++ [')'] ++ z) := by simpa using trimmed
    exact trimmed.nil_of_append_blank (tokens_eq_nil.mp hz)
  obtain ⟨b, w', b', rfl, hb, hb', trimmed⟩ := exists_trimmed y
  rw [tokens_append_blank false hb', tokens_false_blank_append hb] at hy
  exact .parens hb (ih trimmed hy) hb'

/-- By induction on the derivation: a text is derived wherever blanks stand between its tokens. -/
theorem Derives.respaceable (h : Derives ordered r w e) : Respaceable ordered r w e := by
  induction h with
  | expressionParens _ ih => exact fun _ trimmed same => .expressionParens (ih trimmed same)
  | expressionSum h opening ih =>
    intro w' trimmed same
    have hhead : ∀ a ∈ w'.head?, _ := trimmed.head
    have begins := head?_eq_of_tokens hhead (by simpa using h.head_not_space []) same
    exact .expressionSum (ih trimmed same) (by rwa [begins])
  | sum _ hb sign hb' _ ih₁ ih₂ => exact Level.sum.respaceable hb sign hb' ih₁ ih₂
  | sumProduct _ ih => exact fun _ trimmed same => .sumProduct (ih trimmed same)
  | product _ hb sign hb' _ ih₁ ih₂ => exact Level.product.respaceable hb sign hb' ih₁ ih₂
  | productTerm _ ih => exact fun _ trimmed same => .productTerm (ih trimmed same)
  | termNumber _ ih => exact fun _ trimmed same => .termNumber (ih trimmed same)
  | termParens _ ih => exact fun _ trimmed same => .termParens (ih trimmed same)
  | parens hb _ hb' ih => exact respaceable_parens hb hb' ih
  | number some digits value =>
    intro w' trimmed same
    rw [trimmed.eq_of_digits some digits same]
    exact .number some digits value

/-! ## Whole texts -/

theorem content_append (t x : List Char) :
    content (t ++ x) = if content x = [] then content t else t ++ content x := by
  unfold content List.rdropWhile
  rw [List.reverse_append, List.dropWhile_append]
  simp only [List.isEmpty_iff, List.reverse_eq_nil_iff]
  split <;> simp

theorem content_eq_nil : content x = [] ↔ ∀ a ∈ x, CharClass.multispace.contains a = true :=
  List.rdropWhile_eq_nil_iff

theorem head?_content (h : content x ≠ []) : (content x).head? = x.head? := by
  obtain ⟨y, hy⟩ : content x <+: x := List.rdropWhile_prefix _ x
  rw [← congrArg List.head? hy, List.head?_append_of_ne_nil _ h]

/-- One more character of white space is a blank between tokens of the content, or it is not in the
content. -/
theorem Insertion.content_cases (h : Insertion t t') : content t' = content t ∨
    ∃ x y a, content t = x ++ y ∧ content t' = x ++ a :: y ∧ CharClass.space.contains a = true ∧
      ∀ d ∈ x.getLast?, ∀ d' ∈ y.head?, d.isDigit = true → d'.isDigit = false := by
  cases h with
  | @blank x y a ha between =>
    have hcons : ∀ y, a :: y = [a] ++ y := fun _ => rfl
    have hblank : content [a] = [] := content_eq_nil.mpr (by simpa using multispace_of_space ha)
    rw [hcons y, content_append x, content_append x, content_append [a], hblank]
    by_cases hy : content y = []
    · rw [if_pos hy, if_pos hy, if_pos rfl]
      exact .inl rfl
    · rw [if_neg hy, if_neg hy, if_neg (by simp)]
      refine .inr ⟨x, content y, a, rfl, rfl, ha, ?_⟩
      rwa [head?_content hy]
  | @behind x y a ha hy =>
    have hy' : content (a :: y) = [] := content_eq_nil.mpr (List.forall_mem_cons.mpr ⟨ha, hy⟩)
    rw [content_append, content_append, hy', content_eq_nil.mpr hy]
    exact .inl rfl

/-- A text with more white space has the same tokens, and a blank in front if there was one. -/
theorem Spaced.tokens_content (h : Spaced t t') :
    tokens false (content t') = tokens false (content t) ∧
      ((∃ a ∈ (content t).head?, CharClass.space.contains a = true) →
        ∃ a ∈ (content t').head?, CharClass.space.contains a = true) := by
  induction h with
  | refl => exact ⟨rfl, id⟩
  | tail _ step ih =>
    obtain ⟨same, blank⟩ := ih
    rcases step.content_cases with hcontent | ⟨x, y, a, hcontent, hcontent', ha, between⟩
    · rw [hcontent]
      exact ⟨same, blank⟩
    · rw [hcontent] at same blank
      rw [hcontent', tokens_insert ha between]
      refine ⟨same, fun h => ?_⟩
      cases x with
      | nil => exact ⟨a, rfl, ha⟩
      | cons _ _ => exact blank h

theorem trimmed_of_content (h : content t = b ++ w)
    (hw : ∀ a ∈ w.head?, CharClass.space.contains a = false) : Trimmed w := by
  refine ⟨hw, fun a ha => ?_⟩
  have hlast : a ∈ (content t).getLast? := by
    rw [h, List.getLast?_append, ha]
    rfl
  obtain ⟨hne, rfl⟩ := List.mem_getLast?_eq_getLast hlast
  rw [Bool.eq_false_iff]
  exact fun hspace => List.rdropWhile_last_not _ _ hne (multispace_of_space hspace)

theorem Derives.content_eq (h : Derives ordered r w e) : content w = w := by
  rw [content, List.rdropWhile_eq_self_iff]
  intro hne hspace
  have hlast := h.last _ (List.getLast?_eq_some_getLast hne)
  simp only [CharClass.contains, Bool.or_eq_true, beq_iff_eq] at hspace
  rcases hspace with ((hspace | hspace) | hspace) | hspace <;> rw [hspace] at hlast <;>
    rcases hlast with hlast | hlast <;> cases hlast

/-- A text is read if its content is an ordered derivation with blanks in front of it, where blanks
in front of a number alone are too many. -/
theorem parse?_iff_content {text : String} : parse? text = some (.ok e) ↔
    ∃ b w, content text.toList = b ++ w ∧ Blank b ∧ (b = [] ∨ ∃ a ∈ w, a.isDigit = false) ∧
      Derives true .expression w e := by
  rw [parse?_iff_exists]
  constructor
  · rintro ⟨b, w, x, htext, hb, bare, h, hx⟩
    refine ⟨b, w, ?_, hb, bare, h⟩
    rw [htext, content_append, content_append, content_eq_nil.mpr hx, if_pos rfl, h.content_eq,
      if_neg h.ne_nil]
  · rintro ⟨b, w, hcontent, hb, bare, h⟩
    refine ⟨b, w, text.toList.rtakeWhile CharClass.multispace.contains, ?_, hb, bare, h,
      fun _ ha => List.mem_rtakeWhile_imp ha⟩
    rw [← List.append_assoc, ← hcontent, content, List.rdropWhile_append_rtakeWhile]

theorem NumberBehindBlanks.parts (h : NumberBehindBlanks (b ++ w)) (hb : Blank b)
    (hw : ∀ a ∈ w.head?, CharClass.space.contains a = false) :
    b ≠ [] ∧ ∀ a ∈ w, a.isDigit = true := by
  obtain ⟨b', ds, same, hne, hb', -, digits⟩ := h
  have hds : ∀ a ∈ ds.head?, CharClass.space.contains a = false :=
    fun a ha => not_space_of_isDigit (digits a (List.mem_of_mem_head? ha))
  obtain ⟨rfl, rfl⟩ := append_inj_of_head hb hb' hw hds same
  exact ⟨hne, digits⟩

/-- Blanks in front of a number alone are too many. -/
theorem NumberBehindBlanks.refused {text : String} (h : NumberBehindBlanks (content text.toList)) :
    ∃ f, parse? text = some (.error f) := by
  obtain ⟨r, -, hparse⟩ := parse?_eq text
  cases r with
  | error f => exact ⟨f, hparse⟩
  | ok m =>
    obtain ⟨b, w, hcontent, hb, bare, read⟩ := parse?_iff_content.mp hparse
    rw [hcontent] at h
    obtain ⟨hne, digits⟩ := h.parts hb (by simpa using read.head_not_space [])
    rcases bare with rfl | ⟨a, ha, hdigit⟩
    · exact absurd rfl hne
    · rw [digits a ha] at hdigit
      cases hdigit

/-- A text with the tokens of one that is read is read with the same tree, unless it is a number
alone behind blanks. -/
theorem parse?_of_tokens {text text' : String}
    (same : tokens false (content text'.toList) = tokens false (content text.toList))
    (number : ¬ NumberBehindBlanks (content text'.toList)) (h : parse? text = some (.ok e)) :
    parse? text' = some (.ok e) := by
  obtain ⟨b, w, hcontent, hb, -, read⟩ := parse?_iff_content.mp h
  obtain ⟨b', w', hcontent', hb', hw'⟩ := exists_blank_append (content text'.toList)
  rw [hcontent, hcontent', tokens_false_blank_append hb, tokens_false_blank_append hb'] at same
  have read' : Derives true .expression w' e :=
    read.respaceable (trimmed_of_content hcontent' hw') same
  refine parse?_iff_content.mpr ⟨b', w', hcontent', hb', ?_, read'⟩
  by_contra bare
  simp only [not_or, not_exists, not_and, Bool.not_eq_false] at bare
  exact number ⟨b', w', hcontent', bare.1, hb', read'.ne_nil, bare.2⟩

/-- Blanks in front of a number alone stay there. -/
theorem NumberBehindBlanks.spaced (h : NumberBehindBlanks (content t)) (spaced : Spaced t t') :
    NumberBehindBlanks (content t') := by
  obtain ⟨b, ds, hcontent, hne, hb, some, digits⟩ := h
  obtain ⟨same, blank⟩ := spaced.tokens_content
  obtain ⟨b', w', hcontent', hb', hw'⟩ := exists_blank_append (content t')
  have hw : w' = ds := by
    refine (trimmed_of_content hcontent' hw').eq_of_digits some digits ?_
    rwa [hcontent, hcontent', tokens_false_blank_append hb, tokens_false_blank_append hb'] at same
  refine ⟨b', w', hcontent', ?_, hb', hw ▸ some, hw ▸ digits⟩
  rintro rfl
  obtain ⟨a, ha, hspace⟩ : ∃ a ∈ (content t').head?, CharClass.space.contains a = true := by
    refine blank ?_
    cases b with
    | nil => exact absurd rfl hne
    | cons a b => exact ⟨a, by rw [hcontent]; rfl, hb a List.mem_cons_self⟩
  rw [hcontent'] at ha
  rw [hw' a ha] at hspace
  cases hspace

/-- A text with more white space is read if and only if the text is, with the same tree, unless a
number alone has got blanks in front of it. Then it is refused. -/
theorem parse?_spaced {text text' : String} (h : Spaced text.toList text'.toList) :
    ((NumberBehindBlanks (content text'.toList) → NumberBehindBlanks (content text.toList)) →
        ∀ e, parse? text' = some (.ok e) ↔ parse? text = some (.ok e)) ∧
      (NumberBehindBlanks (content text'.toList) → ∃ f, parse? text' = some (.error f)) := by
  refine ⟨fun number e => ⟨fun read => ?_, fun read => ?_⟩, NumberBehindBlanks.refused⟩
  · refine parse?_of_tokens h.tokens_content.1.symm (fun behind => ?_) read
    obtain ⟨f, refused⟩ := (behind.spaced h).refused
    cases refused.symm.trans read
  · refine parse?_of_tokens h.tokens_content.1 (fun behind => ?_) read
    obtain ⟨f, refused⟩ := (number behind).refused
    cases refused.symm.trans read

theorem spaced_five : Spaced "5".toList " 5".toList :=
  .single (.blank (x := []) (y := ['5']) rfl nofun)

/-- A product with a tab, a space and a line feed, and a number alone with a space. -/
theorem parse?_spaced_of_product :
    parse? "\t2 *3\n" = some (.ok (.binary '*' (.number 2) (.number 3))) ∧
      ∃ f, parse? " 5" = some (.error f) := by
  have tab : Insertion ['2', '*', '3'] ['\t', '2', '*', '3'] :=
    .blank (x := []) rfl (by simp)
  have space : Insertion ['\t', '2', '*', '3'] ['\t', '2', ' ', '*', '3'] := by
    refine .blank (x := ['\t', '2']) rfl fun _ _ a ha _ => ?_
    cases ha
    rfl
  have newline : Insertion ['\t', '2', ' ', '*', '3'] ['\t', '2', ' ', '*', '3', '\n'] :=
    .behind (x := ['\t', '2', ' ', '*', '3']) (y := []) rfl (by simp)
  have spaced : Spaced "2*3".toList "\t2 *3\n".toList :=
    ((Relation.ReflTransGen.single tab).tail space).tail newline
  have product : ¬ NumberBehindBlanks (content "\t2 *3\n".toList) := by
    intro h
    have head : ∀ a ∈ ['2', ' ', '*', '3'].head?, CharClass.space.contains a = false := by
      intro a ha
      cases ha
      rfl
    obtain ⟨-, digits⟩ := h.parts (b := ['\t']) (by simp [Blank, CharClass.contains]) head
    cases digits '*' (by decide)
  have number : NumberBehindBlanks (content " 5".toList) := by
    refine ⟨[' '], ['5'], rfl, List.cons_ne_nil _ _, by simp [Blank, CharClass.contains],
      List.cons_ne_nil _ _, ?_⟩
    intro d hd
    cases List.mem_singleton.mp hd
    rfl
  refine ⟨((parse?_spaced spaced).1 (fun h => absurd h product) _).mpr (by decide +kernel), ?_⟩
  exact (parse?_spaced spaced_five).2 number

/-- White space in front of the first token is not always allowed. -/
theorem not_forall_parse?_spaced : ¬ ∀ text text' : String, Spaced text.toList text'.toList →
    ∀ e, parse? text' = some (.ok e) ↔ parse? text = some (.ok e) := by
  intro h
  have read : parse? " 5" = some (.ok (.number 5)) :=
    (h "5" " 5" spaced_five (.number 5)).mpr (by decide +kernel)
  exact absurd read (by decide +kernel)

end Packrat.Arithmetic
