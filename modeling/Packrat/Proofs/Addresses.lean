import Packrat.Email
import Packrat.Proofs.Repetition

/-!
# The language of email addresses

An address is a name, an at sign and labels with dots between them, of which the last is a
top-level domain. The parser takes the longest name and the longest text of labels, and looks at the
last label only behind them all; it never tries a shorter text. So it matches exactly where the
longest text of labels is a domain.

* `Label`, `TopLevel`, `Dotted`: the parts of an address, told by their characters.
* `Begins`: a text begins with an address whose name and domain cannot be any longer.
* `stops_iff_longest`: a text of labels is the longest if it cannot go on right behind it.
* `address_recognises`: where the parser matches, and which whole texts.
-/

namespace Packrat.Email

variable {ρ : Type}

/-! ## The parts of an address -/

/-- A letter of ASCII. -/
def Letter (a : Char) : Prop := 'A' ≤ a ∧ a ≤ 'Z' ∨ 'a' ≤ a ∧ a ≤ 'z'

/-- A digit of ASCII. -/
def Digit (a : Char) : Prop := '0' ≤ a ∧ a ≤ '9'

/-- A character of a name. -/
def NameChar (a : Char) : Prop := Letter a ∨ Digit a ∨ a ∈ ['.', '_', '%', '+', '-']

/-- A character of a label. -/
def LabelChar (a : Char) : Prop := Letter a ∨ Digit a ∨ a = '-'

/-- A label. -/
def Label (l : List Char) : Prop := l ≠ [] ∧ ∀ a ∈ l, LabelChar a

/-- A top-level domain. -/
def TopLevel (l : List Char) : Prop := 2 ≤ l.length ∧ l.length ≤ 4 ∧ ∀ a ∈ l, Letter a

/-- The text consists of these labels with dots between them. -/
structure Dotted (labels : List (List Char)) (x : List Char) : Prop where
  nonempty : labels ≠ []
  label : ∀ l ∈ labels, Label l
  joined : x = ['.'].intercalate labels

/-- There are two labels or more, and the last one is a top-level domain. -/
structure Qualified (labels : List (List Char)) : Prop where
  two : 2 ≤ labels.length
  last : ∃ tld, labels.getLast? = some tld ∧ TopLevel tld

/-- All characters of `x` have the property, and the first one of `rest` has not. -/
structure LongestRun (P : Char → Prop) (x rest : List Char) : Prop where
  all : ∀ a ∈ x, P a
  ends : ∀ a ∈ rest.head?, ¬ P a

/-- The text begins with an address, in front of `rest`: with the longest name, with an at sign and
with the longest text of labels, which make a domain. -/
structure Begins (text name : List Char) (labels : List (List Char)) (domain rest : List Char) :
    Prop where
  split : text = name ++ '@' :: (domain ++ rest)
  nonempty : name ≠ []
  longestName : LongestRun NameChar name ('@' :: (domain ++ rest))
  dotted : Dotted labels domain
  longest : ∀ labels' y, Dotted labels' y → y <+: domain ++ rest → y.length ≤ domain.length
  qualified : Qualified labels

/-- The text does not go on with a character of a label, nor with a dot and such a character. -/
structure Stops (rest : List Char) : Prop where
  char : ∀ a ∈ rest.head?, ¬ LabelChar a
  dot : ∀ more, rest = '.' :: more → ∀ a ∈ more.head?, ¬ LabelChar a

/-- The text has the form name@label(.label)*.tld. -/
def IsAddress (text : List Char) : Prop :=
  ∃ name hosts tld, name ≠ [] ∧ (∀ a ∈ name, NameChar a) ∧ hosts ≠ [] ∧ (∀ l ∈ hosts, Label l) ∧
    TopLevel tld ∧ text = name ++ '@' :: ['.'].intercalate (hosts ++ [tld])

/-! ## Characters -/

variable {a : Char} {l l' x y rest : List Char} {ls ls' labels : List (List Char)}

theorem isAlpha_iff : a.isAlpha = true ↔ Letter a := by
  have ranges : a.isAlpha =
    (decide ('A' ≤ a ∧ a ≤ 'Z') || (decide ('a' ≤ a) && decide (a ≤ 'z'))) := rfl
  simp [ranges, Letter]

theorem isAlphanum_iff : a.isAlphanum = true ↔ Letter a ∨ Digit a := by
  rw [Char.isAlphanum, Bool.or_eq_true, isAlpha_iff]
  simp [Char.isDigit, Digit, Char.le_def]

theorem isNameChar_iff : isNameChar a = true ↔ NameChar a := by
  simp [isNameChar, NameChar, isAlphanum_iff, or_assoc]

theorem isLabelChar_iff : isLabelChar a = true ↔ LabelChar a := by
  simp [isLabelChar, LabelChar, isAlphanum_iff, or_assoc]

theorem isLabelChar_eq_false_iff : isLabelChar a = false ↔ ¬ LabelChar a := by
  rw [← isLabelChar_iff, Bool.not_eq_true]

theorem isNameChar_eq_false_iff : isNameChar a = false ↔ ¬ NameChar a := by
  rw [← isNameChar_iff, Bool.not_eq_true]

theorem not_nameChar_at : ¬ NameChar '@' := isNameChar_eq_false_iff.mp rfl

theorem isTopLevel_iff : isTopLevel l = true ↔ TopLevel l := by
  simp [isTopLevel, TopLevel, isAlpha_iff, and_assoc]

theorem isDomain_iff : isDomain labels = true ↔ Qualified labels := by
  have last : labels.getLast?.any isTopLevel = true ↔
      ∃ tld, labels.getLast? = some tld ∧ TopLevel tld := by
    simp only [Option.any_eq_true, isTopLevel_iff]
  rw [isDomain, Bool.and_eq_true, decide_eq_true_iff, last]
  exact ⟨fun h => ⟨h.1, h.2⟩, fun h => ⟨h.two, h.last⟩⟩

theorem TopLevel.label (h : TopLevel l) : Label l := by
  refine ⟨?_, fun a ha => .inl (h.2.2 a ha)⟩
  rintro rfl
  cases h.1

theorem qualified_iff : Qualified labels ↔
    ∃ hosts tld, labels = hosts ++ [tld] ∧ hosts ≠ [] ∧ TopLevel tld := by
  constructor
  · rintro ⟨two, tld, hlast, htld⟩
    obtain ⟨hosts, rfl⟩ := List.getLast?_eq_some_iff.mp hlast
    refine ⟨hosts, tld, rfl, ?_, htld⟩
    rintro rfl
    simp at two
  · rintro ⟨hosts, tld, rfl, some, htld⟩
    have pos := List.length_pos_iff.mpr some
    refine ⟨?_, tld, List.getLast?_concat, htld⟩
    rw [List.length_append, List.length_singleton]
    omega

/-! ## Texts of labels -/

/-- Labels behind another one, each with a dot in front of it. -/
def behind (ls : List (List Char)) : List Char := ls.flatMap fun l => '.' :: l

theorem behind_cons (l : List Char) (ls : List (List Char)) :
    behind (l :: ls) = '.' :: (l ++ behind ls) := List.flatMap_cons

theorem intercalate_cons (l : List Char) (ls : List (List Char)) :
    ['.'].intercalate (l :: ls) = l ++ behind ls := by
  induction ls generalizing l with
  | nil => simp [List.intercalate, behind]
  | cons l' ls ih =>
    rw [behind_cons, ← ih]
    simp [List.intercalate]

theorem dotted_cons_iff :
    Dotted (l :: ls) x ↔ (∀ l' ∈ l :: ls, Label l') ∧ x = l ++ behind ls := by
  rw [← intercalate_cons]
  exact ⟨fun h => ⟨h.label, h.joined⟩, fun h => ⟨List.cons_ne_nil l ls, h.1, h.2⟩⟩

theorem Dotted.exists_cons (h : Dotted labels x) :
    ∃ l ls, labels = l :: ls ∧ (∀ l' ∈ l :: ls, Label l') ∧ x = l ++ behind ls := by
  obtain ⟨l, ls, rfl⟩ := List.exists_cons_of_ne_nil h.nonempty
  exact ⟨l, ls, rfl, dotted_cons_iff.mp h⟩

/-- The last label may go on. -/
theorem Dotted.append_char (h : Dotted labels x) (ha : LabelChar a) :
    ∃ labels', Dotted labels' (x ++ [a]) := by
  have longer : ∀ {l}, Label l → Label (l ++ [a]) := by
    intro l hl
    refine ⟨by simp, fun b hb => ?_⟩
    rcases List.mem_append.mp hb with hb | hb
    · exact hl.2 b hb
    · rw [List.mem_singleton.mp hb]
      exact ha
  obtain ⟨l, ls, rfl, hlabels, rfl⟩ := h.exists_cons
  obtain ⟨hl, hls⟩ := List.forall_mem_cons.mp hlabels
  rcases List.eq_nil_or_concat ls with rfl | ⟨front, last, rfl⟩
  · refine ⟨[l ++ [a]], dotted_cons_iff.mpr ⟨?_, by simp [behind]⟩⟩
    simpa using longer hl
  · rw [List.concat_eq_append] at hls ⊢
    refine ⟨l :: (front ++ [last ++ [a]]), dotted_cons_iff.mpr ⟨?_, ?_⟩⟩
    · intro l' hl'
      simp only [List.mem_cons, List.mem_append, List.not_mem_nil, or_false] at hl'
      rcases hl' with rfl | hl' | rfl
      · exact hl
      · exact hls l' (List.mem_append_left _ hl')
      · exact longer (hls last (by simp))
    · simp [behind]

/-- Another label may follow. -/
theorem Dotted.append_label (h : Dotted labels x) (ha : LabelChar a) :
    ∃ labels', Dotted labels' (x ++ ['.', a]) := by
  obtain ⟨l, ls, rfl, hlabels, rfl⟩ := h.exists_cons
  refine ⟨l :: (ls ++ [[a]]), dotted_cons_iff.mpr ⟨?_, by simp [behind]⟩⟩
  intro l' hl'
  rw [← List.cons_append] at hl'
  rcases List.mem_append.mp hl' with hl' | hl'
  · exact hlabels l' hl'
  · rw [List.mem_singleton.mp hl']
    exact ⟨List.cons_ne_nil _ _, by simpa using ha⟩

theorem takeWhile_label (hl : Label l) (ends : ∀ a ∈ rest.head?, ¬ LabelChar a) :
    (l ++ rest).takeWhile isLabelChar = l :=
  takeWhile_append_of_head (fun a ha => isLabelChar_iff.mpr (hl.2 a ha))
    fun a ha => isLabelChar_eq_false_iff.mpr (ends a ha)

theorem not_labelChar_dot : ¬ LabelChar '.' := isLabelChar_eq_false_iff.mp rfl

/-- Behind a label there is a dot, or what ends the text. -/
theorem Stops.head_behind (h : Stops rest) (ls : List (List Char)) :
    ∀ a ∈ (behind ls ++ rest).head?, ¬ LabelChar a := by
  cases ls with
  | nil => exact h.char
  | cons l ls =>
    intro a ha
    rw [behind_cons] at ha
    cases ha
    exact not_labelChar_dot

/-- No text of labels goes beyond a place where the text stops: the labels are the same one by one,
because each is followed by something that is in no label. -/
theorem Stops.longest (stops : Stops rest) (hl : ∀ m ∈ l :: ls, Label m)
    (hl' : ∀ m ∈ l' :: ls', Label m) (h : l' ++ behind ls' <+: l ++ (behind ls ++ rest)) :
    (l' ++ behind ls').length ≤ (l ++ behind ls).length := by
  induction ls' generalizing l l' ls with
  | nil =>
    obtain ⟨w, hw⟩ := h
    have inside : l' ++ w.takeWhile isLabelChar = l := by
      rw [← takeWhile_label (hl l List.mem_cons_self) (stops.head_behind ls), ← hw, behind,
        List.flatMap_nil, List.append_nil, List.takeWhile_append_of_pos]
      exact fun a ha => isLabelChar_iff.mpr ((hl' l' List.mem_cons_self).2 a ha)
    have hlength := congrArg List.length inside
    simp only [List.length_append, behind, List.flatMap_nil, List.length_nil] at hlength ⊢
    omega
  | cons m' ls' ih =>
    obtain ⟨w, hw⟩ := h
    rw [behind_cons, List.append_assoc] at hw
    have same : l' = l := by
      rw [← takeWhile_label (hl l List.mem_cons_self) (stops.head_behind ls), ← hw, eq_comm]
      refine takeWhile_label (hl' l' List.mem_cons_self) fun a ha => ?_
      cases ha
      exact not_labelChar_dot
    subst same
    have onward := List.append_cancel_left hw
    have hm' := hl' m' (by simp)
    cases ls with
    | nil =>
      -- behind the last label the other text has a dot and a label, where this one stops
      obtain ⟨a, m', rfl⟩ := List.exists_cons_of_ne_nil hm'.1
      exact absurd (hm'.2 a List.mem_cons_self) (stops.dot _ onward.symm a rfl)
    | cons m ls =>
      rw [behind_cons, List.cons_append, List.cons_append, List.cons.injEq,
        List.append_assoc m] at onward
      have shorter := ih (fun k hk => hl k (List.mem_cons_of_mem _ hk))
        (fun k hk => hl' k (List.mem_cons_of_mem _ hk)) ⟨w, onward.2⟩
      rw [behind_cons, behind_cons, List.length_append, List.length_append, List.length_cons,
        List.length_cons]
      omega

/-- A text of labels is the longest one exactly if the text stops behind it. -/
theorem stops_iff_longest (h : Dotted labels x) : Stops rest ↔
    ∀ labels' y, Dotted labels' y → y <+: x ++ rest → y.length ≤ x.length := by
  constructor
  · intro stops labels' y hy hbegin
    obtain ⟨l, ls, rfl, hl, rfl⟩ := h.exists_cons
    obtain ⟨l', ls', rfl, hl', rfl⟩ := hy.exists_cons
    rw [List.append_assoc] at hbegin
    exact stops.longest hl hl' hbegin
  · intro longest
    constructor
    · intro a ha hlabel
      obtain ⟨more, rfl⟩ := List.head?_eq_some_iff.mp ha
      obtain ⟨labels', hy⟩ := h.append_char hlabel
      have tooLong := longest labels' _ hy ⟨more, by simp⟩
      rw [List.length_append, List.length_singleton] at tooLong
      omega
    · rintro more rfl a ha hlabel
      obtain ⟨more, rfl⟩ := List.head?_eq_some_iff.mp ha
      obtain ⟨labels', hy⟩ := h.append_label hlabel
      have tooLong := longest labels' _ hy ⟨more, by simp⟩
      rw [List.length_append, List.length_cons] at tooLong
      omega

theorem label_takeWhile (some : x.takeWhile isLabelChar ≠ []) : Label (x.takeWhile isLabelChar) :=
  ⟨some, fun a ha => isLabelChar_iff.mp (List.all_eq_true.mp List.all_takeWhile a ha)⟩

/-- A text that begins with a label begins with labels behind which it stops. -/
theorem exists_stops (some : x.takeWhile isLabelChar ≠ []) :
    ∃ l ls rest, x = l ++ (behind ls ++ rest) ∧ (∀ m ∈ l :: ls, Label m) ∧ Stops rest := by
  induction hlen : x.length using Nat.strongRecOn generalizing x with
  | ind length ih =>
    have split : x = x.takeWhile isLabelChar ++ x.dropWhile isLabelChar :=
      List.takeWhile_append_dropWhile.symm
    have hlabel := label_takeWhile some
    by_cases more : ∃ y, x.dropWhile isLabelChar = '.' :: y ∧ y.takeWhile isLabelChar ≠ []
    · obtain ⟨y, hy, some'⟩ := more
      rw [hy] at split
      have shorter : y.length < length := by
        rw [← hlen, split, List.length_append, List.length_cons]
        omega
      obtain ⟨l, ls, rest, rfl, hlabels, stops⟩ := ih y.length shorter some' rfl
      refine ⟨_, l :: ls, rest, ?_, List.forall_mem_cons.mpr ⟨hlabel, hlabels⟩, stops⟩
      rw [behind_cons, List.cons_append, List.append_assoc]
      exact split
    · refine ⟨_, [], _, split, by simpa using hlabel, ?_, ?_⟩
      · intro a ha
        have outside := List.head?_dropWhile_not isLabelChar x
        rw [Option.mem_def.mp ha] at outside
        exact isLabelChar_eq_false_iff.mp outside
      · intro y hy
        by_contra hhead
        refine more ⟨y, hy, fun none => hhead fun a ha => ?_⟩
        exact isLabelChar_eq_false_iff.mp (head_of_takeWhile_eq_nil none a ha)

/-! ## Parsers of labels and domains -/

section

open Packrat.Parser

variable {grammar : Grammar Char ρ} {c d : Cursor Char} {v : Value Char}

/-- The parser of a single label. -/
def oneLabel : Parser Char ρ := many1 (satisfying isLabelChar)

/-- The parser of labels with dots between them. -/
def labelList : Parser Char ρ := sepBy1 (exactly '.') oneLabel

theorem gives_oneLabel (hl : Label l) (hover : c.Over l d)
    (ends : ∀ a ∈ d.remaining.head?, ¬ LabelChar a) :
    oneLabel.Gives grammar c (.ok ⟨d, .tokens l⟩) := by
  have taken : c.remaining.takeWhile isLabelChar = l := by
    rw [hover.tokens]
    exact takeWhile_label hl ends
  have stop : d = c.past isLabelChar := by rw [hover.stop, Cursor.past, taken]
  refine ok_many1_satisfying.mpr ⟨?_, stop, by rw [taken]⟩
  rw [taken]
  exact hl.1

theorem gives_delimited (hls : ∀ l ∈ ls, Label l) (hover : c.Over (behind ls) d)
    (stops : Stops d.remaining) :
    Gives grammar (.delimited (exactly '.') oneLabel) c (.ok ⟨d, .list (ls.map .tokens)⟩) := by
  rw [ok_delimited]
  induction ls generalizing c with
  | nil =>
    obtain rfl := Cursor.over_nil_iff.mp hover
    refine .inr ⟨?_, rfl, rfl⟩
    by_cases hdot : d.remaining.head? = some '.'
    · refine .inr ⟨⟨d.advance, .token '.'⟩, ok_exactly.mpr ⟨hdot, rfl, rfl⟩, ?_⟩
      have after := (Cursor.over_advance hdot).tokens
      refine fails_many1_satisfying.mpr (takeWhile_eq_nil_of_head fun a ha => ?_)
      exact isLabelChar_eq_false_iff.mpr (stops.dot _ after a ha)
    · exact .inl (fails_exactly.mpr hdot)
  | cons l ls ih =>
    obtain ⟨hl, hls⟩ := List.forall_mem_cons.mp hls
    rw [behind_cons] at hover
    obtain ⟨hdot, hover⟩ := Cursor.over_cons_iff.mp hover
    have first := Cursor.over_of_remaining (hover.tokens.trans (List.append_assoc _ _ _))
    have rest := hover.of_append first
    have ends := rest.tokens ▸ stops.head_behind ls
    exact .inl ⟨⟨c.advance, .token '.'⟩, ⟨_, .tokens l⟩, .list (ls.map .tokens),
      ok_exactly.mpr ⟨hdot, rfl, rfl⟩, gives_oneLabel hl first ends,
      ok_delimited.mpr (ih hls rest), rfl⟩

theorem gives_labelList (h : Dotted labels x) (hover : c.Over x d) (stops : Stops d.remaining) :
    labelList.Gives grammar c (.ok ⟨d, .list (labels.map .tokens)⟩) := by
  obtain ⟨l, ls, rfl, hlabels, rfl⟩ := h.exists_cons
  obtain ⟨hl, hls⟩ := List.forall_mem_cons.mp hlabels
  have first := Cursor.over_of_remaining (hover.tokens.trans (List.append_assoc _ _ _))
  have rest := hover.of_append first
  have ends := rest.tokens ▸ stops.head_behind ls
  exact ok_sepBy1.mpr ⟨⟨_, .tokens l⟩, .list (ls.map .tokens), gives_oneLabel hl first ends,
    gives_delimited hls rest stops, rfl⟩

/-- Labels are taken as far as they go. -/
theorem ok_labelList : labelList.Gives grammar c (.ok ⟨d, v⟩) ↔ ∃ labels x, Dotted labels x ∧
    c.Over x d ∧ Stops d.remaining ∧ v = .list (labels.map .tokens) := by
  constructor
  · intro h
    obtain ⟨⟨e, u⟩, _, hfirst, -⟩ := ok_sepBy1.mp h
    have some := (ok_many1_satisfying.mp hfirst).1
    obtain ⟨l, ls, rest, hc, hlabels, stops⟩ := exists_stops some
    rw [← List.append_assoc] at hc
    have hover := Cursor.over_of_remaining hc
    have dotted : Dotted (l :: ls) (l ++ behind ls) := dotted_cons_iff.mpr ⟨hlabels, rfl⟩
    have stops := (hover.remaining_eq hc).symm ▸ stops
    cases h.unique (gives_labelList dotted hover stops)
    exact ⟨_, _, dotted, hover, stops, rfl⟩
  · rintro ⟨labels, x, dotted, hover, stops, rfl⟩
    exact gives_labelList dotted hover stops

theorem map_labelOf (labels : List (List Char)) :
    (Value.list (labels.map Value.tokens)).items.map labelOf = labels := by
  have one : ∀ l : List Char, labelOf (.tokens l) = l := by
    intro l
    simp [labelOf, Value.tokens, Value.items, List.filterMap_map]
  simp [Value.items, Function.comp_def, one]

theorem ok_domain : domain.Gives grammar c (.ok ⟨d, v⟩) ↔ ∃ labels x, Dotted labels x ∧
    c.Over x d ∧ Stops d.remaining ∧ Qualified labels ∧ v = .list (labels.map .tokens) := by
  have parts : domain.Gives grammar c (.ok ⟨d, v⟩) ↔ labelList.Gives grammar c (.ok ⟨d, v⟩) ∧
      isDomain (v.items.map labelOf) = true := ok_verified
  rw [parts, ok_labelList]
  constructor
  · rintro ⟨⟨labels, x, dotted, hover, stops, rfl⟩, hdomain⟩
    rw [map_labelOf, isDomain_iff] at hdomain
    exact ⟨labels, x, dotted, hover, stops, hdomain, rfl⟩
  · rintro ⟨labels, x, dotted, hover, stops, hdomain, rfl⟩
    refine ⟨⟨labels, x, dotted, hover, stops, rfl⟩, ?_⟩
    rw [map_labelOf, isDomain_iff]
    exact hdomain

/-! ## Addresses -/

theorem ok_addressParts {v : Value Char} :
    (inOrder (addressParts : List (Parser Char ρ))).Gives grammar c (.ok ⟨d, v⟩) ↔
      ∃ e u w, mailbox.Gives grammar c (.ok ⟨e, u⟩) ∧ e.remaining.head? = some '@' ∧
        domain.Gives grammar e.advance (.ok ⟨d, w⟩) ∧ v = .list [.unit, .unit, .unit] := by
  have parts : (inOrder (addressParts : List (Parser Char ρ))).Gives grammar c (.ok ⟨d, v⟩) ↔
      (Parts.eachOfList (nothing .unit) addressParts).Gives grammar c (.ok ⟨d, v⟩) := gives_site
  rw [parts, addressParts, ok_each_cons]
  simp only [ok_each_cons, gives_each_nil]
  constructor
  · rintro ⟨⟨e, _⟩, _, hname, ⟨⟨_, _⟩, _, hat, ⟨⟨_, _⟩, _, hdomain, hend, rfl⟩, rfl⟩, hm⟩
    obtain ⟨u, hmailbox, rfl⟩ := ok_ignored.mp hname
    obtain ⟨_, hsign, rfl⟩ := ok_ignored.mp hat
    obtain ⟨hhead, rfl, -⟩ := ok_exactly.mp hsign
    obtain ⟨w, hlabels, rfl⟩ := ok_ignored.mp hdomain
    cases hend
    cases hm
    exact ⟨e, u, w, hmailbox, hhead, hlabels, rfl⟩
  · rintro ⟨e, u, w, hname, hhead, hdomain, rfl⟩
    have first : (Parser.ignored mailbox).Gives grammar c (.ok ⟨e, .unit⟩) :=
      ok_ignored.mpr ⟨u, hname, rfl⟩
    have second : (Parser.ignored (.exactly '@')).Gives grammar e (.ok ⟨e.advance, .unit⟩) :=
      ok_ignored.mpr ⟨.token '@', ok_exactly.mpr ⟨hhead, rfl, rfl⟩, rfl⟩
    have third : (Parser.ignored domain).Gives grammar e.advance (.ok ⟨d, .unit⟩) :=
      ok_ignored.mpr ⟨w, hdomain, rfl⟩
    exact ⟨_, _, first, ⟨_, _, second, ⟨_, _, third, rfl, rfl⟩, rfl⟩, rfl⟩

/-- Behind a name, an at sign and a domain that were read, nothing is left that the name or the
domain could have taken. -/
theorem exists_begins {e : Cursor Char} {u w : Value Char}
    (hname : mailbox.Gives grammar c (.ok ⟨e, u⟩)) (hat : e.remaining.head? = some '@')
    (hdomain : domain.Gives grammar e.advance (.ok ⟨d, w⟩)) :
    ∃ name labels x, Begins c.remaining name labels x d.remaining ∧
      c.Over (name ++ '@' :: x) d := by
  obtain ⟨some, rfl, -⟩ := ok_many1_satisfying.mp hname
  obtain ⟨labels, x, dotted, hover, stops, qualified, -⟩ := ok_domain.mp hdomain
  have whole := (c.over_past isNameChar).append ((Cursor.over_advance hat).append hover)
  rw [List.singleton_append] at whole
  have split := whole.tokens
  rw [List.append_assoc, List.cons_append] at split
  refine ⟨_, labels, x, ⟨split, some, ⟨?_, ?_⟩, dotted, ?_, qualified⟩, whole⟩
  · intro a ha
    exact isNameChar_iff.mp (List.all_eq_true.mp List.all_takeWhile a ha)
  · intro a ha
    cases ha
    exact not_nameChar_at
  · exact (stops_iff_longest dotted).mp stops

/-- The parts of an address are read one after the other. -/
theorem Begins.gives_parts {name : List Char} (h : Begins c.remaining name labels x rest) :
    ∃ d e u w, mailbox.Gives grammar c (.ok ⟨e, u⟩) ∧ e.remaining.head? = some '@' ∧
      domain.Gives grammar e.advance (.ok ⟨d, w⟩) ∧ c.Over (name ++ '@' :: x) d := by
  obtain ⟨taken, first, hrest⟩ := Cursor.over_past_of_append h.split
    (fun a ha => isNameChar_iff.mpr (h.longestName.all a ha))
    (fun a ha => isNameChar_eq_false_iff.mpr (h.longestName.ends a ha))
  have hat : (c.past isNameChar).remaining.head? = some '@' := by rw [hrest]; rfl
  have second := Cursor.over_advance hat
  have hadvance := second.remaining_eq hrest
  have third := Cursor.over_of_remaining hadvance
  have stops := (third.remaining_eq hadvance).symm ▸ (stops_iff_longest h.dotted).mpr h.longest
  have hname : mailbox.Gives grammar c (.ok ⟨c.past isNameChar, .tokens name⟩) := by
    refine ok_many1_satisfying.mpr ⟨?_, rfl, by rw [taken]⟩
    rw [taken]
    exact h.nonempty
  have hdomain : domain.Gives grammar _ (.ok ⟨_, .list (labels.map .tokens)⟩) :=
    ok_domain.mpr ⟨labels, x, h.dotted, third, stops, h.qualified, rfl⟩
  exact ⟨_, _, _, _, hname, hat, hdomain, first.append (second.append third)⟩

/-- The parser matches exactly where the input begins with an address; its value is that text. -/
theorem ok_address {m : Match Char} : address.Gives grammar c (.ok m) ↔
    ∃ name labels x rest, Begins c.remaining name labels x rest ∧
      m = ⟨⟨c.buffer, c.offset + (name ++ '@' :: x).length⟩,
        .text (.ofList (name ++ '@' :: x))⟩ := by
  obtain ⟨d, v⟩ := m
  rw [address, named, gives_site, ok_written]
  constructor
  · rintro ⟨_, h, rfl⟩
    obtain ⟨e, u, w, hname, hat, hdomain, -⟩ := ok_addressParts.mp h
    obtain ⟨name, labels, x, begins, whole⟩ := exists_begins hname hat hdomain
    refine ⟨name, labels, x, d.remaining, begins, ?_⟩
    rw [whole.consumed_eq, whole.stop]
  · rintro ⟨name, labels, x, rest, h, hm⟩
    obtain ⟨d', e, u, w, hname, hat, hdomain, whole⟩ := h.gives_parts
    rw [← whole.stop] at hm
    obtain ⟨rfl, rfl⟩ := Match.mk.inj hm
    refine ⟨_, ok_addressParts.mpr ⟨e, u, w, hname, hat, hdomain, rfl⟩, ?_⟩
    rw [whole.consumed_eq]

/-! ## No run goes on for ever -/

theorem lt_of_gives_oneLabel {m : Match Char} (h : oneLabel.Gives grammar c (.ok m)) :
    m.stop.remaining.length < c.remaining.length := by
  obtain ⟨some, hstop, -⟩ := ok_many1_satisfying.mp h
  have hlength := (c.over_past isLabelChar).length_eq
  have pos := List.length_pos_iff.mpr some
  rw [hstop]
  omega

theorem halts_exactly {want : Char} : (exactly want).Halts grammar c := (halts_leaf _).site

theorem halts_domain : domain.Halts grammar c := by
  have rest : ∀ d, (Parser.delimited (exactly '.') oneLabel).Halts grammar d := by
    refine halts_delimited (fun _ => halts_exactly) (fun _ => halts_many1_satisfying _) ?_
    rintro d ⟨e, v⟩ first hdot hlabel
    obtain ⟨hhead, rfl, -⟩ := ok_exactly.mp hdot
    have dot := (Cursor.over_advance hhead).length_eq
    have label := lt_of_gives_oneLabel hlabel
    change first.stop.remaining.length < d.advance.remaining.length at label
    omega
  have first : oneLabel.Halts grammar c := halts_many1_satisfying _
  exact (((first.adapt _).andThen fun m _ => rest m.stop).site.adapt _).site

theorem halts_address : address.Halts grammar c := by
  have ignored {p : Parser Char ρ} {d : Cursor Char} (hp : p.Halts grammar d) :
      (Parser.ignored p).Halts grammar d := (hp.adapt _).site
  have parts : (Parts.eachOfList (nothing .unit) (addressParts : List (Parser Char ρ))).Halts
      grammar c := by
    refine (ignored (halts_many1_satisfying _)).each_cons fun _ _ => ?_
    refine (ignored halts_exactly).each_cons fun _ _ => ?_
    exact (ignored halts_domain).each_cons fun _ _ => halts_leaf _
  exact (((parts.site.adapt _).site.adapt _).site).site

end

/-! ## The language -/

/-- Where the parser of addresses matches, under all settings and from all stores. -/
structure Recognises (grammar : Grammar Char ρ) : Prop where
  /-- It matches exactly where the input begins with an address, up to the end of that. -/
  ok : ∀ ctx c s m, address.Makes grammar ctx c s (.ok m) ↔
    ∃ name labels domain rest, Begins c.remaining name labels domain rest ∧
      m = ⟨⟨c.buffer, c.offset + (name ++ '@' :: domain).length⟩,
        .text (.ofList (name ++ '@' :: domain))⟩
  /-- Anywhere else it fails. -/
  error : ∀ ctx c s, (¬ ∃ name labels domain rest, Begins c.remaining name labels domain rest) →
    ∃ f, address.Makes grammar ctx c s (.error f)
  /-- What is left does not go on with a label, and a dot that is left has no label behind it. -/
  left : ∀ {text name labels domain rest}, Begins text name labels domain rest → Stops rest
  /-- A whole text is matched to its end exactly if it has the form of an address. -/
  whole : ∀ ctx c s, (∃ m, address.Makes grammar ctx c s (.ok m) ∧ m.stop.remaining = []) ↔
    IsAddress c.remaining

/-- Behind the address the rest of the text is left. -/
theorem Begins.remaining_eq {c : Cursor Char} {name domain : List Char}
    (h : Begins c.remaining name labels domain rest) :
    (⟨c.buffer, c.offset + (name ++ '@' :: domain).length⟩ : Cursor Char).remaining = rest := by
  have split : c.remaining = name ++ '@' :: domain ++ rest := by
    rw [h.split, List.append_assoc, List.cons_append]
  exact (Cursor.over_of_remaining split).remaining_eq split

/-- Where nothing follows, there is nothing that a longer name or domain could take. -/
theorem isAddress_iff {text : List Char} :
    IsAddress text ↔ ∃ name labels domain, Begins text name labels domain [] := by
  constructor
  · rintro ⟨name, hosts, tld, some, hname, some', hhosts, htld, rfl⟩
    have dotted : Dotted (hosts ++ [tld]) (['.'].intercalate (hosts ++ [tld])) := by
      refine ⟨by simp, fun l hl => ?_, rfl⟩
      rcases List.mem_append.mp hl with hl | hl
      · exact hhosts l hl
      · rw [List.mem_singleton.mp hl]
        exact htld.label
    have stops : Stops [] := ⟨by simp, by simp⟩
    have longestName : LongestRun NameChar name
        ('@' :: (['.'].intercalate (hosts ++ [tld]) ++ [])) := by
      refine ⟨hname, fun a ha => ?_⟩
      cases ha
      exact not_nameChar_at
    exact ⟨name, hosts ++ [tld], _, by rw [List.append_nil], some, longestName, dotted,
      (stops_iff_longest dotted).mp stops, qualified_iff.mpr ⟨hosts, tld, rfl, some', htld⟩⟩
  · rintro ⟨name, labels, domain, h⟩
    obtain ⟨hosts, tld, rfl, some, htld⟩ := qualified_iff.mp h.qualified
    refine ⟨name, hosts, tld, h.nonempty, h.longestName.all, some, ?_, htld, ?_⟩
    · intro l hl
      exact h.dotted.label l (List.mem_append_left _ hl)
    · rw [h.split, h.dotted.joined, List.append_nil]

/-- The parser of addresses recognises exactly the language of addresses. -/
theorem address_recognises (grammar : Grammar Char ρ) : Recognises grammar where
  ok := by
    intro ctx c s m
    rw [halts_address.makes_iff, ok_address]
  error := by
    intro ctx c s none
    have halts : address.Halts grammar c := halts_address
    obtain ⟨r, hr⟩ := halts.exists_makes ctx s
    cases r with
    | error f => exact ⟨f, hr⟩
    | ok m =>
      obtain ⟨name, labels, domain, rest, h, -⟩ := ok_address.mp (halts.makes_iff.mp hr)
      exact absurd ⟨name, labels, domain, rest, h⟩ none
  left := by
    intro text name labels domain rest h
    exact (stops_iff_longest h.dotted).mpr h.longest
  whole := by
    intro ctx c s
    simp only [halts_address.makes_iff, ok_address, isAddress_iff]
    constructor
    · rintro ⟨_, ⟨name, labels, domain, rest, h, rfl⟩, hend⟩
      rw [← h.remaining_eq, hend] at h
      exact ⟨name, labels, domain, h⟩
    · rintro ⟨name, labels, domain, h⟩
      exact ⟨_, ⟨name, labels, domain, [], h, rfl⟩, h.remaining_eq⟩

/-- The dot at the end has no label behind it. -/
example : ((address : Parser Char Empty).run Empty.elim 40 .plain
    (.ofBuffer (.ofArray 0 "a@b-1.Org.".toList.toArray)) ∅).map
      (fun x => x.1.toOption.map (·.stop.offset)) = some (some 9) := by decide +kernel

end Packrat.Email
