import Packrat.Pattern

/-!
# What the test of a pattern finds

A match of a pattern is a span of the text, and which spans are matches is told by the pattern
alone. The test never looks back: all that it knows of the matches under way are the marks. So marks
are told by the offsets at which the matches under way end, and each step of the test keeps this.

* `Pattern.Spans`: the spans of a text that a pattern matches.
* `Pattern.Ends`: where the matches end that are under way at an offset.
* `Pattern.passes_iff`, `Pattern.ends_step`: what the marks say at an offset, and how they move on.
* `Pattern.matchesIn_iff`: the test finds a match exactly if there is one.
* `Pattern.spans_literal`: where a text as it stands is matched.
-/

namespace Packrat

/-- The border lies at the offset `k` of the text. -/
structure Border.At (b : Border) (text : List Char) (k : Nat) : Prop where
  inText : k ≤ text.length
  atStart : b.atStart = true ↔ k = 0
  atStop : b.atStop = true ↔ k = text.length

namespace Pattern

/-! ## Matches -/

/-- The pattern matches the text from the first offset up to the second. -/
inductive Spans (text : List Char) : Pattern → Nat → Nat → Prop where
  | empty {i} (inText : i ≤ text.length) : Spans text .empty i i
  | chars {i c set} (next : text[i]? = some c) (allowed : set.contains c = true) :
      Spans text (.chars set) i (i + 1)
  | start : Spans text .start 0 0
  | stop : Spans text .stop text.length text.length
  | seq {p q i j k} (first : Spans text p i j) (second : Spans text q j k) :
      Spans text (.seq p q) i k
  | altLeft {p q i j} (left : Spans text p i j) : Spans text (.alt p q) i j
  | altRight {p q i j} (right : Spans text q i j) : Spans text (.alt p q) i j
  | starNil {p i} (inText : i ≤ text.length) : Spans text (.star p) i i
  | starCons {p i j k} (first : Spans text p i j) (rest : Spans text (.star p) j k) :
      Spans text (.star p) i k

section

variable {text : List Char} {p q : Pattern} {set : CharSet} {i j k l : Nat} {m : Marks}
  {b : Border} {c : Char} {fresh : Bool}

theorem Spans.le (h : Spans text p i j) : i ≤ j := by
  induction h with
  | empty | start | stop | starNil => exact Nat.le_refl _
  | chars => exact Nat.le_succ _
  | seq _ _ ih ih' | starCons _ _ ih ih' => exact Nat.le_trans ih ih'
  | altLeft _ ih | altRight _ ih => exact ih

theorem Spans.le_length (h : Spans text p i j) : j ≤ text.length := by
  induction h with
  | empty inText | starNil inText => exact inText
  | start => exact Nat.zero_le _
  | stop => exact Nat.le_refl _
  | chars next => exact (List.getElem?_eq_some_iff.mp next).1
  | seq _ _ _ ih | starCons _ _ _ ih => exact ih
  | altLeft _ ih | altRight _ ih => exact ih

theorem spans_empty : Spans text .empty i j ↔ j = i ∧ i ≤ text.length := by
  constructor
  · intro h
    cases h with
    | empty inText => exact ⟨rfl, inText⟩
  · rintro ⟨rfl, inText⟩
    exact .empty inText

theorem spans_chars : Spans text (.chars set) i j ↔
    ∃ c, text[i]? = some c ∧ set.contains c = true ∧ j = i + 1 := by
  constructor
  · intro h
    cases h with
    | chars next allowed => exact ⟨_, next, allowed, rfl⟩
  · rintro ⟨c, next, allowed, rfl⟩
    exact .chars next allowed

theorem spans_start : Spans text .start i j ↔ i = 0 ∧ j = 0 := by
  constructor
  · intro h
    cases h
    exact ⟨rfl, rfl⟩
  · rintro ⟨rfl, rfl⟩
    exact .start

theorem spans_stop : Spans text .stop i j ↔ i = text.length ∧ j = text.length := by
  constructor
  · intro h
    cases h
    exact ⟨rfl, rfl⟩
  · rintro ⟨rfl, rfl⟩
    exact .stop

theorem spans_seq : Spans text (.seq p q) i k ↔ ∃ j, Spans text p i j ∧ Spans text q j k := by
  constructor
  · intro h
    cases h with
    | seq first second => exact ⟨_, first, second⟩
  · rintro ⟨j, first, second⟩
    exact .seq first second

theorem spans_alt : Spans text (.alt p q) i j ↔ Spans text p i j ∨ Spans text q i j := by
  constructor
  · intro h
    cases h with
    | altLeft left => exact .inl left
    | altRight right => exact .inr right
  · rintro (left | right)
    · exact .altLeft left
    · exact .altRight right

/-- Of matches in turn that read something, the first that reads something may come first. -/
theorem Spans.star_advance (h : Spans text (.star p) i k) (reads : i < k) :
    ∃ j, i < j ∧ Spans text p i j ∧ Spans text (.star p) j k := by
  generalize hr : Pattern.star p = r at h
  induction h with
  | starNil => exact absurd reads (Nat.lt_irrefl _)
  | @starCons _ i j k first rest _ ih =>
    cases hr
    rcases Nat.eq_or_lt_of_le first.le with rfl | onward
    · exact ih reads rfl
    · exact ⟨j, onward, first, rest⟩
  | _ => cases hr

/-! ## Matches under way -/

/-- A match under way at the offset `k`, as the marks say, ends at `l`. -/
def Ends (text : List Char) : Pattern → Marks → Nat → Nat → Prop
  | .empty, _, _, _ | .start, _, _, _ | .stop, _, _, _ => False
  | .chars _, m, k, l => m = .here ∧ l = k
  | .seq p q, m, k, l =>
    (∃ j, Ends text p m.first k j ∧ Spans text q j l) ∨ Ends text q m.second k l
  | .alt p q, m, k, l => Ends text p m.first k l ∨ Ends text q m.second k l
  | .star p, m, k, l => ∃ j, Ends text p m k j ∧ Spans text (.star p) j l

theorem Ends.le (h : Ends text p m k l) : k ≤ l := by
  induction p generalizing m l with
  | empty | start | stop => cases h
  | chars => exact Nat.le_of_eq h.2.symm
  | seq p q ihp ihq =>
    rcases h with ⟨j, first, second⟩ | second
    · exact Nat.le_trans (ihp first) second.le
    · exact ihq second
  | alt p q ihp ihq => exact h.elim ihp ihq
  | star p ih =>
    obtain ⟨j, first, rest⟩ := h
    exact Nat.le_trans (ih first) rest.le

theorem Ends.le_length (h : Ends text p m k l) (inText : k ≤ text.length) : l ≤ text.length := by
  induction p generalizing m l with
  | empty | start | stop => cases h
  | chars => exact h.2 ▸ inText
  | seq p q ihp ihq =>
    rcases h with ⟨j, -, second⟩ | second
    · exact second.le_length
    · exact ihq second
  | alt p q ihp ihq => exact h.elim ihp ihq
  | star p ih =>
    obtain ⟨j, -, rest⟩ := h
    exact rest.le_length

/-- Without marks no match is under way. -/
theorem not_ends_none : ¬ Ends text p .none k l := by
  induction p generalizing l with
  | empty | start | stop => exact id
  | chars => exact fun h => by cases h.1
  | seq p q ihp ihq =>
    rintro (⟨j, first, -⟩ | second)
    · exact ihp first
    · exact ihq second
  | alt p q ihp ihq => exact fun h => h.elim ihp ihq
  | star p ih =>
    rintro ⟨j, first, -⟩
    exact ih first

theorem first_pair (m n : Marks) : (m.pair n).first = m := by
  cases m <;> cases n <;> rfl

theorem second_pair (m n : Marks) : (m.pair n).second = n := by
  cases m <;> cases n <;> rfl

theorem areNone_iff : m.areNone = true ↔ m = .none := by
  cases m <;> simp [Marks.areNone]

theorem areHere_iff : m.areHere = true ↔ m = .here := by
  cases m <;> simp [Marks.areHere]

/-- Nothing begins and nothing is under way where the test passes over a part. -/
theorem of_idle (h : (fresh || !m.areNone) = false) : fresh = false ∧ m = .none := by
  rw [Bool.or_eq_false_iff, Bool.not_eq_false', areNone_iff] at h
  exact h

/-- A match that is under way at the offset `k`, or if `fresh` holds, that begins there, ends at
`l`. -/
def Reaches (text : List Char) (p : Pattern) (fresh : Bool) (m : Marks) (k l : Nat) : Prop :=
  Ends text p m k l ∨ fresh = true ∧ Spans text p k l

theorem Reaches.le (h : Reaches text p fresh m k l) : k ≤ l :=
  h.elim Ends.le fun h => h.2.le

theorem Reaches.le_length (h : Reaches text p fresh m k l) (inText : k ≤ text.length) :
    l ≤ text.length :=
  h.elim (fun h => h.le_length inText) fun h => h.2.le_length

theorem not_reaches_idle : ¬ Reaches text p false .none k l := by
  rintro (h | ⟨hf, -⟩)
  · exact not_ends_none h
  · cases hf

theorem reaches_seq : Reaches text (.seq p q) fresh m k l ↔
    (∃ j, Reaches text p fresh m.first k j ∧ Spans text q j l) ∨ Ends text q m.second k l := by
  rw [Reaches, Ends, spans_seq]
  constructor
  · rintro ((⟨j, first, second⟩ | second) | ⟨hf, j, first, second⟩)
    · exact .inl ⟨j, .inl first, second⟩
    · exact .inr second
    · exact .inl ⟨j, .inr ⟨hf, first⟩, second⟩
  · rintro (⟨j, first | ⟨hf, first⟩, second⟩ | second)
    · exact .inl (.inl ⟨j, first, second⟩)
    · exact .inr ⟨hf, j, first, second⟩
    · exact .inl (.inr second)

theorem reaches_alt : Reaches text (.alt p q) fresh m k l ↔
    Reaches text p fresh m.first k l ∨ Reaches text q fresh m.second k l := by
  rw [Reaches, Reaches, Reaches, Ends, spans_alt, and_or_left]
  exact or_or_or_comm

/-- What comes between one offset and the same offset lies there itself. -/
theorem exists_reaches_here : (∃ j, Reaches text p fresh m k j ∧ Spans text q j k) ↔
    Reaches text p fresh m k k ∧ Spans text q k k := by
  constructor
  · rintro ⟨j, first, second⟩
    obtain rfl := Nat.le_antisymm second.le first.le
    exact ⟨first, second⟩
  · rintro ⟨first, second⟩
    exact ⟨k, first, second⟩

/-! ## The test -/

/-- At a border the marks, and the matches that may begin there, say whether a match ends there. -/
theorem passes_iff (hb : b.At text k) :
    p.passes b fresh m = true ↔ Reaches text p fresh m k k := by
  induction p generalizing fresh m with
  | empty => simp [passes, Reaches, Ends, spans_empty, hb.inText]
  | chars set => simp [passes, Reaches, Ends, spans_chars, areHere_iff]
  | start => simp [passes, Reaches, Ends, spans_start, hb.atStart]
  | stop => simp [passes, Reaches, Ends, spans_stop, hb.atStop]
  | seq p q ihp ihq =>
    cases busy : fresh || !m.areNone with
    | false =>
      obtain ⟨rfl, rfl⟩ := of_idle busy
      simp [passes, busy, not_reaches_idle]
    | true =>
      rw [passes, busy, Bool.true_and, ihq, reaches_seq, exists_reaches_here, Reaches, ihp]
      exact or_comm
  | alt p q ihp ihq =>
    cases busy : fresh || !m.areNone with
    | false =>
      obtain ⟨rfl, rfl⟩ := of_idle busy
      simp [passes, busy, not_reaches_idle]
    | true => rw [passes, busy, Bool.true_and, Bool.or_eq_true, ihp, ihq, reaches_alt]
  | star p ih =>
    have nothing : Spans text (.star p) k k := .starNil hb.inText
    have under_way : (∃ j, Ends text p m k j ∧ Spans text (.star p) j k) ↔ Ends text p m k k := by
      constructor
      · rintro ⟨j, first, rest⟩
        obtain rfl := Nat.le_antisymm rest.le first.le
        exact first
      · intro h
        exact ⟨k, h, nothing⟩
    rw [passes, Bool.or_eq_true, ih, Reaches, Reaches, Ends, under_way]
    simp [nothing, or_comm]

theorem step_seq (busy : (fresh || !m.areNone) = true) :
    (Pattern.step b c fresh m (.seq p q)).1 = (p.step b c fresh m.first).1.pair
      (q.step b c (p.passes b fresh m.first) m.second).1 := by
  simp [step, busy]

theorem step_alt (busy : (fresh || !m.areNone) = true) :
    (Pattern.step b c fresh m (.alt p q)).1 =
      (p.step b c fresh m.first).1.pair (q.step b c fresh m.second).1 := by
  simp [step, busy]

/-- Over a character the matches under way go on, and those that begin in front of it join them. A
match that ends in front of it is left behind. -/
theorem ends_step (hb : b.At text k) (hc : text[k]? = some c) :
    Ends text p (p.step b c fresh m).1 (k + 1) l ↔ k < l ∧ Reaches text p fresh m k l := by
  induction p generalizing fresh m l with
  | empty =>
    simp only [Reaches, Ends, spans_empty, false_iff, false_or]
    omega
  | start =>
    simp only [Reaches, Ends, spans_start, false_iff, false_or]
    omega
  | stop =>
    have inText := (List.getElem?_eq_some_iff.mp hc).1
    simp only [Reaches, Ends, spans_stop, false_iff, false_or]
    omega
  | chars set =>
    have read : Spans text (.chars set) k l ↔ set.contains c = true ∧ l = k + 1 := by
      simp [spans_chars, hc]
    have mark : (Pattern.step b c fresh m (.chars set)).1 = .here ↔
        fresh = true ∧ set.contains c = true := by simp [step]
    rw [Reaches, Ends, Ends, mark, read]
    constructor
    · rintro ⟨⟨hf, allowed⟩, rfl⟩
      exact ⟨Nat.lt_succ_self k, .inr ⟨hf, allowed, rfl⟩⟩
    · rintro ⟨onward, ⟨-, rfl⟩ | ⟨hf, allowed, rfl⟩⟩
      · exact absurd onward (Nat.lt_irrefl _)
      · exact ⟨⟨hf, allowed⟩, rfl⟩
  | seq p q ihp ihq =>
    cases busy : fresh || !m.areNone with
    | false =>
      obtain ⟨rfl, rfl⟩ := of_idle busy
      exact iff_of_false not_ends_none fun h => not_reaches_idle h.2
    | true =>
      rw [step_seq busy, Ends, first_pair, second_pair, ihq, reaches_seq, Reaches, passes_iff hb]
      simp only [ihp]
      constructor
      · rintro (⟨j, ⟨onward, first⟩, second⟩ | ⟨onward, second | ⟨first, second⟩⟩)
        · exact ⟨Nat.lt_of_lt_of_le onward second.le, .inl ⟨j, first, second⟩⟩
        · exact ⟨onward, .inr second⟩
        · exact ⟨onward, .inl ⟨k, first, second⟩⟩
      · rintro ⟨onward, ⟨j, first, second⟩ | second⟩
        · rcases Nat.eq_or_lt_of_le first.le with rfl | later
          · exact .inr ⟨onward, .inr ⟨first, second⟩⟩
          · exact .inl ⟨j, ⟨later, first⟩, second⟩
        · exact .inr ⟨onward, .inl second⟩
  | alt p q ihp ihq =>
    cases busy : fresh || !m.areNone with
    | false =>
      obtain ⟨rfl, rfl⟩ := of_idle busy
      exact iff_of_false not_ends_none fun h => not_reaches_idle h.2
    | true =>
      rw [step_alt busy, Ends, first_pair, second_pair, ihp, ihq, reaches_alt, and_or_left]
  | star p ih =>
    -- a further match begins wherever one ends
    have again : (fresh || p.passes b false m) = true ↔ fresh = true ∨ Ends text p m k k := by
      rw [Bool.or_eq_true, passes_iff hb, Reaches]
      simp
    rw [step, Reaches, Ends]
    simp only [ih, Reaches, again, Ends]
    constructor
    · rintro ⟨j, ⟨onward, first | ⟨hf | here, first⟩⟩, rest⟩
      · exact ⟨Nat.lt_of_lt_of_le onward rest.le, .inl ⟨j, first, rest⟩⟩
      · exact ⟨Nat.lt_of_lt_of_le onward rest.le, .inr ⟨hf, .starCons first rest⟩⟩
      · exact ⟨Nat.lt_of_lt_of_le onward rest.le, .inl ⟨k, here, .starCons first rest⟩⟩
    · rintro ⟨onward, ⟨j, first, rest⟩ | ⟨hf, all⟩⟩
      · rcases Nat.eq_or_lt_of_le first.le with rfl | later
        · obtain ⟨j, later, next, rest⟩ := rest.star_advance onward
          exact ⟨j, ⟨later, .inr ⟨.inr first, next⟩⟩, rest⟩
        · exact ⟨j, ⟨later, .inl first⟩, rest⟩
      · obtain ⟨j, later, next, rest⟩ := all.star_advance onward
        exact ⟨j, ⟨later, .inr ⟨.inl hf, next⟩⟩, rest⟩

/-- From an offset on the test looks for the end of a match that is under way there, or that begins
there or later. -/
theorem leadsToMatch_iff {atStart : Bool} (inText : k ≤ text.length)
    (hstart : atStart = true ↔ k = 0) : p.leadsToMatch m atStart (text.drop k) = true ↔
      ∃ l, Reaches text p true m k l ∨ ∃ i, k < i ∧ Spans text p i l := by
  induction hrest : text.drop k generalizing k m atStart with
  | nil =>
    have atEnd : k = text.length := Nat.le_antisymm inText (List.drop_eq_nil_iff.mp hrest)
    have hb : (⟨atStart, true⟩ : Border).At text k := ⟨inText, hstart, by simp [atEnd]⟩
    rw [leadsToMatch, passes_iff hb]
    constructor
    · intro h
      exact ⟨k, .inl h⟩
    · rintro ⟨l, h | ⟨i, later, h⟩⟩
      · obtain rfl : l = k := Nat.le_antisymm (atEnd ▸ h.le_length inText) h.le
        exact h
      · have := h.le
        have := h.le_length
        omega
  | cons c rest ih =>
    have hlt : k < text.length := by
      refine Nat.lt_of_not_le fun beyond => ?_
      cases hrest.symm.trans (List.drop_eq_nil_of_le beyond)
    have hc : text[k]? = some c := by rw [← List.head?_drop, hrest, List.head?_cons]
    have hrest' : text.drop (k + 1) = rest := by rw [← List.tail_drop, hrest, List.tail_cons]
    have hb : (⟨atStart, false⟩ : Border).At text k :=
      ⟨inText, hstart, by simpa using Nat.ne_of_lt hlt⟩
    rw [leadsToMatch]
    dsimp only
    rw [snd_step, Bool.or_eq_true, passes_iff hb, ih hlt (by simp) hrest']
    constructor
    · rintro (here | ⟨l, (h | ⟨-, h⟩) | ⟨i, later, h⟩⟩)
      · exact ⟨k, .inl here⟩
      · exact ⟨l, .inl ((ends_step hb hc).mp h).2⟩
      · exact ⟨l, .inr ⟨k + 1, Nat.lt_succ_self k, h⟩⟩
      · exact ⟨l, .inr ⟨i, Nat.lt_of_succ_lt later, h⟩⟩
    · rintro ⟨l, h | ⟨i, later, h⟩⟩
      · rcases Nat.eq_or_lt_of_le h.le with rfl | onward
        · exact .inl h
        · exact .inr ⟨l, .inl (.inl ((ends_step hb hc).mpr ⟨onward, h⟩))⟩
      · rcases Nat.eq_or_lt_of_le (Nat.succ_le_of_lt later) with rfl | beyond
        · exact .inr ⟨l, .inl (.inr ⟨rfl, h⟩)⟩
        · exact .inr ⟨l, .inr ⟨i, beyond, h⟩⟩

/-- The test finds a match exactly if there is one. -/
theorem matchesIn_iff {s : String} :
    p.matchesIn s = true ↔ ∃ i j, Spans s.toList p i j := by
  have whole := leadsToMatch_iff (p := p) (m := .none) (Nat.zero_le s.toList.length)
    (iff_of_true rfl rfl : true = true ↔ 0 = 0)
  rw [List.drop_zero] at whole
  rw [matchesIn, whole]
  constructor
  · rintro ⟨l, (h | ⟨-, h⟩) | ⟨i, -, h⟩⟩
    · exact absurd h not_ends_none
    · exact ⟨0, l, h⟩
    · exact ⟨i, l, h⟩
  · rintro ⟨i, j, h⟩
    rcases Nat.eq_zero_or_pos i with rfl | later
    · exact ⟨j, .inl (.inr ⟨rfl, h⟩)⟩
    · exact ⟨j, .inr ⟨i, later, h⟩⟩

/-! ## Texts as they stand -/

theorem spans_literal {cs : List Char} : Spans text (literal cs) i j ↔
    cs <+: text.drop i ∧ i ≤ text.length ∧ j = i + cs.length := by
  induction cs generalizing i with
  | nil => simp [literal, spans_empty, and_comm]
  | cons c cs ih =>
    have next : c :: cs <+: text.drop i ↔ text[i]? = some c ∧ cs <+: text.drop (i + 1) := by
      rw [← List.head?_drop, ← List.tail_drop]
      cases text.drop i <;> simp [List.cons_prefix_cons, eq_comm]
    have read {k : Nat} : Spans text (.chars (.one c)) i k ↔ text[i]? = some c ∧ k = i + 1 := by
      rw [spans_chars]
      simp only [CharSet.contains_one, beq_iff_eq]
      constructor
      · rintro ⟨d, hd, rfl, hk⟩
        exact ⟨hd, hk⟩
      · rintro ⟨hc, hk⟩
        exact ⟨c, hc, rfl, hk⟩
    rw [literal, spans_seq, next, List.length_cons]
    simp only [ih, read]
    constructor
    · rintro ⟨_, ⟨hc, rfl⟩, hbegin, inText, rfl⟩
      exact ⟨⟨hc, hbegin⟩, Nat.le_of_succ_le inText, by omega⟩
    · rintro ⟨⟨hc, hbegin⟩, -, rfl⟩
      have inText := (List.getElem?_eq_some_iff.mp hc).1
      exact ⟨i + 1, ⟨hc, rfl⟩, hbegin, inText, by omega⟩

end

end Pattern

end Packrat
