import Packrat.Pattern.Engine
import Packrat.Proofs.Search

/-!
# Texts in the notation of patterns

A quoted text is read as its characters one by one, whatever signs are among them: a backslash
stands before each of these, and all other characters stand for themselves. So the engine that reads
this notation keeps what engines promise of escaped texts, and by what its test finds, the rest too.

* `Pattern.signs_quote`: the signs of a quoted text.
* `Pattern.read_quote`, `Pattern.read_anchored`: its draft, and its draft behind a circumflex.
* `Pattern.engine_searches`, `Pattern.engine_escapes`, `Pattern.engine_anchors`: the promises.
-/

namespace Packrat

/-! ## Signs -/

namespace Pattern

variable {c : Char} {rest : List Char}

theorem readSign_of_not_isMeta {fuel : Nat} (h : isMeta c = false) :
    readSign fuel c rest = .ok (.char c, rest) := by
  unfold readSign
  split
  case h_13 => rfl
  all_goals cases h

theorem readEscape_of_isMeta (h : isMeta c = true) :
    readEscape (c :: rest) = .ok (.char c, rest) := by
  have signs : c ∈ ['\\', '.', '+', '*', '?', '(', ')', '|', '[', ']', '{', '}', '^', '$', '#',
    '&', '-', '~'] := of_decide_eq_true h
  simp only [List.mem_cons, List.not_mem_nil, or_false] at signs
  rcases signs with rfl | rfl | rfl | rfl | rfl | rfl | rfl | rfl | rfl | rfl | rfl | rfl | rfl |
    rfl | rfl | rfl | rfl | rfl <;> rfl

theorem signs_quoted (fuel : Nat) (c : Char) (rest : List Char) :
    signs (fuel + 1) ((if isMeta c then ['\\', c] else [c]) ++ rest) =
      (signs fuel rest).map (.char c :: ·) := by
  cases hc : isMeta c with
  | true =>
    have sign : readSign fuel '\\' (c :: rest) = .ok (.char c, rest) := readEscape_of_isMeta hc
    change (readSign fuel '\\' (c :: rest) >>= _) = _
    rw [sign]
    rfl
  | false =>
    change (readSign fuel c rest >>= _) = _
    rw [readSign_of_not_isMeta hc]
    rfl

theorem quote_append (s t : List Char) : quote (s ++ t) = quote s ++ quote t :=
  List.flatMap_append

/-- A quoted text is read as its characters. -/
theorem signs_quote {text : List Char} {fuel : Nat} (enough : (quote text).length < fuel) :
    signs fuel (quote text) = .ok (text.map .char) := by
  induction text generalizing fuel with
  | nil => cases fuel <;> rfl
  | cons c text ih =>
    obtain ⟨fuel, rfl⟩ := Nat.exists_eq_succ_of_ne_zero (Nat.ne_zero_of_lt enough)
    have split : quote (c :: text) = (if isMeta c then ['\\', c] else [c]) ++ quote text :=
      List.flatMap_cons
    have pos : 0 < (if isMeta c then ['\\', c] else [c]).length := by
      split <;> exact Nat.succ_pos _
    rw [split, List.length_append] at enough
    rw [split, signs_quoted, ih (by omega)]
    rfl

/-! ## Drafts -/

/-- The draft of a character as it stands. -/
def letterDraft (c : Char) : Draft := .chars (.one c) 0

/-- Characters are put one behind another. -/
theorem assemble_chars {captures repeatable : Bool} {items : List Draft} {text : List Char} :
    assemble [] ⟨captures, [], items, false, repeatable⟩ (text.map .char) =
      .ok (Draft.inOrder (items.reverse ++ text.map letterDraft)) := by
  induction text generalizing items repeatable with
  | nil => rw [List.map_nil, List.map_nil, List.append_nil]; rfl
  | cons c text ih =>
    have one : assemble [] ⟨captures, [], items, false, repeatable⟩ ((c :: text).map .char) =
      assemble [] ⟨captures, [], letterDraft c :: items, false, true⟩ (text.map .char) := rfl
    rw [one, ih, List.reverse_cons, List.append_assoc, List.map_cons]
    rfl

theorem read_quote (text : List Char) :
    read (quote text) = .ok (.inOrder (text.map letterDraft)) := by
  rw [read, signs_quote (Nat.lt_succ_self _)]
  exact assemble_chars

theorem read_anchored (text : List Char) :
    read ('^' :: quote text) = .ok (.inOrder (.start :: text.map letterDraft)) := by
  have enough : (quote text).length < ('^' :: quote text).length := Nat.lt_succ_self _
  have signs : signs (('^' :: quote text).length + 1) ('^' :: quote text) =
      .ok (.start :: text.map .char) := by
    change ((do return .start :: (← signs _ (quote text))) : Except PatternError _) = _
    rw [signs_quote enough]
    rfl
  rw [read, signs]
  exact @assemble_chars false true [.start] text

theorem pattern_letters (text : List Char) :
    (Draft.inOrder (text.map letterDraft)).pattern = literal text := by
  induction text with
  | nil => rfl
  | cons c text ih => exact congrArg (Pattern.seq (.chars (.one c))) ih

/-! ## What the engine promises -/

/-- The first text is read as a pattern, and the pattern matches the second text from the first
offset up to the second. -/
def ReadSpans (pattern text : String) (i j : Nat) : Prop :=
  ∃ d, read pattern.toList = .ok d ∧ Spans text.toList d.pattern i j

variable {pattern text : String} {d : Draft} {i j : Nat}

theorem readSpans_iff (h : read pattern.toList = .ok d) :
    ReadSpans pattern text i j ↔ Spans text.toList d.pattern i j := by
  simp only [ReadSpans, h, Except.ok.injEq, exists_eq_left']

theorem compile_engine (h : read pattern.toList = .ok d) :
    engine.compile pattern = .ok ⟨d.pattern.matchesIn⟩ := by
  change (read pattern.toList >>= _) = _
  rw [h]
  rfl

theorem engine_searches : engine.Searches ReadSpans := by
  intro pattern regex h text
  cases hread : read pattern.toList with
  | error e =>
    change (read pattern.toList >>= _) = _ at h
    rw [hread] at h
    cases h
  | ok d =>
    cases (compile_engine hread).symm.trans h
    rw [matchesIn_iff]
    simp only [readSpans_iff hread]

theorem read_escape (s : String) :
    read (engine.escape s).toList = .ok (.inOrder (s.toList.map letterDraft)) := by
  change read (String.ofList (quote s.toList)).toList = _
  rw [String.toList_ofList, read_quote]

theorem read_anchored_escape (s : String) :
    read ("^" ++ engine.escape s).toList =
      .ok (.inOrder (.start :: s.toList.map letterDraft)) := by
  change read ("^" ++ String.ofList (quote s.toList)).toList = _
  have circumflex : "^".toList = ['^'] := by decide
  rw [String.toList_append, circumflex, String.toList_ofList, List.singleton_append, read_anchored]

theorem engine_escapes : engine.Escapes ReadSpans where
  accepted s := ⟨_, compile_engine (read_escape s)⟩
  spans_iff s text i j := by
    rw [readSpans_iff (read_escape s), pattern_letters, spans_literal, String.length_toList,
      String.length_toList]
    constructor
    · rintro ⟨⟨after, begins⟩, inText, rfl⟩
      have split : text.toList = text.toList.take i ++ (s.toList ++ after) := by
        rw [begins, List.take_append_drop]
      refine ⟨.ofList (text.toList.take i), .ofList after, String.toList_inj.mp ?_, ?_, rfl⟩
      · simpa using split
      · rw [String.length_ofList, List.length_take, String.length_toList]
        omega
    · rintro ⟨before, after, rfl, rfl, rfl⟩
      refine ⟨⟨after.toList, ?_⟩, ?_, rfl⟩
      · simp [← String.length_toList]
      · simp only [String.length_append]
        omega
  append s t := by
    change String.ofList (quote (s ++ t).toList) = String.ofList _ ++ String.ofList _
    rw [String.toList_append, quote_append, String.ofList_append]
  colons := by decide

theorem engine_anchors : engine.Anchors ReadSpans where
  accepted s := ⟨_, compile_engine (read_anchored_escape s)⟩
  spans_iff s text i j := by
    have anchored : (Draft.inOrder (.start :: s.toList.map letterDraft)).pattern =
        .seq .start (literal s.toList) := congrArg (Pattern.seq .start) (pattern_letters s.toList)
    rw [readSpans_iff (read_anchored_escape s), anchored, spans_seq,
      readSpans_iff (read_escape s), pattern_letters]
    simp only [spans_start]
    constructor
    · rintro ⟨_, ⟨rfl, rfl⟩, h⟩
      exact ⟨rfl, h⟩
    · rintro ⟨rfl, h⟩
      exact ⟨0, ⟨rfl, rfl⟩, h⟩

end Pattern

end Packrat
