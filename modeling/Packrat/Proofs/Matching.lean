import Packrat.Characters
import Packrat.Proofs.Parsing

/-!
# Where parsers match

A parser without state matches at a cursor or fails there. Each combinator has an equivalence for
its matches and one for its failures, in terms of those of its parts, so that what a grammar accepts
can be read off its rules.

* `Cursor.Over`: one cursor lies behind another, with these tokens between them.
* `Parser.Gives`, `Parser.Fails`: what comes of a parser, whatever calls it makes.
* `Parser.gives_repeated_satisfying`: a repeated test takes the longest run of tokens that pass.
* `Parser.ok_phrase`, `Parser.ok_enclosedBy`: parts with blanks before each.
-/

namespace Packrat

variable {τ ρ : Type}

/-! ## Tokens between cursors -/

theorem takeWhile_eq_nil_of_head {test : τ → Bool} {x : List τ}
    (h : ∀ a ∈ x.head?, test a = false) : x.takeWhile test = [] := by
  cases x with
  | nil => rfl
  | cons a x => simp [h a rfl]

theorem head_of_takeWhile_eq_nil {test : τ → Bool} {x : List τ} (h : x.takeWhile test = []) :
    ∀ a ∈ x.head?, test a = false := by
  cases x with
  | nil => exact nofun
  | cons a x =>
    rintro _ ⟨⟩
    cases passes : test a with
    | false => rfl
    | true => simp [passes] at h

/-- Before a token that does not pass, a run of passing tokens ends. -/
theorem takeWhile_append_of_head {test : τ → Bool} {x y : List τ} (hx : ∀ a ∈ x, test a = true)
    (hy : ∀ a ∈ y.head?, test a = false) : (x ++ y).takeWhile test = x := by
  rw [List.takeWhile_append_of_pos hx, takeWhile_eq_nil_of_head hy, List.append_nil]

namespace Cursor

/-- The cursor `d` lies behind `c`, and the tokens between them are `x`. -/
structure Over (c : Cursor τ) (x : List τ) (d : Cursor τ) : Prop where
  stop : d = ⟨c.buffer, c.offset + x.length⟩
  tokens : c.remaining = x ++ d.remaining

theorem over_of_remaining {c : Cursor τ} {x y : List τ} (h : c.remaining = x ++ y) :
    c.Over x ⟨c.buffer, c.offset + x.length⟩ := by
  refine ⟨rfl, ?_⟩
  have hdrop : c.remaining.drop x.length = y := by rw [h, List.drop_left]
  rw [remaining, List.drop_drop] at hdrop
  change _ = x ++ c.buffer.tokens.toList.drop (c.offset + x.length)
  rw [hdrop, h]

theorem over_advance {c : Cursor τ} {a : τ} (h : c.remaining.head? = some a) :
    c.Over [a] c.advance := by
  rw [head?_remaining] at h
  refine ⟨?_, remaining_of_read? h⟩
  have hoffset := offset_advance_of_read? h
  have hbuffer := c.buffer_advance
  generalize c.advance = d at hoffset hbuffer ⊢
  cases d
  simp_all

namespace Over

variable {c d e : Cursor τ} {x y : List τ}

theorem append (h : c.Over x d) (h' : d.Over y e) : c.Over (x ++ y) e := by
  refine ⟨?_, ?_⟩
  · rw [h'.stop, h.stop]
    simp [Nat.add_assoc]
  · rw [h.tokens, h'.tokens, List.append_assoc]

theorem buffer_eq (h : c.Over x d) : d.buffer = c.buffer := by rw [h.stop]

theorem remaining_eq (h : c.Over x d) (hc : c.remaining = x ++ y) : d.remaining = y :=
  List.append_cancel_left (h.tokens.symm.trans hc)

theorem of_append (h : c.Over (x ++ y) e) (h' : c.Over x d) : d.Over y e := by
  refine ⟨?_, h'.remaining_eq (by rw [h.tokens, List.append_assoc])⟩
  rw [h.stop, h'.stop, List.length_append, Nat.add_assoc]

theorem length_eq (h : c.Over x d) : c.remaining.length = x.length + d.remaining.length := by
  rw [h.tokens, List.length_append]

/-- What lies between the two cursors is what a parser that went from one to the other consumed. At
the end of input that is nothing. -/
theorem consumed_eq (h : c.Over x d) : c.consumed d = x := by
  obtain rfl := h.stop
  have hshares : c.sharesBuffer ⟨c.buffer, c.offset + x.length⟩ = true :=
    sharesBuffer_of_eq rfl
  by_cases hend : c.atEnd = true
  · have hnil : x ++ _ = [] := h.tokens.symm.trans (remaining_of_atEnd hend)
    have hx : x = [] := (List.append_eq_nil_iff.mp hnil).1
    simp [consumed, sliceTo?, hend, hx]
  · have forward : ¬ c.offset + x.length < c.offset := by omega
    have between : (c.buffer.tokens.toList.drop c.offset).take x.length = x := by
      change c.remaining.take x.length = x
      rw [h.tokens, List.take_left]
    simpa [consumed, sliceTo?, hend, hshares, forward] using between

end Over

theorem over_iff {c d : Cursor τ} {x : List τ} :
    c.Over x d ↔ x <+: c.remaining ∧ d = ⟨c.buffer, c.offset + x.length⟩ := by
  constructor
  · intro h
    exact ⟨⟨d.remaining, h.tokens.symm⟩, h.stop⟩
  · rintro ⟨⟨y, hy⟩, rfl⟩
    exact over_of_remaining hy.symm

theorem over_nil_iff {c d : Cursor τ} : c.Over [] d ↔ d = c := by
  rw [over_iff]
  exact ⟨fun h => h.2, fun h => ⟨List.nil_prefix, h⟩⟩

theorem over_cons_iff {c d : Cursor τ} {a : τ} {x : List τ} :
    c.Over (a :: x) d ↔ c.remaining.head? = some a ∧ c.advance.Over x d := by
  constructor
  · intro h
    have hhead : c.remaining.head? = some a := by rw [h.tokens]; rfl
    have first := over_advance hhead
    refine ⟨hhead, ?_, first.remaining_eq h.tokens⟩
    rw [h.stop, first.stop, List.length_cons, List.length_singleton, Nat.add_right_comm,
      Nat.add_assoc]
  · rintro ⟨hhead, h⟩
    exact (over_advance hhead).append h

/-- The cursor behind the longest run of tokens that pass a test. -/
def past (test : τ → Bool) (c : Cursor τ) : Cursor τ :=
  ⟨c.buffer, c.offset + (c.remaining.takeWhile test).length⟩

section

variable (test : τ → Bool) (c : Cursor τ)

theorem over_past : c.Over (c.remaining.takeWhile test) (c.past test) :=
  over_of_remaining List.takeWhile_append_dropWhile.symm

theorem remaining_past : (c.past test).remaining = c.remaining.dropWhile test :=
  (over_past test c).remaining_eq List.takeWhile_append_dropWhile.symm

theorem length_remaining_past : (c.past test).remaining.length ≤ c.remaining.length := by
  have hlength := (over_past test c).length_eq
  omega

end

theorem past_eq_of_head {test : τ → Bool} {c : Cursor τ}
    (h : ∀ a ∈ c.remaining.head?, test a = false) : c.past test = c := by
  rw [past, takeWhile_eq_nil_of_head h]
  rfl

@[simp] theorem past_past (test : τ → Bool) (c : Cursor τ) :
    (c.past test).past test = c.past test := by
  refine past_eq_of_head fun a ha => ?_
  have hnot := List.head?_dropWhile_not test c.remaining
  rw [← remaining_past, Option.mem_def.mp ha] at hnot
  exact hnot

theorem over_past_of_append {test : τ → Bool} {c : Cursor τ} {x y : List τ}
    (hc : c.remaining = x ++ y) (hx : ∀ a ∈ x, test a = true) (hy : ∀ a ∈ y.head?, test a = false) :
    c.remaining.takeWhile test = x ∧ c.Over x (c.past test) ∧ (c.past test).remaining = y := by
  have htake : c.remaining.takeWhile test = x := by rw [hc, takeWhile_append_of_head hx hy]
  have hover : c.Over x (c.past test) := htake ▸ over_past test c
  exact ⟨htake, hover, hover.remaining_eq hc⟩

end Cursor

/-! ## Matches and failures of nodes -/

/-- The adapter lets matches pass, and changes no more than the cause of a failure. -/
def Adapter.Passes (a : Adapter τ) : Prop :=
  (∀ c m, a.apply c (.ok m) = .ok m) ∧ ∀ c f, ∃ f', a.apply c (.error f) = .error f'

theorem Adapter.within_passes (action : String) : (Adapter.within action : Adapter τ).Passes :=
  ⟨fun _ _ => rfl, fun _ f => ⟨f.within action, rfl⟩⟩

theorem Adapter.otherwise_passes (cause : Cause τ) : (Adapter.otherwise cause).Passes :=
  ⟨fun _ _ => rfl, fun c _ => ⟨⟨c.offset, cause⟩, rfl⟩⟩

namespace Parser

/-- What comes of the parser at a cursor, whatever calls it makes. -/
def Gives (grammar : Grammar τ ρ) (p : Parser τ ρ) (c : Cursor τ) (r : Result τ) : Prop :=
  ∃ ks, p.Parses grammar c r ks

/-- The parser fails at a cursor, for whatever cause. -/
def Fails (grammar : Grammar τ ρ) (p : Parser τ ρ) (c : Cursor τ) : Prop :=
  ∃ f, p.Gives grammar c (.error f)

section Nodes

variable {grammar : Grammar τ ρ} {p q : Parser τ ρ} {c d : Cursor τ} {v : Value τ} {r r' : Result τ}

theorem Gives.unique (h : p.Gives grammar c r) (h' : p.Gives grammar c r') : r = r' := by
  obtain ⟨ks, h⟩ := h
  obtain ⟨ks', h'⟩ := h'
  exact (h.unique h').1

theorem Fails.not_ok {m : Match τ} (h : p.Fails grammar c) : ¬ p.Gives grammar c (.ok m) := by
  obtain ⟨f, h⟩ := h
  intro h'
  cases h.unique h'

theorem gives_leaf {l : Leaf τ} : Gives grammar (.leaf l) c r ↔ l.run c = r := by
  constructor
  · rintro ⟨ks, h⟩
    cases h with
    | leaf => rfl
    | unrolled hq _ => cases hq
  · rintro rfl
    exact ⟨[], .leaf⟩

theorem gives_adapt {a : Adapter τ} :
    Gives grammar (.adapt a p) c r ↔ ∃ r', p.Gives grammar c r' ∧ a.apply c r' = r := by
  constructor
  · rintro ⟨ks, h⟩
    cases h with
    | adapt inner => exact ⟨_, ⟨ks, inner⟩, rfl⟩
    | unrolled hq _ => cases hq
  · rintro ⟨r', ⟨ks, h⟩, rfl⟩
    exact ⟨ks, .adapt h⟩

theorem gives_unrolled (hq : p.unrolled? grammar = some q) :
    p.Gives grammar c r ↔ q.Gives grammar c r := by
  constructor
  · rintro ⟨ks, h⟩
    cases h with
    | unrolled hq' inner =>
      cases hq.symm.trans hq'
      exact ⟨ks, inner⟩
    | _ => cases hq
  · rintro ⟨ks, h⟩
    exact ⟨ks, .unrolled hq h⟩

theorem gives_site {name : String} {report : Report} :
    Gives grammar (.site name report p) c r ↔ p.Gives grammar c r := by
  constructor
  · rintro ⟨ks, h⟩
    cases h with
    | site inner => exact ⟨ks, inner⟩
    | unrolled hq _ => cases hq
  · rintro ⟨ks, h⟩
    exact ⟨ks, .site h⟩

theorem gives_memo {table : Memo} :
    Gives grammar (.memo table p) c r ↔ p.Gives grammar c r := by
  constructor
  · rintro ⟨ks, h⟩
    cases h with
    | memoAtEnd _ inner => exact ⟨ks, inner⟩
    | memo _ inner => exact ⟨_, inner⟩
    | unrolled hq _ => cases hq
  · rintro ⟨ks, h⟩
    cases hplace : c.place? with
    | none => exact ⟨ks, .memoAtEnd hplace h⟩
    | some place => exact ⟨_, .memo hplace h⟩

theorem ok_andThen {combine : Value τ → Value τ → Value τ} :
    Gives grammar (.andThen p q combine) c (.ok ⟨d, v⟩) ↔
      ∃ m w, p.Gives grammar c (.ok m) ∧ q.Gives grammar m.stop (.ok ⟨d, w⟩) ∧
        combine m.value w = v := by
  constructor
  · rintro ⟨ks, h⟩
    generalize hr : (Except.ok ⟨d, v⟩ : Result τ) = r at h
    cases h with
    | andThenFail => cases hr
    | @andThen _ _ _ _ m _ r' _ first second =>
      cases r' with
      | error f => cases hr
      | ok n =>
        cases hr
        exact ⟨m, n.value, ⟨_, first⟩, ⟨_, second⟩, rfl⟩
    | unrolled hq _ => cases hq
  · rintro ⟨m, w, ⟨ks, first⟩, ⟨ks', second⟩, rfl⟩
    exact ⟨_, .andThen first second⟩

theorem error_andThen {combine : Value τ → Value τ → Value τ} {f : Failure τ} :
    Gives grammar (.andThen p q combine) c (.error f) ↔
      p.Gives grammar c (.error f) ∨
        ∃ m, p.Gives grammar c (.ok m) ∧ q.Gives grammar m.stop (.error f) := by
  constructor
  · rintro ⟨ks, h⟩
    generalize hr : (Except.error f : Result τ) = r at h
    cases h with
    | andThenFail first =>
      cases hr
      exact .inl ⟨_, first⟩
    | @andThen _ _ _ _ m _ r' _ first second =>
      cases r' with
      | error f =>
        cases hr
        exact .inr ⟨m, ⟨_, first⟩, _, second⟩
      | ok n => cases hr
    | unrolled hq _ => cases hq
  · rintro (⟨ks, first⟩ | ⟨m, ⟨ks, first⟩, ks', second⟩)
    · exact ⟨ks, .andThenFail first⟩
    · exact ⟨_, .andThen first second⟩

theorem fails_andThen {combine : Value τ → Value τ → Value τ} :
    Fails grammar (.andThen p q combine) c ↔
      p.Fails grammar c ∨ ∃ m, p.Gives grammar c (.ok m) ∧ q.Fails grammar m.stop := by
  simp only [Fails, error_andThen, exists_or]
  refine or_congr_right ?_
  rw [exists_comm]
  exact exists_congr fun m => exists_and_left

theorem gives_orElse :
    Gives grammar (.orElse p q) c r ↔
      (∃ m, r = .ok m ∧ p.Gives grammar c r) ∨ p.Fails grammar c ∧ q.Gives grammar c r := by
  constructor
  · rintro ⟨ks, h⟩
    cases h with
    | orElseFirst first => exact .inl ⟨_, rfl, ks, first⟩
    | orElse first second => exact .inr ⟨⟨_, _, first⟩, _, second⟩
    | unrolled hq _ => cases hq
  · rintro (⟨m, rfl, ks, first⟩ | ⟨⟨f, ks, first⟩, ks', second⟩)
    · exact ⟨ks, .orElseFirst first⟩
    · exact ⟨_, .orElse first second⟩

theorem ok_orElse :
    Gives grammar (.orElse p q) c (.ok ⟨d, v⟩) ↔ p.Gives grammar c (.ok ⟨d, v⟩) ∨
      p.Fails grammar c ∧ q.Gives grammar c (.ok ⟨d, v⟩) := by
  simp [gives_orElse]

theorem fails_orElse :
    Fails grammar (.orElse p q) c ↔ p.Fails grammar c ∧ q.Fails grammar c := by
  simp [Fails, gives_orElse]

theorem fails_site {name : String} {report : Report} :
    Fails grammar (.site name report p) c ↔ p.Fails grammar c :=
  exists_congr fun _ => gives_site

/-! ## Matches and failures of combinators -/

theorem ok_adapt_of_passes {a : Adapter τ} (ha : a.Passes) :
    Gives grammar (.adapt a p) c (.ok ⟨d, v⟩) ↔ p.Gives grammar c (.ok ⟨d, v⟩) := by
  rw [gives_adapt]
  constructor
  · rintro ⟨r, h, hr⟩
    cases r with
    | ok m =>
      rw [ha.1] at hr
      exact hr ▸ h
    | error f =>
      obtain ⟨f', hf'⟩ := ha.2 c f
      cases hf'.symm.trans hr
  · intro h
    exact ⟨_, h, ha.1 _ _⟩

theorem fails_adapt_of_passes {a : Adapter τ} (ha : a.Passes) :
    Fails grammar (.adapt a p) c ↔ p.Fails grammar c := by
  simp only [Fails, gives_adapt]
  constructor
  · rintro ⟨f, r, h, hr⟩
    cases r with
    | ok m => cases (ha.1 c m).symm.trans hr
    | error f' => exact ⟨f', h⟩
  · rintro ⟨f, h⟩
    obtain ⟨f', hf'⟩ := ha.2 c f
    exact ⟨f', _, h, hf'⟩

section

variable {test : τ → Bool} {atEnd : Cause τ} {refusal : τ → Cause τ}

theorem ok_token :
    Gives grammar (.leaf (.token test atEnd refusal)) c (.ok ⟨d, v⟩) ↔
      ∃ a, c.remaining.head? = some a ∧ test a = true ∧ c.advance = d ∧ .token a = v := by
  rw [gives_leaf, c.head?_remaining, Leaf.run]
  cases c.read? with
  | none => simp
  | some a => by_cases ha : test a = true <;> simp [ha]

theorem fails_token :
    Fails grammar (.leaf (.token test atEnd refusal)) c ↔
      ∀ a ∈ c.remaining.head?, test a = false := by
  simp only [Fails, gives_leaf, c.head?_remaining, Leaf.run]
  cases c.read? with
  | none => simp
  | some a => by_cases ha : test a = true <;> simp [ha]

end

theorem ok_map {f : Value τ → Value τ} :
    Gives grammar (.adapt (.map f) p) c (.ok ⟨d, v⟩) ↔
      ∃ w, p.Gives grammar c (.ok ⟨d, w⟩) ∧ f w = v := by
  rw [gives_adapt]
  constructor
  · rintro ⟨r, h, hr⟩
    cases r with
    | error f => cases hr
    | ok m =>
      cases hr
      exact ⟨m.value, h, rfl⟩
  · rintro ⟨w, h, rfl⟩
    exact ⟨_, h, rfl⟩

theorem fails_map {f : Value τ → Value τ} :
    Fails grammar (.adapt (.map f) p) c ↔ p.Fails grammar c := by
  simp only [Fails, gives_adapt]
  constructor
  · rintro ⟨f, r, h, hr⟩
    cases r with
    | ok m => cases hr
    | error f' => exact ⟨f', h⟩
  · rintro ⟨f, h⟩
    exact ⟨f, _, h, rfl⟩

theorem ok_mapExcept {f : Value τ → Except String (Value τ)} :
    Gives grammar (.mapExcept f p) c (.ok ⟨d, v⟩) ↔
      ∃ w, p.Gives grammar c (.ok ⟨d, w⟩) ∧ f w = .ok v := by
  rw [mapExcept, builtIn, gives_site, gives_adapt]
  constructor
  · rintro ⟨r, h, hr⟩
    cases r with
    | error f => cases hr
    | ok m =>
      cases hf : f m.value <;> simp only [Adapter.apply, hf] at hr <;> cases hr
      exact ⟨m.value, h, hf⟩
  · rintro ⟨w, h, hw⟩
    refine ⟨_, h, ?_⟩
    simp only [Adapter.apply, hw]
    rfl

theorem fails_mapExcept_of_fails {f : Value τ → Except String (Value τ)} (h : p.Fails grammar c) :
    Fails grammar (.mapExcept f p) c := by
  obtain ⟨e, h⟩ := h
  exact ⟨e, gives_site.mpr (gives_adapt.mpr ⟨_, h, rfl⟩)⟩

theorem ok_verified {check : Value τ → Bool} : Gives grammar (.verified check p) c (.ok ⟨d, v⟩) ↔
    p.Gives grammar c (.ok ⟨d, v⟩) ∧ check v = true := by
  rw [verified, builtIn, gives_site, gives_adapt]
  constructor
  · rintro ⟨r, h, hr⟩
    cases r with
    | error f => cases hr
    | ok m =>
      cases hcheck : check m.value <;> simp only [Adapter.apply, hcheck] at hr <;> cases hr
      exact ⟨h, hcheck⟩
  · rintro ⟨h, hcheck⟩
    exact ⟨_, h, by simp [Adapter.apply, hcheck]⟩

theorem ok_ignored : Gives grammar (.ignored p) c (.ok ⟨d, v⟩) ↔
    ∃ w, p.Gives grammar c (.ok ⟨d, w⟩) ∧ v = .unit := by
  rw [ignored, builtIn, gives_site, ok_map]
  simp only [eq_comm]

section

variable {s : Parser τ ρ}

theorem ok_choice :
    Gives grammar (.choice (p, q)) c (.ok ⟨d, v⟩) ↔ p.Gives grammar c (.ok ⟨d, v⟩) ∨
      p.Fails grammar c ∧ q.Gives grammar c (.ok ⟨d, v⟩) := by
  rw [choice, builtIn, gives_site, ok_adapt_of_passes (Adapter.otherwise_passes _)]
  exact ok_orElse

end

theorem not_fails_delimited : ¬ Fails grammar (.delimited p q) c := by
  rintro ⟨f, h⟩
  rw [gives_unrolled rfl] at h
  obtain ⟨g, hg⟩ := (fails_orElse.mp ⟨f, h⟩).2
  cases gives_leaf.mp hg

/-- A round takes a delimiter and an item. The first round that fails is given back whole. -/
theorem ok_delimited : Gives grammar (.delimited p q) c (.ok ⟨d, v⟩) ↔
    (∃ between first rest, p.Gives grammar c (.ok between) ∧
      q.Gives grammar between.stop (.ok first) ∧
      Gives grammar (.delimited p q) first.stop (.ok ⟨d, rest⟩) ∧ first.value.cons rest = v) ∨
    (p.Fails grammar c ∨ ∃ between, p.Gives grammar c (.ok between) ∧
      q.Fails grammar between.stop) ∧ d = c ∧ v = .list [] := by
  have stop : Gives grammar (.leaf (.succeed (.list []))) c (.ok ⟨d, v⟩) ↔
      d = c ∧ v = .list [] := by
    rw [gives_leaf, Leaf.run, Except.ok.injEq, Match.mk.injEq, eq_comm, eq_comm (a := v)]
  rw [gives_unrolled rfl, ok_orElse, ok_andThen, fails_andThen, stop]
  simp only [fails_andThen, not_fails_delimited, and_false, exists_false, or_false]
  refine or_congr_left ?_
  constructor
  · rintro ⟨between, _, hp, hround, rfl⟩
    obtain ⟨first, rest, hq, hrest, rfl⟩ := ok_andThen.mp hround
    exact ⟨between, first, rest, hp, hq, hrest, rfl⟩
  · rintro ⟨between, first, rest, hp, hq, hrest, rfl⟩
    exact ⟨between, _, hp, ok_andThen.mpr ⟨first, rest, hq, hrest, rfl⟩, rfl⟩

theorem ok_sepBy1 : Gives grammar (.sepBy1 p q) c (.ok ⟨d, v⟩) ↔
    ∃ first rest, q.Gives grammar c (.ok first) ∧
      Gives grammar (.delimited p q) first.stop (.ok ⟨d, rest⟩) ∧ first.value.cons rest = v := by
  rw [sepBy1, builtIn, gives_site, ok_andThen]
  have first {m : Match τ} : Gives grammar (.adapt (.within "separated_list1") q) c (.ok m) ↔
      q.Gives grammar c (.ok m) := ok_adapt_of_passes (Adapter.within_passes _)
  simp only [first]

theorem ok_keepLeft : Gives grammar (.keepLeft p q) c (.ok ⟨d, v⟩) ↔
    ∃ e w, p.Gives grammar c (.ok ⟨e, v⟩) ∧ q.Gives grammar e (.ok ⟨d, w⟩) := by
  rw [keepLeft, builtIn, gives_site, ok_andThen]
  constructor
  · rintro ⟨⟨e, v⟩, w, hp, hq, rfl⟩
    exact ⟨e, w, hp, hq⟩
  · rintro ⟨e, w, hp, hq⟩
    exact ⟨⟨e, v⟩, w, hp, hq, rfl⟩

/-- Nothing in front of a parser makes no difference to what it gives. -/
theorem gives_skipThen_nothing {v : Value τ} :
    (skipThen (nothing v) p).Gives grammar c r ↔ p.Gives grammar c r := by
  have first : (nothing v).Gives grammar c (.ok ⟨c, v⟩) := gives_leaf.mpr rfl
  cases r with
  | ok m =>
    constructor
    · intro h
      obtain ⟨n, w, hn, hp, rfl⟩ := ok_andThen.mp h
      cases hn.unique first
      exact hp
    · intro hp
      exact ok_andThen.mpr ⟨_, _, first, hp, rfl⟩
  | error f =>
    constructor
    · intro h
      rcases error_andThen.mp h with hn | ⟨n, hn, hp⟩
      · cases hn.unique first
      · cases hn.unique first
        exact hp
    · intro hp
      exact error_andThen.mpr (.inr ⟨_, first, hp⟩)

section

variable {ps : List (Parser τ ρ)} {m : Match τ} {f : Failure τ}

theorem gives_each_nil :
    (Parts.eachOfList (nothing .unit) []).Gives grammar c r ↔ r = .ok ⟨c, .list []⟩ :=
  gives_leaf.trans eq_comm

theorem ok_each_cons : (Parts.eachOfList (nothing .unit) (p :: ps)).Gives grammar c (.ok m) ↔
    ∃ first rest, p.Gives grammar c (.ok first) ∧
      (Parts.eachOfList (nothing .unit) ps).Gives grammar first.stop (.ok rest) ∧
      m = ⟨rest.stop, first.value.cons rest.value⟩ := by
  obtain ⟨d, v⟩ := m
  rw [Parts.eachOfList, ok_andThen]
  simp only [gives_skipThen_nothing]
  constructor
  · rintro ⟨first, w, hp, hps, rfl⟩
    exact ⟨first, ⟨d, w⟩, hp, hps, rfl⟩
  · rintro ⟨first, rest, hp, hps, hm⟩
    cases hm
    exact ⟨first, rest.value, hp, hps, rfl⟩

theorem error_each_cons : (Parts.eachOfList (nothing .unit) (p :: ps)).Gives grammar c (.error f) ↔
    p.Gives grammar c (.error f) ∨ ∃ first, p.Gives grammar c (.ok first) ∧
      (Parts.eachOfList (nothing .unit) ps).Gives grammar first.stop (.error f) := by
  rw [Parts.eachOfList, error_andThen]
  simp only [gives_skipThen_nothing]

end

theorem ok_endOfInput : Gives grammar .endOfInput c (.ok ⟨d, v⟩) ↔
    c.remaining = [] ∧ c = d ∧ .unit = v := by
  have atEnd : c.atEnd = true ↔ c.remaining = [] := by
    rw [← List.length_eq_zero_iff, Cursor.length_remaining, Cursor.atEnd, decide_eq_true_eq]
    omega
  rw [endOfInput, builtIn, gives_site, gives_leaf, Leaf.run]
  by_cases hc : c.remaining = []
  · simp [atEnd.mpr hc, hc]
  · simp [mt atEnd.mp hc, hc]

/-! ## Runs of tokens that pass a test -/

section

variable {test : τ → Bool}

theorem ok_satisfying :
    Gives grammar (.satisfying test) c (.ok ⟨d, v⟩) ↔
      ∃ a, c.remaining.head? = some a ∧ test a = true ∧ c.advance = d ∧ .token a = v := by
  rw [satisfying, builtIn, gives_site, ok_token]

theorem fails_satisfying :
    Fails grammar (.satisfying test) c ↔ ∀ a ∈ c.remaining.head?, test a = false := by
  rw [satisfying, builtIn, fails_site, fails_token]

theorem not_fails_repeated : ¬ Fails grammar (.repeated none p) c := by
  rintro ⟨f, h⟩
  rw [gives_unrolled rfl] at h
  obtain ⟨g, hg⟩ := (fails_orElse.mp ⟨f, h⟩).2
  cases gives_leaf.mp hg

theorem ok_repeated_satisfying : Gives grammar (.repeated none (.satisfying test)) c
    (.ok ⟨c.past test, .tokens (c.remaining.takeWhile test)⟩) := by
  induction hc : c.remaining generalizing c with
  | nil =>
    have hstop : c.past test = c := by simp [Cursor.past, hc]
    rw [gives_unrolled rfl, ok_orElse, fails_andThen, fails_satisfying]
    exact .inr ⟨.inl (by simp [hc]), gives_leaf.mpr (by rw [hstop]; rfl)⟩
  | cons a rest ih =>
    have hhead : c.remaining.head? = some a := by rw [hc, List.head?_cons]
    rw [gives_unrolled rfl, ok_orElse]
    by_cases ha : test a = true
    · have reach : c.Over [a] c.advance := Cursor.over_advance hhead
      have hrest : c.advance.remaining = rest := reach.remaining_eq hc
      have hstop : c.advance.past test = c.past test := by
        have whole := reach.append (c.advance.over_past test)
        have htake : c.remaining.takeWhile test = [a] ++ c.advance.remaining.takeWhile test := by
          simp [hc, hrest, ha]
        rw [whole.stop, Cursor.past, htake]
      have later := ih hrest
      rw [hstop] at later
      refine .inl (ok_andThen.mpr ⟨⟨c.advance, .token a⟩, _, ?_, later, ?_⟩)
      · exact ok_satisfying.mpr ⟨a, hhead, ha, rfl, rfl⟩
      · simp [Value.tokens, Value.cons, Value.items, ha]
    · have hstop : c.past test = c := by simp [Cursor.past, hc, ha]
      rw [fails_andThen, fails_satisfying]
      refine .inr ⟨.inl (by simp [hc, ha]), gives_leaf.mpr ?_⟩
      rw [hstop]
      simp [Leaf.run, Value.tokens, ha]

/-- A repeated test takes the longest run of tokens that pass. -/
theorem gives_repeated_satisfying :
    Gives grammar (.repeated none (.satisfying test)) c r ↔
      r = .ok ⟨c.past test, .tokens (c.remaining.takeWhile test)⟩ := by
  constructor
  · intro h
    exact h.unique ok_repeated_satisfying
  · rintro rfl
    exact ok_repeated_satisfying

/-- The first token decides whether the run is empty, and the rest of the run follows it. -/
theorem ok_many1_satisfying :
    Gives grammar (.many1 (.satisfying test)) c (.ok ⟨d, v⟩) ↔ c.remaining.takeWhile test ≠ [] ∧
      d = c.past test ∧ v = .tokens (c.remaining.takeWhile test) := by
  rw [many1, builtIn, gives_site, ok_andThen]
  constructor
  · rintro ⟨m, w, hfirst, hrest, rfl⟩
    rw [ok_adapt_of_passes (Adapter.within_passes _)] at hfirst
    obtain ⟨a, hhead, ha, hstop, hvalue⟩ := ok_satisfying.mp hfirst
    -- the first token and the loop behind it are one round more of the loop
    have whole : Gives grammar (.repeated none (.satisfying test)) c
        (.ok ⟨d, m.value.cons w⟩) := by
      rw [gives_unrolled rfl, ok_orElse]
      exact .inl (ok_andThen.mpr ⟨m, w, hfirst, hrest, rfl⟩)
    have same := gives_repeated_satisfying.mp whole
    rw [Except.ok.injEq, Match.mk.injEq] at same
    refine ⟨?_, same⟩
    obtain ⟨rest, hc⟩ := List.head?_eq_some_iff.mp hhead
    simp [hc, ha]
  · rintro ⟨some, rfl, rfl⟩
    have whole : Gives grammar (.repeated none (.satisfying test)) c _ := ok_repeated_satisfying
    rw [gives_unrolled rfl, ok_orElse] at whole
    rcases whole with h | ⟨-, h⟩
    · obtain ⟨m, w, hfirst, hrest, hvalue⟩ := ok_andThen.mp h
      exact ⟨m, w, (ok_adapt_of_passes (Adapter.within_passes _)).mpr hfirst, hrest, hvalue⟩
    · have hempty := gives_leaf.mp h
      simp only [Leaf.run, Except.ok.injEq, Match.mk.injEq] at hempty
      exact absurd (List.map_eq_nil_iff.mp (Value.list.inj hempty.2).symm) some

theorem fails_many1_satisfying :
    Fails grammar (.many1 (.satisfying test)) c ↔ c.remaining.takeWhile test = [] := by
  rw [many1, builtIn, fails_site, fails_andThen, fails_adapt_of_passes (Adapter.within_passes _),
    fails_satisfying]
  cases hc : c.remaining with
  | nil => simp
  | cons a rest =>
    constructor
    · rintro (hhead | ⟨m, -, hfails⟩)
      · simp [hhead a rfl]
      · exact absurd hfails not_fails_repeated
    · intro hempty
      refine .inl ?_
      by_cases ha : test a = true
      · simp [ha] at hempty
      · simpa using ha

end

end Nodes

end Parser

/-! ## Parsers of characters -/

theorem Value.contents_tokens (ts : List Char) :
    Value.contents (ts.map Value.token) = String.ofList ts := by
  induction ts with
  | nil => rfl
  | cons t ts ih =>
    rw [List.map_cons, Value.contents, Value.content, ih]
    change String.singleton t ++ _ = _
    rw [String.singleton_eq_ofList, ← String.ofList_append, List.singleton_append]

theorem Value.joined_tokens (ts : List Char) :
    (Value.tokens ts).joined = .text (.ofList ts) := by
  rw [joined, tokens, items, contents_tokens]

/-- The cursor behind the spaces and tabs that come next. -/
def Cursor.pastBlanks (c : Cursor Char) : Cursor Char := c.past CharClass.space.contains

namespace Parser

section Characters

variable {grammar : Grammar Char ρ} {p q s : Parser Char ρ} {c d : Cursor Char} {v : Value Char}
  {r : Result Char} {cls : CharClass}

theorem gives_run0 : Gives grammar (.run0 cls) c r ↔
    r = .ok ⟨c.past cls.contains, .text (.ofList (c.remaining.takeWhile cls.contains))⟩ := by
  have matched : Gives grammar (.run0 cls) c
      (.ok ⟨c.past cls.contains, .text (.ofList (c.remaining.takeWhile cls.contains))⟩) := by
    rw [run0, named, gives_site, joined, map, builtIn, gives_site, ok_map]
    exact ⟨_, gives_site.mpr ok_repeated_satisfying, Value.joined_tokens _⟩
  constructor
  · intro h
    exact h.unique matched
  · rintro rfl
    exact matched

theorem ok_run1 : Gives grammar (.run1 cls) c (.ok ⟨d, v⟩) ↔
    c.remaining.takeWhile cls.contains ≠ [] ∧ d = c.past cls.contains ∧
      v = .text (.ofList (c.remaining.takeWhile cls.contains)) := by
  rw [run1, named, gives_site, joined, map, builtIn, gives_site, ok_map]
  simp only [ok_many1_satisfying]
  constructor
  · rintro ⟨w, ⟨some, rfl, rfl⟩, rfl⟩
    exact ⟨some, rfl, Value.joined_tokens _⟩
  · rintro ⟨some, rfl, rfl⟩
    exact ⟨_, ⟨some, rfl, rfl⟩, Value.joined_tokens _⟩

theorem ok_written : Gives grammar (.written p) c (.ok ⟨d, v⟩) ↔
    ∃ w, p.Gives grammar c (.ok ⟨d, w⟩) ∧ v = .text (.ofList (c.consumed d)) := by
  rw [written, map, builtIn, gives_site, ok_map]
  constructor
  · rintro ⟨_, h, rfl⟩
    obtain ⟨r, hp, hr⟩ := gives_adapt.mp (gives_site.mp h)
    cases r with
    | error f => cases hr
    | ok m =>
      cases hr
      exact ⟨m.value, hp, Value.joined_tokens _⟩
  · rintro ⟨w, hp, rfl⟩
    exact ⟨.tokens (c.consumed d), gives_site.mpr (gives_adapt.mpr ⟨_, hp, rfl⟩),
      Value.joined_tokens _⟩

theorem fails_run1 :
    Fails grammar (.run1 cls) c ↔ c.remaining.takeWhile cls.contains = [] := by
  rw [run1, named, fails_site, joined, map, builtIn, fails_site, fails_map, fails_many1_satisfying]

theorem ok_exactly {want : Char} :
    Gives grammar (.exactly want) c (.ok ⟨d, v⟩) ↔
      c.remaining.head? = some want ∧ d = c.advance ∧ v = .token want := by
  rw [exactly, builtIn, gives_site, ok_token]
  constructor
  · rintro ⟨a, hhead, ha, rfl, rfl⟩
    cases of_decide_eq_true ha
    exact ⟨hhead, rfl, rfl⟩
  · rintro ⟨hhead, rfl, rfl⟩
    exact ⟨want, hhead, decide_eq_true rfl, rfl, rfl⟩

theorem fails_exactly {want : Char} :
    Fails grammar (.exactly want) c ↔ c.remaining.head? ≠ some want := by
  rw [exactly, builtIn, fails_site, fails_token]
  constructor
  · intro h hhead
    simpa using h want hhead
  · intro h a hhead
    refine decide_eq_false fun ha => h ?_
    rw [← ha]
    exact hhead

theorem ok_charIn {allowed : String} :
    Gives grammar (.charIn allowed) c (.ok ⟨d, v⟩) ↔
      ∃ a ∈ allowed.toList, c.remaining.head? = some a ∧ d = c.advance ∧ v = .token a := by
  rw [charIn, oneOf, builtIn, gives_site, ok_token]
  constructor
  · rintro ⟨a, hhead, ha, rfl, rfl⟩
    exact ⟨a, of_decide_eq_true ha, hhead, rfl, rfl⟩
  · rintro ⟨a, ha, hhead, rfl, rfl⟩
    exact ⟨a, hhead, decide_eq_true ha, rfl, rfl⟩

theorem fails_charIn {allowed : String} :
    Fails grammar (.charIn allowed) c ↔ ∀ a ∈ c.remaining.head?, a ∉ allowed.toList := by
  rw [charIn, oneOf, builtIn, fails_site, fails_token]
  simp only [decide_eq_false_iff_not]

/-! ## Parts with blanks before each -/

theorem ok_blanks : Gives grammar blanks c
    (.ok ⟨c.pastBlanks, .text (.ofList (c.remaining.takeWhile CharClass.space.contains))⟩) :=
  gives_run0.mpr rfl

theorem ok_afterBlanks : Gives grammar (skipThen blanks p) c (.ok ⟨d, v⟩) ↔
    p.Gives grammar c.pastBlanks (.ok ⟨d, v⟩) := by
  rw [skipThen, ok_andThen]
  constructor
  · rintro ⟨m, w, hblanks, hp, rfl⟩
    cases hblanks.unique ok_blanks
    exact hp
  · intro hp
    exact ⟨_, _, ok_blanks, hp, rfl⟩

theorem ok_keepRight_blanks : Gives grammar (.keepRight blanks p) c (.ok ⟨d, v⟩) ↔
    p.Gives grammar c.pastBlanks (.ok ⟨d, v⟩) :=
  gives_site.trans ok_afterBlanks

theorem fails_afterBlanks :
    Fails grammar (skipThen blanks p) c ↔ p.Fails grammar c.pastBlanks := by
  rw [skipThen, fails_andThen]
  constructor
  · rintro (hblanks | ⟨m, hblanks, hp⟩)
    · exact absurd ok_blanks hblanks.not_ok
    · cases hblanks.unique ok_blanks
      exact hp
  · intro hp
    exact .inr ⟨_, ok_blanks, hp⟩

theorem ok_phrase : Gives grammar (.phrase (p, q, s)) c (.ok ⟨d, v⟩) ↔
    ∃ c₁ c₂ u w x, p.Gives grammar c.pastBlanks (.ok ⟨c₁, u⟩) ∧
      q.Gives grammar c₁.pastBlanks (.ok ⟨c₂, w⟩) ∧
      s.Gives grammar c₂.pastBlanks (.ok ⟨d, x⟩) ∧ v = .list [u, w, x] := by
  change Gives grammar (.andThen (skipThen blanks p) (.andThen (skipThen blanks q)
    (.andThen (skipThen blanks s) (nothing (.list [])) .cons) .cons) .cons) c _ ↔ _
  simp only [ok_andThen]
  constructor
  · rintro ⟨⟨c₁, u⟩, _, hp, ⟨⟨c₂, w⟩, _, hq, ⟨⟨c₃, x⟩, _, hs, hend, rfl⟩, rfl⟩, rfl⟩
    cases gives_leaf.mp hend
    exact ⟨c₁, c₂, u, w, x, ok_afterBlanks.mp hp, ok_afterBlanks.mp hq, ok_afterBlanks.mp hs, rfl⟩
  · rintro ⟨c₁, c₂, u, w, x, hp, hq, hs, rfl⟩
    exact ⟨⟨c₁, u⟩, _, ok_afterBlanks.mpr hp, ⟨⟨c₂, w⟩, _, ok_afterBlanks.mpr hq,
      ⟨⟨d, x⟩, _, ok_afterBlanks.mpr hs, gives_leaf.mpr rfl, rfl⟩, rfl⟩, rfl⟩

theorem fails_phrase : Fails grammar (.phrase (p, q, s)) c ↔
    p.Fails grammar c.pastBlanks ∨ ∃ m, p.Gives grammar c.pastBlanks (.ok m) ∧
      (q.Fails grammar m.stop.pastBlanks ∨ ∃ n, q.Gives grammar m.stop.pastBlanks (.ok n) ∧
        s.Fails grammar n.stop.pastBlanks) := by
  change Fails grammar (.andThen (skipThen blanks p) (.andThen (skipThen blanks q)
    (.andThen (skipThen blanks s) (nothing (.list [])) .cons) .cons) .cons) c ↔ _
  have never : ∀ e, ¬ Fails grammar (nothing (.list [])) e := by
    rintro e ⟨f, h⟩
    cases gives_leaf.mp h
  have ok : ∀ {p : Parser Char ρ} {e : Cursor Char} {m : Match Char},
      Gives grammar (skipThen blanks p) e (.ok m) ↔ p.Gives grammar e.pastBlanks (.ok m) :=
    ok_afterBlanks
  simp only [fails_andThen, fails_afterBlanks, ok, never, and_false, exists_false, or_false]

theorem ok_enclosedBy {opening closing : Char} :
    Gives grammar (.enclosedBy opening closing p) c (.ok ⟨d, v⟩) ↔
      ∃ e, c.pastBlanks.remaining.head? = some opening ∧
        p.Gives grammar c.pastBlanks.advance.pastBlanks (.ok ⟨e, v⟩) ∧
        e.pastBlanks.remaining.head? = some closing ∧ d = e.pastBlanks.advance := by
  rw [enclosedBy, enclosed, between, builtIn, gives_site, ok_andThen]
  constructor
  · rintro ⟨⟨e, v⟩, w, hinside, hclosing, rfl⟩
    obtain ⟨⟨c₁, u⟩, _, hopening, hp, rfl⟩ := ok_andThen.mp hinside
    rw [ok_keepRight_blanks] at hopening hp hclosing
    obtain ⟨hhead, rfl, -⟩ := ok_exactly.mp hopening
    obtain ⟨hhead', rfl, -⟩ := ok_exactly.mp hclosing
    exact ⟨e, hhead, hp, hhead', rfl⟩
  · rintro ⟨e, hhead, hp, hhead', rfl⟩
    have hopening : Gives grammar (keepRight blanks (exactly opening)) c
        (.ok ⟨c.pastBlanks.advance, .token opening⟩) :=
      ok_keepRight_blanks.mpr (ok_exactly.mpr ⟨hhead, rfl, rfl⟩)
    have hmiddle : Gives grammar (keepRight blanks p) c.pastBlanks.advance (.ok ⟨e, v⟩) :=
      ok_keepRight_blanks.mpr hp
    have hclosing : Gives grammar (keepRight blanks (exactly closing)) e
        (.ok ⟨e.pastBlanks.advance, .token closing⟩) :=
      ok_keepRight_blanks.mpr (ok_exactly.mpr ⟨hhead', rfl, rfl⟩)
    exact ⟨_, _, ok_andThen.mpr ⟨_, _, hopening, hmiddle, rfl⟩, hclosing, rfl⟩

theorem fails_enclosedBy_of_head {opening closing : Char}
    (h : c.pastBlanks.remaining.head? ≠ some opening) :
    Fails grammar (.enclosedBy opening closing p) c := by
  rw [enclosedBy, enclosed, between, builtIn, fails_site, fails_andThen, skipThen, fails_andThen,
    keepRight, builtIn, fails_site, fails_afterBlanks, fails_exactly]
  exact .inl (.inl h)

end Characters

end Parser

end Packrat
