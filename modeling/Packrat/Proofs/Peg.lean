import Packrat.Proofs.Bounds

/-!
# Parsing expression grammars

Parsing expressions, with the relation between an expression, an input and what the expression
derives there: the tokens that it matches at the front of the input, or failure. A parsing
expression is a parser, built from the combinators of the library, and rules may refer to one
another. The parser returns exactly where the relation derives something, and returns what it
derives.

* `Peg`, `Peg.Derives`: parsing expressions and what they derive.
* `Peg.parser`: the parser of an expression.
* `Peg.Realizes.derives`: what an execution reads is derived.
* `Peg.Derives.delivers`: what is derived is read by an execution.
* `Peg.Derives.unique`: nothing else is derived.
* `Peg.run_iff_derives`: runs and derivations, success and failure.
-/

namespace Packrat

variable {τ ν : Type}

/-! ## What an execution reads -/

namespace Cursor

/-- What the result of an execution at `c` says was read: the tokens from `c` to where the match
stops, or failure. -/
inductive Reads (c : Cursor τ) : Result τ → Option (List τ) → Prop where
  | ok {m x} (buffer : m.stop.buffer = c.buffer) (inBounds : m.stop.offset ≤ m.stop.buffer.size)
      (tokens : c.remaining = x ++ m.stop.remaining) : c.Reads (.ok m) (some x)
  | error {f} : c.Reads (.error f) none

namespace Reads

variable {c : Cursor τ}

theorem nothing (hc : c.offset ≤ c.buffer.size) (v : Value τ) : c.Reads (.ok ⟨c, v⟩) (some []) :=
  .ok rfl hc rfl

section

variable {test : τ → Bool} {atEnd : Cause τ} {refusal : τ → Cause τ} {a : τ}

theorem tokenAtEnd (h : c.read? = none) :
    c.Reads ((Leaf.token test atEnd refusal).run c) none := by
  simp only [Leaf.run, h]
  exact .error

theorem token (h : c.read? = some a) (ha : test a = true) :
    c.Reads ((Leaf.token test atEnd refusal).run c) (some [a]) := by
  have hlt : c.offset < c.buffer.size := (Array.getElem?_eq_some_iff.mp h).1
  simp only [Leaf.run, h, ha, if_true]
  refine .ok c.buffer_advance ?_ (remaining_of_read? h)
  change c.advance.offset ≤ c.advance.buffer.size
  rw [offset_advance_of_read? h, buffer_advance]
  omega

theorem otherToken (h : c.read? = some a) (ha : test a = false) :
    c.Reads ((Leaf.token test atEnd refusal).run c) none := by
  simp only [Leaf.run, h, ha]
  exact .error

end

theorem andThen {m : Match τ} {x : List τ} (first : c.Reads (.ok m) (some x)) {r : Result τ}
    {o : Option (List τ)} (second : m.stop.Reads r o) (f : Match τ → Value τ) :
    c.Reads (r.map fun n => ⟨n.stop, f n⟩) (o.map (x ++ ·)) := by
  cases first with
  | ok buffer _ tokens =>
    cases second with
    | error => exact .error
    | ok buffer' inBounds' tokens' =>
      exact .ok (buffer'.trans buffer) inBounds' (by rw [tokens, tokens', List.append_assoc])

theorem unique {r : Result τ} {o o' : Option (List τ)} (h : c.Reads r o) (h' : c.Reads r o') :
    o = o' := by
  cases h with
  | error =>
    cases h'
    rfl
  | ok _ _ tokens =>
    cases h' with
    | ok _ _ tokens' => rw [List.append_cancel_right (tokens.symm.trans tokens')]

/-- A match of `x` stops behind the tokens of `x`. -/
theorem stop_eq {m : Match τ} {x : List τ} (h : c.Reads (.ok m) (some x))
    (hc : c.offset ≤ c.buffer.size) : m.stop = ⟨c.buffer, c.offset + x.length⟩ := by
  cases h with
  | ok buffer inBounds tokens =>
    have hlength := congrArg List.length tokens
    rw [List.length_append, length_remaining, length_remaining, buffer] at hlength
    obtain ⟨⟨b, i⟩, v⟩ := m
    cases buffer
    have hi : i = c.offset + x.length := by
      change c.buffer.size - c.offset = x.length + (c.buffer.size - i) at hlength
      change i ≤ c.buffer.size at inBounds
      omega
    rw [hi]

/-- The tokens that are read are those of the buffer from `c` on. -/
theorem tokens_eq {m : Match τ} {x : List τ} (h : c.Reads (.ok m) (some x)) :
    x = (c.buffer.tokens.extract c.offset (c.offset + x.length)).toList := by
  cases h with
  | ok buffer _ tokens =>
    have htake : c.remaining.take x.length = x := by rw [tokens, List.take_left]
    rw [Array.toList_extract, List.extract_eq_take_drop, Nat.add_sub_cancel_left]
    exact htake.symm

theorem ok_iff {r : Result τ} {o : Option (List τ)} (h : c.Reads r o)
    (hc : c.offset ≤ c.buffer.size) (stop : Nat) :
    (∃ m, r = .ok m ∧ m.stop = ⟨c.buffer, stop⟩) ↔
      c.offset ≤ stop ∧ stop ≤ c.buffer.size ∧
        c.Reads r (some (c.buffer.tokens.extract c.offset stop).toList) := by
  constructor
  · rintro ⟨m, rfl, hstop⟩
    cases h with
    | @ok _ x buffer inBounds tokens =>
      have hm : c.Reads (.ok m) (some x) := .ok buffer inBounds tokens
      have heq : stop = c.offset + x.length := by
        rw [hm.stop_eq hc] at hstop
        exact (congrArg offset hstop).symm
      rw [hstop] at inBounds
      refine ⟨by omega, inBounds, ?_⟩
      rw [heq, ← hm.tokens_eq]
      exact hm
  · rintro ⟨hle, hsize, hr⟩
    generalize hx : (c.buffer.tokens.extract c.offset stop).toList = x at hr
    have hlength : x.length = stop - c.offset := by
      have hsize' : stop ≤ c.buffer.tokens.size := hsize
      rw [← hx, Array.length_toList, Array.size_extract]
      omega
    cases hr with
    | @ok m _ buffer inBounds tokens =>
      refine ⟨m, rfl, ?_⟩
      rw [stop_eq (.ok buffer inBounds tokens) hc, hlength]
      congr 1
      omega

theorem error_iff {r : Result τ} {o : Option (List τ)} (h : c.Reads r o) :
    (∃ f, r = .error f) ↔ c.Reads r none := by
  cases h with
  | ok => exact ⟨nofun, nofun⟩
  | @error f => exact ⟨fun _ => .error, fun _ => ⟨f, rfl⟩⟩

end Reads

end Cursor

namespace Parser

/-- In every context and from every store the parser has an execution at `c` that reads `o`. -/
def Delivers (grammar : Grammar τ ν) (p : Parser τ ν) (c : Cursor τ) (o : Option (List τ)) : Prop :=
  ∀ ctx s, ∃ r t hist, p.Runs grammar ctx c s r t hist ∧ c.Reads r o

namespace Delivers

variable {grammar : Grammar τ ν} {p q : Parser τ ν} {c : Cursor τ} {o o' : Option (List τ)}
  {x : List τ}

theorem leaf {l : Leaf τ} (h : c.Reads (l.run c) o) : Delivers grammar (.leaf l) c o :=
  fun _ s => ⟨_, s, _, .leaf, h⟩

theorem adapt {a : Adapter τ} (hp : Delivers grammar p c o)
    (h : ∀ r, c.Reads r o → c.Reads (a.apply c r) o') : Delivers grammar (.adapt a p) c o' := by
  intro ctx s
  obtain ⟨r, t, _, d, hr⟩ := hp ctx s
  exact ⟨_, t, _, .adapt d, h r hr⟩

theorem within (hp : Delivers grammar p c o) {action : String} :
    Delivers grammar (.adapt (.within action) p) c o := by
  refine hp.adapt fun r hr => ?_
  cases hr with
  | ok buffer inBounds tokens => exact .ok buffer inBounds tokens
  | error => exact .error

theorem otherwise (hp : Delivers grammar p c o) {cause : Cause τ} :
    Delivers grammar (.adapt (.otherwise cause) p) c o := by
  refine hp.adapt fun r hr => ?_
  cases hr with
  | ok buffer inBounds tokens => exact .ok buffer inBounds tokens
  | error => exact .error

theorem of_otherwise {cause : Cause τ} (h : Delivers grammar (.adapt (.otherwise cause) p) c o) :
    Delivers grammar p c o := by
  intro ctx s
  obtain ⟨_, t, _, d, hr⟩ := h ctx s
  cases d with
  | unrolled hq _ => cases hq
  | @adapt _ _ _ _ _ r _ _ inner =>
    refine ⟨r, t, _, inner, ?_⟩
    cases r with
    | ok m => exact hr
    | error f =>
      cases hr
      exact .error

theorem andThenFail (hp : Delivers grammar p c none) (f : Value τ → Value τ → Value τ) :
    Delivers grammar (.andThen p q f) c none := by
  intro ctx s
  obtain ⟨r, t, _, d, hr⟩ := hp ctx s
  cases hr
  exact ⟨_, t, _, .andThenFail d, .error⟩

theorem andThen (hp : Delivers grammar p c (some x))
    (hq : ∀ d : Cursor τ, d.offset ≤ d.buffer.size → c.remaining = x ++ d.remaining →
      Delivers grammar q d o) (f : Value τ → Value τ → Value τ) :
    Delivers grammar (.andThen p q f) c (o.map (x ++ ·)) := by
  intro ctx s
  obtain ⟨r, t, _, d, hr⟩ := hp ctx s
  cases hr with
  | ok buffer inBounds tokens =>
    obtain ⟨r', u, _, d', hr'⟩ := hq _ inBounds tokens ctx t
    exact ⟨_, u, _, .andThen d d', .andThen (.ok buffer inBounds tokens) hr' _⟩

theorem skipNothing (hp : Delivers grammar p c o) (v : Value τ) :
    Delivers grammar (skipThen (nothing v) p) c o := by
  intro ctx s
  obtain ⟨r, t, _, d, hr⟩ := hp ctx s
  refine ⟨_, t, _, .andThen .leaf d, ?_⟩
  cases hr with
  | ok buffer inBounds tokens => exact .ok buffer inBounds tokens
  | error => exact .error

theorem orElseFirst (hp : Delivers grammar p c (some x)) :
    Delivers grammar (.orElse p q) c (some x) := by
  intro ctx s
  obtain ⟨r, t, _, d, hr⟩ := hp ctx s
  cases hr with
  | ok buffer inBounds tokens => exact ⟨_, t, _, .orElseFirst d, .ok buffer inBounds tokens⟩

theorem orElse (hp : Delivers grammar p c none) (hq : Delivers grammar q c o) :
    Delivers grammar (.orElse p q) c o := by
  intro ctx s
  obtain ⟨r, t, _, d, hr⟩ := hp ctx s
  cases hr
  obtain ⟨r', u, _, d', hr'⟩ := hq ctx t
  exact ⟨r', u, _, .orElse d d', hr'⟩

theorem unrolled (hq : p.unrolled? grammar = some q) (h : Delivers grammar q c o) :
    Delivers grammar p c o := by
  intro ctx s
  obtain ⟨r, t, _, d, hr⟩ := h ctx s
  exact ⟨r, t, _, .unrolled hq d, hr⟩

section

variable {name : String} {report : Report}

theorem site (h : Delivers grammar p c o) : Delivers grammar (.site name report p) c o := by
  intro ctx s
  obtain ⟨r, t, _, d, hr⟩ := h ctx s
  exact ⟨r, t, _, .site d, hr⟩

theorem of_site (h : Delivers grammar (.site name report p) c o) : Delivers grammar p c o := by
  intro ctx s
  obtain ⟨r, t, _, d, hr⟩ := h ctx s
  cases d with
  | unrolled hq _ => cases hq
  | site inner => exact ⟨r, t, _, inner, hr⟩

end

end Delivers

end Parser

/-! ## Parsing expressions -/

/-- A condition on one token. -/
inductive Terminal (τ : Type) where
  | passing (test : τ → Bool)
  | equalTo (want : τ)
  | among (allowed : List τ)

/-- Parsing expressions over tokens `τ` with rules named by `ν`. -/
inductive Peg (τ ν : Type) where
  | empty
  | failure
  | terminal (t : Terminal τ)
  | sequence (parts : List (Peg τ ν))
  | choice (alternatives : List (Peg τ ν))
  | many (e : Peg τ ν)
  | many1 (e : Peg τ ν)
  | optional (e : Peg τ ν)
  | ahead (e : Peg τ ν)
  | notAhead (e : Peg τ ν)
  | rule (name : ν)

variable [DecidableEq τ]

namespace Terminal

def accepts : Terminal τ → τ → Bool
  | .passing test, a => test a
  | .equalTo want, a => a = want
  | .among allowed, a => a ∈ allowed

def parser : Terminal τ → Parser τ ν
  | .passing test => .satisfying test
  | .equalTo want => .exactly want
  | .among allowed => .oneOf allowed

theorem parser_eq (t : Terminal τ) : ∃ name test atEnd refusal,
    t.parser (ν := ν) = .builtIn name (.leaf (.token test atEnd refusal)) ∧
      ∀ a, test a = t.accepts a := by
  cases t <;> exact ⟨_, _, _, _, rfl, fun _ => rfl⟩

end Terminal

namespace Peg

/-- What an expression derives at the front of an input: the tokens that it matches, or failure. A
sequence matches all of its parts one after another, a choice what its first matching alternative
does, and repetition goes on as long as it can. Lookahead matches no tokens. -/
inductive Derives (rules : ν → Peg τ ν) : Peg τ ν → List τ → Option (List τ) → Prop where
  | empty {x} : Derives rules .empty x (some [])
  | failure {x} : Derives rules .failure x none
  | terminal {t a x} (h : t.accepts a = true) : Derives rules (.terminal t) (a :: x) (some [a])
  | terminalOther {t a x} (h : t.accepts a = false) : Derives rules (.terminal t) (a :: x) none
  | terminalAtEnd {t} : Derives rules (.terminal t) [] none
  | sequenceNil {x} : Derives rules (.sequence []) x (some [])
  | sequenceCons {e es x y z} (first : Derives rules e (x ++ z) (some x))
      (rest : Derives rules (.sequence es) z (some y)) :
      Derives rules (.sequence (e :: es)) (x ++ z) (some (x ++ y))
  | sequenceFail {e es x} (first : Derives rules e x none) :
      Derives rules (.sequence (e :: es)) x none
  | sequenceFailLater {e es x z} (first : Derives rules e (x ++ z) (some x))
      (rest : Derives rules (.sequence es) z none) :
      Derives rules (.sequence (e :: es)) (x ++ z) none
  | choiceNil {x} : Derives rules (.choice []) x none
  | choiceFirst {e es x y} (first : Derives rules e x (some y)) :
      Derives rules (.choice (e :: es)) x (some y)
  | choiceRest {e es x o} (first : Derives rules e x none)
      (rest : Derives rules (.choice es) x o) : Derives rules (.choice (e :: es)) x o
  | manyStop {e x} (first : Derives rules e x none) : Derives rules (.many e) x (some [])
  | manyStep {e x y z} (first : Derives rules e (x ++ z) (some x))
      (rest : Derives rules (.many e) z (some y)) :
      Derives rules (.many e) (x ++ z) (some (x ++ y))
  | many1Fail {e x} (first : Derives rules e x none) : Derives rules (.many1 e) x none
  | many1 {e x y z} (first : Derives rules e (x ++ z) (some x))
      (rest : Derives rules (.many e) z (some y)) :
      Derives rules (.many1 e) (x ++ z) (some (x ++ y))
  | optionalAbsent {e x} (h : Derives rules e x none) : Derives rules (.optional e) x (some [])
  | optional {e x y} (h : Derives rules e x (some y)) : Derives rules (.optional e) x (some y)
  | aheadFail {e x} (h : Derives rules e x none) : Derives rules (.ahead e) x none
  | ahead {e x y} (h : Derives rules e x (some y)) : Derives rules (.ahead e) x (some [])
  | notAheadFail {e x y} (h : Derives rules e x (some y)) : Derives rules (.notAhead e) x none
  | notAhead {e x} (h : Derives rules e x none) : Derives rules (.notAhead e) x (some [])
  | rule {name x o} (h : Derives rules (rules name) x o) : Derives rules (.rule name) x o

mutual

def parser : Peg τ ν → Parser τ ν
  | .empty => .succeed .unit
  | .failure => .fail "failure"
  | .terminal t => t.parser
  | .sequence parts => .inOrder (parsers parts)
  | .choice alternatives => .choice (parsers alternatives)
  | .many e => .many e.parser
  | .many1 e => .many1 e.parser
  | .optional e => .optional e.parser
  | .ahead e => .lookAhead e.parser
  | .notAhead e => .notFollowedBy e.parser
  | .rule name => .rule name

def parsers : List (Peg τ ν) → List (Parser τ ν)
  | [] => []
  | e :: es => e.parser :: parsers es

end

def grammar (rules : ν → Peg τ ν) : Grammar τ ν := fun name => (rules name).parser

end Peg

/-! ## What an execution reads is derived -/

namespace Peg

/-- A parser behaves as an expression says. Besides the parsers of expressions these are the parts
of which they are made, and what their loops are unrolled to. -/
inductive Realizes : Parser τ ν → Peg τ ν → Prop where
  | terminal {t : Terminal τ} {test atEnd refusal} (h : ∀ a, test a = t.accepts a) :
      Realizes (.leaf (.token test atEnd refusal)) (.terminal t)
  | empty {v} : Realizes (.leaf (.succeed v)) .empty
  | failure {cause} : Realizes (.leaf (.fail cause)) .failure
  | sequenceNil {v} : Realizes (.leaf (.succeed v)) (.sequence [])
  | sequenceCons {p q e es f} (first : Realizes p e) (rest : Realizes q (.sequence es)) :
      Realizes (.andThen p q f) (.sequence (e :: es))
  | afterNothing {p e v f} (h : Realizes p e) :
      Realizes (.andThen (.leaf (.succeed v)) p f) e
  | choiceNil {cause} : Realizes (.leaf (.fail cause)) (.choice [])
  | choiceCons {p q e es} (first : Realizes p e) (rest : Realizes q (.choice es)) :
      Realizes (.orElse p q) (.choice (e :: es))
  | many {p e} (h : Realizes p e) : Realizes (.repeated none p) (.many e)
  | manyUnrolled {p e v} (h : Realizes p (.many1 e)) :
      Realizes (.orElse p (.leaf (.succeed v))) (.many e)
  | many1 {p q e f} (first : Realizes p e) (rest : Realizes q (.many e)) :
      Realizes (.andThen p q f) (.many1 e)
  | optional {p e} (h : Realizes p e) : Realizes (.adapt .optional p) (.optional e)
  | ahead {p e} (h : Realizes p e) : Realizes (.adapt .lookAhead p) (.ahead e)
  | notAhead {p e} (h : Realizes p e) : Realizes (.adapt .negate p) (.notAhead e)
  | within {p e action} (h : Realizes p e) : Realizes (.adapt (.within action) p) e
  | otherwise {p e cause} (h : Realizes p e) : Realizes (.adapt (.otherwise cause) p) e
  | rule {name} : Realizes (.rule name) (.rule name)
  | site {name report p e} (h : Realizes p e) : Realizes (.site name report p) e

section

variable {rules : ν → Peg τ ν} {e : Peg τ ν} {x y : List τ} {o : Option (List τ)}

theorem Derives.many_ne_none (h : Derives rules (.many e) x o) : o ≠ none := by
  cases h <;> exact nofun

theorem Derives.many_of_many1 (h : Derives rules (.many1 e) x (some y)) :
    Derives rules (.many e) x (some y) := by
  cases h with
  | many1 first rest => exact .manyStep first rest

theorem Derives.of_many1_none (h : Derives rules (.many1 e) x none) : Derives rules e x none := by
  cases h with
  | many1Fail first => exact first

end

namespace Realizes

variable {rules : ν → Peg τ ν}

theorem derives_leaf {l : Leaf τ} {e : Peg τ ν} (hp : Realizes (.leaf l) e) {c : Cursor τ}
    (hc : c.offset ≤ c.buffer.size) :
    ∃ o, c.Reads (l.run c) o ∧ Derives rules e c.remaining o := by
  cases hp with
  | terminal h =>
    cases hread : c.read? with
    | none =>
      rw [Cursor.remaining_of_atEnd (Cursor.read?_eq_none.mp hread)]
      exact ⟨none, .tokenAtEnd hread, .terminalAtEnd⟩
    | some a =>
      rw [Cursor.remaining_of_read? hread]
      cases haccepts : Terminal.accepts _ a with
      | true => exact ⟨some [a], .token hread ((h a).trans haccepts), .terminal haccepts⟩
      | false => exact ⟨none, .otherToken hread ((h a).trans haccepts), .terminalOther haccepts⟩
  | empty => exact ⟨some [], .nothing hc _, .empty⟩
  | failure => exact ⟨none, .error, .failure⟩
  | sequenceNil => exact ⟨some [], .nothing hc _, .sequenceNil⟩
  | choiceNil => exact ⟨none, .error, .choiceNil⟩

theorem derives_adapt {a : Adapter τ} {p : Parser τ ν} {e : Peg τ ν} (hp : Realizes (.adapt a p) e)
    {c : Cursor τ} (hc : c.offset ≤ c.buffer.size) {r : Result τ}
    (ih : ∀ {e}, Realizes p e → ∃ o, c.Reads r o ∧ Derives rules e c.remaining o) :
    ∃ o, c.Reads (a.apply c r) o ∧ Derives rules e c.remaining o := by
  cases hp with
  | optional h =>
    obtain ⟨o, hr, d⟩ := ih h
    cases hr with
    | ok buffer inBounds tokens => exact ⟨_, .ok buffer inBounds tokens, .optional d⟩
    | error => exact ⟨_, .nothing hc _, .optionalAbsent d⟩
  | ahead h =>
    obtain ⟨o, hr, d⟩ := ih h
    cases hr with
    | ok => exact ⟨_, .nothing hc _, .ahead d⟩
    | error => exact ⟨_, .error, .aheadFail d⟩
  | notAhead h =>
    obtain ⟨o, hr, d⟩ := ih h
    cases hr with
    | ok => exact ⟨_, .error, .notAheadFail d⟩
    | error => exact ⟨_, .nothing hc _, .notAhead d⟩
  | within h =>
    obtain ⟨o, hr, d⟩ := ih h
    cases hr with
    | ok buffer inBounds tokens => exact ⟨_, .ok buffer inBounds tokens, d⟩
    | error => exact ⟨_, .error, d⟩
  | otherwise h =>
    obtain ⟨o, hr, d⟩ := ih h
    cases hr with
    | ok buffer inBounds tokens => exact ⟨_, .ok buffer inBounds tokens, d⟩
    | error => exact ⟨_, .error, d⟩

section

variable {grammar : Grammar τ ν} {ctx : Context} {p q : Parser τ ν} {e : Peg τ ν} {c : Cursor τ}
  {s t u : Store τ} {r : Result τ} {hist hist' : History τ}

theorem derives_andThenFail {combine : Value τ → Value τ → Value τ} {f : Failure τ}
    (hp : Realizes (.andThen p q combine) e) (first : p.Runs grammar ctx c s (.error f) t hist)
    (ih : ∀ {e}, Realizes p e → ∃ o, c.Reads (.error f) o ∧ Derives rules e c.remaining o) :
    Derives rules e c.remaining none := by
  cases hp with
  | sequenceCons h _ =>
    obtain ⟨o, hr, d⟩ := ih h
    cases hr
    exact .sequenceFail d
  | afterNothing h => cases first with | unrolled hq _ => cases hq
  | many1 h _ =>
    obtain ⟨o, hr, d⟩ := ih h
    cases hr
    exact .many1Fail d

theorem derives_andThen {combine : Value τ → Value τ → Value τ} {m : Match τ}
    (hp : Realizes (.andThen p q combine) e) (hc : c.offset ≤ c.buffer.size)
    (first : p.Runs grammar ctx c s (.ok m) t hist)
    (ih₁ : ∀ {e}, Realizes p e → ∃ o, c.Reads (.ok m) o ∧ Derives rules e c.remaining o)
    (ih₂ : ∀ {e}, Realizes q e → m.stop.offset ≤ m.stop.buffer.size →
      ∃ o, m.stop.Reads r o ∧ Derives rules e m.stop.remaining o) :
    ∃ o, c.Reads (r.map fun n => ⟨n.stop, combine m.value n.value⟩) o ∧
      Derives rules e c.remaining o := by
  cases hp with
  | sequenceCons h h' =>
    obtain ⟨o₁, hr₁, d₁⟩ := ih₁ h
    cases hr₁ with
    | @ok _ x buffer inBounds tokens =>
      obtain ⟨o₂, hr₂, d₂⟩ := ih₂ h' inBounds
      refine ⟨_, .andThen (.ok buffer inBounds tokens) hr₂ _, ?_⟩
      rw [tokens] at d₁ ⊢
      cases o₂ with
      | none => exact .sequenceFailLater d₁ d₂
      | some y => exact .sequenceCons d₁ d₂
  | afterNothing h =>
    cases first with
    | unrolled hq _ => cases hq
    | leaf =>
      -- between the parts of a sequence nothing is read
      obtain ⟨o, hr, d⟩ := ih₂ h hc
      exact ⟨o.map ([] ++ ·), .andThen (.nothing hc _) hr _, by simpa using d⟩
  | many1 h h' =>
    obtain ⟨o₁, hr₁, d₁⟩ := ih₁ h
    cases hr₁ with
    | @ok _ x buffer inBounds tokens =>
      obtain ⟨o₂, hr₂, d₂⟩ := ih₂ h' inBounds
      refine ⟨_, .andThen (.ok buffer inBounds tokens) hr₂ _, ?_⟩
      rw [tokens] at d₁ ⊢
      cases o₂ with
      | none => exact absurd rfl d₂.many_ne_none
      | some y => exact .many1 d₁ d₂

theorem derives_orElseFirst {m : Match τ} (hp : Realizes (.orElse p q) e)
    (ih : ∀ {e}, Realizes p e → ∃ o, c.Reads (.ok m) o ∧ Derives rules e c.remaining o) :
    ∃ o, c.Reads (.ok m) o ∧ Derives rules e c.remaining o := by
  cases hp with
  | choiceCons h _ =>
    obtain ⟨o, hr, d⟩ := ih h
    cases hr with
    | ok buffer inBounds tokens => exact ⟨_, .ok buffer inBounds tokens, .choiceFirst d⟩
  | manyUnrolled h =>
    obtain ⟨o, hr, d⟩ := ih h
    cases hr with
    | ok buffer inBounds tokens => exact ⟨_, .ok buffer inBounds tokens, d.many_of_many1⟩

theorem derives_orElse {f : Failure τ} (hp : Realizes (.orElse p q) e)
    (hc : c.offset ≤ c.buffer.size) (second : q.Runs grammar ctx c t r u hist')
    (ih₁ : ∀ {e}, Realizes p e → ∃ o, c.Reads (.error f) o ∧ Derives rules e c.remaining o)
    (ih₂ : ∀ {e}, Realizes q e → ∃ o, c.Reads r o ∧ Derives rules e c.remaining o) :
    ∃ o, c.Reads r o ∧ Derives rules e c.remaining o := by
  cases hp with
  | choiceCons h h' =>
    obtain ⟨o₁, hr₁, d₁⟩ := ih₁ h
    cases hr₁
    obtain ⟨o₂, hr₂, d₂⟩ := ih₂ h'
    exact ⟨o₂, hr₂, .choiceRest d₁ d₂⟩
  | manyUnrolled h =>
    obtain ⟨o₁, hr₁, d₁⟩ := ih₁ h
    cases hr₁
    cases second with
    | unrolled hq _ => cases hq
    | leaf => exact ⟨_, .nothing hc _, .manyStop d₁.of_many1_none⟩

theorem derives (hrules : ∀ name, Realizes (grammar name) (rules name))
    (h : p.Runs grammar ctx c s r t hist) (hp : Realizes p e) (hc : c.offset ≤ c.buffer.size) :
    ∃ o, c.Reads r o ∧ Derives rules e c.remaining o := by
  induction h generalizing e with
  | leaf => exact derives_leaf hp hc
  | adapt _ ih => exact derives_adapt hp hc fun h => ih h hc
  | andThenFail first ih =>
    exact ⟨none, .error, derives_andThenFail hp first fun h => ih h hc⟩
  | andThen first _ ih₁ ih₂ => exact derives_andThen hp hc first (fun h => ih₁ h hc) ih₂
  | orElseFirst _ ih => exact derives_orElseFirst hp fun h => ih h hc
  | orElse _ second ih₁ ih₂ =>
    exact derives_orElse hp hc second (fun h => ih₁ h hc) fun h => ih₂ h hc
  | unrolled hq _ ih =>
    cases hp with
    | many h =>
      -- no or more is none, or one or more
      cases hq
      exact ih (.manyUnrolled (.many1 h (.many h))) hc
    | rule =>
      cases hq
      obtain ⟨o, hr, d⟩ := ih (hrules _) hc
      exact ⟨o, hr, .rule d⟩
    | _ => cases hq
  | site _ ih =>
    cases hp with
    | site h => exact ih h hc
  | _ => cases hp

end

mutual

theorem of_expression (e : Peg τ ν) : Realizes e.parser e := by
  cases e with
  | empty => exact .site .empty
  | failure => exact .site .failure
  | terminal t =>
    obtain ⟨_, _, _, _, hparser, htest⟩ := t.parser_eq (ν := ν)
    rw [parser, hparser]
    exact .site (.terminal htest)
  | sequence parts => exact .site (of_parts parts)
  | choice alternatives => exact .site (.otherwise (of_alternatives alternatives))
  | many e => exact .site (.many (of_expression e))
  | many1 e => exact .site (.many1 (.within (of_expression e)) (.many (of_expression e)))
  | optional e => exact .site (.optional (of_expression e))
  | ahead e => exact .site (.ahead (of_expression e))
  | notAhead e => exact .site (.notAhead (of_expression e))
  | rule name => exact .rule

theorem of_parts (es : List (Peg τ ν)) :
    Realizes (Parts.eachOfList (Parser.nothing .unit) (parsers es)) (.sequence es) := by
  cases es with
  | nil => exact .sequenceNil
  | cons e es => exact .sequenceCons (.afterNothing (of_expression e)) (of_parts es)

theorem of_alternatives (es : List (Peg τ ν)) :
    Realizes (Parts.firstOfList (parsers es)) (.choice es) := by
  cases es with
  | nil => exact .choiceNil
  | cons e es => exact .choiceCons (of_expression e) (of_alternatives es)

end

end Realizes

theorem exists_reads {rules : ν → Peg τ ν} {e : Peg τ ν} {ctx : Context} {c : Cursor τ}
    (hc : c.offset ≤ c.buffer.size) {s t : Store τ} {r : Result τ} {hist : History τ}
    (h : e.parser.Runs (grammar rules) ctx c s r t hist) :
    ∃ o, c.Reads r o ∧ Derives rules e c.remaining o :=
  Realizes.derives (fun name => .of_expression (rules name)) h (.of_expression e) hc

end Peg

/-! ## What is derived is read by an execution -/

namespace Peg

variable {rules : ν → Peg τ ν}

theorem Derives.delivers {e : Peg τ ν} {x : List τ} {o : Option (List τ)} (h : Derives rules e x o)
    {c : Cursor τ} (hc : c.offset ≤ c.buffer.size) (hx : c.remaining = x) :
    e.parser.Delivers (grammar rules) c o := by
  induction h generalizing c with
  | empty => exact .site (.leaf (.nothing hc _))
  | failure => exact .site (.leaf .error)
  | @terminal t a x h =>
    have hread : c.read? = some a := by rw [← c.head?_remaining, hx, List.head?_cons]
    obtain ⟨_, _, _, _, hparser, htest⟩ := t.parser_eq (ν := ν)
    rw [parser, hparser]
    exact .site (.leaf (.token hread ((htest _).trans h)))
  | @terminalOther t a x h =>
    have hread : c.read? = some a := by rw [← c.head?_remaining, hx, List.head?_cons]
    obtain ⟨_, _, _, _, hparser, htest⟩ := t.parser_eq (ν := ν)
    rw [parser, hparser]
    exact .site (.leaf (.otherToken hread ((htest _).trans h)))
  | @terminalAtEnd t =>
    have hread : c.read? = none := by rw [← c.head?_remaining, hx, List.head?_nil]
    obtain ⟨_, _, _, _, hparser, _⟩ := t.parser_eq (ν := ν)
    rw [parser, hparser]
    exact .site (.leaf (.tokenAtEnd hread))
  | sequenceNil => exact .site (.leaf (.nothing hc _))
  | sequenceCons _ _ ih₁ ih₂ =>
    -- the rest of a sequence is a sequence of its own, of which only the part inside the site is run
    refine .site (((ih₁ hc hx).skipNothing _).andThen (o := some _) (fun d hd hrest => ?_) _)
    exact (ih₂ hd (List.append_cancel_left (hrest.symm.trans hx))).of_site
  | sequenceFail _ ih => exact .site (.andThenFail ((ih hc hx).skipNothing _) _)
  | sequenceFailLater _ _ ih₁ ih₂ =>
    refine .site (((ih₁ hc hx).skipNothing _).andThen (o := none) (fun d hd hrest => ?_) _)
    exact (ih₂ hd (List.append_cancel_left (hrest.symm.trans hx))).of_site
  | choiceNil => exact .site (.otherwise (.leaf .error))
  | choiceFirst _ ih => exact .site (.otherwise (ih hc hx).orElseFirst)
  | choiceRest _ _ ih₁ ih₂ =>
    exact .site (.otherwise ((ih₁ hc hx).orElse (ih₂ hc hx).of_site.of_otherwise))
  | manyStop _ ih =>
    exact .site (.unrolled rfl (.orElse ((ih hc hx).andThenFail _) (.leaf (.nothing hc _))))
  | manyStep _ _ ih₁ ih₂ =>
    -- the induction gives the loop inside of a site, of which it is taken out
    refine .site (.unrolled rfl (.orElseFirst (.andThen (o := some _) (ih₁ hc hx) ?_ _)))
    intro d hd hrest
    exact (ih₂ hd (List.append_cancel_left (hrest.symm.trans hx))).of_site
  | many1Fail _ ih => exact .site (.andThenFail (.within (ih hc hx)) _)
  | many1 _ _ ih₁ ih₂ =>
    refine .site (.andThen (o := some _) (.within (ih₁ hc hx)) (fun d hd hrest => ?_) _)
    exact (ih₂ hd (List.append_cancel_left (hrest.symm.trans hx))).of_site
  | optionalAbsent _ ih =>
    refine .site ((ih hc hx).adapt fun r hr => ?_)
    cases hr
    exact .nothing hc _
  | optional _ ih =>
    refine .site ((ih hc hx).adapt fun r hr => ?_)
    cases hr with
    | ok buffer inBounds tokens => exact .ok buffer inBounds tokens
  | aheadFail _ ih =>
    refine .site ((ih hc hx).adapt fun r hr => ?_)
    cases hr
    exact .error
  | ahead _ ih =>
    refine .site ((ih hc hx).adapt fun r hr => ?_)
    cases hr
    exact .nothing hc _
  | notAheadFail _ ih =>
    refine .site ((ih hc hx).adapt fun r hr => ?_)
    cases hr
    exact .error
  | notAhead _ ih =>
    refine .site ((ih hc hx).adapt fun r hr => ?_)
    cases hr
    exact .nothing hc _
  | rule _ ih => exact .unrolled rfl (ih hc hx)

/-! ## Runs and derivations -/

/-- An execution reads what is derived, and nothing else is derived. -/
theorem reads_iff_derives {e : Peg τ ν} {ctx : Context} {c : Cursor τ}
    (hc : c.offset ≤ c.buffer.size) {s t : Store τ} {r : Result τ} {hist : History τ}
    (h : e.parser.Runs (grammar rules) ctx c s r t hist) (o : Option (List τ)) :
    c.Reads r o ↔ Derives rules e c.remaining o := by
  constructor
  · intro hr
    obtain ⟨o', hr', hd⟩ := exists_reads hc h
    rwa [hr.unique hr']
  · intro hd
    obtain ⟨r', t', _, h', hr⟩ := hd.delivers hc rfl ctx s
    obtain ⟨rfl, -, -⟩ := h.unique h'
    exact hr

/-- An expression derives one thing at the front of an input. -/
theorem Derives.unique {e : Peg τ ν} {x : List τ} {o o' : Option (List τ)}
    (h : Derives rules e x o) (h' : Derives rules e x o') : o = o' := by
  let c : Cursor τ := .ofBuffer (.ofArray 0 x.toArray)
  have hc : c.offset ≤ c.buffer.size := Nat.zero_le _
  have hx : c.remaining = x := rfl
  obtain ⟨r, t, _, d, hr⟩ := h.delivers hc hx .plain ∅
  exact hr.unique ((reads_iff_derives hc d o').mpr (hx.symm ▸ h'))

/-- The parser of an expression returns exactly where the expression derives something. It matches
up to an offset exactly if the expression derives the tokens up to there, and it fails exactly if
the expression derives failure. -/
theorem run_iff_derives (rules : ν → Peg τ ν) (e : Peg τ ν) {c : Cursor τ}
    (hc : c.offset ≤ c.buffer.size) (ctx : Context) (s : Store τ) :
    (e.parser.Terminates (grammar rules) ctx c s ↔ ∃ o, Derives rules e c.remaining o) ∧
      ∀ fuel r t signals, e.parser.run (grammar rules) fuel ctx c s = some (r, t, signals) →
        (∀ stop, (∃ m, r = .ok m ∧ m.stop = ⟨c.buffer, stop⟩) ↔
          c.offset ≤ stop ∧ stop ≤ c.buffer.size ∧
            Derives rules e c.remaining (some (c.buffer.tokens.extract c.offset stop).toList)) ∧
        ((∃ f, r = .error f) ↔ Derives rules e c.remaining none) := by
  refine ⟨⟨?_, ?_⟩, ?_⟩
  · rintro ⟨fuel, hreturns⟩
    obtain ⟨⟨r, t, signals⟩, hrun⟩ := Option.isSome_iff_exists.mp hreturns
    obtain ⟨_, h, -⟩ := Parser.runs_of_run hrun
    obtain ⟨o, -, hd⟩ := exists_reads hc h
    exact ⟨o, hd⟩
  · rintro ⟨o, hd⟩
    obtain ⟨r, t, hist, h, -⟩ := hd.delivers hc rfl ctx s
    obtain ⟨fuel, hrun⟩ := h.exists_run
    exact ⟨fuel, by rw [hrun]; rfl⟩
  · intro fuel r t signals hrun
    obtain ⟨_, h, -⟩ := Parser.runs_of_run hrun
    obtain ⟨o, hr, -⟩ := exists_reads hc h
    simp only [← reads_iff_derives hc h]
    exact ⟨hr.ok_iff hc, hr.error_iff⟩

/-- Nested brackets, of which `a` opens and `b` closes one. -/
def brackets : Unit → Peg Char Unit := fun _ =>
  .sequence [.terminal (.equalTo 'a'), .many (.rule ()), .terminal (.equalTo 'b')]

/-- Brackets that nothing follows, up to the end of the buffer from the second token on. -/
theorem run_iff_derives_of_brackets :
    let whole : Peg Char Unit :=
      .sequence [.rule (), .notAhead (.terminal (.passing fun _ => true))]
    let c : Cursor Char := ⟨.ofArray 0 #['b', 'a', 'a', 'b', 'b'], 1⟩
    ∃ r t signals m, whole.parser.run (grammar brackets) 40 .plain c ∅ = some (r, t, signals) ∧
      r = .ok m ∧ m.stop = ⟨c.buffer, 5⟩ ∧
      Derives brackets whole ['a', 'a', 'b', 'b'] (some ['a', 'a', 'b', 'b']) := by
  intro whole c
  have returns : (whole.parser.run (grammar brackets) 40 .plain c ∅).map
      (·.1.toOption.map (·.stop)) = some (some ⟨c.buffer, 5⟩) := by
    decide +kernel
  obtain ⟨⟨r, t, signals⟩, h, hr⟩ := Option.map_eq_some_iff.mp returns
  cases r with
  | error f => cases hr
  | ok m =>
    have hm : m.stop = ⟨c.buffer, 5⟩ := Option.some.inj hr
    have hderives := ((run_iff_derives brackets whole (by decide) .plain ∅).2 _ _ _ _ h).1 5
    exact ⟨_, t, signals, m, h, rfl, hm, (hderives.mp ⟨m, rfl, hm⟩).2.2⟩

end Peg

end Packrat
