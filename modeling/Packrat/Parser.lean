import Packrat.Memo

/-!
# Parsers

A parser is a tree. Its leaves look at the input, its inner nodes join parsers or change what comes
of one, and the decorating nodes memoize, name, silence or count the parser below them. A parser may
refer to the rules of a grammar by name, which is how recursion is written.

* `Leaf.run`: what a leaf makes of a cursor.
* `Adapter.apply`: what a node with one parser below it makes of that parser's result.
* `Parser`: the tree. Combinators are functions that build trees.
-/

namespace Packrat

/-- A parser without parts. -/
inductive Leaf (τ : Type) where
  /-- One token that passes a test, with the causes of failure at the end of input and at a token
  that does not pass. -/
  | token (test : τ → Bool) (atEnd : Cause τ) (refusal : τ → Cause τ)
  /-- All tokens that are left. -/
  | remainder
  /-- Nothing, at the end of input only. -/
  | endOfInput
  /-- Nothing, anywhere. -/
  | succeed (value : Value τ)
  /-- No match, anywhere. -/
  | fail (cause : Cause τ)

/-- What a leaf makes of a cursor. -/
def Leaf.run {τ : Type} (leaf : Leaf τ) (start : Cursor τ) : Result τ :=
  match leaf with
  | .token test atEnd refusal =>
    match start.read? with
    | none => .error ⟨start.offset, atEnd⟩
    | some got =>
      if test got then .ok ⟨start.advance, .token got⟩ else .error ⟨start.offset, refusal got⟩
  | .remainder => .ok ⟨start.toEnd, .tokens start.remaining⟩
  | .endOfInput => if start.atEnd then .ok ⟨start, .unit⟩ else .error ⟨start.offset, .inputLeft⟩
  | .succeed value => .ok ⟨start, value⟩
  | .fail cause => .error ⟨start.offset, cause⟩

/-- A change to the result of a parser. -/
inductive Adapter (τ : Type) where
  /-- Another value. -/
  | map (f : Value τ → Value τ)
  /-- Another value, or a failure at the start of the match. -/
  | refine (f : Value τ → Except (Cause τ) (Value τ))
  /-- A match in any case: an absent value, and nothing consumed, in place of a failure. -/
  | optional
  /-- The value without the consumption. -/
  | lookAhead
  /-- A failure for a match, and for a failure a match that consumes nothing. -/
  | negate
  /-- The tokens consumed, in place of the value. -/
  | consumed
  /-- The span consumed, in place of the value. -/
  | spanned
  /-- A failure that says which repetition met it. -/
  | within (action : String)
  /-- One failure, at the start, in place of any other. -/
  | otherwise (cause : Cause τ)

/-- What becomes of the result that a parser gave at `start`. -/
def Adapter.apply {τ : Type} (a : Adapter τ) (start : Cursor τ) (result : Result τ) : Result τ :=
  match a, result with
  | .map f, .ok m => .ok ⟨m.stop, f m.value⟩
  | .refine f, .ok m =>
    match f m.value with
    | .ok value => .ok ⟨m.stop, value⟩
    | .error cause => .error ⟨start.offset, cause⟩
  | .optional, .ok m => .ok ⟨m.stop, .present m.value⟩
  | .optional, .error _ => .ok ⟨start, .absent⟩
  | .lookAhead, .ok m => .ok ⟨start, m.value⟩
  | .negate, .ok _ => .error ⟨start.offset, .matched⟩
  | .negate, .error _ => .ok ⟨start, .unit⟩
  | .consumed, .ok m => .ok ⟨m.stop, .tokens (start.consumed m.stop)⟩
  | .spanned, .ok m => .ok ⟨m.stop, .span ⟨start, m.stop⟩⟩
  | .within action, .error f => .error (f.within action)
  | .otherwise cause, .error _ => .error ⟨start.offset, cause⟩
  | _, result => result

/-- What a named site reports when it matched: its value, or the span that it consumed. -/
inductive Report where
  | value
  | span
deriving Repr, DecidableEq

/-- A parser of tokens `τ` that refers to rules by names `ρ`. -/
inductive Parser (τ ρ : Type) where
  /-- A parser without parts. -/
  | leaf (l : Leaf τ)
  /-- A parser with its result changed. -/
  | adapt (a : Adapter τ) (p : Parser τ ρ)
  /-- One parser and, where it stops, another, their values combined. -/
  | andThen (p q : Parser τ ρ) (combine : Value τ → Value τ → Value τ)
  /-- One parser and, if it fails, another at the same start. -/
  | orElse (p q : Parser τ ρ)
  /-- A parser again and again until it fails, at most `limit` times if there is a limit. -/
  | repeated (limit : Option Nat) (p : Parser τ ρ)
  /-- The body again and again until `stop` matches, which is tried first each time. -/
  | till (body stop : Parser τ ρ)
  /-- A delimiter and an item again and again until one of them fails; a delimiter without an item
  is not consumed. -/
  | delimited (delimiter item : Parser τ ρ)
  /-- A parser that fills the slot `slot` with its value. -/
  | assign (slot : String) (p : Parser τ ρ)
  /-- A parser that asks a memo table first. -/
  | memo (table : Memo) (p : Parser τ ρ)
  /-- A parser that raises a counter each time it is run. -/
  | tally (counter : String) (p : Parser τ ρ)
  /-- The rule of that name. -/
  | rule (name : ρ)
  /-- A parser whose entry and exit are reported under a name. -/
  | site (name : String) (report : Report) (p : Parser τ ρ)
  /-- A parser for which tracing is on or off whatever the context says. -/
  | scope (on : Bool) (p : Parser τ ρ)

/-- The rules that parsers refer to. -/
abbrev Grammar (τ ρ : Type) := ρ → Parser τ ρ

/-- The same parser with its rules under other names. -/
def Parser.mapRules {τ ρ ρ' : Type} (f : ρ → ρ') : Parser τ ρ → Parser τ ρ'
  | .leaf l => .leaf l
  | .adapt a p => .adapt a (p.mapRules f)
  | .andThen p q combine => .andThen (p.mapRules f) (q.mapRules f) combine
  | .orElse p q => .orElse (p.mapRules f) (q.mapRules f)
  | .repeated limit p => .repeated limit (p.mapRules f)
  | .till body stop => .till (body.mapRules f) (stop.mapRules f)
  | .delimited delimiter item => .delimited (delimiter.mapRules f) (item.mapRules f)
  | .assign slot p => .assign slot (p.mapRules f)
  | .memo table p => .memo table (p.mapRules f)
  | .tally counter p => .tally counter (p.mapRules f)
  | .rule name => .rule (f name)
  | .site name report p => .site name report (p.mapRules f)
  | .scope on p => .scope on (p.mapRules f)

end Packrat
