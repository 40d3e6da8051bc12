import Packrat.Pattern.CharSet
import Packrat.Pattern.Escape

/-!
# Classes of characters

The notation in brackets: characters, ranges, digits, named ASCII classes and further classes in
brackets, a mark of negation, and operations between all that stands on their left and what stands
on their right.

* `ClassExpr`: what a class says.
* `ClassExpr.toSet`: the characters of a class, in the case that is written or in any case.
* `readClass`: the reader.
-/

namespace Packrat

/-- An operation on two sets of characters. -/
inductive SetOp where
  | inter
  | minus
  | either
deriving Repr, DecidableEq

/-- What a class says. -/
inductive ClassExpr where
  | empty
  | range (first last : Char)
  /-- The decimal digits of all scripts. -/
  | digit
  | complement (a : ClassExpr)
  | union (a b : ClassExpr)
  | combined (op : SetOp) (a b : ClassExpr)
deriving Repr, DecidableEq

namespace ClassExpr

/-- One character. -/
def one (c : Char) : ClassExpr := .range c c

/-- All characters but the line feed. -/
def notLineFeed : ClassExpr := .complement (.one '\n')

/-- The class, or with `negated` its complement. -/
def negatedIf (negated : Bool) (e : ClassExpr) : ClassExpr := if negated then .complement e else e

/-- The characters of a class. If any case is allowed, the ranges bring in the case variants of
their characters before anything else is done with them. -/
def toSet (anyCase : Bool) : ClassExpr → CharSet
  | .empty => .empty
  | .range first last =>
    if anyCase then (CharSet.range first last).inAnyCase else .range first last
  | .digit => .digit
  | .complement a => (a.toSet anyCase).complement
  | .union a b => (a.toSet anyCase).union (b.toSet anyCase)
  | .combined .inter a b => (a.toSet anyCase).inter (b.toSet anyCase)
  | .combined .minus a b => (a.toSet anyCase).minus (b.toSet anyCase)
  | .combined .either a b => (a.toSet anyCase).either (b.toSet anyCase)

/-- The ranges of the named ASCII classes. -/
def namedRanges : List (String × List (Char × Char)) := [
  ("alnum", [('0', '9'), ('A', 'Z'), ('a', 'z')]),
  ("alpha", [('A', 'Z'), ('a', 'z')]),
  ("ascii", [('\x00', '\x7f')]),
  ("blank", [('\t', '\t'), (' ', ' ')]),
  ("cntrl", [('\x00', '\x1f'), ('\x7f', '\x7f')]),
  ("digit", [('0', '9')]),
  ("graph", [('!', '~')]),
  ("lower", [('a', 'z')]),
  ("print", [(' ', '~')]),
  ("punct", [('!', '/'), (':', '@'), ('[', '\x60'), ('\x7b', '~')]),
  ("space", [('\t', '\r'), (' ', ' ')]),
  ("upper", [('A', 'Z')]),
  ("word", [('0', '9'), ('A', 'Z'), ('_', '_'), ('a', 'z')]),
  ("xdigit", [('0', '9'), ('A', 'F'), ('a', 'f')])]

/-- The ASCII class of that name. -/
def named? (name : String) : Option ClassExpr :=
  (namedRanges.lookup name).map fun ranges =>
    ranges.foldl (fun e r => .union e (.range r.1 r.2)) .empty

end ClassExpr

/-- What was read of a class, and how deeply classes and operations are nested in it. -/
structure ClassPart where
  expr : ClassExpr
  depth : Nat
deriving Repr, DecidableEq

namespace ClassPart

/-- A part in which nothing is nested. -/
def flat (e : ClassExpr) : ClassPart := ⟨e, 0⟩

/-- Parts side by side. Two or more of them are one level deeper. -/
def union : List ClassPart → ClassPart
  | [] => flat .empty
  | [part] => part
  | part :: parts =>
    parts.foldl (fun a b => ⟨.union a.expr b.expr, max a.depth (b.depth + 1)⟩)
      ⟨part.expr, part.depth + 1⟩

/-- The part after an operation, combined with the part before it. -/
def after (before : Option (SetOp × ClassPart)) (part : ClassPart) : ClassPart :=
  match before with
  | none => part
  | some (op, first) => ⟨.combined op first.expr part.expr, max first.depth part.depth + 1⟩

/-- A part in brackets. -/
def bracketed (negated : Bool) (part : ClassPart) : ClassPart :=
  ⟨part.expr.negatedIf negated, part.depth + 1⟩

end ClassPart

namespace Pattern

/-- An end of a range, or digits, and what follows it. No other sign has a meaning here. -/
def readClassItem : List Char → Except PatternError ((Char ⊕ ClassExpr) × List Char)
  | [] => .error .openClass
  | ['\\'] => .error .badEscape
  | '\\' :: 'd' :: rest => .ok (.inr .digit, rest)
  | '\\' :: 'D' :: rest => .ok (.inr (.complement .digit), rest)
  | '\\' :: c :: rest =>
    match escaped? c with
    | some c => .ok (.inl c, rest)
    | none => .error .badEscape
  | c :: rest => .ok (.inl c, rest)

/-- Whether a text goes on with a hyphen that joins two ends of a range. -/
def joinsRange : List Char → Bool
  | '-' :: c :: _ => c != ']' && c != '-'
  | _ => false

/-- A character, digits or a range, and what follows it. -/
def readClassRange (cs : List Char) : Except PatternError (ClassExpr × List Char) := do
  let (first, rest) ← readClassItem cs
  if joinsRange rest then
    let (last, rest) ← readClassItem rest.tail
    match first, last with
    | .inl first, .inl last =>
      if first ≤ last then return (.range first last, rest) else throw .badRange
    | _, _ => throw .badRange
  else
    match first with
    | .inl c => return (.one c, rest)
    | .inr e => return (e, rest)

/-- A named ASCII class after its opening bracket, and what follows it. -/
def readNamedClass? : List Char → Option (ClassExpr × List Char)
  | ':' :: rest =>
    let (negated, rest) := match rest with
      | '^' :: rest => (true, rest)
      | rest => (false, rest)
    match rest.dropWhile (· != ':') with
    | ':' :: ']' :: after =>
      (ClassExpr.named? (String.ofList (rest.takeWhile (· != ':')))).map fun e =>
        (e.negatedIf negated, after)
    | _ => none
  | _ => none

/-- The start of a class after its opening bracket: whether it is negated, and the characters that
stand for themselves because they come first, which are hyphens or else one closing bracket. -/
def openClass (cs : List Char) : Bool × List ClassPart × List Char :=
  let (negated, cs) := match cs with
    | '^' :: rest => (true, rest)
    | cs => (false, cs)
  match cs with
  | '-' :: _ =>
    let hyphens := cs.takeWhile (· == '-')
    (negated, hyphens.map fun c => .flat (.one c), cs.dropWhile (· == '-'))
  | ']' :: rest => (negated, [.flat (.one ']')], rest)
  | cs => (negated, [], cs)

/-- The rest of a class up to its closing bracket, where `before` stands before the last operation
and `parts`, from the last to the first, after it. Every step reads a character at least, so the
length of the text is fuel enough. -/
def readClassParts : Nat → Option (SetOp × ClassPart) → List ClassPart → List Char →
    Except PatternError (ClassPart × List Char)
  | 0, _, _, _ => .error .openClass
  | fuel + 1, before, parts, cs =>
    let read := ClassPart.after before (.union parts.reverse)
    match cs with
    | [] => .error .openClass
    | ']' :: rest => .ok (read, rest)
    | '[' :: rest =>
      match readNamedClass? rest with
      | some (e, rest) => readClassParts fuel before (.flat e :: parts) rest
      | none => do
        let (negated, first, rest) := openClass rest
        let (inner, rest) ← readClassParts fuel none first.reverse rest
        readClassParts fuel before (inner.bracketed negated :: parts) rest
    | '&' :: '&' :: rest => readClassParts fuel (some (.inter, read)) [] rest
    | '-' :: '-' :: rest => readClassParts fuel (some (.minus, read)) [] rest
    | '~' :: '~' :: rest => readClassParts fuel (some (.either, read)) [] rest
    | cs => do
      let (e, rest) ← readClassRange cs
      readClassParts fuel before (.flat e :: parts) rest

/-- A class after its opening bracket, and what follows its closing bracket. The fuel has to exceed
the length of the text. -/
def readClass (fuel : Nat) (cs : List Char) : Except PatternError (ClassPart × List Char) := do
  let (negated, first, rest) := openClass cs
  let (part, rest) ← readClassParts fuel none first.reverse rest
  return (part.bracketed negated, rest)

end Pattern

end Packrat
