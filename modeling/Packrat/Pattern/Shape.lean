import Packrat.Pattern.CharSet

/-!
# Shapes of patterns

What an automaton is built from: a pattern in which characters side by side are words, alternatives
of single characters are sets, and the parts with which all alternatives begin stand before them.

* `Shape.inOrder`, `Shape.anyOf`, `Shape.times`: the ways to make a shape of shapes.
* `Shape.shortest`: the length of the shortest match.
* `Shape.opens`, `Shape.closes`: whether a match is bound to an end of the text.
-/

namespace Packrat

/-- The shape of a pattern. A sequence and a choice hold their parts as a chain: the first part of
each is neither a sequence nor a choice, in turn. -/
inductive Shape where
  | empty
  /-- Characters as they stand. -/
  | word (text : List Char)
  /-- One character of a set. -/
  | chars (set : CharSet)
  | start
  | stop
  /-- A part of which it is noted where it matched. -/
  | captured (p : Shape)
  /-- At least `least` matches in turn, and at most `most` if there is such a limit; as many as
  possible are preferred, or as few. -/
  | repeated (least : Nat) (most : Option Nat) (greedy : Bool) (p : Shape)
  | seq (p q : Shape)
  | alt (p q : Shape)
deriving Repr, DecidableEq

namespace Shape

/-- One character of a set. A set of one character is a word. -/
def ofSet (set : CharSet) : Shape :=
  match set.charRanges with
  | [(first, last)] => if first = last then .word [Char.ofNat first] else .chars ⟨[(first, last)]⟩
  | ranges => .chars ⟨ranges⟩

/-- Whether no match reads a character. -/
def blank : Shape → Bool
  | .empty | .start | .stop => true
  | .word _ | .chars _ => false
  | .captured p | .repeated _ _ _ p => p.blank
  | .seq p q | .alt p q => p.blank && q.blank

/-- The number of characters of the shortest match, if the sets leave a match at all. -/
def shortest : Shape → Option Nat
  | .empty | .start | .stop => some 0
  | .word text => some text.length
  | .chars set => if set.ranges.isEmpty then none else some 1
  | .captured p => p.shortest
  | .repeated least _ _ p => p.shortest.map (least * ·)
  | .seq p q => do return (← p.shortest) + (← q.shortest)
  | .alt p q => do return min (← p.shortest) (← q.shortest)

/-- Whether a match can begin at the start of the text only. -/
def opens : Shape → Bool
  | .start => true
  | .empty | .stop | .word _ | .chars _ => false
  | .captured p => p.opens
  | .repeated least _ _ p => 0 < least && p.opens
  | .seq p q => p.opens || (p.blank && q.opens)
  | .alt p q => p.opens && q.opens

/-- Whether a match can end at the end of the text only. -/
def closes : Shape → Bool
  | .stop => true
  | .empty | .start | .word _ | .chars _ => false
  | .captured p => p.closes
  | .repeated least _ _ p => 0 < least && p.closes
  | .seq p q => q.closes || (q.blank && p.closes)
  | .alt p q => p.closes && q.closes

/-- Whether it is noted of some part where it matched. -/
def notes : Shape → Bool
  | .captured _ => true
  | .empty | .start | .stop | .word _ | .chars _ => false
  | .repeated _ _ _ p => p.notes
  | .seq p q | .alt p q => p.notes || q.notes

/-! ## Sequences -/

/-- The parts of a sequence. -/
def parts : Shape → List Shape
  | .empty => []
  | .seq p q => p.parts ++ q.parts
  | p => [p]

/-- A part before other parts. Words side by side become one. -/
def before (p : Shape) (parts : List Shape) : List Shape :=
  match p, parts with
  | .word s, .word t :: rest => .word (s ++ t) :: rest
  | p, parts => p :: parts

/-- The sequence of parts. -/
def ofParts (parts : List Shape) : Shape :=
  match parts.reverse with
  | [] => .empty
  | last :: earlier => earlier.foldl (fun rest p => .seq p rest) last

/-- Shapes in turn. -/
def inOrder (shapes : List Shape) : Shape := ofParts ((shapes.flatMap parts).foldr before [])

/-! ## Choices -/

/-- The alternatives of a choice. -/
def branches : Shape → List Shape
  | .alt p q => p.branches ++ q.branches
  | p => [p]

/-- The choice between alternatives. -/
def ofBranches (branches : List Shape) : Shape :=
  match branches.reverse with
  | [] => .chars .empty
  | last :: earlier => earlier.foldl (fun rest p => .alt p rest) last

/-- The set of a word of one character. -/
def letter? : Shape → Option CharSet
  | .word [c] => some (.one c)
  | _ => none

/-- The set of a shape that is one. -/
def set? : Shape → Option CharSet
  | .chars set => some set
  | _ => none

/-- Whether a shape is a sequence of two parts or more. -/
def isSequence : Shape → Bool
  | .seq _ _ => true
  | _ => false

/-- The choice between alternatives. Single characters become one set, and so do sets. -/
def choice (branches : List Shape) : Shape :=
  match branches with
  | [p] => p
  | branches =>
    match branches.mapM letter? <|> branches.mapM set? with
    | some sets => ofSet (.ofRanges (sets.flatMap (·.ranges)))
    | none => ofBranches branches

/-- The parts with which both lists begin. Two parts of which it is noted where they matched are
different, whatever they look like. -/
def commonParts : List Shape → List Shape → List Shape
  | p :: ps, q :: qs => if p = q && !p.notes then p :: commonParts ps qs else []
  | _, _ => []

/-- The parts with which all alternatives begin, if all of them are sequences. -/
def sharedParts (branches : List Shape) : List Shape :=
  match branches with
  | first :: rest =>
    if branches.all isSequence then (rest.map parts).foldl commonParts first.parts else []
  | [] => []

/-- Shapes of which one has to match. What all of them begin with stands before the choice. The rests
of the alternatives do not begin alike once more: a rest that is a choice was made by this function,
so its own alternatives do not. -/
def anyOf (shapes : List Shape) : Shape :=
  let branches := shapes.flatMap branches
  match branches with
  | [p] => p
  | branches =>
    match sharedParts branches with
    | [] => choice branches
    | shared =>
      let rests := branches.map fun p => inOrder (p.parts.drop shared.length)
      inOrder (shared ++ [choice (rests.flatMap Shape.branches)])

/-! ## Repetitions -/

/-- The least and the greatest number of matches in turn that make a difference: more than one match
of a blank shape does not. -/
def bounds (p : Shape) (least : Nat) (most : Option Nat) : Nat × Option Nat :=
  if p.blank then (min least 1, some (min (most.getD 1) 1)) else (least, most)

/-- Matches of a shape in turn, as many as the bounds say. -/
def times (least : Nat) (most : Option Nat) (greedy : Bool) (p : Shape) : Shape :=
  match p.bounds least most with
  | (_, some 0) => .empty
  | (1, some 1) => p
  | (least, most) => .repeated least most greedy p

end Shape

end Packrat
