import Packrat.Pattern.CharSet

/-!
# Patterns

Regular expressions over characters, and the test whether a text contains a match. A match may begin
and end anywhere in the text unless the pattern is anchored.

The test reads the text once, from the left. Beside the pattern it keeps marks at those of its
characters that were just read, one for every match that is under way.

* `Pattern.passes`: whether a match ends at a border between characters.
* `Pattern.step`: how the marks move over a character.
* `Pattern.matchesIn`: whether a text contains a match.
-/

namespace Packrat

/-- A regular expression. -/
inductive Pattern where
  /-- No character. -/
  | empty
  /-- One character of a set. -/
  | chars (set : CharSet)
  /-- The start of the text. -/
  | start
  /-- The end of the text. -/
  | stop
  | seq (p q : Pattern)
  | alt (p q : Pattern)
  /-- Any number of matches in turn. -/
  | star (p : Pattern)
deriving Repr, DecidableEq

/-- A place between two characters of a text, or at one of its ends. -/
structure Border where
  atStart : Bool
  atStop : Bool
deriving Repr, DecidableEq

namespace Pattern

/-- The pattern that matches a list of characters as it stands. -/
def literal : List Char → Pattern
  | [] => .empty
  | c :: cs => .seq (.chars (.one c)) (literal cs)

/-- `n` matches in turn. Halves are shared, so the pattern is small however large `n` is. -/
def power (p : Pattern) (n : Nat) : Pattern :=
  if n = 0 then .empty
  else if n = 1 then p
  else
    let half := power p (n / 2)
    if n % 2 = 0 then .seq half half else .seq p (.seq half half)
termination_by n

/-- At least `least` matches in turn, and at most `most` if there is such a limit. -/
def repeated (least : Nat) (most : Option Nat) (p : Pattern) : Pattern :=
  match most with
  | none => .seq (p.power least) (.star p)
  | some most => .seq (p.power least) ((Pattern.alt p .empty).power (most - least))

end Pattern

/-- Marks at the characters of a pattern. -/
inductive Marks where
  /-- No mark in the whole pattern. -/
  | none
  /-- A mark at the only character. -/
  | here
  /-- The marks of the two parts of a pattern. -/
  | both (p q : Marks)
deriving Repr, DecidableEq

namespace Marks

/-- Whether there is no mark. -/
def areNone : Marks → Bool
  | .none => true
  | _ => false

/-- Whether there is a mark at the only character. -/
def areHere : Marks → Bool
  | .here => true
  | _ => false

/-- The marks of the first of two parts. -/
def first : Marks → Marks
  | .both p _ => p
  | _ => .none

/-- The marks of the second of two parts. -/
def second : Marks → Marks
  | .both _ q => q
  | _ => .none

/-- The marks of two parts together. -/
def pair : Marks → Marks → Marks
  | .none, .none => .none
  | p, q => .both p q

end Marks

namespace Pattern

/-- Whether a match ends at the border `b`: one that is under way, as the marks say, or if `fresh`
holds, one that begins there. -/
def passes (b : Border) (fresh : Bool) (marks : Marks) : Pattern → Bool
  | .empty => fresh
  | .chars _ => marks.areHere
  | .start => fresh && b.atStart
  | .stop => fresh && b.atStop
  | .seq p q =>
    (fresh || !marks.areNone) && q.passes b (p.passes b fresh marks.first) marks.second
  | .alt p q =>
    (fresh || !marks.areNone) &&
      (p.passes b fresh marks.first || q.passes b fresh marks.second)
  | .star p => fresh || p.passes b false marks

/-- The marks after the character `c` that follows the border `b`. Every mark moves on, or is lost,
and if `fresh` holds, a match may begin at the border. With the marks comes whether a match ends at
the border, which is what `passes` says. -/
def step (b : Border) (c : Char) (fresh : Bool) (marks : Marks) : Pattern → Marks × Bool
  | .empty => (.none, fresh)
  | .chars set => (if fresh && set.contains c then .here else .none, marks.areHere)
  | .start => (.none, fresh && b.atStart)
  | .stop => (.none, fresh && b.atStop)
  | .seq p q =>
    if fresh || !marks.areNone then
      let (first, passes) := p.step b c fresh marks.first
      let (second, passes) := q.step b c passes marks.second
      (first.pair second, passes)
    else (.none, false)
  | .alt p q =>
    if fresh || !marks.areNone then
      let (first, passes) := p.step b c fresh marks.first
      let (second, alsoPasses) := q.step b c fresh marks.second
      (first.pair second, passes || alsoPasses)
    else (.none, false)
  | .star p =>
    let fresh := fresh || p.passes b false marks
    ((p.step b c fresh marks).1, fresh)

@[simp] theorem snd_step (b : Border) (c : Char) (fresh : Bool) (marks : Marks) (p : Pattern) :
    (p.step b c fresh marks).2 = p.passes b fresh marks := by
  induction p generalizing fresh marks with
  | seq p q ihp ihq =>
    cases h : fresh || !marks.areNone <;> simp [step, passes, h, ihp, ihq]
  | alt p q ihp ihq =>
    cases h : fresh || !marks.areNone <;> simp [step, passes, h, ihp, ihq]
  | _ => rfl

/-- Whether a match ends at the border before `text` or later; a match may begin there or later, or
be under way. -/
def leadsToMatch (p : Pattern) (marks : Marks) (atStart : Bool) : List Char → Bool
  | [] => p.passes ⟨atStart, true⟩ true marks
  | c :: text =>
    let (marks, passes) := p.step ⟨atStart, false⟩ c true marks
    passes || p.leadsToMatch marks false text

/-- Whether a text contains a match. -/
def matchesIn (p : Pattern) (text : String) : Bool := p.leadsToMatch .none true text.toList

end Pattern

end Packrat
