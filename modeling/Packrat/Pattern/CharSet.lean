import Packrat.Text.Digit
import Packrat.Text.Letter

/-!
# Sets of characters

A set of characters is a list of ranges of code points, in increasing order and with gaps between
them. Code points that are no characters may lie in a range; no test ever asks for them.

* `CharSet.contains`: whether a character belongs to a set.
* `CharSet.union`, `CharSet.complement`, `CharSet.inter`, `CharSet.minus`, `CharSet.either`: the
  operations of sets.
* `CharSet.inAnyCase`: the set with all case variants of its characters.
* `CharSet.charRanges`: the ranges of a set with characters at their ends.
-/

namespace Packrat

/-- A set of characters, given by ranges of code points with both ends included. -/
structure CharSet where
  ranges : List (Nat × Nat)
deriving Repr, DecidableEq

namespace CharSet

/-- No character. -/
def empty : CharSet := ⟨[]⟩

/-- The characters from `first` to `last`. -/
def range (first last : Char) : CharSet := ⟨[(first.toNat, last.toNat)]⟩

/-- The set of one character. -/
def one (c : Char) : CharSet := range c c

/-- A range with characters at both ends, if it has a character at all. The code points from D800 to
DFFF are none. -/
def trimmed? (first last : Nat) : Option (Nat × Nat) :=
  let first := if 0xD800 ≤ first && first < 0xE000 then 0xE000 else first
  let last := if 0xD800 ≤ last && last < 0xE000 then 0xD7FF else last
  if first ≤ last then some (first, last) else none

/-- The ranges of a set, with characters at their ends. -/
def charRanges (s : CharSet) : List (Nat × Nat) := s.ranges.filterMap fun r => trimmed? r.1 r.2

/-- Whether a code point lies in a range. -/
def covers (s : CharSet) (n : Nat) : Bool := s.ranges.any fun r => r.1 ≤ n && n ≤ r.2

/-- Whether a character belongs to a set. -/
def contains (s : CharSet) (c : Char) : Bool := s.covers c.toNat

@[simp] theorem contains_one (c d : Char) : (one c).contains d = (d == c) := by
  have same : d = c ↔ d.toNat = c.toNat := ⟨fun h => h ▸ rfl, fun h => Char.toNat_inj.mp h⟩
  rw [Bool.eq_iff_iff]
  simp only [one, range, contains, covers, List.any_cons, List.any_nil, Bool.or_false,
    Bool.and_eq_true, decide_eq_true_eq, beq_iff_eq, same]
  omega

/-- The range from `first` to `last` and ranges that do not begin before it, those that touch or
overlap joined. -/
def joined (first last : Nat) : List (Nat × Nat) → List (Nat × Nat)
  | [] => [(first, last)]
  | r :: rest =>
    if r.1 ≤ last + 1 then joined first (max last r.2) rest
    else (first, last) :: joined r.1 r.2 rest

/-- The set of the code points in some of the ranges. -/
def ofRanges (ranges : List (Nat × Nat)) : CharSet :=
  match ranges.mergeSort fun r s => r.1 ≤ s.1 with
  | [] => empty
  | r :: rest => ⟨joined r.1 r.2 rest⟩

/-- The last code point. -/
def lastCode : Nat := 0x10FFFF

/-- The gaps between ranges, from the code point `start` on. -/
def gaps (start : Nat) : List (Nat × Nat) → List (Nat × Nat)
  | [] => if start ≤ lastCode then [(start, lastCode)] else []
  | r :: rest =>
    if start < r.1 then (start, r.1 - 1) :: gaps (r.2 + 1) rest else gaps (r.2 + 1) rest

/-- The characters of either set. -/
def union (a b : CharSet) : CharSet := ofRanges (a.ranges ++ b.ranges)

/-- All characters that are not in the set. -/
def complement (a : CharSet) : CharSet := ⟨gaps 0 a.ranges⟩

/-- The characters of both sets. -/
def inter (a b : CharSet) : CharSet := (a.complement.union b.complement).complement

/-- The characters of the first set that are not in the second. -/
def minus (a b : CharSet) : CharSet := a.inter b.complement

/-- The characters of exactly one of two sets. -/
def either (a b : CharSet) : CharSet := (a.minus b).union (b.minus a)

/-- All characters but the line feed. -/
def notLineFeed : CharSet := (one '\n').complement

/-- The decimal digits of all scripts. -/
def digit : CharSet := ofRanges (Text.zeros.map fun z => (z, z + 9))

/-- The set with all case variants of its characters: first the case foldings of its characters are
added, then all characters that have one of these foldings. -/
def inAnyCase (s : CharSet) : CharSet :=
  let folded := s.union (ofRanges (Text.foldings.filterMap fun p =>
    if s.covers p.1 then some (p.2, p.2) else none))
  folded.union (ofRanges (Text.foldings.filterMap fun p =>
    if folded.covers p.2 then some (p.1, p.1) else none))

end CharSet

end Packrat
