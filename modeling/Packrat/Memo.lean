import Packrat.Failure
import Packrat.Registry
import Packrat.Value

/-!
# Memo tables

A memo table remembers, for every place at which a parser was run, what came of it. Tables are
known by a number, so two tables with the same tag are different tables; the tag only labels them.

* `Table.find?`: the answer at a place.
* `Table.hit`, `Table.remember`: the two ways in which a use changes a table.
-/

namespace Packrat

/-- A match: where it stops and what it produced. -/
structure Match (τ : Type) where
  stop : Cursor τ
  value : Value τ

/-- What comes of running a parser: a match or a failure. -/
abbrev Result (τ : Type) := Except (Failure τ) (Match τ)

/-- The name of a memo table. -/
structure Memo where
  number : Nat
  tag : String
deriving Repr, DecidableEq

/-- The contents of a memo table. A table is opened by its first use at a place. -/
structure Table (τ : Type) where
  answers : Registry Place (Result τ)
  hits : Nat
  misses : Nat
  opened : Bool

namespace Table

variable {τ : Type}

/-- A table that was never used. -/
def empty : Table τ := ⟨∅, 0, 0, false⟩

/-- The number of places with an answer. -/
def size (t : Table τ) : Nat := t.answers.size

/-- The answer at a place. -/
def find? (t : Table τ) (place : Place) : Option (Result τ) := t.answers.find? place

/-- The table after a use that found an answer. -/
def hit (t : Table τ) : Table τ := { t with hits := t.hits + 1 }

/-- The table after a use that found no answer and got this one from the parser. -/
def remember (t : Table τ) (place : Place) (answer : Result τ) : Table τ :=
  { t with answers := t.answers.insert place answer, misses := t.misses + 1 }

/-- The table with its first use noted. -/
def opening (t : Table τ) : Table τ := { t with opened := true }

/-- The text of a table named `memo`. -/
def spelling (t : Table τ) (memo : Memo) : String :=
  "Memo \x7b tag: " ++ Text.quoteString memo.tag ++ s!", len: {t.size}, stats: MemoStats " ++
    s!"\x7b hits: {t.hits}, misses: {t.misses} \x7d \x7d"

end Table

end Packrat
