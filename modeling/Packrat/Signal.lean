import Packrat.Memo

/-!
# Signals

What a run of a parser lets others know, in the order in which it happens: entry to and exit from
the named sites, and the use of memo tables. Who hears the signals, and what becomes of them, is no
part of the run.
-/

namespace Packrat

/-- A use of a memo table: its first, one that found an answer, or one that entered an answer. -/
inductive MemoUse where
  | created
  | hit (offset : Nat)
  | miss (offset : Nat)
deriving Repr, DecidableEq

/-- A notice from a run. -/
inductive Signal (τ : Type) where
  /-- The site `name` is entered at `start`. -/
  | enter (name : String) (start : Cursor τ)
  /-- The site `name`, entered at `start`, is left at `stop` with a value to report or a failure. -/
  | exit (name : String) (start stop : Cursor τ) (outcome : Except (Failure τ) (Value τ))
  /-- A memo table is used. -/
  | memo (memo : Memo) (use : MemoUse)

end Packrat
