import Packrat.Signal

/-!
# Log records

Records of the library's log, by level. A record is kept when its level is within the limit that is
set for the log.

* `MemoUse.record`: the record of a use of a memo table.
-/

namespace Packrat

/-- How much a record matters, from the most to the least. -/
inductive Level where
  | error
  | warn
  | info
  | debug
  | trace
deriving Repr, DecidableEq

namespace Level

/-- The number of levels that matter more. -/
def rank : Level → Nat
  | .error => 0
  | .warn => 1
  | .info => 2
  | .debug => 3
  | .trace => 4

/-- Whether records of a level are kept under a limit. Without a limit none are. -/
def isWithin (l : Level) : Option Level → Bool
  | none => false
  | some limit => l.rank ≤ limit.rank

/-- The name of a level. -/
def name : Level → String
  | .error => "ERROR"
  | .warn => "WARN"
  | .info => "INFO"
  | .debug => "DEBUG"
  | .trace => "TRACE"

end Level

/-- A record of the library's log. -/
structure Record where
  level : Level
  text : String
deriving Repr, DecidableEq

/-- The record of a use of the memo table `table`. -/
def MemoUse.record (table : Memo) : MemoUse → Record
  | .created => ⟨.debug, "memo " ++ table.tag ++ ": table created"⟩
  | .hit offset => ⟨.trace, "memo " ++ table.tag ++ s!": hit at cursor({offset})"⟩
  | .miss offset => ⟨.trace, "memo " ++ table.tag ++ s!": miss at cursor({offset})"⟩

/-- The record, if its level is kept under the limit. -/
def Record.kept (r : Record) (limit : Option Level) : List Record :=
  if r.level.isWithin limit then [r] else []

end Packrat
