import Packrat.Pattern.Reader
import Packrat.Regex

/-!
# An engine for regular expressions

Filters work with any engine for regular expressions. The patterns of this project make one that
runs, and so show that there are engines that keep the promises of `Regex.Engine`. It reads a part
of the usual notation and refuses the rest of it. As an engine of limited size it also refuses
patterns that are nested too deeply or make too large an automaton.

* `Pattern.engine`: the engine without limits, which keeps the promises.
* `Pattern.limitedEngine`: the engine with them, which programs use.
-/

namespace Packrat.Pattern

/-- The engine that compiles what can be read and what `finish` makes a pattern of. -/
def engineWith (finish : Draft → Except PatternError Pattern) : Regex.Engine where
  Error := PatternError
  compile pattern := do return ⟨(← finish (← read pattern.toList)).matchesIn⟩
  escape text := .ofList (quote text.toList)

/-- The engine that compiles whatever it can read. -/
def engine : Regex.Engine := engineWith fun d => .ok d.pattern

/-- The engine that refuses patterns beyond the limits. -/
def limitedEngine : Regex.Engine := engineWith Draft.finished

end Packrat.Pattern
