import Packrat.Parser

/-!
# Named sites

Every combinator of the library is a site of its own: a tracer hears its entry and its exit, and the
exit reports the span that was consumed. Whoever builds a grammar may name further sites, which
report their values, and may silence a part of it or make it heard.
-/

namespace Packrat

/-- The name under which the library speaks: the module of its sites and the target of its log
records. -/
def libraryName : String := "chainparse"

namespace Parser

variable {τ ρ : Type}

/-- A site of the library. -/
def builtIn (name : String) (p : Parser τ ρ) : Parser τ ρ :=
  .site (libraryName ++ "::" ++ name) .span p

/-- A site that reports its value. -/
def named (name : String) (p : Parser τ ρ) : Parser τ ρ := .site name .value p

/-- A parser with tracing off for all of it. -/
def muted (p : Parser τ ρ) : Parser τ ρ := .scope false p

/-- A parser with tracing on for all of it, even where it is off around it. -/
def unmuted (p : Parser τ ρ) : Parser τ ρ := .scope true p

/-- A parser that runs at most once at a place: later runs are answered from the table. At the end of
input it is always run. -/
def memoized (table : Memo) (p : Parser τ ρ) : Parser τ ρ := .memo table p

/-- A parser that raises a counter each time it is run. -/
def counted (counter : String) (p : Parser τ ρ) : Parser τ ρ := .tally counter p

end Parser

end Packrat
