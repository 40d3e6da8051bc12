import Packrat.Regex

/-!
# Filters of site names

Patterns that include names and patterns that exclude them. An exclusion always wins, and without
any inclusion every name is included that is not excluded. Patterns are compiled by an engine for
regular expressions, whichever it is.

* `Filter.allows`: the test of a name.
* `Filter.including`, `Filter.includingModule` and their counterparts: one more pattern.
-/

namespace Packrat

/-- The compiled patterns of a filter. -/
structure Filter where
  included : List Regex
  excluded : List Regex

namespace Filter

/-- The filter that allows every name. -/
def all : Filter := ⟨[], []⟩

instance : Inhabited Filter := ⟨all⟩

/-- Whether a filter lets a name pass. -/
def allows (f : Filter) (name : String) : Bool :=
  !f.excluded.any (·.isMatch name) &&
    (f.included.isEmpty || f.included.any (·.isMatch name))

section

variable (engine : Regex.Engine)

/-- One more pattern of names to include. -/
def including (f : Filter) (pattern : String) : Except engine.Error Filter := do
  return { f with included := f.included ++ [← engine.compile pattern] }

/-- One more pattern of names to exclude. -/
def excluding (f : Filter) (pattern : String) : Except engine.Error Filter := do
  return { f with excluded := f.excluded ++ [← engine.compile pattern] }

/-- The pattern of the names that begin with `path` and two colons. -/
def modulePattern (path : String) : String := "^" ++ engine.escape path ++ "::"

/-- Includes the names of the module `path`. -/
def includingModule (f : Filter) (path : String) : Except engine.Error Filter :=
  f.including engine (modulePattern engine path)

/-- Excludes the names of the module `path`. -/
def excludingModule (f : Filter) (path : String) : Except engine.Error Filter :=
  f.excluding engine (modulePattern engine path)

end

end Filter

end Packrat
