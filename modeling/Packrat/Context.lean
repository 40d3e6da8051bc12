/-!
# Contexts

The settings under which a parser runs: who listens, and whether sites are reported. A context is a
plain value; a parser that changes the settings for a part of its work hands a changed copy to that
part alone.

* `Context.tracing`: whether tracing is on.
* `Context.listening`: whether somebody hears the sites.
-/

namespace Packrat

/-- The settings of a run: the name of the tracer, if one is attached, the switch, and the word of
the innermost part of the parser that overrides the switch. -/
structure Context where
  tracer : Option String
  switch : Bool
  scope : Option Bool
deriving Repr, DecidableEq

namespace Context

/-- No tracer, and tracing off. -/
def plain : Context := ⟨none, false, none⟩

instance : Inhabited Context := ⟨plain⟩

/-- Attaches a tracer. It hears nothing as long as tracing is off. -/
def withTracer (ctx : Context) (name : String) : Context := { ctx with tracer := some name }

/-- Switches tracing on. -/
def withTracing (ctx : Context) : Context := { ctx with switch := true }

/-- Switches tracing off. -/
def withoutTracing (ctx : Context) : Context := { ctx with switch := false }

/-- Puts tracing on or off whatever the switch says. -/
def inScope (ctx : Context) (on : Bool) : Context := { ctx with scope := some on }

/-- Whether tracing is on: the scope has the word, and without one the switch. -/
def tracing (ctx : Context) : Bool := ctx.scope.getD ctx.switch

/-- The tracer to notify: the one attached, while tracing is on. -/
def listener? (ctx : Context) : Option String := if ctx.tracing then ctx.tracer else none

/-- Whether there is a tracer to notify. -/
def listening (ctx : Context) : Bool := ctx.listener?.isSome

/-- A context with its fields named. -/
def spelling (ctx : Context) : String :=
  let scope := match ctx.scope with
    | none => "None"
    | some on => s!"Some({on})"
  s!"Context \x7b tracer: {ctx.tracer.isSome}, enabled: {ctx.switch}, scoped: {scope} \x7d"

@[simp] theorem tracing_inScope (ctx : Context) (on : Bool) : (ctx.inScope on).tracing = on := rfl

@[simp] theorem inScope_inScope (ctx : Context) (on off : Bool) :
    (ctx.inScope on).inScope off = ctx.inScope off := rfl

end Context

end Packrat
