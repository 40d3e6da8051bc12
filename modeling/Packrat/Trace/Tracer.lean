import Packrat.Trace.Recorder
import Packrat.Trace.Transcript

/-!
# Tracers

Those who hear the signals of a run: a recorder or a transcript. The log is written on the same
occasion: it takes the lines of a transcript and the records of memo tables, in the order of the
signals.

* `Tracer.hear`: one signal.
* `hearAll`: all signals of a run.
-/

namespace Packrat

/-- A tracer and its state. -/
inductive Tracer where
  | recorder (r : Recorder)
  | transcript (t : Transcript)

namespace Tracer

variable {τ : Type} [Token τ]

/-- A tracer after a signal from a site, and the lines that it writes. -/
def hear (limit : Option Level) (tracer : Tracer) (signal : Signal τ) : Tracer × List Record :=
  match tracer with
  | .recorder r => (.recorder (r.hear signal), [])
  | .transcript t =>
    let (t, lines) := t.hear limit signal
    (.transcript t, lines)

end Tracer

variable {τ : Type} [Token τ]

/-- What becomes of a signal: the tracer, if there is one, after hearing it, and the records that it
leaves in the log. -/
def hear (limit : Option Level) (tracer : Option Tracer) (signal : Signal τ) :
    Option Tracer × List Record :=
  match signal, tracer with
  | .memo table use, tracer => (tracer, (use.record table).kept limit)
  | signal, some t =>
    let (t, lines) := t.hear limit signal
    (some t, lines)
  | _, none => (none, [])

/-- What becomes of the signals of a run. -/
def hearAll (limit : Option Level) (tracer : Option Tracer) :
    List (Signal τ) → Option Tracer × List Record
  | [] => (tracer, [])
  | signal :: rest =>
    let (tracer, first) := hear limit tracer signal
    let (tracer, others) := hearAll limit tracer rest
    (tracer, first ++ others)

end Packrat
