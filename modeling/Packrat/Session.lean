import Packrat.Run
import Packrat.Trace.Tracer

/-!
# Sessions

Runs of parsers that share memo tables, slots, counters and tracers. Each operation gives the session
after it and the records that it leaves in the log.

* `Session.run`: a run of a parser, heard by the tracer of its context.
* `Session.notify`: a signal that reaches a tracer without a run.
-/

namespace Packrat

/-- The store, the tracers by name, and the limit of the log. -/
structure Session (τ : Type) where
  store : Store τ
  tracers : Registry String Tracer
  limit : Option Level

namespace Session

variable {τ ρ : Type} [Token τ]

/-- A session in which nothing happened yet. -/
def start (tracers : Registry String Tracer) (limit : Option Level) : Session τ :=
  ⟨∅, tracers, limit⟩

/-- The session with the state of a tracer replaced. -/
def setTracer (s : Session τ) (name : String) (tracer : Tracer) : Session τ :=
  { s with tracers := s.tracers.insert name tracer }

/-- Lets the tracer of that name hear signals. Without such a tracer, only the log takes note. -/
def notify (s : Session τ) (name : Option String) (signals : List (Signal τ)) :
    Session τ × List Record :=
  let tracer := name.bind s.tracers.find?
  let (heard, records) := hearAll s.limit tracer signals
  match name, heard with
  | some name, some tracer => (s.setTracer name tracer, records)
  | _, _ => (s, records)

/-- Runs a parser at `start`. The tracer that the context names hears the signals. There is no
outcome if the fuel is not enough. -/
def run (s : Session τ) (grammar : Grammar τ ρ) (fuel : Nat) (ctx : Context) (p : Parser τ ρ)
    (start : Cursor τ) : Option (Outcome τ × Session τ × List Record) :=
  match p.run grammar fuel ctx start s.store with
  | none => none
  | some (result, store, signals) =>
    some (.ofResult start result, { s with store := store }.notify ctx.tracer signals)

@[simp] theorem store_notify (s : Session τ) (name : Option String) (signals : List (Signal τ)) :
    (s.notify name signals).1.store = s.store := by
  unfold notify
  dsimp only
  split <;> rfl

/-- The outcome of a run in a session is that of a run of the parser, and so is the store. -/
theorem of_run {s t : Session τ} {grammar : Grammar τ ρ} {fuel : Nat} {ctx : Context}
    {p : Parser τ ρ} {start : Cursor τ} {out : Outcome τ} {records : List Record}
    (h : s.run grammar fuel ctx p start = some (out, t, records)) :
    ∃ result signals, p.run grammar fuel ctx start s.store = some (result, t.store, signals) ∧
      out = .ofResult start result ∧
      { s with store := t.store }.notify ctx.tracer signals = (t, records) := by
  unfold run at h
  split at h
  · cases h
  · rename_i result store signals hr
    obtain ⟨rfl, hn⟩ := Prod.mk.inj (Option.some.inj h)
    have hstore := store_notify { s with store := store } ctx.tracer signals
    rw [hn] at hstore
    subst hstore
    exact ⟨result, signals, hr, rfl, hn⟩

end Session

end Packrat
