import Packrat.Signal
import Packrat.Trace.Filter

/-!
# Recorders

A recorder keeps the entries and exits of the sites that its filter allows, with offsets in place of
cursors and texts in place of values and failures.

* `Signal.event?`: what there is to record of a signal.
* `toList_hearAll`: a recorder adds the events of the signals that its filter allows, in order.
-/

namespace Packrat

/-- What a recorder keeps of an entry or an exit. -/
inductive TraceEvent where
  | enter (name : String) (start : Nat)
  | exit (name : String) (start stop : Nat) (result : Except String String)

namespace TraceEvent

/-- The name of the site. -/
def name : TraceEvent → String
  | .enter name _ => name
  | .exit name _ _ _ => name

/-- Whether the event is an entry. -/
def isEnter : TraceEvent → Bool
  | .enter .. => true
  | .exit .. => false

@[simp] theorem name_enter (n : String) (start : Nat) : (enter n start).name = n := rfl

@[simp] theorem name_exit (n : String) (start stop : Nat) (result : Except String String) :
    (exit n start stop result).name = n := rfl

@[simp] theorem isEnter_enter (n : String) (start : Nat) : (enter n start).isEnter = true := rfl

@[simp] theorem isEnter_exit (n : String) (start stop : Nat) (result : Except String String) :
    (exit n start stop result).isEnter = false := rfl

end TraceEvent

/-- The event of a signal from a site. -/
def Signal.event? {τ : Type} [Token τ] : Signal τ → Option TraceEvent
  | .enter name start => some (.enter name start.offset)
  | .exit name start stop outcome =>
    let result := match outcome with
      | .ok v => .ok v.spelling
      | .error f => .error f.message
    some (.exit name start.offset stop.offset result)
  | .memo .. => none

/-- A tracer that keeps events. -/
structure Recorder where
  filter : Filter
  events : Array TraceEvent

namespace Recorder

/-- A recorder that has heard nothing. -/
def ofFilter (filter : Filter) : Recorder := ⟨filter, #[]⟩

/-- The recorder without its events. -/
def clear (r : Recorder) : Recorder := { r with events := #[] }

/-- How often the site `name` was entered. -/
def enterCount (r : Recorder) (name : String) : Nat :=
  (r.events.toList.filter fun e => e.isEnter && e.name == name).length

/-- How often the site `name` was left. -/
def exitCount (r : Recorder) (name : String) : Nat :=
  (r.events.toList.filter fun e => !e.isEnter && e.name == name).length

variable {τ : Type} [Token τ]

/-- What a recorder keeps of a signal: its event, if the filter allows its name. -/
def heard? (r : Recorder) (signal : Signal τ) : Option TraceEvent :=
  signal.event?.filter fun e => r.filter.allows e.name

/-- The recorder after a signal. -/
def hear (r : Recorder) (signal : Signal τ) : Recorder :=
  match r.heard? signal with
  | some e => { r with events := r.events.push e }
  | none => r

theorem filter_hear (r : Recorder) (signal : Signal τ) : (r.hear signal).filter = r.filter := by
  unfold hear
  split <;> rfl

theorem toList_hear (r : Recorder) (signal : Signal τ) :
    (r.hear signal).events.toList = r.events.toList ++ (r.heard? signal).toList := by
  unfold hear
  split <;> rename_i h <;> simp [h]

/-- A recorder adds the events of the signals that its filter allows, in order. -/
theorem toList_hearAll (r : Recorder) (signals : List (Signal τ)) :
    (signals.foldl hear r).events.toList = r.events.toList ++ signals.filterMap r.heard? := by
  induction signals generalizing r with
  | nil => simp
  | cons signal rest ih =>
    have same : (r.hear signal).heard? = (r.heard? : Signal τ → _) := by
      funext s
      simp only [heard?, filter_hear]
    rw [List.foldl_cons, ih, toList_hear, same, List.filterMap_cons]
    cases r.heard? signal <;> simp

end Recorder

end Packrat
