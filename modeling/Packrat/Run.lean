import Packrat.Context
import Packrat.Parser
import Packrat.Store

/-!
# Running parsers

A run takes a store to another one, gives a result and emits signals. Repetition and recursion may
go on for ever, so a run is given *fuel*, which bounds the depth of the recursion; without enough of
it a run has no outcome.

* `Parser.run`: the run of a parser.
* `Parser.Terminates`: some fuel is enough.
* `Outcome`: what the caller of a run is told.
-/

namespace Packrat

/-- A computation on stores that may run out of fuel and that emits signals. -/
def Run (τ α : Type) : Type := Store τ → Option (α × Store τ × List (Signal τ))

namespace Run

variable {τ α β : Type}

/-- The computation that has no outcome. -/
def exhausted : Run τ α := fun _ => none

/-- The computation that does nothing. -/
@[inline] def pure (a : α) : Run τ α := fun s => some (a, s, [])

/-- One computation after another; the signals of the first come first. -/
@[inline] def bind (x : Run τ α) (f : α → Run τ β) : Run τ β := fun s =>
  match x s with
  | none => none
  | some (a, s, before) =>
    match f a s with
    | none => none
    | some (b, s, after) => some (b, s, before ++ after)

instance : Monad (Run τ) where
  pure := pure
  bind := bind

/-- Emits one signal. -/
def emit (signal : Signal τ) : Run τ Unit := fun s => some ((), s, [signal])

/-- Changes the store. -/
def modify (f : Store τ → Store τ) : Run τ Unit := fun s => some ((), f s, [])

/-- Asks a memo table for the answer at a place. -/
def consult (memo : Memo) (place : Place) : Run τ (Option (Result τ)) := fun s =>
  some (s.consult memo place)

/-- Enters an answer into a memo table. -/
def enter (memo : Memo) (place : Place) (answer : Result τ) : Run τ Unit := fun s =>
  some ((), s.enter memo place answer)

end Run

/-- What a site reports about its result. -/
def Report.of {τ : Type} (report : Report) (start : Cursor τ) :
    Result τ → Cursor τ × Except (Failure τ) (Value τ)
  | .error f => (start, .error f)
  | .ok m =>
    match report with
    | .value => (m.stop, .ok m.value)
    | .span => (m.stop, .ok (.span ⟨start, m.stop⟩))

namespace Parser

variable {τ ρ : Type}

/-- The run of a parser at `start`, under the settings `ctx` and with the rules of `grammar`. -/
def run (grammar : Grammar τ ρ) : Nat → Context → Parser τ ρ → Cursor τ → Run τ (Result τ)
  | 0, _, _, _ => Run.exhausted
  | fuel + 1, ctx, p, start =>
    match p with
    | .leaf l => return l.run start
    | .adapt a p => do
      return a.apply start (← run grammar fuel ctx p start)
    | .andThen p q combine => do
      match ← run grammar fuel ctx p start with
      | .error f => return .error f
      | .ok first =>
        match ← run grammar fuel ctx q first.stop with
        | .error f => return .error f
        | .ok second => return .ok ⟨second.stop, combine first.value second.value⟩
    | .orElse p q => do
      match ← run grammar fuel ctx p start with
      | .error _ => run grammar fuel ctx q start
      | .ok m => return .ok m
    | .repeated limit p =>
      if limit = some 0 then return .ok ⟨start, .list []⟩
      else do
        match ← run grammar fuel ctx p start with
        | .error _ => return .ok ⟨start, .list []⟩
        | .ok first =>
          match ← run grammar fuel ctx (.repeated (limit.map (· - 1)) p) first.stop with
          | .error f => return .error f
          | .ok rest => return .ok ⟨rest.stop, first.value.cons rest.value⟩
    | .till body stop => do
      match ← run grammar fuel ctx stop start with
      | .ok last => return .ok ⟨last.stop, .pair (.list []) last.value⟩
      | .error _ =>
        match ← run grammar fuel ctx body start with
        | .error f => return .error f
        | .ok first =>
          match ← run grammar fuel ctx (.till body stop) first.stop with
          | .error f => return .error f
          | .ok rest => return .ok ⟨rest.stop, first.value.consLeft rest.value⟩
    | .delimited delimiter item => do
      match ← run grammar fuel ctx delimiter start with
      | .error _ => return .ok ⟨start, .list []⟩
      | .ok between =>
        match ← run grammar fuel ctx item between.stop with
        | .error _ => return .ok ⟨start, .list []⟩
        | .ok first =>
          match ← run grammar fuel ctx (.delimited delimiter item) first.stop with
          | .error f => return .error f
          | .ok rest => return .ok ⟨rest.stop, first.value.cons rest.value⟩
    | .assign slot p => do
      match ← run grammar fuel ctx p start with
      | .error f => return .error f
      | .ok m =>
        Run.modify (·.setSlot slot m.value)
        return .ok ⟨m.stop, .unit⟩
    | .memo table p =>
      match start.place? with
      | none => run grammar fuel ctx p start
      | some place => do
        match ← Run.consult table place with
        | some answer => return answer
        | none =>
          let answer ← run grammar fuel ctx p start
          Run.enter table place answer
          return answer
    | .tally counter p => do
      Run.modify (·.raise counter)
      run grammar fuel ctx p start
    | .rule name => run grammar fuel ctx (grammar name) start
    | .site name report p =>
      if ctx.listening then do
        Run.emit (.enter name start)
        let result ← run grammar fuel ctx p start
        let (stop, outcome) := report.of start result
        Run.emit (.exit name start stop outcome)
        return result
      else run grammar fuel ctx p start
    | .scope on p => run grammar fuel (ctx.inScope on) p start

/-- Whether some fuel is enough for the run of `p` at `start` from the store `s`. -/
def Terminates (grammar : Grammar τ ρ) (ctx : Context) (p : Parser τ ρ) (start : Cursor τ)
    (s : Store τ) : Prop :=
  ∃ fuel, (run grammar fuel ctx p start s).isSome

end Parser

/-- What the caller of a run is told: where it stopped, and the value or the failure. A parser that
failed stopped where it started. -/
structure Outcome (τ : Type) where
  cursor : Cursor τ
  result : Except (Failure τ) (Value τ)

namespace Outcome

variable {τ : Type}

/-- The outcome of a run that started at `start`. -/
def ofResult (start : Cursor τ) : Result τ → Outcome τ
  | .ok m => ⟨m.stop, .ok m.value⟩
  | .error f => ⟨start, .error f⟩

/-- Whether the parser matched. -/
def isOk (o : Outcome τ) : Bool := o.result.isOk

/-- An outcome with its fields named. -/
def spelling [Token τ] (o : Outcome τ) : String :=
  let result := match o.result with
    | .ok v => "Ok(" ++ v.spelling ++ ")"
    | .error f => "Err(" ++ f.spelling ++ ")"
  "Outcome \x7b cursor: " ++ o.cursor.spelling ++ ", result: " ++ result ++ " \x7d"

end Outcome

end Packrat
