import Packrat.Proofs.Bounds
import Packrat.Proofs.Selection
import Packrat.Proofs.Transparency
import Packrat.Session

/-!
# Calls of memo tables

A call of a memo table begins, perhaps runs the parser that the table is wrapped around, and
returns. Other calls may begin and return meanwhile, also calls of the same table at the same place.
What an execution does to the tables is told by its activity: the calls that it makes, with the
stores before and after each of them and what happens inside of it.

* `Activity`: the visits of sites and the calls of tables inside of one another.
* `Activity.calls`: the calls in the order in which they return.
* `Parser.Activates`: the executions with their activities.
* `Parser.Runs.exists_activates`, `Parser.Activates.exists_runs`: every execution has an activity.
* `Store.Plays`: what an activity says of the tables, whatever parsers are behind it.
* `Job.ActivateAll`: several executions one after another.
* `Session.Spans`: the runs of a session, with their activity and the records in the log.
-/

namespace Packrat

variable {τ ρ : Type}

/-! ## Activities -/

/-- How a call of a memo table goes: past the table at the end of input, or answered by the table,
or answered by the parser of the call. -/
inductive Way where
  | atEnd
  | hit
  | miss
deriving DecidableEq

/-- A call of a memo table that has returned, with the stores before it and after it. -/
structure Activation (τ : Type) where
  table : Memo
  start : Cursor τ
  way : Way
  before : Store τ
  result : Result τ
  after : Store τ

/-- What happens in an execution, as far as sites are visited and tables are called. -/
inductive Activity (τ : Type) where
  | quiet
  | both (first second : Activity τ)
  | visit (name : String) (start : Cursor τ) (inside : Activity τ)
  | call (o : Activation τ) (inside : Activity τ)

/-- The use of a table that a signal tells of. -/
def Signal.use? : Signal τ → Option (Memo × MemoUse)
  | .memo table kind => some (table, kind)
  | _ => none

/-- The uses of tables in a history. -/
def History.uses (hist : History τ) : List (Memo × MemoUse) := hist.signals.filterMap Signal.use?

@[simp] theorem History.uses_quiet : (.quiet : History τ).uses = [] := rfl

@[simp] theorem History.uses_use (table : Memo) (kind : MemoUse) :
    (.use table kind : History τ).uses = [(table, kind)] := rfl

@[simp] theorem History.uses_both (before after : History τ) :
    (History.both before after).uses = before.uses ++ after.uses := by
  simp [uses, signals]

@[simp] theorem History.uses_visit (v : Visit τ) (inside : History τ) :
    (History.visit v inside).uses = inside.uses := by
  rw [uses, uses, signals]
  split <;> simp [List.filterMap_cons, Visit.entry, Visit.exit, Signal.use?]

namespace Activation

/-- What a call that goes to its table leaves there. -/
def use (o : Activation τ) : MemoUse :=
  if o.way = .hit then .hit o.start.offset else .miss o.start.offset

end Activation

namespace Activity

/-- The calls in the order in which they return, each with what happens inside of it. -/
def calls : Activity τ → List (Activation τ × Activity τ)
  | .quiet => []
  | .both first second => first.calls ++ second.calls
  | .visit _ _ inside => inside.calls
  | .call o inside => inside.calls ++ [(o, inside)]

/-- The uses of tables. A call opens its table if it is the first one. -/
def uses : Activity τ → List (Memo × MemoUse)
  | .quiet => []
  | .both first second => first.uses ++ second.uses
  | .visit _ _ inside => inside.uses
  | .call o inside =>
    if o.way = .atEnd then inside.uses
    else (o.before.opening o.table).uses ++ inside.uses ++ [(o.table, o.use)]

end Activity

/-! ## Executions with their activities -/

namespace Parser

/-- The executions with their activities. -/
inductive Activates (grammar : Grammar τ ρ) : Parser τ ρ → Cursor τ → Store τ → Result τ → Store τ →
    Activity τ → Prop where
  | leaf {l c s} : Activates grammar (.leaf l) c s (l.run c) s .quiet
  | adapt {a p c s r t act} (inner : Activates grammar p c s r t act) :
      Activates grammar (.adapt a p) c s (a.apply c r) t act
  | andThenFail {p q combine c s f t act} (first : Activates grammar p c s (.error f) t act) :
      Activates grammar (.andThen p q combine) c s (.error f) t act
  | andThen {p q combine c s m t act r u act'} (first : Activates grammar p c s (.ok m) t act)
      (second : Activates grammar q m.stop t r u act') :
      Activates grammar (.andThen p q combine) c s
        (r.map fun n => ⟨n.stop, combine m.value n.value⟩) u (.both act act')
  | orElseFirst {p q c s m t act} (first : Activates grammar p c s (.ok m) t act) :
      Activates grammar (.orElse p q) c s (.ok m) t act
  | orElse {p q c s f t act r u act'} (first : Activates grammar p c s (.error f) t act)
      (second : Activates grammar q c t r u act') :
      Activates grammar (.orElse p q) c s r u (.both act act')
  | unrolled {p q c s r t act} (hq : p.unrolled? grammar = some q)
      (inner : Activates grammar q c s r t act) : Activates grammar p c s r t act
  | assignFail {slot p c s f t act} (inner : Activates grammar p c s (.error f) t act) :
      Activates grammar (.assign slot p) c s (.error f) t act
  | assign {slot p c s m t act} (inner : Activates grammar p c s (.ok m) t act) :
      Activates grammar (.assign slot p) c s (.ok ⟨m.stop, .unit⟩) (t.setSlot slot m.value)
        (.both act .quiet)
  | memoAtEnd {table p c s r t act} (hc : c.place? = none)
      (inner : Activates grammar p c s r t act) :
      Activates grammar (.memo table p) c s r t (.call ⟨table, c, .atEnd, s, r, t⟩ act)
  | memoHit {table p c s place r} (hc : c.place? = some place)
      (found : (s.table table).find? place = some r) :
      Activates grammar (.memo table p) c s r ((s.opened table).hit table)
        (.call ⟨table, c, .hit, s, r, (s.opened table).hit table⟩ .quiet)
  | memoMiss {table p c s place r t act} (hc : c.place? = some place)
      (missing : (s.table table).find? place = none)
      (inner : Activates grammar p c (s.opened table) r t act) :
      Activates grammar (.memo table p) c s r (t.entered table place r)
        (.call ⟨table, c, .miss, s, r, t.entered table place r⟩ act)
  | tally {counter p c s r t act} (inner : Activates grammar p c (s.raise counter) r t act) :
      Activates grammar (.tally counter p) c s r t (.both .quiet act)
  | site {name report p c s r t act} (inner : Activates grammar p c s r t act) :
      Activates grammar (.site name report p) c s r t (.visit name c act)
  | scope {on p c s r t act} (inner : Activates grammar p c s r t act) :
      Activates grammar (.scope on p) c s r t act

section

variable {grammar : Grammar τ ρ} {ctx : Context} {p : Parser τ ρ} {c : Cursor τ} {s t : Store τ}
  {r : Result τ} {hist : History τ} {act : Activity τ}

/-- Every execution has an activity, which makes the same uses of tables. -/
theorem Runs.exists_activates (h : Runs grammar ctx p c s r t hist) :
    ∃ act, Activates grammar p c s r t act ∧ act.uses = hist.uses := by
  induction h with
  | leaf => exact ⟨_, .leaf, rfl⟩
  | adapt _ ih =>
    obtain ⟨_, d, huses⟩ := ih
    exact ⟨_, .adapt d, huses⟩
  | andThenFail _ ih =>
    obtain ⟨_, d, huses⟩ := ih
    exact ⟨_, .andThenFail d, huses⟩
  | andThen _ _ ih₁ ih₂ =>
    obtain ⟨_, d₁, huses₁⟩ := ih₁
    obtain ⟨_, d₂, huses₂⟩ := ih₂
    exact ⟨_, .andThen d₁ d₂, by simp [Activity.uses, huses₁, huses₂]⟩
  | orElseFirst _ ih =>
    obtain ⟨_, d, huses⟩ := ih
    exact ⟨_, .orElseFirst d, huses⟩
  | orElse _ _ ih₁ ih₂ =>
    obtain ⟨_, d₁, huses₁⟩ := ih₁
    obtain ⟨_, d₂, huses₂⟩ := ih₂
    exact ⟨_, .orElse d₁ d₂, by simp [Activity.uses, huses₁, huses₂]⟩
  | unrolled hq _ ih =>
    obtain ⟨_, d, huses⟩ := ih
    exact ⟨_, .unrolled hq d, huses⟩
  | assignFail _ ih =>
    obtain ⟨_, d, huses⟩ := ih
    exact ⟨_, .assignFail d, huses⟩
  | assign _ ih =>
    obtain ⟨_, d, huses⟩ := ih
    exact ⟨_, .assign d, by simp [Activity.uses, huses]⟩
  | memoAtEnd hc _ ih =>
    obtain ⟨_, d, huses⟩ := ih
    exact ⟨_, .memoAtEnd hc d, by simp [Activity.uses, huses]⟩
  | memoHit hc found =>
    obtain ⟨-, rfl⟩ := Cursor.place?_eq_some.mp hc
    exact ⟨_, .memoHit hc found, by simp [Activity.uses, Activation.use]⟩
  | memoMiss hc missing _ ih =>
    obtain ⟨_, d, huses⟩ := ih
    obtain ⟨-, rfl⟩ := Cursor.place?_eq_some.mp hc
    exact ⟨_, .memoMiss hc missing d, by simp [Activity.uses, Activation.use, huses]⟩
  | tally _ ih =>
    obtain ⟨_, d, huses⟩ := ih
    exact ⟨_, .tally d, by simp [Activity.uses, huses]⟩
  | site _ ih =>
    obtain ⟨_, d, huses⟩ := ih
    exact ⟨_, .site d, by simp [Activity.uses, huses]⟩
  | scope _ ih =>
    obtain ⟨_, d, huses⟩ := ih
    exact ⟨_, .scope d, huses⟩

/-- Under all settings an activity is that of an execution. -/
theorem Activates.exists_runs (h : Activates grammar p c s r t act) (ctx : Context) :
    ∃ hist, Runs grammar ctx p c s r t hist ∧ hist.uses = act.uses := by
  induction h generalizing ctx with
  | leaf => exact ⟨_, .leaf, rfl⟩
  | adapt _ ih =>
    obtain ⟨_, d, huses⟩ := ih ctx
    exact ⟨_, .adapt d, huses⟩
  | andThenFail _ ih =>
    obtain ⟨_, d, huses⟩ := ih ctx
    exact ⟨_, .andThenFail d, huses⟩
  | andThen _ _ ih₁ ih₂ =>
    obtain ⟨_, d₁, huses₁⟩ := ih₁ ctx
    obtain ⟨_, d₂, huses₂⟩ := ih₂ ctx
    exact ⟨_, .andThen d₁ d₂, by simp [Activity.uses, huses₁, huses₂]⟩
  | orElseFirst _ ih =>
    obtain ⟨_, d, huses⟩ := ih ctx
    exact ⟨_, .orElseFirst d, huses⟩
  | orElse _ _ ih₁ ih₂ =>
    obtain ⟨_, d₁, huses₁⟩ := ih₁ ctx
    obtain ⟨_, d₂, huses₂⟩ := ih₂ ctx
    exact ⟨_, .orElse d₁ d₂, by simp [Activity.uses, huses₁, huses₂]⟩
  | unrolled hq _ ih =>
    obtain ⟨_, d, huses⟩ := ih ctx
    exact ⟨_, .unrolled hq d, huses⟩
  | assignFail _ ih =>
    obtain ⟨_, d, huses⟩ := ih ctx
    exact ⟨_, .assignFail d, huses⟩
  | assign _ ih =>
    obtain ⟨_, d, huses⟩ := ih ctx
    exact ⟨_, .assign d, by simp [Activity.uses, huses]⟩
  | memoAtEnd hc _ ih =>
    obtain ⟨_, d, huses⟩ := ih ctx
    exact ⟨_, .memoAtEnd hc d, by simp [Activity.uses, huses]⟩
  | memoHit hc found =>
    obtain ⟨-, rfl⟩ := Cursor.place?_eq_some.mp hc
    exact ⟨_, .memoHit hc found, by simp [Activity.uses, Activation.use]⟩
  | memoMiss hc missing _ ih =>
    obtain ⟨_, d, huses⟩ := ih ctx
    obtain ⟨-, rfl⟩ := Cursor.place?_eq_some.mp hc
    exact ⟨_, .memoMiss hc missing d, by simp [Activity.uses, Activation.use, huses]⟩
  | tally _ ih =>
    obtain ⟨_, d, huses⟩ := ih ctx
    exact ⟨_, .tally d, by simp [Activity.uses, huses]⟩
  | site _ ih =>
    obtain ⟨_, d, huses⟩ := ih ctx
    exact ⟨_, .site d, by simp [Activity.uses, huses]⟩
  | @scope on _ _ _ _ _ _ _ ih =>
    obtain ⟨_, d, huses⟩ := ih (ctx.inScope on)
    exact ⟨_, .scope d, huses⟩

end

end Parser

/-! ## At the end of input -/

theorem Leaf.place?_stop (l : Leaf τ) {c : Cursor τ} (hc : c.place? = none) {m : Match τ}
    (h : l.run c = .ok m) : m.stop.place? = none := by
  have atEnd : c.atEnd = true := by simpa [Cursor.place?] using hc
  cases l with
  | token test cause refusal =>
    unfold Leaf.run at h
    rw [Cursor.read?_eq_none.mpr atEnd] at h
    cases h
  | remainder =>
    cases h
    simp [Cursor.place?, Cursor.toEnd, Cursor.atEnd]
  | endOfInput =>
    unfold Leaf.run at h
    rw [atEnd] at h
    cases h
    exact hc
  | succeed value =>
    cases h
    exact hc
  | fail cause => cases h

theorem Adapter.place?_stop (a : Adapter τ) {c : Cursor τ} (hc : c.place? = none) {r : Result τ}
    (hr : ∀ n, r = .ok n → n.stop.place? = none) {m : Match τ} (h : a.apply c r = .ok m) :
    m.stop.place? = none := by
  cases r with
  | ok n =>
    have hn := hr n rfl
    cases a with
    | refine f =>
      unfold Adapter.apply at h
      dsimp only at h
      split at h <;> cases h
      exact hn
    | negate => cases h
    | lookAhead =>
      cases h
      exact hc
    | _ =>
      cases h
      exact hn
  | error f =>
    cases a with
    | optional | negate =>
      cases h
      exact hc
    | _ => cases h

/-- An execution that begins at the end of input stays there, and no table changes. -/
theorem Parser.Activates.of_atEnd {grammar : Grammar τ ρ} {p : Parser τ ρ} {c : Cursor τ}
    {s t : Store τ} {r : Result τ} {act : Activity τ} (h : Activates grammar p c s r t act)
    (hc : c.place? = none) : s.SameTables t ∧ ∀ m, r = .ok m → m.stop.place? = none := by
  induction h with
  | leaf => exact ⟨fun _ => rfl, fun m hm => Leaf.place?_stop _ hc hm⟩
  | adapt _ ih =>
    obtain ⟨same, hr⟩ := ih hc
    exact ⟨same, fun m hm => Adapter.place?_stop _ hc hr hm⟩
  | andThenFail _ ih => exact ih hc
  | @andThen _ _ _ _ _ _ _ _ r _ _ _ _ ih₁ ih₂ =>
    obtain ⟨same₁, hm⟩ := ih₁ hc
    obtain ⟨same₂, hr⟩ := ih₂ (hm _ rfl)
    refine ⟨same₁.trans same₂, fun n hn => ?_⟩
    cases r with
    | error f => cases hn
    | ok n' =>
      cases hn
      exact hr n' rfl
  | orElseFirst _ ih => exact ih hc
  | orElse _ _ ih₁ ih₂ =>
    obtain ⟨same₂, hr⟩ := ih₂ hc
    exact ⟨(ih₁ hc).1.trans same₂, hr⟩
  | unrolled _ _ ih => exact ih hc
  | assignFail _ ih => exact ih hc
  | @assign _ _ _ _ m _ _ _ ih =>
    obtain ⟨same, hm⟩ := ih hc
    refine ⟨same, fun n hn => ?_⟩
    cases hn
    exact hm m rfl
  | memoAtEnd _ _ ih => exact ih hc
  -- no table is asked there
  | memoHit hplace _ => cases hc.symm.trans hplace
  | memoMiss hplace _ _ _ => cases hc.symm.trans hplace
  | tally _ ih => exact ih hc
  | site _ ih => exact ih hc
  | scope _ ih => exact ih hc

/-! ## Activities of tables -/

/-- The activity takes the tables of the one store to those of the other. -/
inductive Store.Plays : Store τ → Activity τ → Store τ → Prop where
  | quiet {s t : Store τ} (same : s.SameTables t) : Plays s .quiet t
  | both {s t u act act'} (first : Plays s act t) (second : Plays t act' u) :
      Plays s (.both act act') u
  | visit {name c s t act} (inner : Plays s act t) : Plays s (.visit name c act) t
  | atEnd {table c s r t act} (hc : c.place? = none) (same : s.SameTables t)
      (inner : Plays s act t) : Plays s (.call ⟨table, c, .atEnd, s, r, t⟩ act) t
  | hit {table c place s r} (hc : c.place? = some place)
      (found : (s.table table).find? place = some r) :
      Plays s (.call ⟨table, c, .hit, s, r, (s.opened table).hit table⟩ .quiet)
        ((s.opened table).hit table)
  | miss {table c place s t r act} (hc : c.place? = some place)
      (missing : (s.table table).find? place = none) (inner : Plays (s.opened table) act t) :
      Plays s (.call ⟨table, c, .miss, s, r, t.entered table place r⟩ act)
        (t.entered table place r)

theorem Parser.Activates.plays {grammar : Grammar τ ρ} {p : Parser τ ρ} {c : Cursor τ}
    {s t : Store τ} {r : Result τ} {act : Activity τ} (h : Activates grammar p c s r t act) :
    s.Plays act t := by
  induction h with
  | leaf => exact .quiet fun _ => rfl
  | andThen _ _ ih₁ ih₂ => exact .both ih₁ ih₂
  | orElse _ _ ih₁ ih₂ => exact .both ih₁ ih₂
  | assign _ ih => exact .both ih (.quiet fun _ => rfl)
  | memoAtEnd hc inner ih => exact .atEnd hc (inner.of_atEnd hc).1 ih
  | memoHit hc found => exact .hit hc found
  | memoMiss hc missing _ ih => exact .miss hc missing ih
  | tally _ ih => exact .both (.quiet fun memo => (Store.table_raise _ _ memo).symm) ih
  | site _ ih => exact .visit ih
  | _ => assumption

namespace Store

/-- Each call of an activity plays between the stores before it and after it. -/
theorem Plays.of_mem_calls {s t : Store τ} {act : Activity τ} (h : s.Plays act t) :
    ∀ x ∈ act.calls, x.1.before.Plays (.call x.1 x.2) x.1.after := by
  induction h with
  | quiet => exact nofun
  | both _ _ ih₁ ih₂ =>
    intro x hx
    exact (List.mem_append.mp hx).elim (ih₁ x) (ih₂ x)
  | visit _ ih => exact ih
  | atEnd hc same inner ih =>
    intro x hx
    rcases List.mem_append.mp hx with hx | hx
    · exact ih x hx
    · cases List.mem_singleton.mp hx
      exact .atEnd hc same inner
  | hit hc found =>
    intro x hx
    cases List.mem_singleton.mp hx
    exact .hit hc found
  | miss hc missing inner ih =>
    intro x hx
    rcases List.mem_append.mp hx with hx | hx
    · exact ih x hx
    · cases List.mem_singleton.mp hx
      exact .miss hc missing inner

end Store

/-! ## Runs one after another -/

namespace Job

/-- Jobs that are run one after another, each from the store that the one before it left. -/
inductive ActivateAll (grammar : Grammar τ ρ) :
    List (Job τ ρ) → Store τ → List (Result τ) → Store τ → Activity τ → Prop where
  | nil {s} : ActivateAll grammar [] s [] s .quiet
  | cons {job jobs s r t act results u act'}
      (first : job.parser.Activates grammar job.start s r t act)
      (rest : ActivateAll grammar jobs t results u act') :
      ActivateAll grammar (job :: jobs) s (r :: results) u (.both act act')

variable {grammar : Grammar τ ρ} {jobs : List (Job τ ρ)} {s t : Store τ}
  {results : List (Result τ)}

theorem ActivateAll.plays {act : Activity τ} (h : ActivateAll grammar jobs s results t act) :
    s.Plays act t := by
  induction h with
  | nil => exact .quiet fun _ => rfl
  | cons first _ ih => exact .both first.plays ih

theorem exists_activateAll {fuel : Nat} {signals : List (Signal τ)}
    (h : runAll grammar fuel jobs s = some (results, t, signals)) :
    ∃ act, ActivateAll grammar jobs s results t act ∧
      act.uses = signals.filterMap Signal.use? := by
  induction jobs generalizing s results signals with
  | nil =>
    cases h
    exact ⟨_, .nil, rfl⟩
  | cons job jobs ih =>
    rw [runAll_cons] at h
    obtain ⟨r, s₁, _, _, hfirst, hk₁, rfl⟩ := Run.of_bind h
    obtain ⟨rs, s₂, _, _, hrest, hk₂, rfl⟩ := Run.of_bind hk₁
    cases hk₂
    obtain ⟨hist, d, rfl⟩ := Parser.runs_of_run hfirst
    obtain ⟨act, first, huses⟩ := d.exists_activates
    obtain ⟨act', rest, huses'⟩ := ih hrest
    refine ⟨_, .cons first rest, ?_⟩
    simp [Activity.uses, huses, huses', History.uses]

end Job

/-! ## Sessions -/

section

variable [Token τ]

/-- The signals of a run, each with the records that it leaves in the log. -/
def hearEach (limit : Option Level) (tracer : Option Tracer) :
    List (Signal τ) → List (Signal τ × List Record)
  | [] => []
  | signal :: rest =>
    (signal, (hear limit tracer signal).2) :: hearEach limit (hear limit tracer signal).1 rest

theorem flatMap_hearEach (limit : Option Level) (tracer : Option Tracer)
    (signals : List (Signal τ)) :
    (hearEach limit tracer signals).flatMap Prod.snd = (hearAll limit tracer signals).2 := by
  induction signals generalizing tracer with
  | nil => rfl
  | cons signal rest ih =>
    rw [hearEach, List.flatMap_cons, ih]
    rfl

/-- The records of a memo table in a log whose records are sorted by the signals that left them. -/
def Memo.records (memo : Memo) (log : List (Signal τ × List Record)) : List Record :=
  log.flatMap fun entry => if (entry.1.use?.map Prod.fst) = some memo then entry.2 else []

namespace Session

/-- The signals that a tracer of the session hears, with the records that they leave. -/
def heard (s : Session τ) (tracer : Option String) (signals : List (Signal τ)) :
    List (Signal τ × List Record) :=
  hearEach s.limit (tracer.bind s.tracers.find?) signals

theorem records_notify (s : Session τ) (tracer : Option String) (signals : List (Signal τ)) :
    (s.notify tracer signals).2 = (s.heard tracer signals).flatMap Prod.snd := by
  rw [heard, flatMap_hearEach, notify]
  dsimp only
  split <;> rfl

/-- Runs of parsers of any kind take the one session to the other, with this log and this activity.
In between the tracers of the session may change. -/
inductive Spans : Session τ → List (Signal τ × List Record) → Activity τ → Session τ → Prop where
  | nil {s} : Spans s [] .quiet s
  | between {s log act t u} (before : Spans s log act t) (store : u.store = t.store)
      (limit : u.limit = t.limit) : Spans s log act u
  | run {ρ : Type} {grammar : Grammar τ ρ} {fuel ctx p c s log act t out u records r signals act'}
      (before : Spans s log act t)
      (ran : t.run grammar fuel ctx p c = some (out, u, records))
      (returned : p.run grammar fuel ctx c t.store = some (r, u.store, signals))
      (happened : p.Activates grammar c t.store r u.store act') :
      Spans s (log ++ t.heard ctx.tracer signals) (.both act act') u

/-- Whatever is done in an activity can be done by a run. -/
theorem Spans.exists_of_activates {s t : Session τ} {log : List (Signal τ × List Record)}
    {act act' : Activity τ} (h : Spans s log act t) {grammar : Grammar τ ρ} {p : Parser τ ρ}
    {c : Cursor τ} {r : Result τ} {store : Store τ}
    (happened : p.Activates grammar c t.store r store act') :
    ∃ log' u, Spans s (log ++ log') (.both act act') u ∧ u.store = store := by
  obtain ⟨hist, d, -⟩ := happened.exists_runs .plain
  obtain ⟨fuel, returned⟩ := d.exists_run
  have ran : t.run grammar fuel .plain p c = some (.ofResult c r, { t with store := store },
      (t.heard none hist.signals).flatMap Prod.snd) := by
    rw [Session.run, returned, heard, flatMap_hearEach]
    rfl
  exact ⟨_, _, h.run ran returned happened, rfl⟩

namespace Spans

variable {s t : Session τ} {log : List (Signal τ × List Record)} {act : Activity τ}

theorem plays (h : s.Spans log act t) : s.store.Plays act t.store := by
  induction h with
  | nil => exact .quiet fun _ => rfl
  | between _ store _ ih => rwa [store]
  | run _ _ _ happened ih => exact .both ih happened.plays

end Spans

end Session

end

end Packrat
