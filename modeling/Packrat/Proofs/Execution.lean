import Packrat.Proofs.Fuel

/-!
# Executions without fuel

The run of a parser as a relation between what it starts from and what comes of it, with one rule
for every way in which a node of the tree can go. A loop, like a reference to a rule, is run as the
parser that it unrolls to. Besides the result and the store an execution has a history, which keeps
the activations of sites inside of one another, also of those that no tracer hears.

* `Parser.Runs`: the executions.
* `Parser.runs_of_run`, `Parser.Runs.exists_run`: an execution is a run with enough fuel, and the
  signals of the run are those of the history.
* `Parser.Runs.unique`: an execution is determined by what it starts from.
-/

namespace Packrat

variable {τ ρ : Type}

/-! ## Histories -/

/-- One activation of a site: its name, what it reports, whether a tracer hears it, where it began
and what came of it. -/
structure Visit (τ : Type) where
  name : String
  report : Report
  heard : Bool
  start : Cursor τ
  result : Result τ

namespace Visit

/-- The signal of the entry. -/
def entry (v : Visit τ) : Signal τ := .enter v.name v.start

/-- The signal of the exit. -/
def exit (v : Visit τ) : Signal τ :=
  .exit v.name v.start (v.report.of v.start v.result).1 (v.report.of v.start v.result).2

end Visit

/-- What happens in an execution. -/
inductive History (τ : Type) where
  | quiet
  | use (table : Memo) (kind : MemoUse)
  | both (before after : History τ)
  | visit (v : Visit τ) (inside : History τ)

/-- The signals that a history makes. -/
def History.signals : History τ → List (Signal τ)
  | .quiet => []
  | .use table kind => [.memo table kind]
  | .both before after => before.signals ++ after.signals
  | .visit v inside =>
    if v.heard then v.entry :: (inside.signals ++ [v.exit]) else inside.signals

/-! ## The three ways in which a table changes -/

namespace Store

/-- The store after the table `memo` was opened, unless it is open already. -/
def opened (s : Store τ) (memo : Memo) : Store τ := (s.openTable memo).1

/-- What the opening of a table leaves in a history. -/
def opening (s : Store τ) (memo : Memo) : History τ :=
  if (s.table memo).opened then .quiet else .use memo .created

/-- The store after a hit in the table `memo`. -/
def hit (s : Store τ) (memo : Memo) : Store τ := s.setTable memo (s.table memo).hit

/-- The store after a miss in the table `memo`, with the answer entered. -/
def entered (s : Store τ) (memo : Memo) (place : Place) (answer : Result τ) : Store τ :=
  s.setTable memo ((s.table memo).remember place answer)

theorem openTable_eq (s : Store τ) (memo : Memo) :
    s.openTable memo = (s.opened memo, (s.opening memo).signals) := by
  unfold opened opening openTable
  split <;> rfl

@[simp] theorem table_opened (s : Store τ) (memo memo' : Memo) :
    (s.opened memo).table memo' =
      if memo = memo' then (s.table memo').opening else s.table memo' := by
  unfold opened openTable
  split
  · rename_i already
    split
    · rename_i same
      subst same
      simp only [Table.opening, ← already]
    · rfl
  · rw [table_setTable]
    split
    · rename_i same
      rw [same]
    · rfl

@[simp] theorem table_hit (s : Store τ) (memo memo' : Memo) :
    (s.hit memo).table memo' = if memo = memo' then (s.table memo').hit else s.table memo' := by
  unfold hit
  rw [table_setTable]
  split
  · rename_i same
    rw [same]
  · rfl

@[simp] theorem table_entered (s : Store τ) (memo memo' : Memo) (place : Place)
    (answer : Result τ) :
    (s.entered memo place answer).table memo' =
      if memo = memo' then (s.table memo').remember place answer else s.table memo' := by
  unfold entered
  rw [table_setTable]
  split
  · rename_i same
    rw [same]
  · rfl

theorem find?_opened (s : Store τ) (memo memo' : Memo) (place : Place) :
    ((s.opened memo).table memo').find? place = (s.table memo').find? place := by
  rw [table_opened]
  split <;> rfl

theorem find?_hit (s : Store τ) (memo memo' : Memo) (place : Place) :
    ((s.hit memo).table memo').find? place = (s.table memo').find? place := by
  rw [table_hit]
  split <;> rfl

/-- A use that finds an answer. -/
theorem consult_of_some {s : Store τ} {memo : Memo} {place : Place} {answer : Result τ}
    (h : (s.table memo).find? place = some answer) :
    s.consult memo place = (some answer, (s.opened memo).hit memo,
      (History.both (s.opening memo) (.use memo (.hit place.offset))).signals) := by
  unfold consult
  rw [openTable_eq]
  simp only [find?_opened, h]
  rfl

/-- A use that finds none. -/
theorem consult_of_none {s : Store τ} {memo : Memo} {place : Place}
    (h : (s.table memo).find? place = none) :
    s.consult memo place = (none, s.opened memo, (s.opening memo).signals) := by
  unfold consult
  rw [openTable_eq]
  simp only [find?_opened, h]

end Store

/-! ## Executions -/

namespace Parser

/-- The parser that a loop or a reference to a rule is run as. -/
def unrolled? (grammar : Grammar τ ρ) : Parser τ ρ → Option (Parser τ ρ)
  | .repeated limit p =>
    if limit = some 0 then some (.leaf (.succeed (.list [])))
    else some (.orElse (.andThen p (.repeated (limit.map (· - 1)) p) .cons)
      (.leaf (.succeed (.list []))))
  | .till body stop =>
    some (.orElse (.adapt (.map (.pair (.list []))) stop)
      (.andThen body (.till body stop) .consLeft))
  | .delimited delimiter item =>
    some (.orElse
      (.andThen delimiter (.andThen item (.delimited delimiter item) .cons) fun _ v => v)
      (.leaf (.succeed (.list []))))
  | .rule name => some (grammar name)
  | _ => none

/-- A change of trees that goes into loops and into what they are unrolled to. -/
structure Homomorphic (f : Parser τ ρ → Parser τ ρ) : Prop where
  leaf : ∀ l, f (.leaf l) = .leaf l
  adapt : ∀ a p, f (.adapt a p) = .adapt a (f p)
  andThen : ∀ p q combine, f (.andThen p q combine) = .andThen (f p) (f q) combine
  orElse : ∀ p q, f (.orElse p q) = .orElse (f p) (f q)
  repeated : ∀ limit p, f (.repeated limit p) = .repeated limit (f p)
  till : ∀ body stop, f (.till body stop) = .till (f body) (f stop)
  delimited : ∀ delimiter item, f (.delimited delimiter item) = .delimited (f delimiter) (f item)
  rule : ∀ name, f (.rule name) = .rule name

/-- Changed trees are unrolled to changed trees. -/
theorem Homomorphic.unrolled? {f : Parser τ ρ → Parser τ ρ} (hf : Homomorphic f)
    {grammar : Grammar τ ρ} {p q : Parser τ ρ} (hq : p.unrolled? grammar = some q) :
    (f p).unrolled? (fun name => f (grammar name)) = some (f q) := by
  cases p with
  | repeated limit p =>
    rw [Parser.unrolled?] at hq
    rw [hf.repeated, Parser.unrolled?]
    split at hq <;> rename_i spent <;> cases hq
    · rw [if_pos spent, hf.leaf]
    · rw [if_neg spent, hf.orElse, hf.andThen, hf.repeated, hf.leaf]
  | till body stop =>
    cases hq
    rw [hf.till, hf.orElse, hf.adapt, hf.andThen, hf.till]
    rfl
  | delimited delimiter item =>
    cases hq
    rw [hf.delimited, hf.orElse, hf.andThen, hf.andThen, hf.delimited, hf.leaf]
    rfl
  | rule name =>
    cases hq
    rw [hf.rule]
    rfl
  | _ => cases hq

/-- The executions: with the settings of a context, the parser at a cursor takes a store to a result
and another store, and has a history. -/
inductive Runs (grammar : Grammar τ ρ) :
    Context → Parser τ ρ → Cursor τ → Store τ → Result τ → Store τ → History τ → Prop where
  | leaf {ctx l c s} : Runs grammar ctx (.leaf l) c s (l.run c) s .quiet
  | adapt {ctx a p c s r t h} (inner : Runs grammar ctx p c s r t h) :
      Runs grammar ctx (.adapt a p) c s (a.apply c r) t h
  | andThenFail {ctx p q combine c s f t h} (first : Runs grammar ctx p c s (.error f) t h) :
      Runs grammar ctx (.andThen p q combine) c s (.error f) t h
  | andThen {ctx p q combine c s m t h r u h'} (first : Runs grammar ctx p c s (.ok m) t h)
      (second : Runs grammar ctx q m.stop t r u h') :
      Runs grammar ctx (.andThen p q combine) c s
        (r.map fun n => ⟨n.stop, combine m.value n.value⟩) u (.both h h')
  | orElseFirst {ctx p q c s m t h} (first : Runs grammar ctx p c s (.ok m) t h) :
      Runs grammar ctx (.orElse p q) c s (.ok m) t h
  | orElse {ctx p q c s f t h r u h'} (first : Runs grammar ctx p c s (.error f) t h)
      (second : Runs grammar ctx q c t r u h') :
      Runs grammar ctx (.orElse p q) c s r u (.both h h')
  | unrolled {ctx p q c s r t h} (hq : p.unrolled? grammar = some q)
      (inner : Runs grammar ctx q c s r t h) : Runs grammar ctx p c s r t h
  | assignFail {ctx slot p c s f t h} (inner : Runs grammar ctx p c s (.error f) t h) :
      Runs grammar ctx (.assign slot p) c s (.error f) t h
  | assign {ctx slot p c s m t h} (inner : Runs grammar ctx p c s (.ok m) t h) :
      Runs grammar ctx (.assign slot p) c s (.ok ⟨m.stop, .unit⟩) (t.setSlot slot m.value) h
  | memoAtEnd {ctx table p c s r t h} (hc : c.place? = none)
      (inner : Runs grammar ctx p c s r t h) : Runs grammar ctx (.memo table p) c s r t h
  | memoHit {ctx table p c s place r} (hc : c.place? = some place)
      (found : (s.table table).find? place = some r) :
      Runs grammar ctx (.memo table p) c s r ((s.opened table).hit table)
        (.both (s.opening table) (.use table (.hit place.offset)))
  | memoMiss {ctx table p c s place r t h} (hc : c.place? = some place)
      (missing : (s.table table).find? place = none)
      (inner : Runs grammar ctx p c (s.opened table) r t h) :
      Runs grammar ctx (.memo table p) c s r (t.entered table place r)
        (.both (s.opening table) (.both h (.use table (.miss place.offset))))
  | tally {ctx counter p c s r t h} (inner : Runs grammar ctx p c (s.raise counter) r t h) :
      Runs grammar ctx (.tally counter p) c s r t h
  | site {ctx name report p c s r t h} (inner : Runs grammar ctx p c s r t h) :
      Runs grammar ctx (.site name report p) c s r t (.visit ⟨name, report, ctx.listening, c, r⟩ h)
  | scope {ctx on p c s r t h} (inner : Runs grammar (ctx.inScope on) p c s r t h) :
      Runs grammar ctx (.scope on p) c s r t h

/-! ## Runs are executions -/

/-- A run is the run of an execution, whose history makes its signals. -/
def Executes (grammar : Grammar τ ρ) (fuel : Nat) (p : Parser τ ρ) : Prop :=
  ∀ {ctx c s r t signals}, run grammar fuel ctx p c s = some (r, t, signals) →
    ∃ hist, Runs grammar ctx p c s r t hist ∧ hist.signals = signals

section Step

variable {grammar : Grammar τ ρ} {fuel : Nat} (ih : ∀ p, Executes grammar fuel p)
include ih

theorem executes_andThen (p q : Parser τ ρ) (combine : Value τ → Value τ → Value τ) :
    Executes grammar (fuel + 1) (.andThen p q combine) := by
  intro ctx c s r t signals h
  rw [run_andThen] at h
  obtain ⟨r₁, s₁, _, _, hp, hk₁, rfl⟩ := Run.of_bind h
  obtain ⟨hist₁, d₁, rfl⟩ := ih p hp
  cases r₁ with
  | error f =>
    cases hk₁
    exact ⟨_, .andThenFail d₁, by simp⟩
  | ok m =>
    obtain ⟨r₂, s₂, _, _, hq, hk₂, rfl⟩ := Run.of_bind hk₁
    obtain ⟨hist₂, d₂, rfl⟩ := ih q hq
    cases hk₂
    exact ⟨_, .andThen d₁ d₂, by simp [History.signals]⟩

theorem executes_orElse (p q : Parser τ ρ) : Executes grammar (fuel + 1) (.orElse p q) := by
  intro ctx c s r t signals h
  rw [run_orElse] at h
  obtain ⟨r₁, s₁, _, _, hp, hk₁, rfl⟩ := Run.of_bind h
  obtain ⟨hist₁, d₁, rfl⟩ := ih p hp
  cases r₁ with
  | error f =>
    obtain ⟨hist₂, d₂, rfl⟩ := ih q hk₁
    exact ⟨_, .orElse d₁ d₂, rfl⟩
  | ok m =>
    cases hk₁
    exact ⟨_, .orElseFirst d₁, by simp⟩

theorem executes_repeated (limit : Option Nat) (p : Parser τ ρ) :
    Executes grammar (fuel + 1) (.repeated limit p) := by
  intro ctx c s r t signals h
  rw [run_repeated] at h
  split at h
  · rename_i spent
    cases h
    exact ⟨_, .unrolled (if_pos spent) .leaf, rfl⟩
  · rename_i more
    obtain ⟨r₁, s₁, _, _, hp, hk₁, rfl⟩ := Run.of_bind h
    obtain ⟨hist₁, d₁, rfl⟩ := ih p hp
    cases r₁ with
    | error f =>
      cases hk₁
      exact ⟨_, .unrolled (if_neg more) (.orElse (.andThenFail d₁) .leaf), rfl⟩
    | ok m =>
      obtain ⟨r₂, s₂, _, _, hrest, hk₂, rfl⟩ := Run.of_bind hk₁
      obtain ⟨rest, rfl⟩ := repeated_matches _ _ _ _ _ _ _ _ _ _ hrest
      obtain ⟨hist₂, d₂, rfl⟩ := ih _ hrest
      cases hk₂
      exact ⟨_, .unrolled (if_neg more) (.orElseFirst (.andThen d₁ d₂)),
        by simp [History.signals]⟩

theorem executes_till (body stop : Parser τ ρ) :
    Executes grammar (fuel + 1) (.till body stop) := by
  intro ctx c s r t signals h
  rw [run_till] at h
  obtain ⟨r₁, s₁, _, _, hstop, hk₁, rfl⟩ := Run.of_bind h
  obtain ⟨hist₁, d₁, rfl⟩ := ih stop hstop
  cases r₁ with
  | ok m =>
    cases hk₁
    exact ⟨_, .unrolled rfl (.orElseFirst (.adapt d₁)), by simp⟩
  | error f =>
    obtain ⟨r₂, s₂, _, _, hbody, hk₂, rfl⟩ := Run.of_bind hk₁
    obtain ⟨hist₂, d₂, rfl⟩ := ih body hbody
    cases r₂ with
    | error f =>
      cases hk₂
      exact ⟨_, .unrolled rfl (.orElse (.adapt d₁) (.andThenFail d₂)), by simp [History.signals]⟩
    | ok m =>
      obtain ⟨r₃, s₃, _, _, hrest, hk₃, rfl⟩ := Run.of_bind hk₂
      obtain ⟨hist₃, d₃, rfl⟩ := ih _ hrest
      cases hk₃
      exact ⟨_, .unrolled rfl (.orElse (.adapt d₁) (.andThen d₂ d₃)), by simp [History.signals]⟩

theorem executes_delimited (delimiter item : Parser τ ρ) :
    Executes grammar (fuel + 1) (.delimited delimiter item) := by
  intro ctx c s r t signals h
  rw [run_delimited] at h
  obtain ⟨r₁, s₁, _, _, hdelimiter, hk₁, rfl⟩ := Run.of_bind h
  obtain ⟨hist₁, d₁, rfl⟩ := ih delimiter hdelimiter
  cases r₁ with
  | error f =>
    cases hk₁
    exact ⟨_, .unrolled rfl (.orElse (.andThenFail d₁) .leaf), rfl⟩
  | ok m =>
    obtain ⟨r₂, s₂, _, _, hitem, hk₂, rfl⟩ := Run.of_bind hk₁
    obtain ⟨hist₂, d₂, rfl⟩ := ih item hitem
    cases r₂ with
    | error f =>
      cases hk₂
      exact ⟨_, .unrolled rfl (.orElse (.andThen d₁ (.andThenFail d₂)) .leaf),
        by simp [History.signals]⟩
    | ok m =>
      obtain ⟨r₃, s₃, _, _, hrest, hk₃, rfl⟩ := Run.of_bind hk₂
      obtain ⟨rest, rfl⟩ := delimited_matches _ _ _ _ _ _ _ _ _ _ hrest
      obtain ⟨hist₃, d₃, rfl⟩ := ih _ hrest
      cases hk₃
      exact ⟨_, .unrolled rfl (.orElseFirst (.andThen d₁ (.andThen d₂ d₃))),
        by simp [History.signals]⟩

theorem executes_memo (table : Memo) (p : Parser τ ρ) :
    Executes grammar (fuel + 1) (.memo table p) := by
  intro ctx c s r t signals h
  cases hc : c.place? with
  | none =>
    simp only [run, hc] at h
    obtain ⟨hist₁, d₁, rfl⟩ := ih p h
    exact ⟨_, .memoAtEnd hc d₁, rfl⟩
  | some place =>
    simp only [run, hc] at h
    obtain ⟨found, s₁, _, _, hask, hk₁, rfl⟩ := Run.of_bind h
    cases hf : (s.table table).find? place with
    | some answer =>
      rw [Run.consult, Store.consult_of_some hf] at hask
      cases hask
      cases hk₁
      exact ⟨_, .memoHit hc hf, by simp⟩
    | none =>
      rw [Run.consult, Store.consult_of_none hf] at hask
      cases hask
      obtain ⟨r₂, s₂, _, _, hinner, hk₂, rfl⟩ := Run.of_bind hk₁
      obtain ⟨hist₂, d₂, rfl⟩ := ih p hinner
      cases hk₂
      exact ⟨_, .memoMiss hc hf d₂, rfl⟩

theorem executes_site (name : String) (report : Report) (p : Parser τ ρ) :
    Executes grammar (fuel + 1) (.site name report p) := by
  intro ctx c s r t signals h
  rw [run] at h
  split at h
  · rename_i listening
    obtain ⟨_, _, _, _, hentry, hk₁, rfl⟩ := Run.of_bind h
    cases hentry
    obtain ⟨r₁, s₁, _, _, hinner, hk₂, rfl⟩ := Run.of_bind hk₁
    obtain ⟨hist₁, d₁, rfl⟩ := ih p hinner
    cases hk₂
    exact ⟨_, .site d₁, by
      simp [History.signals, listening, Visit.entry, Visit.exit, Report.of]⟩
  · rename_i quiet
    obtain ⟨hist₁, d₁, rfl⟩ := ih p h
    exact ⟨_, .site d₁, by simp [History.signals, quiet]⟩

end Step

theorem executes (grammar : Grammar τ ρ) (fuel : Nat) (p : Parser τ ρ) :
    Executes grammar fuel p := by
  induction fuel generalizing p with
  | zero =>
    intro ctx c s r t signals h
    cases h
  | succ fuel ih =>
    cases p with
    | leaf l =>
      intro ctx c s r t signals h
      cases h
      exact ⟨_, .leaf, rfl⟩
    | adapt a p =>
      intro ctx c s r t signals h
      obtain ⟨r₁, s₁, _, _, hp, hk₁, rfl⟩ := Run.of_bind h
      obtain ⟨hist₁, d₁, rfl⟩ := ih p hp
      cases hk₁
      exact ⟨_, .adapt d₁, by simp⟩
    | andThen p q combine => exact executes_andThen ih p q combine
    | orElse p q => exact executes_orElse ih p q
    | repeated limit p => exact executes_repeated ih limit p
    | till body stop => exact executes_till ih body stop
    | delimited delimiter item => exact executes_delimited ih delimiter item
    | assign slot p =>
      intro ctx c s r t signals h
      obtain ⟨r₁, s₁, _, _, hp, hk₁, rfl⟩ := Run.of_bind h
      obtain ⟨hist₁, d₁, rfl⟩ := ih p hp
      cases r₁ with
      | error f =>
        cases hk₁
        exact ⟨_, .assignFail d₁, by simp⟩
      | ok m =>
        cases hk₁
        exact ⟨_, .assign d₁, by simp⟩
    | memo table p => exact executes_memo ih table p
    | tally counter p =>
      intro ctx c s r t signals h
      obtain ⟨_, _, _, _, hraise, hk₁, rfl⟩ := Run.of_bind h
      cases hraise
      obtain ⟨hist₁, d₁, rfl⟩ := ih p hk₁
      exact ⟨_, .tally d₁, rfl⟩
    | rule name =>
      intro ctx c s r t signals h
      obtain ⟨hist₁, d₁, rfl⟩ := ih (grammar name) h
      exact ⟨_, .unrolled rfl d₁, rfl⟩
    | site name report p => exact executes_site ih name report p
    | scope on p =>
      intro ctx c s r t signals h
      obtain ⟨hist₁, d₁, rfl⟩ := ih p h
      exact ⟨_, .scope d₁, rfl⟩

/-- A run with enough fuel is an execution. -/
theorem runs_of_run {grammar : Grammar τ ρ} {fuel : Nat} {ctx : Context} {p : Parser τ ρ}
    {c : Cursor τ} {s t : Store τ} {r : Result τ} {signals : List (Signal τ)}
    (h : run grammar fuel ctx p c s = some (r, t, signals)) :
    ∃ hist, Runs grammar ctx p c s r t hist ∧ hist.signals = signals :=
  executes grammar fuel p h

/-! ## Executions are runs -/

theorem run_below_unrolled {grammar : Grammar τ ρ} {p q : Parser τ ρ}
    (hq : p.unrolled? grammar = some q) (fuel : Nat) (ctx : Context) (c : Cursor τ) :
    (run grammar fuel ctx q c).Below (run grammar (fuel + 4) ctx p c) := by
  refine (run_below grammar (Nat.le_add_right fuel 3) ctx q c).trans ?_
  cases p with
  | repeated limit p =>
    rw [unrolled?] at hq
    rw [run_repeated]
    split at hq <;> rename_i spent <;> cases hq
    · rw [if_pos spent]
      exact Run.below_refl _
    · rw [if_neg spent, run_orElse, run_andThen, bind_assoc]
      refine (run_below grammar (by omega) ctx p c).bind fun r => ?_
      cases r with
      | error f => exact Run.below_refl _
      | ok m =>
        -- the unrolled parser would catch a failure of the rest, but the rest always matches
        simp only [bind_assoc, pure_bind]
        refine (run_below grammar (by omega) ctx _ m.stop).bind_of
          (repeated_matches grammar _ ctx _ p m.stop) fun r hr => ?_
        obtain ⟨rest, rfl⟩ := hr
        exact Run.below_refl _
  | till body stop =>
    cases hq
    rw [run_orElse, run_adapt, bind_assoc, run_till]
    refine (run_below grammar (by omega) ctx stop c).bind fun r => ?_
    cases r with
    | ok m => exact Run.below_refl _
    | error f =>
      rw [pure_bind]
      refine Run.Below.bind (run_below grammar (by omega) ctx body c) fun r => ?_
      cases r with
      | error f => exact Run.below_refl _
      | ok m =>
        refine Run.Below.bind (run_below grammar (by omega) ctx _ m.stop) fun r => ?_
        cases r <;> exact Run.below_refl _
  | delimited delimiter item =>
    cases hq
    rw [run_orElse, run_andThen, bind_assoc, run_delimited]
    refine (run_below grammar (by omega) ctx delimiter c).bind fun r => ?_
    cases r with
    | error f => exact Run.below_refl _
    | ok m =>
      simp only [run_andThen, bind_assoc]
      refine (run_below grammar (by omega) ctx item m.stop).bind fun r => ?_
      cases r with
      | error f => exact Run.below_refl _
      | ok m' =>
        simp only [bind_assoc, pure_bind]
        refine (run_below grammar (by omega) ctx _ m'.stop).bind_of
          (delimited_matches grammar _ ctx delimiter item m'.stop) fun r hr => ?_
        obtain ⟨rest, rfl⟩ := hr
        exact Run.below_refl _
  | rule name =>
    cases hq
    exact run_below grammar (by omega) ctx _ c
  | _ => cases hq

/-- An execution is a run with some amount of fuel. -/
theorem Runs.exists_run {grammar : Grammar τ ρ} {ctx : Context} {p : Parser τ ρ} {c : Cursor τ}
    {s t : Store τ} {r : Result τ} {hist : History τ} (h : Runs grammar ctx p c s r t hist) :
    ∃ fuel, run grammar fuel ctx p c s = some (r, t, hist.signals) := by
  induction h with
  | leaf => exact ⟨1, rfl⟩
  | adapt _ ih =>
    obtain ⟨n, hn⟩ := ih
    exact ⟨n + 1, by rw [run_adapt, Run.bind_apply hn]; simp⟩
  | andThenFail _ ih =>
    obtain ⟨n, hn⟩ := ih
    exact ⟨n + 1, by rw [run_andThen, Run.bind_apply hn]; simp⟩
  | andThen _ _ ih₁ ih₂ =>
    obtain ⟨n₁, hn₁⟩ := ih₁
    obtain ⟨n₂, hn₂⟩ := ih₂
    have h₁ := run_below grammar (Nat.le_max_left n₁ n₂) _ _ _ _ _ hn₁
    have h₂ := run_below grammar (Nat.le_max_right n₁ n₂) _ _ _ _ _ hn₂
    refine ⟨max n₁ n₂ + 1, ?_⟩
    rw [run_andThen, Run.bind_apply h₁]
    dsimp only
    rw [Run.bind_apply h₂]
    simp [History.signals]
  | orElseFirst _ ih =>
    obtain ⟨n, hn⟩ := ih
    exact ⟨n + 1, by rw [run_orElse, Run.bind_apply hn]; simp⟩
  | orElse _ _ ih₁ ih₂ =>
    obtain ⟨n₁, hn₁⟩ := ih₁
    obtain ⟨n₂, hn₂⟩ := ih₂
    have h₁ := run_below grammar (Nat.le_max_left n₁ n₂) _ _ _ _ _ hn₁
    have h₂ := run_below grammar (Nat.le_max_right n₁ n₂) _ _ _ _ _ hn₂
    exact ⟨max n₁ n₂ + 1, by rw [run_orElse, Run.bind_apply h₁]; simp [h₂, History.signals]⟩
  | unrolled hq _ ih =>
    obtain ⟨n, hn⟩ := ih
    exact ⟨n + 4, run_below_unrolled hq n _ _ _ _ hn⟩
  | assignFail _ ih =>
    obtain ⟨n, hn⟩ := ih
    exact ⟨n + 1, by rw [run, Run.bind_apply hn]; simp⟩
  | assign _ ih =>
    obtain ⟨n, hn⟩ := ih
    refine ⟨n + 1, ?_⟩
    rw [run, Run.bind_apply hn]
    dsimp only
    rw [Run.bind_apply (Run.modify_apply _ _)]
    simp
  | memoAtEnd hc _ ih =>
    obtain ⟨n, hn⟩ := ih
    exact ⟨n + 1, by simpa only [run, hc] using hn⟩
  | memoHit hc found =>
    refine ⟨1, ?_⟩
    simp only [run, hc]
    rw [Run.bind_apply (congrArg some (Store.consult_of_some found))]
    simp
  | memoMiss hc missing _ ih =>
    obtain ⟨n, hn⟩ := ih
    refine ⟨n + 1, ?_⟩
    simp only [run, hc]
    rw [Run.bind_apply (congrArg some (Store.consult_of_none missing))]
    dsimp only
    rw [Run.bind_apply hn, Run.bind_apply (Run.enter_apply _ _ _ _)]
    simp [Store.entered, History.signals]
  | tally _ ih =>
    obtain ⟨n, hn⟩ := ih
    exact ⟨n + 1, by rw [run, Run.bind_apply (Run.modify_apply _ _), hn]; simp⟩
  | @site ctx name report p c s r t hist _ ih =>
    obtain ⟨n, hn⟩ := ih
    refine ⟨n + 1, ?_⟩
    rw [run]
    split
    · rename_i listening
      rw [Run.bind_apply (Run.emit_apply _ _), Run.bind_apply hn]
      simp [Run.bind_apply (Run.emit_apply _ _), History.signals, listening, Visit.entry,
        Visit.exit]
    · rename_i quiet
      simpa [History.signals, quiet] using hn
  | scope _ ih =>
    obtain ⟨n, hn⟩ := ih
    exact ⟨n + 1, hn⟩

/-- What an execution starts from determines its result, its store and its signals. -/
theorem Runs.unique {grammar : Grammar τ ρ} {ctx : Context} {p : Parser τ ρ} {c : Cursor τ}
    {s t t' : Store τ} {r r' : Result τ} {hist hist' : History τ}
    (h : Runs grammar ctx p c s r t hist) (h' : Runs grammar ctx p c s r' t' hist') :
    r = r' ∧ t = t' ∧ hist.signals = hist'.signals := by
  obtain ⟨n, hn⟩ := h.exists_run
  obtain ⟨n', hn'⟩ := h'.exists_run
  simpa using run_unique hn hn'

end Parser

end Packrat
