import Mathlib.Data.List.Forall2
import Packrat.Combinator.Tokens
import Packrat.Proofs.Parsing

/-!
# Memoization is transparent

If every table is wrapped around one parser, its answers are what that parser returns at the cursor
of the call, so a parser returns what it would return without any memoization. This holds for any
number of runs that share tables, on any buffers.

* `Parser.Kept`: invariants of the tables, by what each use of a table has to keep.
* `Parser.Runs.kept`: an execution keeps such an invariant, and returns what its parser returns
  without state.
* `Store.Faithful`: the tables hold what their parsers return.
* `Job.results_without_memo`: runs that share tables return what they return without memoization.
-/

namespace Packrat

variable {τ ρ : Type}

/-! ## Invariants of the tables -/

namespace Parser

/-- An invariant of the store and of the calls made so far. Neither slots nor counters matter to it,
and each way in which a table is used keeps it. A call that misses its table is made when the calls
inside of it have been made. -/
structure Kept (grammar : Grammar τ ρ) (body : Memo → Option (Parser τ ρ))
    (sources : Nat → Array τ) (Inv : Store τ → List (Call τ) → Prop) : Prop where
  setSlot : ∀ {s ks slot v}, Inv s ks → Inv (s.setSlot slot v) ks
  raise : ∀ {s ks counter}, Inv s ks → Inv (s.raise counter) ks
  opened : ∀ {s ks memo}, Inv s ks → Inv (s.opened memo) ks
  hit : ∀ {s ks table p c place r}, Inv s ks → body table = some p →
    c.buffer.CutFrom sources → c.place? = some place →
    (s.table table).find? place = some r →
    (∃ ks', p.Parses grammar c r ks') ∧ Inv (s.hit table) (ks ++ [⟨table, c⟩])
  miss : ∀ {s t ks table p c place r ks'}, Inv s ks → body table = some p → p.Uniform body →
    c.buffer.CutFrom sources → c.place? = some place → (s.table table).find? place = none →
    p.Parses grammar c r ks' → Inv t (ks ++ ks') →
    Inv (t.entered table place r) (ks ++ [⟨table, c⟩])

section

variable {grammar : Grammar τ ρ} {body : Memo → Option (Parser τ ρ)} {sources : Nat → Array τ}

/-- An execution keeps an invariant, and its result is that of its parser without state. -/
theorem Runs.kept {Inv : Store τ → List (Call τ) → Prop} (hInv : Kept grammar body sources Inv)
    (rules : ∀ name, (grammar name).Uniform body) {ctx : Context} {p : Parser τ ρ} {c : Cursor τ}
    {s t : Store τ} {r : Result τ} {hist : History τ} (h : Runs grammar ctx p c s r t hist)
    (hp : p.Uniform body) (hc : c.buffer.CutFrom sources) (ks : List (Call τ)) (hs : Inv s ks) :
    ∃ ks', p.Parses grammar c r ks' ∧ Inv t (ks ++ ks') := by
  induction h generalizing ks with
  | leaf => exact ⟨[], .leaf, by simpa using hs⟩
  | adapt _ ih =>
    obtain ⟨ks', hr, ht⟩ := ih hp hc _ hs
    exact ⟨ks', .adapt hr, ht⟩
  | andThenFail _ ih =>
    obtain ⟨ks', hr, ht⟩ := ih hp.1 hc _ hs
    exact ⟨ks', .andThenFail hr, ht⟩
  | andThen _ _ ih₁ ih₂ =>
    obtain ⟨ks₁, hr₁, ht⟩ := ih₁ hp.1 hc _ hs
    have hm := hr₁.buffer_stop _ rfl
    obtain ⟨ks₂, hr₂, hu⟩ := ih₂ hp.2 (hm ▸ hc) _ ht
    exact ⟨ks₁ ++ ks₂, .andThen hr₁ hr₂, by rwa [← List.append_assoc]⟩
  | orElseFirst _ ih =>
    obtain ⟨ks', hr, ht⟩ := ih hp.1 hc _ hs
    exact ⟨ks', .orElseFirst hr, ht⟩
  | orElse _ _ ih₁ ih₂ =>
    obtain ⟨ks₁, hr₁, ht⟩ := ih₁ hp.1 hc _ hs
    obtain ⟨ks₂, hr₂, hu⟩ := ih₂ hp.2 hc _ ht
    exact ⟨ks₁ ++ ks₂, .orElse hr₁ hr₂, by rwa [← List.append_assoc]⟩
  | unrolled hq _ ih =>
    obtain ⟨ks', hr, ht⟩ := ih (hp.unrolled rules hq) hc _ hs
    exact ⟨ks', .unrolled hq hr, ht⟩
  | assignFail _ ih =>
    obtain ⟨ks', hr, ht⟩ := ih hp hc _ hs
    exact ⟨ks', .assign hr, ht⟩
  | assign _ ih =>
    obtain ⟨ks', hr, ht⟩ := ih hp hc _ hs
    exact ⟨ks', .assign hr, hInv.setSlot ht⟩
  | memoAtEnd hplace _ ih =>
    obtain ⟨ks', hr, ht⟩ := ih hp.2 hc _ hs
    exact ⟨ks', .memoAtEnd hplace hr, ht⟩
  | @memoHit _ table _ c s place _ hplace found =>
    have found' := (s.find?_opened table table place).trans found
    obtain ⟨⟨_, hr⟩, ht⟩ := hInv.hit (hInv.opened hs) hp.1 hc hplace found'
    exact ⟨_, .memo hplace hr, ht⟩
  | memoMiss hplace missing _ ih =>
    obtain ⟨hbody, hp⟩ := hp
    obtain ⟨ks', hr, ht⟩ := ih hp hc _ (hInv.opened hs)
    -- of the calls made up to here, only this one is the parser's own
    exact ⟨_, .memo hplace hr, hInv.miss hs hbody hp hc hplace missing hr ht⟩
  | tally _ ih =>
    obtain ⟨ks', hr, ht⟩ := ih hp hc _ (hInv.raise hs)
    exact ⟨ks', .tally hr, ht⟩
  | site _ ih =>
    obtain ⟨ks', hr, ht⟩ := ih hp hc _ hs
    exact ⟨ks', .site hr, ht⟩
  | scope _ ih =>
    obtain ⟨ks', hr, ht⟩ := ih hp hc _ hs
    exact ⟨ks', .scope hr, ht⟩

end

end Parser

/-! ## Faithful tables -/

/-- Every answer in a table is what the parser of the table returns, at each cursor of that place. -/
def Store.Faithful (grammar : Grammar τ ρ) (body : Memo → Option (Parser τ ρ))
    (sources : Nat → Array τ) : Store τ → Prop :=
  AllAnswers fun memo place r => ∀ p, body memo = some p →
    ∀ c : Cursor τ, c.buffer.CutFrom sources → c.place? = some place →
      ∃ ks, p.Parses grammar c r ks

section

variable {grammar : Grammar τ ρ} {body : Memo → Option (Parser τ ρ)} {sources : Nat → Array τ}

namespace Store

theorem Faithful.entered {s : Store τ} (hs : s.Faithful grammar body sources) {memo : Memo}
    {p : Parser τ ρ} (hbody : body memo = some p) {c : Cursor τ} (hc : c.buffer.CutFrom sources)
    {place : Place} (hplace : c.place? = some place) {r : Result τ} {ks : List (Call τ)}
    (hr : p.Parses grammar c r ks) : (s.entered memo place r).Faithful grammar body sources := by
  refine AllAnswers.entered hs ?_
  intro p' hbody' d hd hd'
  cases hbody.symm.trans hbody'
  cases Cursor.eq_of_place hc hd hplace hd'
  exact ⟨ks, hr⟩

/-- Faithfulness is kept, whatever calls were made. -/
theorem faithful_kept : Parser.Kept grammar body sources fun s _ =>
    s.Faithful grammar body sources where
  setSlot hs := hs.setSlot _ _
  raise hs := hs.raise _
  opened hs := hs.opened _
  hit hs hbody hc hplace found := ⟨hs _ _ _ found _ hbody _ hc hplace, hs.hit _⟩
  miss _ hbody _ hc hplace _ hr ht := ht.entered hbody hc hplace hr

end Store

namespace Parser

/-- From faithful tables, a parser returns what it returns without state. -/
theorem Parses.exists_runs (rules : ∀ name, (grammar name).Uniform body) {p : Parser τ ρ}
    {c : Cursor τ} {r : Result τ} {ks : List (Call τ)} (h : p.Parses grammar c r ks)
    (hp : p.Uniform body) (hc : c.buffer.CutFrom sources) (ctx : Context) {s : Store τ}
    (hs : s.Faithful grammar body sources) : ∃ t hist, Runs grammar ctx p c s r t hist := by
  induction h generalizing ctx s with
  | leaf => exact ⟨s, _, .leaf⟩
  | adapt _ ih =>
    obtain ⟨t, _, d⟩ := ih hp hc ctx hs
    exact ⟨t, _, .adapt d⟩
  | andThenFail _ ih =>
    obtain ⟨t, _, d⟩ := ih hp.1 hc ctx hs
    exact ⟨t, _, .andThenFail d⟩
  | andThen first _ ih₁ ih₂ =>
    obtain ⟨t, _, d₁⟩ := ih₁ hp.1 hc ctx hs
    obtain ⟨_, _, ht⟩ := d₁.kept Store.faithful_kept rules hp.1 hc [] hs
    have hm := first.buffer_stop _ rfl
    obtain ⟨u, _, d₂⟩ := ih₂ hp.2 (hm ▸ hc) ctx ht
    exact ⟨u, _, .andThen d₁ d₂⟩
  | orElseFirst _ ih =>
    obtain ⟨t, _, d⟩ := ih hp.1 hc ctx hs
    exact ⟨t, _, .orElseFirst d⟩
  | orElse _ _ ih₁ ih₂ =>
    obtain ⟨t, _, d₁⟩ := ih₁ hp.1 hc ctx hs
    obtain ⟨_, _, ht⟩ := d₁.kept Store.faithful_kept rules hp.1 hc [] hs
    obtain ⟨u, _, d₂⟩ := ih₂ hp.2 hc ctx ht
    exact ⟨u, _, .orElse d₁ d₂⟩
  | unrolled hq _ ih =>
    obtain ⟨t, _, d⟩ := ih (hp.unrolled rules hq) hc ctx hs
    exact ⟨t, _, .unrolled hq d⟩
  | @assign _ _ _ r _ _ ih =>
    obtain ⟨t, _, d⟩ := ih hp hc ctx hs
    cases r with
    | error f => exact ⟨t, _, .assignFail d⟩
    | ok m => exact ⟨_, _, .assign d⟩
  | memoAtEnd hplace _ ih =>
    obtain ⟨t, _, d⟩ := ih hp.2 hc ctx hs
    exact ⟨t, _, .memoAtEnd hplace d⟩
  | @memo table _ c place r _ hplace inner ih =>
    cases hf : (s.table table).find? place with
    | some r' =>
      -- whoever entered the answer, it is what the parser returns here
      obtain ⟨_, hr'⟩ := hs _ _ _ hf _ hp.1 c hc hplace
      obtain ⟨rfl, -⟩ := inner.unique hr'
      exact ⟨_, _, .memoHit hplace hf⟩
    | none =>
      obtain ⟨t, _, d⟩ := ih hp.2 hc ctx (hs.opened table)
      exact ⟨_, _, .memoMiss hplace hf d⟩
  | tally _ ih =>
    obtain ⟨t, _, d⟩ := ih hp hc ctx (hs.raise _)
    exact ⟨t, _, .tally d⟩
  | site _ ih =>
    obtain ⟨t, _, d⟩ := ih hp hc ctx hs
    exact ⟨t, _, .site d⟩
  | scope _ ih =>
    obtain ⟨t, _, d⟩ := ih hp hc _ hs
    exact ⟨t, _, .scope d⟩

end Parser

end

/-! ## Parsers without memoization -/

namespace Parser

/-- The same parser, not memoized anywhere. -/
def withoutMemo : Parser τ ρ → Parser τ ρ
  | .leaf l => .leaf l
  | .adapt a p => .adapt a p.withoutMemo
  | .andThen p q combine => .andThen p.withoutMemo q.withoutMemo combine
  | .orElse p q => .orElse p.withoutMemo q.withoutMemo
  | .repeated limit p => .repeated limit p.withoutMemo
  | .till body stop => .till body.withoutMemo stop.withoutMemo
  | .delimited delimiter item => .delimited delimiter.withoutMemo item.withoutMemo
  | .assign slot p => .assign slot p.withoutMemo
  | .memo _ p => p.withoutMemo
  | .tally counter p => .tally counter p.withoutMemo
  | .rule name => .rule name
  | .site name report p => .site name report p.withoutMemo
  | .scope on p => .scope on p.withoutMemo

/-- The rules, not memoized anywhere. -/
def rulesWithoutMemo (grammar : Grammar τ ρ) : Grammar τ ρ := fun name => (grammar name).withoutMemo

/-- Whatever the settings are and whatever the store holds, the parser returns this result at the
cursor, and no other. -/
def Returns (grammar : Grammar τ ρ) (p : Parser τ ρ) (c : Cursor τ) (r : Result τ) : Prop :=
  ∀ ctx s, (∃ fuel t signals, p.run grammar fuel ctx c s = some (r, t, signals)) ∧
    ∀ fuel r' t signals, p.run grammar fuel ctx c s = some (r', t, signals) → r' = r

/-- No table occurs in it, so it is uniform whichever parsers the tables have. -/
theorem uniform_withoutMemo {body : Memo → Option (Parser τ ρ)} (p : Parser τ ρ) :
    p.withoutMemo.Uniform body := by
  induction p with
  | leaf => trivial
  | rule => trivial
  | andThen _ _ _ ih₁ ih₂ => exact ⟨ih₁, ih₂⟩
  | orElse _ _ ih₁ ih₂ => exact ⟨ih₁, ih₂⟩
  | till _ _ ih₁ ih₂ => exact ⟨ih₁, ih₂⟩
  | delimited _ _ ih₁ ih₂ => exact ⟨ih₁, ih₂⟩
  | _ => assumption

variable {grammar : Grammar τ ρ} {p q : Parser τ ρ} {c : Cursor τ} {r : Result τ}
  {ks : List (Call τ)}

theorem homomorphic_withoutMemo : Homomorphic (withoutMemo : Parser τ ρ → Parser τ ρ) where
  leaf _ := rfl
  adapt _ _ := rfl
  andThen _ _ _ := rfl
  orElse _ _ := rfl
  repeated _ _ := rfl
  till _ _ := rfl
  delimited _ _ := rfl
  rule _ := rfl

/-- Without memoization the result is the same, and no call is made. -/
theorem Parses.withoutMemo (h : p.Parses grammar c r ks) :
    p.withoutMemo.Parses (rulesWithoutMemo grammar) c r [] := by
  induction h with
  | leaf => exact .leaf
  | adapt _ ih => exact .adapt ih
  | andThenFail _ ih => exact .andThenFail ih
  | andThen _ _ ih₁ ih₂ => exact .andThen ih₁ ih₂
  | orElseFirst _ ih => exact .orElseFirst ih
  | orElse _ _ ih₁ ih₂ => exact .orElse ih₁ ih₂
  | unrolled hq _ ih => exact .unrolled (homomorphic_withoutMemo.unrolled? hq) ih
  | assign _ ih => exact .assign ih
  | memoAtEnd _ _ ih => exact ih
  | memo _ _ ih => exact ih
  | tally _ ih => exact .tally ih
  | site _ ih => exact .site ih
  | scope _ ih => exact .scope ih

/-- What a parser returns without state, it returns without memoization in every state. -/
theorem Parses.returns_withoutMemo {sources : Nat → Array τ} (h : p.Parses grammar c r ks)
    (hc : c.buffer.CutFrom sources) : p.withoutMemo.Returns (rulesWithoutMemo grammar) c r := by
  intro ctx s
  have faithful : s.Faithful (rulesWithoutMemo grammar) (fun _ => none) sources := nofun
  obtain ⟨t, hist, d⟩ := h.withoutMemo.exists_runs (fun name => uniform_withoutMemo _)
    (uniform_withoutMemo p) hc ctx faithful
  obtain ⟨fuel, hrun⟩ := d.exists_run
  refine ⟨⟨fuel, t, hist.signals, hrun⟩, ?_⟩
  intro fuel' r' t' signals hrun'
  cases run_unique hrun hrun'
  rfl

end Parser

/-! ## Runs that share tables -/

/-- A run that is asked for: the settings, the parser and the cursor. -/
structure Job (τ ρ : Type) where
  ctx : Context
  parser : Parser τ ρ
  start : Cursor τ

namespace Job

/-- The run of a job. -/
def run (grammar : Grammar τ ρ) (fuel : Nat) (job : Job τ ρ) : Run τ (Result τ) :=
  job.parser.run grammar fuel job.ctx job.start

/-- The runs of several jobs, one after another from one store. -/
def runAll (grammar : Grammar τ ρ) (fuel : Nat) (jobs : List (Job τ ρ)) : Run τ (List (Result τ)) :=
  jobs.mapM (Job.run grammar fuel)

/-- The tables of the job are those of `body`, and its buffer is cut from one of the sources. -/
structure Fits (body : Memo → Option (Parser τ ρ)) (sources : Nat → Array τ) (job : Job τ ρ) :
    Prop where
  uniform : job.parser.Uniform body
  cut : job.start.buffer.CutFrom sources

/-- What all jobs return without state, and all calls that they make. -/
inductive ParseAll (grammar : Grammar τ ρ) :
    List (Job τ ρ) → List (Result τ) → List (Call τ) → Prop where
  | nil : ParseAll grammar [] [] []
  | cons {job jobs r results ks asked} (first : job.parser.Parses grammar job.start r ks)
      (rest : ParseAll grammar jobs results asked) :
      ParseAll grammar (job :: jobs) (r :: results) (ks ++ asked)

variable {grammar : Grammar τ ρ} {body : Memo → Option (Parser τ ρ)} {sources : Nat → Array τ}

theorem runAll_cons (fuel : Nat) (job : Job τ ρ) (jobs : List (Job τ ρ)) :
    runAll grammar fuel (job :: jobs) =
      job.run grammar fuel >>= fun r => runAll grammar fuel jobs >>= fun rs => pure (r :: rs) := by
  simp [runAll]

/-- Jobs that are run one after another keep an invariant of the tables, and return what they return
without state. -/
theorem parseAll_of_runAll {Inv : Store τ → List (Call τ) → Prop}
    (hInv : Parser.Kept grammar body sources Inv) (rules : ∀ name, (grammar name).Uniform body)
    {jobs : List (Job τ ρ)} (fits : ∀ job ∈ jobs, job.Fits body sources) {fuel : Nat}
    {s t : Store τ} {results : List (Result τ)} {signals : List (Signal τ)}
    (h : runAll grammar fuel jobs s = some (results, t, signals)) (ks : List (Call τ))
    (hs : Inv s ks) : ∃ asked, ParseAll grammar jobs results asked ∧ Inv t (ks ++ asked) := by
  induction jobs generalizing s results signals ks with
  | nil =>
    cases h
    exact ⟨[], .nil, by simpa using hs⟩
  | cons job jobs ih =>
    rw [runAll_cons] at h
    obtain ⟨r, s₁, _, _, hfirst, hk₁, -⟩ := Run.of_bind h
    obtain ⟨rs, s₂, _, _, hrest, hk₂, -⟩ := Run.of_bind hk₁
    cases hk₂
    obtain ⟨hist, d, -⟩ := Parser.runs_of_run hfirst
    obtain ⟨hjob, fits⟩ := List.forall_mem_cons.mp fits
    obtain ⟨ks₁, hr, hs₁⟩ := d.kept hInv rules hjob.uniform hjob.cut ks hs
    obtain ⟨asked, hrs, ht⟩ := ih fits hrest (ks ++ ks₁) hs₁
    exact ⟨ks₁ ++ asked, .cons hr hrs, by rwa [← List.append_assoc]⟩

/-- Several runs of parsers, on any buffers and with any settings, that share memo tables in which
nothing was entered yet, each table wrapped around one parser everywhere: each run returns what its
parser returns with all memoization taken away. -/
theorem results_without_memo (rules : ∀ name, (grammar name).Uniform body) {jobs : List (Job τ ρ)}
    (fits : ∀ job ∈ jobs, job.Fits body sources) {s t : Store τ}
    (fresh : ∀ memo place, (s.table memo).find? place = none) {fuel : Nat}
    {results : List (Result τ)} {signals : List (Signal τ)}
    (h : runAll grammar fuel jobs s = some (results, t, signals)) :
    List.Forall₂ (fun job r =>
      job.parser.withoutMemo.Returns (Parser.rulesWithoutMemo grammar) job.start r)
      jobs results := by
  have faithful : s.Faithful grammar body sources := Store.allAnswers_of_fresh fresh
  obtain ⟨asked, hall, -⟩ := parseAll_of_runAll Store.faithful_kept rules fits h [] faithful
  clear h
  induction hall with
  | nil => exact .nil
  | cons first _ ih =>
    obtain ⟨hjob, fits⟩ := List.forall_mem_cons.mp fits
    exact .cons (first.returns_withoutMemo hjob.cut) (ih fits)

/-! ### Letters in two buffers -/

/-- A table for the letters that are left. -/
def letterTable : Memo := ⟨0, "letters"⟩

/-- A letter followed by the letters that are left, or none. -/
def letterRule : Grammar Char Unit := fun _ =>
  .orElse (.andThen (Parser.exactly 'a') (.memoized letterTable (.rule ())) .cons)
    (.succeed (.list []))

/-- The only table is wrapped around the only rule. -/
def letterBody (memo : Memo) : Option (Parser Char Unit) :=
  if memo = letterTable then some (.rule ()) else none

/-- The letters of a buffer, those of a part of it, and those of the buffer once more. -/
def letterJobs : List (Job Char Unit) :=
  let whole := Buffer.ofArray 0 #['a', 'a', 'b']
  let letters := Parser.memoized letterTable (.rule ())
  [⟨.plain, letters, .ofBuffer whole⟩, ⟨.plain, letters, .ofBuffer (whole.slice 1 3)⟩,
    ⟨.plain, letters, .ofBuffer whole⟩]

theorem letterRule_uniform : ∀ name, (letterRule name).Uniform letterBody :=
  fun _ => ⟨⟨trivial, rfl, trivial⟩, trivial⟩

theorem letterJobs_fit : ∀ job ∈ letterJobs,
    job.Fits letterBody fun _ => #['a', 'a', 'b'] := by
  have whole : (Buffer.ofArray 0 #['a', 'a', 'b']).CutFrom fun _ => #['a', 'a', 'b'] := .ofArray 0
  intro job hjob
  simp only [letterJobs, List.mem_cons, List.not_mem_nil, or_false] at hjob
  rcases hjob with rfl | rfl | rfl
  · exact ⟨⟨rfl, trivial⟩, whole⟩
  · exact ⟨⟨rfl, trivial⟩, whole.slice 1 3⟩
  · exact ⟨⟨rfl, trivial⟩, whole⟩

/-- The runs of the letters, of which the last is answered from the table. -/
theorem results_without_memo_of_letters :
    ∃ results t signals, runAll letterRule 20 letterJobs ∅ = some (results, t, signals) ∧
      (t.table letterTable).hits = 1 ∧
      List.Forall₂ (fun job r =>
        job.parser.withoutMemo.Returns (Parser.rulesWithoutMemo letterRule) job.start r)
        letterJobs results := by
  have returns : ∃ out, runAll letterRule 20 letterJobs ∅ = some out ∧
      (out.2.1.table letterTable).hits = 1 := by
    refine ⟨_, rfl, ?_⟩
    decide +kernel
  obtain ⟨⟨results, t, signals⟩, h, hits⟩ := returns
  exact ⟨results, t, signals, h, hits,
    results_without_memo letterRule_uniform letterJobs_fit (fun _ _ => rfl) h⟩

end Job

end Packrat
