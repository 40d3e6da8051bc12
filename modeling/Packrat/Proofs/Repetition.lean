import Packrat.Combinator.Repetition
import Packrat.Proofs.Totality

/-!
# One greedy iteration behind all repetitions

The repetitions of a parser whose result depends on the cursor alone have one iteration in common:
the parser is run where it stopped before, until it fails. None or more matches are all of the
iteration, one or more are the same unless there are none, and a repetition with bounds takes as
many as it may and then asks whether they are enough.

* `Parser.Steady`: parsers whose results depend on the cursor alone.
* `Parser.steady_of_uniform`: so does a parser with its tables, as long as these are faithful.
* `Parser.Iterates`: the matches from a cursor on and the failure that ends them.
* `Parser.Iterates.exists_runs_repeated`: every loop goes along the iteration.
* `Parser.repetitions_agree`: the repetitions of a parser, and the one of a test.
-/

namespace Packrat

variable {τ ρ : Type}

/-- The cursor behind matches one after another. -/
def Cursor.behind (c : Cursor τ) (ms : List (Match τ)) : Cursor τ := ms.foldl (fun _ m => m.stop) c

namespace Parser

/-! ## Parsers that depend on the cursor alone -/

/-- Under some settings and from this store the parser has this result at the cursor. -/
def Makes (grammar : Grammar τ ρ) (ctx : Context) (p : Parser τ ρ) (c : Cursor τ) (s : Store τ)
    (r : Result τ) : Prop :=
  ∃ fuel t signals, p.run grammar fuel ctx c s = some (r, t, signals)

/-- The result of the parser depends on the cursor alone: neither on the settings nor on the store,
as long as this is one that the parser may meet there. From such a store it goes to another one that
it may meet, also where it stops. A parser without tables may meet every store. -/
structure Steady (grammar : Grammar τ ρ) (Ready : Cursor τ → Store τ → Prop) (p : Parser τ ρ) :
    Prop where
  again : ∀ {ctx c s r t hist}, Ready c s → p.Runs grammar ctx c s r t hist →
    ∀ ctx' s', Ready c s' → ∃ t' hist', p.Runs grammar ctx' c s' r t' hist'
  ready : ∀ {ctx c s r t hist}, Ready c s → p.Runs grammar ctx c s r t hist →
    Ready c t ∧ ∀ m, r = .ok m → Ready m.stop t

section

variable {grammar : Grammar τ ρ} {p : Parser τ ρ} {c : Cursor τ} {s t : Store τ} {r : Result τ}

theorem makes_iff {ctx : Context} :
    p.Makes grammar ctx c s r ↔ ∃ t hist, p.Runs grammar ctx c s r t hist := by
  constructor
  · rintro ⟨fuel, t, signals, h⟩
    obtain ⟨hist, d, -⟩ := runs_of_run h
    exact ⟨t, hist, d⟩
  · rintro ⟨t, hist, d⟩
    obtain ⟨fuel, h⟩ := d.exists_run
    exact ⟨fuel, t, hist.signals, h⟩

/-- A parser that finishes without tables makes what it gives, from every store. -/
theorem Finishes.makes_iff {sources : Nat → Array τ} {fuel : Nat} {ctx : Context}
    (h : p.Finishes grammar (fun _ => none) sources fuel c) :
    p.Makes grammar ctx c s r ↔ p.Gives grammar c r := by
  have faithful : s.Faithful grammar (fun _ => none) sources := nofun
  obtain ⟨r', t, signals, hrun, hr', -⟩ := h ctx s faithful
  constructor
  · rintro ⟨fuel', t', signals', hrun'⟩
    obtain ⟨rfl, -⟩ := Prod.mk.inj (run_unique hrun hrun')
    exact hr'
  · intro hr
    obtain rfl := hr.unique hr'
    exact ⟨fuel, t, signals, hrun⟩

theorem Halts.makes_iff {ctx : Context} (h : p.Halts grammar c) :
    p.Makes grammar ctx c s r ↔ p.Gives grammar c r := by
  obtain ⟨fuel, h⟩ := h
  exact h.makes_iff

theorem Halts.exists_makes (h : p.Halts grammar c) (ctx : Context) (s : Store τ) :
    ∃ r, p.Makes grammar ctx c s r := by
  obtain ⟨r, hr⟩ := h.exists_gives
  exact ⟨r, h.makes_iff.mpr hr⟩

/-- A parser of which each table is wrapped around one parser is steady, as long as the tables are
faithful. -/
theorem steady_of_uniform {body : Memo → Option (Parser τ ρ)} {sources : Nat → Array τ}
    (rules : ∀ name, (grammar name).Uniform body) (hp : p.Uniform body) :
    p.Steady grammar fun c s => c.buffer.CutFrom sources ∧ s.Faithful grammar body sources where
  again := by
    rintro ctx c s r t hist ⟨hc, hs⟩ d ctx' s' ⟨-, hs'⟩
    obtain ⟨ks, hr, -⟩ := d.kept Store.faithful_kept rules hp hc [] hs
    exact hr.exists_runs rules hp hc ctx' hs'
  ready := by
    rintro ctx c s r t hist ⟨hc, hs⟩ d
    obtain ⟨ks, hr, ht⟩ := d.kept Store.faithful_kept rules hp hc [] hs
    refine ⟨⟨hc, ht⟩, fun m hm => ⟨?_, ht⟩⟩
    rw [hr.buffer_stop m hm]
    exact hc

/-! ## The iteration -/

/-- The parser matches at the cursor, matches again where it stopped, and so on; behind the last
match it fails. -/
inductive Iterates (grammar : Grammar τ ρ) (Ready : Cursor τ → Store τ → Prop) (p : Parser τ ρ) :
    Cursor τ → List (Match τ) → Failure τ → Prop where
  | stop {ctx c s f t hist} (ready : Ready c s) (fails : p.Runs grammar ctx c s (.error f) t hist) :
      Iterates grammar Ready p c [] f
  | step {ctx c s m t hist ms f} (ready : Ready c s)
      (first : p.Runs grammar ctx c s (.ok m) t hist)
      (rest : Iterates grammar Ready p m.stop ms f) : Iterates grammar Ready p c (m :: ms) f

variable {Ready : Cursor τ → Store τ → Prop} {ms : List (Match τ)} {f : Failure τ}

/-- A loop that ends has gone along the iteration to its end. -/
theorem exists_iterates (hp : p.Steady grammar Ready) {fuel : Nat} {ctx : Context}
    {signals : List (Signal τ)} (hs : Ready c s)
    (h : run grammar fuel ctx (.repeated none p) c s = some (r, t, signals)) :
    ∃ ms f, p.Iterates grammar Ready c ms f ∧
      r = .ok ⟨c.behind ms, .list (ms.map (·.value))⟩ := by
  induction fuel generalizing c s r t signals with
  | zero => cases h
  | succ fuel ih =>
    rw [run_repeated, if_neg nofun] at h
    obtain ⟨r₁, s₁, _, _, hfirst, hk, rfl⟩ := Run.of_bind h
    obtain ⟨_, first, -⟩ := runs_of_run hfirst
    cases r₁ with
    | error f =>
      cases hk
      exact ⟨[], f, .stop hs first, rfl⟩
    | ok m =>
      obtain ⟨r₂, s₂, _, _, hrest, hk, rfl⟩ := Run.of_bind hk
      obtain ⟨ms, f, rest, rfl⟩ := ih ((hp.ready hs first).2 m rfl) hrest
      cases hk
      exact ⟨m :: ms, f, .step hs first rest, rfl⟩

/-- The matches of an iteration that a limit lets a loop take. -/
def within (limit : Option Nat) (ms : List (Match τ)) : List (Match τ) := limit.elim ms ms.take

theorem within_nil (limit : Option Nat) : within limit ([] : List (Match τ)) = [] := by
  cases limit
  · rfl
  · exact List.take_nil

theorem within_cons {limit : Option Nat} (more : limit ≠ some 0) (m : Match τ)
    (ms : List (Match τ)) : within limit (m :: ms) = m :: within (limit.map (· - 1)) ms := by
  cases limit with
  | none => rfl
  | some n =>
    obtain ⟨n, rfl⟩ := Nat.exists_eq_succ_of_ne_zero fun h => more (congrArg some h)
    rfl

theorem runs_repeated_zero (ctx : Context) (p : Parser τ ρ) (c : Cursor τ) (s : Store τ) :
    Runs grammar ctx (.repeated (some 0) p) c s (.ok ⟨c, .list []⟩) s .quiet :=
  .unrolled rfl .leaf

/-- A loop goes along the iteration, under all settings and from all stores that the parser may
meet, as far as its limit lets it. -/
theorem Iterates.exists_runs_repeated (h : p.Iterates grammar Ready c ms f)
    (hp : p.Steady grammar Ready) (limit : Option Nat) (ctx : Context) (hs : Ready c s) :
    ∃ t hist, Runs grammar ctx (.repeated limit p) c s
      (.ok ⟨c.behind (within limit ms), .list ((within limit ms).map (·.value))⟩) t hist := by
  induction h generalizing limit s with
  | stop ready fails =>
    rw [within_nil]
    by_cases spent : limit = some 0
    · subst spent
      exact ⟨s, _, runs_repeated_zero ctx p _ s⟩
    · obtain ⟨t, _, d⟩ := hp.again ready fails ctx s hs
      exact ⟨t, _, .unrolled (if_neg spent) (.orElse (.andThenFail d) .leaf)⟩
  | step ready first rest ih =>
    by_cases spent : limit = some 0
    · subst spent
      exact ⟨s, _, runs_repeated_zero ctx p _ s⟩
    · obtain ⟨t, _, d⟩ := hp.again ready first ctx s hs
      obtain ⟨u, _, d'⟩ := ih (limit.map (· - 1)) ((hp.ready hs d).2 _ rfl)
      rw [within_cons spent]
      exact ⟨u, _, .unrolled (if_neg spent) (.orElseFirst (.andThen d d'))⟩

/-! ## The repetitions -/

/-- What the repetitions of a parser make at a cursor, told by the matches of the iteration and the
failure that ends it. -/
structure Repeats (grammar : Grammar τ ρ) [Token τ] (p : Parser τ ρ) (start : Cursor τ)
    (ms : List (Match τ)) (f : Failure τ) (ctx : Context) (s : Store τ) : Prop where
  all : (many p).Makes grammar ctx start s (.ok ⟨start.behind ms, .list (ms.map (·.value))⟩)
  oneOrMore : ms ≠ [] →
    (many1 p).Makes grammar ctx start s (.ok ⟨start.behind ms, .list (ms.map (·.value))⟩)
  noMatch : ms = [] → ∃ e, (many1 p).Makes grammar ctx start s (.error e) ∧
    e.position = f.position ∧ e.message = "many1: " ++ f.message
  enough : ∀ least most, least ≤ min ms.length most →
    (manyBetween least most p).Makes grammar ctx start s
      (.ok ⟨start.behind (ms.take most), .list ((ms.take most).map (·.value))⟩)
  tooFew : ∀ least most, min ms.length most < least →
    ∃ e, (manyBetween least most p).Makes grammar ctx start s (.error e) ∧
      e.position = start.offset ∧
      e.message = s!"many_n: got {min ms.length most}, want [{least}, {most}]"

/-- A repetition with bounds asks behind its loop whether the values are enough. -/
theorem Runs.makes_manyBetween {ctx : Context} {most : Nat} {d : Cursor τ} {vs : List (Value τ)}
    {hist : History τ}
    (h : Runs grammar ctx (.repeated (some most) p) c s (.ok ⟨d, .list vs⟩) t hist) (least : Nat) :
    (manyBetween least most p).Makes grammar ctx c s
      (if vs.length < least then .error ⟨c.offset, .tooFew vs.length least most⟩
        else .ok ⟨d, .list vs⟩) := by
  have made : (manyBetween least most p).Makes grammar ctx c s _ :=
    makes_iff.mpr ⟨t, _, .site (.adapt h)⟩
  by_cases few : vs.length < least <;> simpa [Adapter.apply, Value.items, few] using made

theorem Iterates.makes_manyBetween (h : p.Iterates grammar Ready c ms f)
    (hp : p.Steady grammar Ready) (least most : Nat) (ctx : Context) (hs : Ready c s) :
    (manyBetween least most p).Makes grammar ctx c s
      (if min ms.length most < least then .error ⟨c.offset, .tooFew (min ms.length most) least most⟩
        else .ok ⟨c.behind (ms.take most), .list ((ms.take most).map (·.value))⟩) := by
  obtain ⟨t, hist, d⟩ := h.exists_runs_repeated hp (some most) ctx hs
  have made := d.makes_manyBetween least
  rw [List.length_map, within, Option.elim_some, List.length_take, Nat.min_comm] at made
  exact made

theorem Iterates.repeats [Token τ] (h : p.Iterates grammar Ready c ms f)
    (hp : p.Steady grammar Ready) (ctx : Context) (hs : Ready c s) :
    p.Repeats grammar c ms f ctx s where
  all := by
    obtain ⟨t, _, d⟩ := h.exists_runs_repeated hp none ctx hs
    exact makes_iff.mpr ⟨t, _, .site d⟩
  oneOrMore := by
    intro some
    cases h with
    | stop => exact absurd rfl some
    | step ready first rest =>
      obtain ⟨t, _, d⟩ := hp.again ready first ctx s hs
      obtain ⟨u, _, d'⟩ := rest.exists_runs_repeated hp none ctx ((hp.ready hs d).2 _ rfl)
      exact makes_iff.mpr ⟨u, _, .site (.andThen (.adapt d) d')⟩
  noMatch := by
    rintro rfl
    cases h with
    | stop ready fails =>
      obtain ⟨t, _, d⟩ := hp.again ready fails ctx s hs
      exact ⟨f.within "many1", makes_iff.mpr ⟨t, _, .site (.andThenFail (.adapt d))⟩, rfl, rfl⟩
  enough := by
    intro least most enough
    have made := h.makes_manyBetween hp least most ctx hs
    rw [if_neg (Nat.not_lt.mpr enough)] at made
    exact made
  tooFew := by
    intro least most tooFew
    have made := h.makes_manyBetween hp least most ctx hs
    rw [if_pos tooFew] at made
    exact ⟨_, made, rfl, rfl⟩

end

/-- The repetition of a test takes the longest run of tokens that pass, from every store. -/
theorem makes_many_satisfying (grammar : Grammar τ ρ) (test : τ → Bool) (ctx : Context)
    (c : Cursor τ) (s : Store τ) :
    (many (satisfying test)).Makes grammar ctx c s
      (.ok ⟨c.past test, .tokens (c.remaining.takeWhile test)⟩) := by
  have finishes : Finishes grammar (fun _ => none) (fun _ => #[]) (c.remaining.length + 4)
      (many (satisfying test)) c := (finishes_repeated_satisfying test).site
  exact finishes.makes_iff.mpr (gives_site.mpr ok_repeated_satisfying)

/-- A parser whose result depends on the cursor alone, and which some run repeats until it fails: it
has an iteration, that run gives all matches of it, and so does every repetition of the parser at the
same cursor as far as it goes, under all settings and from all stores that the parser may meet. The
repetition of a test takes the longest run of tokens that pass. -/
theorem repetitions_agree [Token τ] (grammar : Grammar τ ρ) :
    (∀ {p : Parser τ ρ} {Ready : Cursor τ → Store τ → Prop} {start : Cursor τ} {ctx : Context}
      {s t : Store τ} {r : Result τ} {fuel : Nat} {signals : List (Signal τ)},
      p.Steady grammar Ready → Ready start s →
      (many p).run grammar fuel ctx start s = some (r, t, signals) →
      ∃ ms f, p.Iterates grammar Ready start ms f ∧
        r = .ok ⟨start.behind ms, .list (ms.map (·.value))⟩ ∧
        ∀ ctx' s', Ready start s' → p.Repeats grammar start ms f ctx' s') ∧
    ∀ (test : τ → Bool) (start : Cursor τ) (ctx : Context) (s : Store τ),
      (many (satisfying test)).Makes grammar ctx start s
        (.ok ⟨start.past test, .tokens (start.remaining.takeWhile test)⟩) := by
  refine ⟨?_, fun test start ctx s => makes_many_satisfying grammar test ctx start s⟩
  intro p Ready start ctx s t r fuel signals hp hs h
  obtain ⟨_, d, -⟩ := runs_of_run h
  cases d with
  | unrolled hq _ => cases hq
  | site inner =>
    obtain ⟨fuel', h'⟩ := inner.exists_run
    obtain ⟨ms, f, iterates, rfl⟩ := exists_iterates hp hs h'
    exact ⟨ms, f, iterates, rfl, fun ctx' s' hs' => iterates.repeats hp ctx' hs'⟩

/-- Two memoized letters in front of another one. -/
theorem repetitions_agree_of_letters :
    let table : Memo := ⟨0, "letter"⟩
    let grammar : Grammar Char Empty := Empty.elim
    let p : Parser Char Empty := .memoized table (.exactly 'a')
    let start : Cursor Char := .ofBuffer (.ofArray 0 #['a', 'a', 'b'])
    ∃ ms f, ms.length = 2 ∧ p.Repeats grammar start ms f .plain ∅ ∧
      (many (satisfying fun a => a == 'a')).Makes grammar .plain start ∅
        (.ok ⟨⟨start.buffer, 2⟩, .tokens ['a', 'a']⟩) := by
  intro table grammar p start
  let body : Memo → Option (Parser Char Empty) := fun memo =>
    if memo = table then some (.exactly 'a') else none
  let sources : Nat → Array Char := fun _ => #['a', 'a', 'b']
  have hp : p.Steady grammar fun c s =>
      c.buffer.CutFrom sources ∧ s.Faithful grammar body sources :=
    steady_of_uniform (fun name => name.elim) ⟨rfl, trivial⟩
  have hs : start.buffer.CutFrom sources ∧ (∅ : Store Char).Faithful grammar body sources :=
    ⟨.ofArray 0, Store.allAnswers_of_fresh fun _ _ => rfl⟩
  have returns : ((many p).run grammar 20 .plain start ∅).map
      (fun x => x.1.toOption.map fun m => m.value.items.length) = some (some 2) := by
    decide +kernel
  obtain ⟨⟨r, t, signals⟩, h, hlength⟩ := Option.map_eq_some_iff.mp returns
  obtain ⟨repeated, test⟩ := repetitions_agree grammar
  obtain ⟨ms, f, -, rfl, agree⟩ := repeated hp hs h
  refine ⟨ms, f, ?_, agree .plain ∅ hs, test _ start .plain ∅⟩
  simpa [Value.items, Except.toOption] using hlength

end Parser

end Packrat
