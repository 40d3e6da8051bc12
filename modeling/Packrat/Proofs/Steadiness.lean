import Packrat.Proofs.Repetition

/-!
# Combining parsers that depend on the cursor alone

Parsers whose results depend on the cursor alone may be read as relations between cursors and
results, without the stores that they go through. A combinator of such parsers is one again, and its
results are told by theirs.

* `Parser.Yields`: the result at a cursor, whatever the settings and the store.
* `Parser.Settled`: steady parsers of which several may be run in turn.
* `Parser.yields_keepRight_ok`, `Parser.yields_notFollowedBy_ok`: results of combinators.
* `Parser.Follows`: matches one after another, `Parser.yields_many` for the loop that takes them.
-/

namespace Packrat.Parser

variable {τ ρ : Type}

/-! ## Results without stores -/

/-- Under some settings, and from a store that the parser may meet there, this is its result at the
cursor. -/
def Yields (grammar : Grammar τ ρ) (Ready : Cursor τ → Store τ → Prop) (p : Parser τ ρ)
    (c : Cursor τ) (r : Result τ) : Prop :=
  ∃ ctx s t hist, Ready c s ∧ p.Runs grammar ctx c s r t hist

/-- The parser has its results under all settings and from all stores that it may meet. -/
structure Constant (grammar : Grammar τ ρ) (Ready : Cursor τ → Store τ → Prop)
    (p : Parser τ ρ) : Prop where
  exists_runs : ∀ {c r}, p.Yields grammar Ready c r →
    ∀ ctx {s}, Ready c s → ∃ t hist, p.Runs grammar ctx c s r t hist

/-- A steady parser that leaves every store ready for the cursors for which it was ready, so that
other parsers may be run next to it. A parser without tables may meet every store. -/
structure Settled (grammar : Grammar τ ρ) (Ready : Cursor τ → Store τ → Prop)
    (p : Parser τ ρ) : Prop extends p.Steady grammar Ready where
  keeps : ∀ {ctx c s r t hist}, Ready c s → p.Runs grammar ctx c s r t hist →
    ∀ d, Ready d s → Ready d t

/-- The matches of successive runs, each where the one before stopped. -/
inductive Follows (grammar : Grammar τ ρ) (Ready : Cursor τ → Store τ → Prop) (p : Parser τ ρ) :
    Cursor τ → List (Match τ) → Prop where
  | nil {c} : Follows grammar Ready p c []
  | cons {c m ms} (first : p.Yields grammar Ready c (.ok m))
      (rest : Follows grammar Ready p m.stop ms) : Follows grammar Ready p c (m :: ms)

variable {grammar : Grammar τ ρ} {Ready : Cursor τ → Store τ → Prop} {p q : Parser τ ρ}
  {ctx : Context} {c : Cursor τ} {s t : Store τ} {r r' : Result τ} {m : Match τ} {f : Failure τ}
  {ms : List (Match τ)}

theorem terminates_iff : p.Terminates grammar ctx c s ↔ ∃ r, p.Makes grammar ctx c s r := by
  constructor
  · rintro ⟨fuel, h⟩
    obtain ⟨⟨r, t, signals⟩, h⟩ := Option.isSome_iff_exists.mp h
    exact ⟨r, fuel, t, signals, h⟩
  · rintro ⟨r, fuel, t, signals, h⟩
    exact ⟨fuel, Option.isSome_iff_exists.mpr ⟨_, h⟩⟩

/-- A run that returns a match makes it. -/
theorem exists_makes_of_run {α : Type} {g : Match τ → α} {a : α} {fuel : Nat}
    (h : (p.run grammar fuel ctx c s).map (fun out => out.1.toOption.map g) = some (some a)) :
    ∃ m, p.Makes grammar ctx c s (.ok m) ∧ g m = a := by
  obtain ⟨⟨r, t, signals⟩, hrun, hr⟩ := Option.map_eq_some_iff.mp h
  cases r with
  | error f => cases hr
  | ok m => exact ⟨m, ⟨fuel, t, signals, hrun⟩, Option.some.inj hr⟩

theorem Steady.constant (hp : p.Steady grammar Ready) : p.Constant grammar Ready := by
  constructor
  rintro c r ⟨ctx', s', t', _, hs', d⟩ ctx s hs
  exact hp.again hs' d ctx s hs

theorem Constant.makes_iff (hp : p.Constant grammar Ready) (hs : Ready c s) :
    p.Makes grammar ctx c s r ↔ p.Yields grammar Ready c r := by
  rw [Parser.makes_iff]
  constructor
  · rintro ⟨t, hist, d⟩
    exact ⟨ctx, s, t, hist, hs, d⟩
  · intro h
    exact hp.exists_runs h ctx hs

theorem Constant.unique (hp : p.Constant grammar Ready) (h : p.Yields grammar Ready c r)
    (h' : p.Yields grammar Ready c r') : r = r' := by
  obtain ⟨ctx, s, _, _, hs, d⟩ := h
  obtain ⟨_, _, d'⟩ := hp.exists_runs h' ctx hs
  exact (d.unique d').1

theorem Yields.exists_ready (h : p.Yields grammar Ready c r) : ∃ s, Ready c s := by
  obtain ⟨_, s, _, _, hs, _⟩ := h
  exact ⟨s, hs⟩

/-- A parser whose results are told by the cursor, and which has them from every store that it may
meet. -/
theorem constant_of_told {Told : Cursor τ → Result τ → Prop}
    (told : ∀ {c ctx s r t hist}, Ready c s → p.Runs grammar ctx c s r t hist → Told c r)
    (ready : ∀ {c r}, Told c r → ∃ s, Ready c s)
    (runs : ∀ {c r}, Told c r → ∀ ctx {s}, Ready c s → ∃ t hist, p.Runs grammar ctx c s r t hist) :
    p.Constant grammar Ready ∧ ∀ {c r}, p.Yields grammar Ready c r ↔ Told c r := by
  have yields : ∀ {c r}, p.Yields grammar Ready c r → Told c r := by
    rintro c r ⟨ctx, s, t, hist, hs, d⟩
    exact told hs d
  refine ⟨⟨fun h => runs (yields h)⟩, yields, ?_⟩
  intro h
  obtain ⟨s, hs⟩ := ready h
  obtain ⟨t, hist, d⟩ := runs h .plain hs
  exact ⟨.plain, s, t, hist, hs, d⟩

/-- A parser of which each table is wrapped around one parser is settled, as long as the tables are
faithful. -/
theorem settled_of_uniform {body : Memo → Option (Parser τ ρ)} {sources : Nat → Array τ}
    (rules : ∀ name, (grammar name).Uniform body) (hp : p.Uniform body) :
    p.Settled grammar fun c s => c.buffer.CutFrom sources ∧ s.Faithful grammar body sources where
  toSteady := steady_of_uniform rules hp
  keeps := by
    rintro ctx c s r t hist ⟨hc, hs⟩ d e ⟨he, -⟩
    obtain ⟨-, -, ht⟩ := d.kept Store.faithful_kept rules hp hc [] hs
    exact ⟨he, ht⟩

/-! ## Sites -/

theorem yields_site {name : String} {report : Report} :
    Yields grammar Ready (.site name report p) c r ↔ p.Yields grammar Ready c r := by
  constructor
  · rintro ⟨ctx, s, t, _, hs, d⟩
    cases d with
    | unrolled hq _ => cases hq
    | site inner => exact ⟨ctx, s, t, _, hs, inner⟩
  · rintro ⟨ctx, s, t, _, hs, d⟩
    exact ⟨ctx, s, t, _, hs, .site d⟩

theorem Constant.site (hp : p.Constant grammar Ready) (name : String) (report : Report) :
    Constant grammar Ready (.site name report p) := by
  constructor
  intro c r h ctx s hs
  obtain ⟨t, _, d⟩ := hp.exists_runs (yields_site.mp h) ctx hs
  exact ⟨t, _, .site d⟩

theorem Settled.site (hp : p.Settled grammar Ready) (name : String) (report : Report) :
    Settled grammar Ready (.site name report p) where
  again hs d ctx' s' hs' := (hp.constant.site _ _).exists_runs ⟨_, _, _, _, hs, d⟩ ctx' hs'
  ready := by
    intro ctx c s r t hist hs d
    cases d with
    | unrolled hq _ => cases hq
    | site inner => exact hp.ready hs inner
  keeps := by
    intro ctx c s r t hist hs d e he
    cases d with
    | unrolled hq _ => cases hq
    | site inner => exact hp.keeps hs inner e he

/-! ## Changed results -/

theorem yields_adapt {a : Adapter τ} :
    Yields grammar Ready (.adapt a p) c r ↔
      ∃ r', p.Yields grammar Ready c r' ∧ a.apply c r' = r := by
  constructor
  · rintro ⟨ctx, s, t, _, hs, d⟩
    cases d with
    | unrolled hq _ => cases hq
    | adapt inner => exact ⟨_, ⟨ctx, s, t, _, hs, inner⟩, rfl⟩
  · rintro ⟨r', ⟨ctx, s, t, _, hs, d⟩, rfl⟩
    exact ⟨ctx, s, t, _, hs, .adapt d⟩

theorem Constant.adapt (hp : p.Constant grammar Ready) (a : Adapter τ) :
    Constant grammar Ready (.adapt a p) := by
  constructor
  intro c r h ctx s hs
  obtain ⟨r', h', rfl⟩ := yields_adapt.mp h
  obtain ⟨t, _, d⟩ := hp.exists_runs h' ctx hs
  exact ⟨t, _, .adapt d⟩

/-- A match that an adapter lets through stops where it stopped; one that it makes stops where the
parser was started. -/
theorem Adapter.stop_eq_or {a : Adapter τ} (h : a.apply c r = .ok m) :
    m.stop = c ∨ ∃ n, r = .ok n ∧ n.stop = m.stop := by
  cases r with
  | ok n =>
    refine .imp_right (fun same => ⟨n, rfl, same⟩) ?_
    cases a with
    | refine f =>
      unfold Adapter.apply at h
      dsimp only at h
      split at h <;> cases h
      exact .inr rfl
    | negate => cases h
    | lookAhead =>
      cases h
      exact .inl rfl
    | _ =>
      cases h
      exact .inr rfl
  | error f =>
    cases a with
    | optional | negate =>
      cases h
      exact .inl rfl
    | _ => cases h

theorem Settled.adapt (hp : p.Settled grammar Ready) (a : Adapter τ) :
    Settled grammar Ready (.adapt a p) where
  again hs d ctx' s' hs' := (hp.constant.adapt a).exists_runs ⟨_, _, _, _, hs, d⟩ ctx' hs'
  ready := by
    intro ctx c s r t hist hs d
    cases d with
    | unrolled hq _ => cases hq
    | adapt inner =>
      obtain ⟨ht, hstop⟩ := hp.ready hs inner
      refine ⟨ht, fun m hm => ?_⟩
      rcases Adapter.stop_eq_or hm with same | ⟨n, rfl, same⟩
      · rwa [same]
      · exact same ▸ hstop n rfl
  keeps := by
    intro ctx c s r t hist hs d e he
    cases d with
    | unrolled hq _ => cases hq
    | adapt inner => exact hp.keeps hs inner e he

theorem yields_within_ok {action : String} :
    Yields grammar Ready (.adapt (.within action) p) c (.ok m) ↔
      p.Yields grammar Ready c (.ok m) := by
  rw [yields_adapt]
  constructor
  · rintro ⟨r, h, hr⟩
    cases r with
    | error f => cases hr
    | ok n =>
      cases hr
      exact h
  · intro h
    exact ⟨_, h, rfl⟩

theorem yields_within_error {action : String} :
    Yields grammar Ready (.adapt (.within action) p) c (.error f) ↔
      ∃ g, p.Yields grammar Ready c (.error g) ∧ f = g.within action := by
  rw [yields_adapt]
  constructor
  · rintro ⟨r, h, hr⟩
    cases r with
    | ok n => cases hr
    | error g =>
      cases hr
      exact ⟨g, h, rfl⟩
  · rintro ⟨g, h, rfl⟩
    exact ⟨_, h, rfl⟩

theorem yields_notFollowedBy_ok :
    (notFollowedBy p).Yields grammar Ready c (.ok m) ↔
      (∃ f, p.Yields grammar Ready c (.error f)) ∧ m = ⟨c, .unit⟩ := by
  rw [notFollowedBy, builtIn, yields_site, yields_adapt]
  constructor
  · rintro ⟨r, h, hr⟩
    cases r with
    | ok n => cases hr
    | error f =>
      cases hr
      exact ⟨⟨f, h⟩, rfl⟩
  · rintro ⟨⟨f, h⟩, rfl⟩
    exact ⟨_, h, rfl⟩

theorem yields_notFollowedBy_error :
    (notFollowedBy p).Yields grammar Ready c (.error f) ↔
      (∃ m, p.Yields grammar Ready c (.ok m)) ∧ f = ⟨c.offset, .matched⟩ := by
  rw [notFollowedBy, builtIn, yields_site, yields_adapt]
  constructor
  · rintro ⟨r, h, hr⟩
    cases r with
    | error f => cases hr
    | ok m =>
      cases hr
      exact ⟨⟨m, h⟩, rfl⟩
  · rintro ⟨⟨m, h⟩, rfl⟩
    exact ⟨_, h, rfl⟩

theorem Settled.notFollowedBy (hp : p.Settled grammar Ready) :
    (notFollowedBy p).Settled grammar Ready :=
  (hp.adapt _).site _ _

/-! ## One parser after another -/

section

variable {combine : Value τ → Value τ → Value τ}

theorem yields_andThen_ok (hp : p.Steady grammar Ready) (hq : q.Constant grammar Ready) :
    Yields grammar Ready (.andThen p q combine) c (.ok m) ↔
      ∃ first second, p.Yields grammar Ready c (.ok first) ∧
        q.Yields grammar Ready first.stop (.ok second) ∧
        m = ⟨second.stop, combine first.value second.value⟩ := by
  constructor
  · rintro ⟨ctx, s, t, _, hs, d⟩
    generalize hr : (Except.ok m : Result τ) = r at d
    cases d with
    | unrolled hq _ => cases hq
    | andThenFail => cases hr
    | @andThen _ _ _ _ _ _ first _ _ r _ _ d₁ d₂ =>
      cases r with
      | error f => cases hr
      | ok second =>
        cases hr
        exact ⟨first, second, ⟨ctx, s, _, _, hs, d₁⟩,
          ⟨ctx, _, _, _, (hp.ready hs d₁).2 _ rfl, d₂⟩, rfl⟩
  · rintro ⟨first, second, ⟨ctx, s, t, _, hs, d₁⟩, h₂, rfl⟩
    obtain ⟨u, _, d₂⟩ := hq.exists_runs h₂ ctx ((hp.ready hs d₁).2 _ rfl)
    exact ⟨ctx, s, u, _, hs, .andThen d₁ d₂⟩

theorem yields_andThen_error (hp : p.Steady grammar Ready) (hq : q.Constant grammar Ready) :
    Yields grammar Ready (.andThen p q combine) c (.error f) ↔
      p.Yields grammar Ready c (.error f) ∨ ∃ first, p.Yields grammar Ready c (.ok first) ∧
        q.Yields grammar Ready first.stop (.error f) := by
  constructor
  · rintro ⟨ctx, s, t, _, hs, d⟩
    generalize hr : (Except.error f : Result τ) = r at d
    cases d with
    | unrolled hq _ => cases hq
    | andThenFail d₁ =>
      cases hr
      exact .inl ⟨ctx, s, t, _, hs, d₁⟩
    | @andThen _ _ _ _ _ _ first _ _ r _ _ d₁ d₂ =>
      cases r with
      | ok second => cases hr
      | error f =>
        cases hr
        exact .inr ⟨first, ⟨ctx, s, _, _, hs, d₁⟩,
          ⟨ctx, _, _, _, (hp.ready hs d₁).2 _ rfl, d₂⟩⟩
  · rintro (⟨ctx, s, t, _, hs, d₁⟩ | ⟨first, ⟨ctx, s, t, _, hs, d₁⟩, h₂⟩)
    · exact ⟨ctx, s, t, _, hs, .andThenFail d₁⟩
    · obtain ⟨u, _, d₂⟩ := hq.exists_runs h₂ ctx ((hp.ready hs d₁).2 _ rfl)
      exact ⟨ctx, s, u, _, hs, .andThen d₁ d₂⟩

theorem Constant.andThen (hp : p.Steady grammar Ready) (hq : q.Constant grammar Ready) :
    Constant grammar Ready (.andThen p q combine) := by
  constructor
  intro c r h ctx s hs
  cases r with
  | ok m =>
    obtain ⟨first, second, h₁, h₂, rfl⟩ := (yields_andThen_ok hp hq).mp h
    obtain ⟨t, _, d₁⟩ := hp.constant.exists_runs h₁ ctx hs
    obtain ⟨u, _, d₂⟩ := hq.exists_runs h₂ ctx ((hp.ready hs d₁).2 _ rfl)
    exact ⟨u, _, .andThen d₁ d₂⟩
  | error f =>
    rcases (yields_andThen_error hp hq).mp h with h₁ | ⟨first, h₁, h₂⟩
    · obtain ⟨t, _, d₁⟩ := hp.constant.exists_runs h₁ ctx hs
      exact ⟨t, _, .andThenFail d₁⟩
    · obtain ⟨t, _, d₁⟩ := hp.constant.exists_runs h₁ ctx hs
      obtain ⟨u, _, d₂⟩ := hq.exists_runs h₂ ctx ((hp.ready hs d₁).2 _ rfl)
      exact ⟨u, _, .andThen d₁ d₂⟩

theorem Settled.andThen (hp : p.Settled grammar Ready) (hq : q.Settled grammar Ready) :
    Settled grammar Ready (.andThen p q combine) where
  again hs d ctx' s' hs' :=
    (Constant.andThen hp.toSteady hq.constant).exists_runs ⟨_, _, _, _, hs, d⟩ ctx' hs'
  ready := by
    intro ctx c s r t hist hs d
    cases d with
    | unrolled hq _ => cases hq
    | andThenFail first => exact ⟨(hp.ready hs first).1, nofun⟩
    | @andThen _ _ _ _ _ _ _ _ _ r _ _ first second =>
      obtain ⟨ht, hm⟩ := hp.ready hs first
      refine ⟨hq.keeps (hm _ rfl) second _ ht, fun n hn => ?_⟩
      cases r with
      | error f => cases hn
      | ok k =>
        cases hn
        exact (hq.ready (hm _ rfl) second).2 k rfl
  keeps := by
    intro ctx c s r t hist hs d e he
    cases d with
    | unrolled hq _ => cases hq
    | andThenFail first => exact hp.keeps hs first e he
    | andThen first second =>
      exact hq.keeps ((hp.ready hs first).2 _ rfl) second e (hp.keeps hs first e he)

end

section

variable (hp : p.Steady grammar Ready) (hq : q.Constant grammar Ready)
include hp hq

theorem yields_keepRight_ok :
    (keepRight p q).Yields grammar Ready c (.ok m) ↔
      ∃ first, p.Yields grammar Ready c (.ok first) ∧
        q.Yields grammar Ready first.stop (.ok m) := by
  rw [keepRight, builtIn, yields_site, skipThen, yields_andThen_ok hp hq]
  constructor
  · rintro ⟨first, second, h₁, h₂, rfl⟩
    exact ⟨first, h₁, h₂⟩
  · rintro ⟨first, h₁, h₂⟩
    exact ⟨first, m, h₁, h₂, rfl⟩

theorem yields_keepRight_error :
    (keepRight p q).Yields grammar Ready c (.error f) ↔
      p.Yields grammar Ready c (.error f) ∨ ∃ first, p.Yields grammar Ready c (.ok first) ∧
        q.Yields grammar Ready first.stop (.error f) := by
  rw [keepRight, builtIn, yields_site, skipThen, yields_andThen_error hp hq]

end

theorem Settled.keepRight (hp : p.Settled grammar Ready) (hq : q.Settled grammar Ready) :
    (keepRight p q).Settled grammar Ready :=
  (hp.andThen hq).site _ _

/-! ## A leaf where another parser fails -/

theorem yields_orElse_leaf {l : Leaf τ} :
    Yields grammar Ready (.orElse p (.leaf l)) c r ↔
      (∃ m, p.Yields grammar Ready c (.ok m) ∧ r = .ok m) ∨
        (∃ f, p.Yields grammar Ready c (.error f)) ∧ r = l.run c := by
  constructor
  · rintro ⟨ctx, s, t, _, hs, d⟩
    cases d with
    | unrolled hq _ => cases hq
    | orElseFirst first => exact .inl ⟨_, ⟨ctx, s, t, _, hs, first⟩, rfl⟩
    | orElse first second =>
      cases second with
      | unrolled hq _ => cases hq
      | leaf => exact .inr ⟨⟨_, ctx, s, t, _, hs, first⟩, rfl⟩
  · rintro (⟨m, ⟨ctx, s, t, _, hs, d⟩, rfl⟩ | ⟨⟨f, ctx, s, t, _, hs, d⟩, rfl⟩)
    · exact ⟨ctx, s, t, _, hs, .orElseFirst d⟩
    · exact ⟨ctx, s, t, _, hs, .orElse d .leaf⟩

theorem Constant.orElse_leaf (hp : p.Constant grammar Ready) (l : Leaf τ) :
    Constant grammar Ready (.orElse p (.leaf l)) := by
  constructor
  intro c r h ctx s hs
  rcases yields_orElse_leaf.mp h with ⟨m, hm, rfl⟩ | ⟨⟨f, hf⟩, rfl⟩
  · obtain ⟨t, _, d⟩ := hp.exists_runs hm ctx hs
    exact ⟨t, _, .orElseFirst d⟩
  · obtain ⟨t, _, d⟩ := hp.exists_runs hf ctx hs
    exact ⟨t, _, .orElse d .leaf⟩

/-! ## Loops -/

/-- An iteration is a sequence of matches with a failure at its end. -/
theorem iterates_iff :
    p.Iterates grammar Ready c ms f ↔
      p.Follows grammar Ready c ms ∧ p.Yields grammar Ready (c.behind ms) (.error f) := by
  constructor
  · intro h
    induction h with
    | stop ready fails => exact ⟨.nil, _, _, _, _, ready, fails⟩
    | step ready first _ ih => exact ⟨.cons ⟨_, _, _, _, ready, first⟩ ih.1, ih.2⟩
  · rintro ⟨follows, fails⟩
    induction follows with
    | nil =>
      obtain ⟨_, _, _, _, ready, fails⟩ := fails
      exact .stop ready fails
    | cons first _ ih =>
      obtain ⟨_, _, _, _, ready, first⟩ := first
      exact .step ready first (ih fails)

theorem Iterates.exists_ready (h : p.Iterates grammar Ready c ms f) : ∃ s, Ready c s := by
  cases h with
  | stop ready _ | step ready _ _ => exact ⟨_, ready⟩

/-- A parser whose results are the results of an iteration, and which has them from every store that
it may meet. -/
theorem constant_of_iterates {F : Cursor τ → List (Match τ) → Result τ}
    (told : ∀ {c ctx s r t hist}, Ready c s → q.Runs grammar ctx c s r t hist →
      ∃ ms f, p.Iterates grammar Ready c ms f ∧ r = F c ms)
    (iterates : ∀ {c ms f}, p.Iterates grammar Ready c ms f → ∀ ctx {s}, Ready c s →
      ∃ t hist, q.Runs grammar ctx c s (F c ms) t hist) :
    q.Constant grammar Ready ∧ ∀ {c r}, q.Yields grammar Ready c r ↔
      ∃ ms f, p.Iterates grammar Ready c ms f ∧ r = F c ms := by
  refine constant_of_told told ?_ ?_
  · rintro c r ⟨ms, f, hms, -⟩
    exact hms.exists_ready
  · rintro c r ⟨ms, f, hms, rfl⟩
    exact iterates hms

/-- A loop takes the matches of the iteration. -/
theorem yields_many (hp : p.Steady grammar Ready) :
    (many p).Constant grammar Ready ∧ ∀ {c r}, (many p).Yields grammar Ready c r ↔
      ∃ ms f, p.Iterates grammar Ready c ms f ∧
        r = .ok ⟨c.behind ms, .list (ms.map (·.value))⟩ := by
  refine constant_of_iterates ?_ ?_
  · intro c ctx s r t hist hs d
    cases d with
    | unrolled hq _ => cases hq
    | site inner =>
      obtain ⟨fuel, h⟩ := inner.exists_run
      exact exists_iterates hp hs h
  · intro c ms f iterates ctx s hs
    obtain ⟨t, _, d⟩ := iterates.exists_runs_repeated hp none ctx hs
    exact ⟨t, _, .site d⟩

/-- A loop leaves the store as ready as its parser does. -/
theorem Settled.ready_repeated (hp : p.Settled grammar Ready) {fuel : Nat}
    {signals : List (Signal τ)} (hs : Ready c s)
    (h : run grammar fuel ctx (.repeated none p) c s = some (r, t, signals)) :
    (∀ d, Ready d s → Ready d t) ∧ ∀ m, r = .ok m → Ready m.stop t := by
  induction fuel generalizing c s r t signals with
  | zero => cases h
  | succ fuel ih =>
    rw [run_repeated, if_neg nofun] at h
    obtain ⟨r₁, s₁, _, _, hfirst, hk₁, rfl⟩ := Run.of_bind h
    obtain ⟨_, first, -⟩ := runs_of_run hfirst
    cases r₁ with
    | error f =>
      cases hk₁
      refine ⟨hp.keeps hs first, ?_⟩
      rintro m ⟨⟩
      exact (hp.ready hs first).1
    | ok m =>
      obtain ⟨r₂, s₂, _, _, hrest, hk₂, rfl⟩ := Run.of_bind hk₁
      obtain ⟨keeps, ready⟩ := ih ((hp.ready hs first).2 m rfl) hrest
      cases hk₂
      refine ⟨fun d hd => keeps d (hp.keeps hs first d hd), fun n hn => ?_⟩
      cases r₂ with
      | error f => cases hn
      | ok k =>
        cases hn
        exact ready k rfl

theorem Settled.many (hp : p.Settled grammar Ready) : (many p).Steady grammar Ready where
  again hs d ctx' s' hs' := (yields_many hp.toSteady).1.exists_runs ⟨_, _, _, _, hs, d⟩ ctx' hs'
  ready := by
    intro ctx c s r t hist hs d
    cases d with
    | unrolled hq _ => cases hq
    | site inner =>
      obtain ⟨fuel, h⟩ := inner.exists_run
      obtain ⟨keeps, ready⟩ := hp.ready_repeated hs h
      exact ⟨keeps c hs, ready⟩

end Packrat.Parser
