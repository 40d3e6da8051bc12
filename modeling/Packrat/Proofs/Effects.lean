import Packrat.Combinator.Sequence
import Packrat.Proofs.Execution

/-!
# What parsers do

A parser that is run somewhere has a result, leaves a store and emits signals. What a combinator
does is told by what its parts do, each from the store that the one before left. The parsers of a
list are run until one of them halts the list: a sequence goes on with matches and is halted by a
failure, a choice goes on with failures and is halted by a match.

* `Parser.Performs`: result, store and signals of a parser that has enough fuel.
* `Parser.performs_andThen_ok`, `Parser.performs_orElse`, `Parser.performs_site`: combinators.
* `Parser.DoesAs`, `Parser.EndsAs`: parsers that do the same, with their signals and without.
* `Parser.WorkedOff`: the parsers of a list, run until one of them halts it.
* `Collection`: a list, an array or a tuple of parsers.
-/

namespace Packrat

variable {τ ρ : Type}

/-- The signals of an activation: its entry, the signals inside of it and its exit, or only those
inside of it if nobody hears the site. -/
def Visit.wrap (v : Visit τ) (inside : List (Signal τ)) : List (Signal τ) :=
  if v.heard then v.entry :: (inside ++ [v.exit]) else inside

/-- The activation of a site of the library. -/
def Visit.ofLibrary (name : String) (ctx : Context) (start : Cursor τ) (r : Result τ) : Visit τ :=
  ⟨libraryName ++ "::" ++ name, .span, ctx.listening, start, r⟩

namespace Parser

/-- From this cursor and this store the parser has this result, leaves that store and emits these
signals. -/
def Performs (grammar : Grammar τ ρ) (ctx : Context) (p : Parser τ ρ) (c : Cursor τ) (s : Store τ)
    (r : Result τ) (t : Store τ) (signals : List (Signal τ)) : Prop :=
  ∃ fuel, p.run grammar fuel ctx c s = some (r, t, signals)

/-- Two parsers with the same results, stores and signals, wherever they are run. -/
def DoesAs (grammar : Grammar τ ρ) (p q : Parser τ ρ) : Prop :=
  ∀ ctx c s r t signals,
    p.Performs grammar ctx c s r t signals ↔ q.Performs grammar ctx c s r t signals

/-- Two parsers with the same results and stores, wherever they are run. Their sites may differ. -/
def EndsAs (grammar : Grammar τ ρ) (p q : Parser τ ρ) : Prop :=
  ∀ ctx c s r t, (∃ signals, p.Performs grammar ctx c s r t signals) ↔
    ∃ signals, q.Performs grammar ctx c s r t signals

/-- The parsers are run one after another. Those with results `pass a` let the list go on, where
`move` says; the first other one halts it with its result `halt b`, and no parser behind it is
run. -/
inductive WorkedOff {α β : Type} (grammar : Grammar τ ρ) (ctx : Context) (pass : α → Result τ)
    (halt : β → Result τ) (move : Cursor τ → α → Cursor τ) :
    List (Parser τ ρ) → Cursor τ → Store τ → List α → Option β → Store τ → List (Signal τ) →
      Prop where
  | done {c s} : WorkedOff grammar ctx pass halt move [] c s [] none s []
  | halts {p ps c s b t signals} (last : p.Performs grammar ctx c s (halt b) t signals) :
      WorkedOff grammar ctx pass halt move (p :: ps) c s [] (some b) t signals
  | next {p ps c s a u before as x t after} (first : p.Performs grammar ctx c s (pass a) u before)
      (rest : WorkedOff grammar ctx pass halt move ps (move c a) u as x t after) :
      WorkedOff grammar ctx pass halt move (p :: ps) c s (a :: as) x t (before ++ after)

variable {grammar : Grammar τ ρ} {ctx : Context} {p q : Parser τ ρ} {c : Cursor τ}
  {s t t' : Store τ} {r r' : Result τ} {m : Match τ} {f : Failure τ}
  {signals signals' : List (Signal τ)}

theorem performs_iff : p.Performs grammar ctx c s r t signals ↔
    ∃ hist, p.Runs grammar ctx c s r t hist ∧ hist.signals = signals := by
  constructor
  · rintro ⟨fuel, h⟩
    exact runs_of_run h
  · rintro ⟨hist, d, rfl⟩
    exact d.exists_run

theorem Performs.unique (h : p.Performs grammar ctx c s r t signals)
    (h' : p.Performs grammar ctx c s r' t' signals') : r = r' ∧ t = t' ∧ signals = signals' := by
  obtain ⟨_, h⟩ := h
  obtain ⟨_, h'⟩ := h'
  simpa using run_unique h h'

/-! ## Nodes -/

theorem performs_leaf {l : Leaf τ} :
    Performs grammar ctx (.leaf l) c s r t signals ↔ r = l.run c ∧ t = s ∧ signals = [] := by
  rw [performs_iff]
  constructor
  · rintro ⟨hist, d, rfl⟩
    cases d with
    | unrolled hq _ => cases hq
    | leaf => exact ⟨rfl, rfl, rfl⟩
  · rintro ⟨rfl, rfl, rfl⟩
    exact ⟨.quiet, .leaf, rfl⟩

theorem performs_adapt {a : Adapter τ} :
    Performs grammar ctx (.adapt a p) c s r t signals ↔
      ∃ r', p.Performs grammar ctx c s r' t signals ∧ r = a.apply c r' := by
  simp only [performs_iff]
  constructor
  · rintro ⟨hist, d, rfl⟩
    cases d with
    | unrolled hq _ => cases hq
    | adapt inner => exact ⟨_, ⟨_, inner, rfl⟩, rfl⟩
  · rintro ⟨r', ⟨hist, d, rfl⟩, rfl⟩
    exact ⟨_, .adapt d, rfl⟩

theorem performs_site {name : String} {report : Report} :
    Performs grammar ctx (.site name report p) c s r t signals ↔
      ∃ inside, p.Performs grammar ctx c s r t inside ∧
        signals = Visit.wrap ⟨name, report, ctx.listening, c, r⟩ inside := by
  simp only [performs_iff]
  constructor
  · rintro ⟨hist, d, rfl⟩
    cases d with
    | unrolled hq _ => cases hq
    | site inner => exact ⟨_, ⟨_, inner, rfl⟩, rfl⟩
  · rintro ⟨_, ⟨hist, d, rfl⟩, rfl⟩
    exact ⟨_, .site d, rfl⟩

theorem performs_builtIn {name : String} :
    (builtIn name p).Performs grammar ctx c s r t signals ↔
      ∃ inside, p.Performs grammar ctx c s r t inside ∧
        signals = (Visit.ofLibrary name ctx c r).wrap inside :=
  performs_site

section

variable {combine : Value τ → Value τ → Value τ}

theorem performs_andThen_ok :
    Performs grammar ctx (.andThen p q combine) c s (.ok m) t signals ↔
      ∃ first second u before after, p.Performs grammar ctx c s (.ok first) u before ∧
        q.Performs grammar ctx first.stop u (.ok second) t after ∧
        m = ⟨second.stop, combine first.value second.value⟩ ∧ signals = before ++ after := by
  simp only [performs_iff]
  constructor
  · rintro ⟨hist, d, rfl⟩
    generalize hr : (Except.ok m : Result τ) = r at d
    cases d with
    | unrolled hq _ => cases hq
    | andThenFail => cases hr
    | @andThen _ _ _ _ _ _ first _ _ r _ _ d₁ d₂ =>
      cases r with
      | error f => cases hr
      | ok second =>
        cases hr
        exact ⟨first, second, _, _, _, ⟨_, d₁, rfl⟩, ⟨_, d₂, rfl⟩, rfl, rfl⟩
  · rintro ⟨first, second, u, _, _, ⟨_, d₁, rfl⟩, ⟨_, d₂, rfl⟩, rfl, rfl⟩
    exact ⟨_, .andThen d₁ d₂, rfl⟩

theorem performs_andThen_error :
    Performs grammar ctx (.andThen p q combine) c s (.error f) t signals ↔
      p.Performs grammar ctx c s (.error f) t signals ∨
        ∃ first u before after, p.Performs grammar ctx c s (.ok first) u before ∧
          q.Performs grammar ctx first.stop u (.error f) t after ∧ signals = before ++ after := by
  simp only [performs_iff]
  constructor
  · rintro ⟨hist, d, rfl⟩
    generalize hr : (Except.error f : Result τ) = r at d
    cases d with
    | unrolled hq _ => cases hq
    | andThenFail d₁ =>
      cases hr
      exact .inl ⟨_, d₁, rfl⟩
    | @andThen _ _ _ _ _ _ first _ _ r _ _ d₁ d₂ =>
      cases r with
      | ok second => cases hr
      | error f =>
        cases hr
        exact .inr ⟨first, _, _, _, ⟨_, d₁, rfl⟩, ⟨_, d₂, rfl⟩, rfl⟩
  · rintro (⟨_, d₁, rfl⟩ | ⟨first, u, _, _, ⟨_, d₁, rfl⟩, ⟨_, d₂, rfl⟩, rfl⟩)
    · exact ⟨_, .andThenFail d₁, rfl⟩
    · exact ⟨_, .andThen d₁ d₂, rfl⟩

end

theorem performs_orElse :
    Performs grammar ctx (.orElse p q) c s r t signals ↔
      (∃ m, r = .ok m ∧ p.Performs grammar ctx c s (.ok m) t signals) ∨
        ∃ f u before after, p.Performs grammar ctx c s (.error f) u before ∧
          q.Performs grammar ctx c u r t after ∧ signals = before ++ after := by
  simp only [performs_iff]
  constructor
  · rintro ⟨hist, d, rfl⟩
    cases d with
    | unrolled hq _ => cases hq
    | orElseFirst d₁ => exact .inl ⟨_, rfl, _, d₁, rfl⟩
    | orElse d₁ d₂ => exact .inr ⟨_, _, _, _, ⟨_, d₁, rfl⟩, ⟨_, d₂, rfl⟩, rfl⟩
  · rintro (⟨m, rfl, _, d₁, rfl⟩ | ⟨f, u, _, _, ⟨_, d₁, rfl⟩, ⟨_, d₂, rfl⟩, rfl⟩)
    · exact ⟨_, .orElseFirst d₁, rfl⟩
    · exact ⟨_, .orElse d₁ d₂, rfl⟩

theorem performs_counted {counter : String} :
    (counted counter p).Performs grammar ctx c s r t signals ↔
      p.Performs grammar ctx c (s.raise counter) r t signals := by
  simp only [performs_iff]
  constructor
  · rintro ⟨hist, d, rfl⟩
    cases d with
    | unrolled hq _ => cases hq
    | tally inner => exact ⟨hist, inner, rfl⟩
  · rintro ⟨hist, d, rfl⟩
    exact ⟨hist, .tally d, rfl⟩

theorem performs_unrolled (hq : p.unrolled? grammar = some q) :
    p.Performs grammar ctx c s r t signals ↔ q.Performs grammar ctx c s r t signals := by
  simp only [performs_iff]
  constructor
  · rintro ⟨hist, d, rfl⟩
    cases d with
    | unrolled hq' inner =>
      cases hq.symm.trans hq'
      exact ⟨hist, inner, rfl⟩
    | _ => cases hq
  · rintro ⟨hist, d, rfl⟩
    exact ⟨hist, .unrolled hq d, rfl⟩

/-! ## Parsers that do the same -/

theorem DoesAs.refl (p : Parser τ ρ) : DoesAs grammar p p := fun _ _ _ _ _ _ => Iff.rfl

theorem DoesAs.endsAs (h : DoesAs grammar p q) : EndsAs grammar p q := by
  intro ctx c s r t
  simp only [h ctx c s r t]

theorem EndsAs.symm (h : EndsAs grammar p q) : EndsAs grammar q p :=
  fun ctx c s r t => (h ctx c s r t).symm

theorem EndsAs.trans {p' : Parser τ ρ} (h : EndsAs grammar p q) (h' : EndsAs grammar q p') :
    EndsAs grammar p p' :=
  fun ctx c s r t => (h ctx c s r t).trans (h' ctx c s r t)

/-- A site adds to the signals only. -/
theorem endsAs_site (name : String) (report : Report) (p : Parser τ ρ) :
    EndsAs grammar (.site name report p) p := by
  intro ctx c s r t
  simp only [performs_site]
  constructor
  · rintro ⟨_, inside, h, -⟩
    exact ⟨inside, h⟩
  · rintro ⟨inside, h⟩
    exact ⟨_, inside, h, rfl⟩

theorem DoesAs.site (h : DoesAs grammar p q) (name : String) (report : Report) :
    DoesAs grammar (.site name report p) (.site name report q) := by
  intro ctx c s r t signals
  simp only [performs_site, h ctx c s r t]

section

variable {p' q' : Parser τ ρ} (combine : Value τ → Value τ → Value τ)

theorem DoesAs.andThen (hp : DoesAs grammar p p') (hq : DoesAs grammar q q') :
    DoesAs grammar (.andThen p q combine) (.andThen p' q' combine) := by
  intro ctx c s r t signals
  cases r with
  | ok m => simp only [performs_andThen_ok, hp ctx _ _ _ _ _, hq ctx _ _ _ _ _]
  | error f => simp only [performs_andThen_error, hp ctx _ _ _ _ _, hq ctx _ _ _ _ _]

theorem EndsAs.andThen (hp : EndsAs grammar p p') (hq : EndsAs grammar q q') :
    EndsAs grammar (.andThen p q combine) (.andThen p' q' combine) := by
  -- both directions are one, as the two pairs of parsers may be exchanged
  have half {p p' q q' : Parser τ ρ} (hp : EndsAs grammar p p') (hq : EndsAs grammar q q')
      {ctx : Context} {c : Cursor τ} {s t : Store τ} {r : Result τ}
      (h : ∃ signals, Performs grammar ctx (.andThen p q combine) c s r t signals) :
      ∃ signals, Performs grammar ctx (.andThen p' q' combine) c s r t signals := by
    obtain ⟨signals, h⟩ := h
    cases r with
    | ok m =>
      obtain ⟨first, second, u, _, _, h₁, h₂, rfl, -⟩ := performs_andThen_ok.mp h
      obtain ⟨_, h₁⟩ := (hp _ _ _ _ _).mp ⟨_, h₁⟩
      obtain ⟨_, h₂⟩ := (hq _ _ _ _ _).mp ⟨_, h₂⟩
      exact ⟨_, performs_andThen_ok.mpr ⟨first, second, u, _, _, h₁, h₂, rfl, rfl⟩⟩
    | error f =>
      rcases performs_andThen_error.mp h with h₁ | ⟨first, u, _, _, h₁, h₂, -⟩
      · obtain ⟨_, h₁⟩ := (hp _ _ _ _ _).mp ⟨_, h₁⟩
        exact ⟨_, performs_andThen_error.mpr (.inl h₁)⟩
      · obtain ⟨_, h₁⟩ := (hp _ _ _ _ _).mp ⟨_, h₁⟩
        obtain ⟨_, h₂⟩ := (hq _ _ _ _ _).mp ⟨_, h₂⟩
        exact ⟨_, performs_andThen_error.mpr (.inr ⟨first, u, _, _, h₁, h₂, rfl⟩)⟩
  intro ctx c s r t
  exact ⟨half hp hq, half hp.symm hq.symm⟩

end

/-! ## Lists of parsers -/

namespace WorkedOff

variable {α β : Type} {pass : α → Result τ} {halt : β → Result τ} {move : Cursor τ → α → Cursor τ}
  {ps qs : List (Parser τ ρ)} {u : Store τ} {as as' : List α} {x : Option β} {b : β}
  {before after : List (Signal τ)}

theorem length_eq (h : WorkedOff grammar ctx pass halt move ps c s as none t signals) :
    as.length = ps.length := by
  generalize hx : none = x at h
  induction h with
  | done => rfl
  | halts => cases hx
  | next _ _ ih => exact congrArg (· + 1) (ih hx)

theorem append (h : WorkedOff grammar ctx pass halt move ps c s as none u before)
    (h' : WorkedOff grammar ctx pass halt move qs (as.foldl move c) u as' x t after) :
    WorkedOff grammar ctx pass halt move (ps ++ qs) c s (as ++ as') x t (before ++ after) := by
  generalize hx : none = x' at h
  induction h with
  | done => exact h'
  | halts => cases hx
  | next first _ ih =>
    rw [List.append_assoc]
    exact .next first (ih h' hx)

/-- What comes behind the end of a list is not run if the list is halted. -/
theorem append_of_halted (h : WorkedOff grammar ctx pass halt move ps c s as (some b) t signals)
    (qs : List (Parser τ ρ)) :
    WorkedOff grammar ctx pass halt move (ps ++ qs) c s as (some b) t signals := by
  generalize hx : some b = x at h
  induction h with
  | done => cases hx
  | halts last =>
    cases hx
    exact .halts last
  | next first _ ih => exact .next first (ih hx)

theorem of_append (h : WorkedOff grammar ctx pass halt move (ps ++ qs) c s as x t signals) :
    (∃ b, x = some b ∧ WorkedOff grammar ctx pass halt move ps c s as (some b) t signals) ∨
      ∃ as₁ as₂ u before after,
        WorkedOff grammar ctx pass halt move ps c s as₁ none u before ∧
        WorkedOff grammar ctx pass halt move qs (as₁.foldl move c) u as₂ x t after ∧
        as = as₁ ++ as₂ ∧ signals = before ++ after := by
  induction ps generalizing c s as signals with
  | nil => exact .inr ⟨[], as, s, [], signals, .done, h, rfl, rfl⟩
  | cons p ps ih =>
    cases h with
    | halts last => exact .inl ⟨_, rfl, .halts last⟩
    | next first rest =>
      rcases ih rest with ⟨b, rfl, halted⟩ | ⟨as₁, as₂, u, _, _, h₁, h₂, rfl, rfl⟩
      · exact .inl ⟨b, rfl, .next first halted⟩
      · exact .inr ⟨_ :: as₁, as₂, u, _, _, .next first h₁, h₂, rfl, (List.append_assoc ..).symm⟩

/-- A list is halted by the first parser that does so. -/
theorem halted_iff : WorkedOff grammar ctx pass halt move ps c s as (some b) t signals ↔
    ∃ front p back u before after, ps = front ++ p :: back ∧
      WorkedOff grammar ctx pass halt move front c s as none u before ∧
      p.Performs grammar ctx (as.foldl move c) u (halt b) t after ∧
      signals = before ++ after := by
  constructor
  · intro h
    generalize hx : some b = x at h
    induction h with
    | done => cases hx
    | halts last =>
      cases hx
      exact ⟨[], _, _, _, [], _, rfl, .done, last, rfl⟩
    | next first _ ih =>
      obtain ⟨front, p, back, u, _, _, rfl, h, last, rfl⟩ := ih hx
      exact ⟨_ :: front, p, back, u, _, _, rfl, .next first h, last, (List.append_assoc ..).symm⟩
  · rintro ⟨front, p, back, u, before, after, rfl, h, last, rfl⟩
    have halted : WorkedOff grammar ctx pass halt move (p :: back) (as.foldl move c) u []
        (some b) t after := .halts last
    have all := h.append halted
    rwa [List.append_nil] at all

/-- A list of one parser goes on with it. -/
theorem singleton_iff : WorkedOff grammar ctx pass halt move [p] c s as none t signals ↔
    ∃ a, p.Performs grammar ctx c s (pass a) t signals ∧ as = [a] := by
  constructor
  · intro h
    cases h with
    | next first rest =>
      cases rest with
      | done =>
        rw [List.append_nil]
        exact ⟨_, first, rfl⟩
  · rintro ⟨a, h, rfl⟩
    have all : WorkedOff grammar ctx pass halt move [p] c s [a] none t (signals ++ []) :=
      .next h .done
    rwa [List.append_nil] at all

/-- A list of one parser is halted by it. -/
theorem singleton_halted_iff : WorkedOff grammar ctx pass halt move [p] c s as (some b) t signals ↔
    p.Performs grammar ctx c s (halt b) t signals ∧ as = [] := by
  constructor
  · intro h
    cases h with
    | halts last => exact ⟨last, rfl⟩
    | next _ rest => cases rest
  · rintro ⟨h, rfl⟩
    exact .halts h

end WorkedOff

end Parser

/-! ## Collections -/

/-- Tuples of parsers, by the number of components behind the first. -/
def Tuple (τ ρ : Type) : Nat → Type
  | 0 => Parser τ ρ
  | n + 1 => Parser τ ρ × Tuple τ ρ n

namespace Tuple

/-- A tuple is the last component, or a component and a tuple. -/
@[reducible] def parts : (n : Nat) → Parts (Tuple τ ρ n) τ ρ
  | 0 => inferInstanceAs (Parts (Parser τ ρ) τ ρ)
  | n + 1 =>
    letI := parts n
    inferInstanceAs (Parts (Parser τ ρ × Tuple τ ρ n) τ ρ)

instance (n : Nat) : Parts (Tuple τ ρ n) τ ρ := parts n

/-- The components from the first to the last. -/
def toList : {n : Nat} → Tuple τ ρ n → List (Parser τ ρ)
  | 0, p => [p]
  | _ + 1, (p, ps) => p :: toList ps

/-- A tuple is worked off like the list of its components. -/
theorem eachAfter_eq {n : Nat} (ps : Tuple τ ρ n) (between : Parser τ ρ) :
    Parts.eachAfter between ps = Parts.eachOfList between ps.toList := by
  induction n with
  | zero => rfl
  | succ n ih =>
    obtain ⟨p, ps⟩ := ps
    exact congrArg (Parser.andThen (Parser.skipThen between p) · .cons) (ih ps)

end Tuple

/-- The three forms of a collection of parsers. -/
inductive Collection (τ ρ : Type) where
  | list (ps : List (Parser τ ρ))
  | array (ps : Array (Parser τ ρ))
  | tuple {n : Nat} (ps : Tuple τ ρ n)

namespace Collection

instance : Parts (Collection τ ρ) τ ρ where
  eachAfter between
    | .list ps => Parts.eachAfter between ps
    | .array ps => Parts.eachAfter between ps
    | .tuple ps => Parts.eachAfter between ps
  firstOf
    | .list ps => Parts.firstOf ps
    | .array ps => Parts.firstOf ps
    | .tuple ps => Parts.firstOf ps

/-- The parsers from the first to the last. -/
def toList : Collection τ ρ → List (Parser τ ρ)
  | .list ps => ps
  | .array ps => ps.toList
  | .tuple ps => ps.toList

/-- A pair is a tuple. -/
example (p q : Parser τ ρ) : Parser.inOrder (p, q) = Parser.inOrder (tuple (n := 1) (p, q)) := rfl

end Collection

end Packrat
