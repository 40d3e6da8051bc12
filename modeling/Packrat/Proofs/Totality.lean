import Packrat.Proofs.Matching
import Packrat.Proofs.Transparency

/-!
# Fuel that is enough

Repetition and recursion may go on for ever, so whether a parser has an outcome is a property of its
grammar. A parser finishes at a cursor with an amount of fuel if each run that is given so much has
an outcome. Tables may answer in place of the parser, so this is said of tables that are faithful,
and faithful tables are left behind. What comes out is then what the parser gives without state.

* `Run.Totally`: computations that have an outcome and keep an invariant of the store.
* `Parser.Finishes`: the fuel is enough for a parser at a cursor.
* `Parser.finishes_repeated`: a loop whose rounds all consume takes one more level for each token.
* `Parser.Halts`: some amount of fuel is enough, for parsers without tables.
-/

namespace Packrat

variable {τ ρ α β : Type}

/-! ## Computations that have an outcome -/

namespace Run

/-- From each store that satisfies `Inv` there is an outcome. Its result satisfies `P`, and its store
satisfies `Inv` again. -/
def Totally (x : Run τ α) (Inv : Store τ → Prop) (P : α → Prop) : Prop :=
  ∀ s, Inv s → ∃ a t signals, x s = some (a, t, signals) ∧ P a ∧ Inv t

variable {Inv : Store τ → Prop} {x : Run τ α} {f : α → Run τ β} {P : β → Prop} {Q : α → Prop}

theorem totally_pure {a : α} (h : Q a) : (Pure.pure a : Run τ α).Totally Inv Q :=
  fun s hs => ⟨a, s, [], rfl, h, hs⟩

theorem totally_emit (signal : Signal τ) : (emit signal).Totally Inv fun _ => True :=
  fun s hs => ⟨(), s, [signal], rfl, trivial, hs⟩

theorem Totally.bind (hx : x.Totally Inv Q) (hf : ∀ a, Q a → (f a).Totally Inv P) :
    (x >>= f).Totally Inv P := by
  intro s hs
  obtain ⟨a, t, before, hxs, ha, ht⟩ := hx s hs
  obtain ⟨b, u, after, hfa, hb, hu⟩ := hf a ha t ht
  refine ⟨b, u, before ++ after, ?_, hb, hu⟩
  rw [bind_apply hxs, hfa]
  rfl

theorem Totally.below {y : Run τ α} (hx : x.Totally Inv Q) (hle : x.Below y) :
    y.Totally Inv Q := by
  intro s hs
  obtain ⟨a, t, signals, hxs, ha, ht⟩ := hx s hs
  exact ⟨a, t, signals, hle s _ hxs, ha, ht⟩

end Run

namespace Parser

variable {grammar : Grammar τ ρ} {body : Memo → Option (Parser τ ρ)} {sources : Nat → Array τ}
  {n m : Nat} {p q : Parser τ ρ} {c : Cursor τ}

/-- With this fuel the parser has an outcome at the cursor, under all settings and from all faithful
tables. -/
def Finishes (grammar : Grammar τ ρ) (body : Memo → Option (Parser τ ρ)) (sources : Nat → Array τ)
    (fuel : Nat) (p : Parser τ ρ) (c : Cursor τ) : Prop :=
  ∀ ctx, (p.run grammar fuel ctx c).Totally (Store.Faithful grammar body sources)
    (p.Gives grammar c)

theorem Finishes.mono (h : p.Finishes grammar body sources n c) (hle : n ≤ m) :
    p.Finishes grammar body sources m c :=
  fun ctx => (h ctx).below (run_below grammar hle ctx p c)

/-- A parser that finishes gives something: tables that hold nothing are faithful. -/
theorem Finishes.exists_gives (h : p.Finishes grammar body sources n c) :
    ∃ r, p.Gives grammar c r := by
  have faithful : (∅ : Store τ).Faithful grammar body sources :=
    Store.allAnswers_of_fresh fun _ _ => rfl
  obtain ⟨r, _, _, _, hr, -⟩ := h .plain ∅ faithful
  exact ⟨r, hr⟩

/-! ## Nodes -/

theorem finishes_leaf (l : Leaf τ) : Finishes grammar body sources (n + 1) (.leaf l) c :=
  fun _ => Run.totally_pure (gives_leaf.mpr rfl)

theorem Finishes.adapt (a : Adapter τ) (h : p.Finishes grammar body sources n c) :
    Finishes grammar body sources (n + 1) (.adapt a p) c :=
  fun ctx => (h ctx).bind fun r hr => Run.totally_pure (gives_adapt.mpr ⟨r, hr, rfl⟩)

theorem Finishes.andThen {combine : Value τ → Value τ → Value τ}
    (hp : p.Finishes grammar body sources n c)
    (hq : ∀ first, p.Gives grammar c (.ok first) → q.Finishes grammar body sources n first.stop) :
    Finishes grammar body sources (n + 1) (.andThen p q combine) c := by
  intro ctx
  rw [run_andThen]
  refine (hp ctx).bind fun r hr => ?_
  obtain ⟨ks, first⟩ := hr
  cases r with
  | error f => exact Run.totally_pure ⟨ks, .andThenFail first⟩
  | ok m =>
    refine (hq m ⟨ks, first⟩ ctx).bind fun r hr => ?_
    obtain ⟨ks', second⟩ := hr
    exact Run.totally_pure ⟨_, .andThen first second⟩

theorem Finishes.orElse (hp : p.Finishes grammar body sources n c)
    (hq : q.Finishes grammar body sources n c) :
    Finishes grammar body sources (n + 1) (.orElse p q) c := by
  intro ctx
  rw [run_orElse]
  refine (hp ctx).bind fun r hr => ?_
  obtain ⟨ks, first⟩ := hr
  cases r with
  | ok m => exact Run.totally_pure ⟨ks, .orElseFirst first⟩
  | error f =>
    intro s hs
    obtain ⟨r, t, signals, hrun, ⟨ks', second⟩, ht⟩ := hq ctx s hs
    exact ⟨r, t, signals, hrun, ⟨_, .orElse first second⟩, ht⟩

theorem Finishes.rule {name : ρ} (h : (grammar name).Finishes grammar body sources n c) :
    Finishes grammar body sources (n + 1) (.rule name) c := by
  intro ctx s hs
  obtain ⟨r, t, signals, hrun, hr, ht⟩ := h ctx s hs
  exact ⟨r, t, signals, hrun, (gives_unrolled rfl).mpr hr, ht⟩

theorem Finishes.site {name : String} {report : Report}
    (h : p.Finishes grammar body sources n c) :
    Finishes grammar body sources (n + 1) (.site name report p) c := by
  intro ctx
  rw [run]
  split
  · refine (Run.totally_emit _).bind fun _ _ => (h ctx).bind fun r hr => ?_
    exact (Run.totally_emit _).bind fun _ _ => Run.totally_pure (gives_site.mpr hr)
  · intro s hs
    obtain ⟨r, t, signals, hrun, hr, ht⟩ := h ctx s hs
    exact ⟨r, t, signals, hrun, gives_site.mpr hr, ht⟩

/-- A faithful table answers with what its parser gives. -/
theorem totally_consult {table : Memo} (hbody : body table = some p)
    (hc : c.buffer.CutFrom sources) {place : Place} (hplace : c.place? = some place) :
    (Run.consult table place).Totally (Store.Faithful grammar body sources)
      fun found => ∀ r, found = some r → p.Gives grammar c r := by
  intro s hs
  cases hf : (s.table table).find? place with
  | some answer =>
    rw [Run.consult, Store.consult_of_some hf]
    refine ⟨_, _, _, rfl, ?_, (hs.opened _).hit _⟩
    intro r hr
    cases hr
    exact hs _ _ _ hf _ hbody c hc hplace
  | none =>
    rw [Run.consult, Store.consult_of_none hf]
    refine ⟨_, _, _, rfl, ?_, hs.opened _⟩
    intro r hr
    cases hr

theorem totally_enter {table : Memo} (hbody : body table = some p) (hc : c.buffer.CutFrom sources)
    {place : Place} (hplace : c.place? = some place) {r : Result τ} (hr : p.Gives grammar c r) :
    (Run.enter table place r).Totally (Store.Faithful grammar body sources) fun _ => True := by
  intro s hs
  obtain ⟨ks, hr⟩ := hr
  exact ⟨(), _, _, rfl, trivial, Store.Faithful.entered hs hbody hc hplace hr⟩

theorem Finishes.memo {table : Memo} (h : p.Finishes grammar body sources n c)
    (hbody : body table = some p) (hc : c.buffer.CutFrom sources) :
    Finishes grammar body sources (n + 1) (.memo table p) c := by
  intro ctx
  have same : (Parser.memo table p).Gives grammar c = p.Gives grammar c :=
    funext fun _ => propext gives_memo
  rw [run, same]
  split
  · exact h ctx
  · rename_i place hplace
    refine (totally_consult hbody hc hplace).bind fun found hfound => ?_
    cases found with
    | some answer => exact Run.totally_pure (hfound answer rfl)
    | none =>
      refine (h ctx).bind fun r hr => ?_
      exact (totally_enter hbody hc hplace hr).bind fun _ _ => Run.totally_pure hr

/-- A loop takes one level for each round, and each round consumes a token. -/
theorem finishes_repeated (item : ∀ d, p.Finishes grammar body sources n d)
    (consumes : ∀ d first, p.Gives grammar d (.ok first) →
      first.stop.remaining.length < d.remaining.length) (c : Cursor τ) :
    Finishes grammar body sources (n + 1 + c.remaining.length) (.repeated none p) c := by
  induction hlen : c.remaining.length using Nat.strongRecOn generalizing c with
  | ind length ih =>
    intro ctx
    rw [show n + 1 + length = n + length + 1 by omega, run_repeated, if_neg nofun]
    have hp := (item c).mono (Nat.le_add_right n length)
    refine (hp ctx).bind fun r hr => ?_
    obtain ⟨ks, round⟩ := hr
    cases r with
    | error f => exact Run.totally_pure ⟨_, .unrolled rfl (.orElse (.andThenFail round) .leaf)⟩
    | ok first =>
      have shorter := consumes c first ⟨ks, round⟩
      have hrest := (ih first.stop.remaining.length (by omega) first.stop rfl).mono
        (m := n + length) (by omega)
      refine (hrest ctx).bind fun r hr => ?_
      cases r with
      | error f => exact absurd ⟨f, hr⟩ not_fails_repeated
      | ok rest =>
        obtain ⟨ks', rest⟩ := hr
        exact Run.totally_pure ⟨_, .unrolled rfl (.orElseFirst (.andThen round rest))⟩

/-! ## Combinators -/

theorem Finishes.choice (hp : p.Finishes grammar body sources n c)
    (hq : q.Finishes grammar body sources n c) :
    Finishes grammar body sources (n + 3) (.choice (p, q)) c :=
  ((hp.orElse hq).adapt _).site

theorem Finishes.keepLeft (hp : p.Finishes grammar body sources n c)
    (hq : ∀ first, p.Gives grammar c (.ok first) → q.Finishes grammar body sources n first.stop) :
    Finishes grammar body sources (n + 2) (.keepLeft p q) c :=
  (hp.andThen hq).site

theorem finishes_endOfInput : Finishes grammar body sources 2 .endOfInput c :=
  (finishes_leaf _).site

theorem finishes_satisfying (test : τ → Bool) :
    Finishes grammar body sources 2 (.satisfying test) c :=
  (finishes_leaf _).site

theorem finishes_repeated_satisfying (test : τ → Bool) :
    Finishes grammar body sources (c.remaining.length + 3) (.repeated none (.satisfying test)) c := by
  refine (finishes_repeated (fun _ => finishes_satisfying test) ?_ c).mono (by omega)
  rintro d ⟨stop, v⟩ h
  obtain ⟨a, hhead, -, rfl, -⟩ := ok_satisfying.mp h
  have hlength := (Cursor.over_advance hhead).length_eq
  rw [List.length_singleton] at hlength
  change d.advance.remaining.length < d.remaining.length
  omega

/-! ## Some amount of fuel -/

/-- Some amount of fuel is enough for the parser at the cursor, whatever the tables hold. This can be
said of parsers that ask no table. -/
def Halts (grammar : Grammar τ ρ) (p : Parser τ ρ) (c : Cursor τ) : Prop :=
  ∃ fuel, p.Finishes grammar (fun _ => none) (fun _ => #[]) fuel c

theorem Halts.exists_gives (h : p.Halts grammar c) : ∃ r, p.Gives grammar c r := by
  obtain ⟨fuel, h⟩ := h
  exact h.exists_gives

theorem halts_leaf (l : Leaf τ) : (Parser.leaf l).Halts grammar c := ⟨1, finishes_leaf l⟩

theorem Halts.adapt (a : Adapter τ) (h : p.Halts grammar c) :
    (Parser.adapt a p).Halts grammar c := by
  obtain ⟨fuel, h⟩ := h
  exact ⟨fuel + 1, h.adapt a⟩

theorem Halts.site {name : String} {report : Report} (h : p.Halts grammar c) :
    (Parser.site name report p).Halts grammar c := by
  obtain ⟨fuel, h⟩ := h
  exact ⟨fuel + 1, h.site⟩

theorem Halts.andThen {combine : Value τ → Value τ → Value τ} (hp : p.Halts grammar c)
    (hq : ∀ first, p.Gives grammar c (.ok first) → q.Halts grammar first.stop) :
    (Parser.andThen p q combine).Halts grammar c := by
  obtain ⟨n, hp⟩ := hp
  obtain ⟨r, hr⟩ := hp.exists_gives
  cases r with
  | error f =>
    refine ⟨n + 1, hp.andThen fun first hfirst => ?_⟩
    cases hfirst.unique hr
  | ok m =>
    obtain ⟨k, hk⟩ := hq m hr
    refine ⟨max n k + 1, (hp.mono (Nat.le_max_left n k)).andThen fun first hfirst => ?_⟩
    cases hfirst.unique hr
    exact hk.mono (Nat.le_max_right n k)

theorem Halts.orElse (hp : p.Halts grammar c) (hq : q.Halts grammar c) :
    (Parser.orElse p q).Halts grammar c := by
  obtain ⟨n, hp⟩ := hp
  obtain ⟨k, hq⟩ := hq
  exact ⟨max n k + 1, (hp.mono (Nat.le_max_left n k)).orElse (hq.mono (Nat.le_max_right n k))⟩

/-- A loop halts where what it is unrolled to halts. -/
theorem Halts.of_unrolled (hq : p.unrolled? grammar = some q) (h : q.Halts grammar c) :
    p.Halts grammar c := by
  obtain ⟨n, h⟩ := h
  refine ⟨n + 4, fun ctx s hs => ?_⟩
  obtain ⟨r, t, signals, hrun, hr, ht⟩ := (h ctx).below (run_below_unrolled hq n ctx c) s hs
  exact ⟨r, t, signals, hrun, (gives_unrolled hq).mpr hr, ht⟩

/-- Parsers in turn halt if each halts where the one before it stopped. -/
theorem Halts.each_cons {ps : List (Parser τ ρ)} (hp : p.Halts grammar c)
    (hps : ∀ first, p.Gives grammar c (.ok first) →
      (Parts.eachOfList (nothing .unit) ps).Halts grammar first.stop) :
    (Parts.eachOfList (nothing .unit) (p :: ps)).Halts grammar c := by
  have first : (skipThen (nothing .unit) p).Halts grammar c := by
    refine (halts_leaf _).andThen fun m hm => ?_
    cases gives_leaf.mp hm
    exact hp
  exact first.andThen fun m hm => hps m (gives_skipThen_nothing.mp hm)

/-- A loop over delimiters and items halts if each round consumes a token. -/
theorem halts_delimited (delimiter : ∀ d, p.Halts grammar d) (item : ∀ d, q.Halts grammar d)
    (consumes : ∀ d between first, p.Gives grammar d (.ok between) →
      q.Gives grammar between.stop (.ok first) →
      first.stop.remaining.length < d.remaining.length) (c : Cursor τ) :
    (Parser.delimited p q).Halts grammar c := by
  induction hlen : c.remaining.length using Nat.strongRecOn generalizing c with
  | ind length ih =>
    refine .of_unrolled rfl (.orElse ?_ (halts_leaf _))
    refine (delimiter c).andThen fun between hbetween => (item _).andThen fun first hfirst => ?_
    have shorter := consumes c between first hbetween hfirst
    exact ih _ (hlen ▸ shorter) first.stop rfl

theorem halts_many1_satisfying (test : τ → Bool) :
    (many1 (satisfying test)).Halts grammar c := by
  have first : (satisfying test).Halts grammar c := ⟨2, finishes_satisfying test⟩
  exact ((first.adapt _).andThen fun _ _ => ⟨_, finishes_repeated_satisfying test⟩).site

section Characters

variable {grammar : Grammar Char ρ} {body : Memo → Option (Parser Char ρ)}
  {sources : Nat → Array Char} {p q s : Parser Char ρ} {c : Cursor Char}

theorem finishes_run0 (cls : CharClass) :
    Finishes grammar body sources (c.remaining.length + 7) (.run0 cls) c :=
  ((finishes_repeated_satisfying cls.contains).site.adapt _).site.site

theorem finishes_run1 (cls : CharClass) :
    Finishes grammar body sources (c.remaining.length + 8) (.run1 cls) c := by
  have first : Finishes grammar body sources (c.remaining.length + 3)
      (.adapt (.within "many1") (.satisfying cls.contains)) c :=
    ((finishes_satisfying cls.contains).adapt _).mono (by omega)
  refine (((first.andThen fun m hm => ?_).site.adapt _).site).site
  rw [ok_adapt_of_passes (Adapter.within_passes _)] at hm
  obtain ⟨a, hhead, -, hstop, -⟩ := ok_satisfying.mp hm
  have hlength := (Cursor.over_advance hhead).length_eq
  rw [hstop] at hlength
  exact (finishes_repeated_satisfying cls.contains).mono (by omega)

theorem Finishes.afterBlanks (h : p.Finishes grammar body sources n c.pastBlanks)
    (hn : c.remaining.length + 7 ≤ n) :
    Finishes grammar body sources (n + 1) (skipThen blanks p) c := by
  have hblanks : blanks.Finishes grammar body sources n c := (finishes_run0 .space).mono hn
  refine hblanks.andThen fun m hm => ?_
  cases hm.unique ok_blanks
  exact h

/-- Three parts, each where the one before it stops. -/
theorem Finishes.phrase (hn : c.remaining.length + 7 ≤ n)
    (hp : p.Finishes grammar body sources n c.pastBlanks)
    (hq : ∀ m, p.Gives grammar c.pastBlanks (.ok m) →
      m.stop.remaining.length ≤ c.remaining.length ∧
        q.Finishes grammar body sources n m.stop.pastBlanks)
    (hs : ∀ m m', p.Gives grammar c.pastBlanks (.ok m) →
      q.Gives grammar m.stop.pastBlanks (.ok m') →
      m'.stop.remaining.length ≤ c.remaining.length ∧
        s.Finishes grammar body sources n m'.stop.pastBlanks) :
    Finishes grammar body sources (n + 4) (.phrase (p, q, s)) c := by
  have first := (hp.afterBlanks hn).mono (m := n + 3) (by omega)
  refine first.andThen fun m hm => ?_
  obtain ⟨hlength, second⟩ := hq m (ok_afterBlanks.mp hm)
  have second := (second.afterBlanks (by omega)).mono (m := n + 2) (by omega)
  refine second.andThen fun m' hm' => ?_
  obtain ⟨hlength', third⟩ := hs m m' (ok_afterBlanks.mp hm) (ok_afterBlanks.mp hm')
  exact (third.afterBlanks (by omega)).andThen fun _ _ => finishes_leaf _

theorem Finishes.keepRight_blanks (h : p.Finishes grammar body sources n c.pastBlanks)
    (hn : c.remaining.length + 7 ≤ n) :
    Finishes grammar body sources (n + 2) (.keepRight blanks p) c :=
  (h.afterBlanks hn).site

theorem Finishes.enclosedBy {opening closing : Char} (hn : c.remaining.length + 7 ≤ n)
    (hp : c.pastBlanks.remaining.head? = some opening →
      p.Finishes grammar body sources n c.pastBlanks.advance.pastBlanks)
    (hclosing : ∀ m, c.pastBlanks.remaining.head? = some opening →
      p.Gives grammar c.pastBlanks.advance.pastBlanks (.ok m) →
      m.stop.remaining.length ≤ c.remaining.length) :
    Finishes grammar body sources (n + 5) (.enclosedBy opening closing p) c := by
  have sign : ∀ (a : Char) (d : Cursor Char), Finishes grammar body sources n (.exactly a) d :=
    fun a d => (finishes_leaf _).site.mono (m := n) (n := 2) (by omega)
  have first := (sign opening c.pastBlanks).keepRight_blanks hn
  have inside : Finishes grammar body sources (n + 3)
      (skipThen (keepRight blanks (exactly opening)) (keepRight blanks p)) c := by
    refine first.andThen ?_
    rintro ⟨d, v⟩ hd
    obtain ⟨hhead, rfl, -⟩ := ok_exactly.mp (ok_keepRight_blanks.mp hd)
    have before := c.length_remaining_past CharClass.space.contains
    have sign := (Cursor.over_advance hhead).length_eq
    rw [Cursor.pastBlanks] at sign
    exact (hp hhead).keepRight_blanks (by rw [Cursor.pastBlanks]; omega)
  refine (inside.andThen ?_).site
  rintro ⟨d, v⟩ hd
  obtain ⟨⟨e, u⟩, w, he, hinside, -⟩ := ok_andThen.mp hd
  obtain ⟨hhead, rfl, -⟩ := ok_exactly.mp (ok_keepRight_blanks.mp he)
  have hlength : d.remaining.length ≤ c.remaining.length :=
    hclosing _ hhead (ok_keepRight_blanks.mp hinside)
  exact ((sign closing d.pastBlanks).keepRight_blanks (by omega)).mono (by omega)

end Characters

end Parser

end Packrat
