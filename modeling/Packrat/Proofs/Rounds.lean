import Packrat.Proofs.Counters
import Packrat.Proofs.Totality

/-!
# How many rounds a repetition takes

A loop has no guard: it ends because its parser consumes tokens, of which there are finitely many.
Each round that goes on leaves fewer tokens, so there is at most one round more than there are
tokens left, the one in which the loop ends.

* `Parser.Answers`, `Parser.Advances`, `Parser.AdvanceTogether`: what is asked of the parts of a
  loop.
* `Parser.repeated_round`, `Parser.till_round`, `Parser.delimited_round`: one round of each loop.
* `Parser.talliedWithin_repeated`, `Parser.talliedWithin_till`, `Parser.talliedWithin_delimited`:
  all of its rounds.
* `Parser.repetitions_return`: the runs of the parser in each repetition.
-/

namespace Packrat.Parser

variable {τ ρ : Type}

/-! ## Parsers that advance -/

/-- Parsers are run at cursors within bounds and with answers in the tables that keep to them. -/
def Sound (Ready : Cursor τ → Store τ → Prop) : Prop :=
  ∀ {c s}, Ready c s → c.offset ≤ c.buffer.size ∧ s.Bounded

/-- The parser returns wherever it is ready, and leaves a store that is ready for the cursor at
which its caller goes on. -/
def Answers (grammar : Grammar τ ρ) (ctx : Context) (Ready : Cursor τ → Store τ → Prop)
    (p : Parser τ ρ) : Prop :=
  ∀ {c s}, Ready c s → ∃ r t signals, p.Performs grammar ctx c s r t signals ∧
    Ready (Outcome.ofResult c r).cursor t

/-- Every match consumes something. -/
def Advances (grammar : Grammar τ ρ) (ctx : Context) (Ready : Cursor τ → Store τ → Prop)
    (p : Parser τ ρ) : Prop :=
  ∀ {c s m t signals}, Ready c s → p.Performs grammar ctx c s (.ok m) t signals →
    c.offset < m.stop.offset

/-- A match of the first parser and one of the second where it stops consume something together. -/
def AdvanceTogether (grammar : Grammar τ ρ) (ctx : Context) (Ready : Cursor τ → Store τ → Prop)
    (p q : Parser τ ρ) : Prop :=
  ∀ {c s m t signals n u signals'}, Ready c s → p.Performs grammar ctx c s (.ok m) t signals →
    q.Performs grammar ctx m.stop t (.ok n) u signals' → c.offset < n.stop.offset

variable {grammar : Grammar τ ρ} {ctx : Context} {counter : String} {n k : Nat}
  {p p' q : Parser τ ρ} {c : Cursor τ} {s t : Store τ} {m : Match τ}
  {signals : List (Signal τ)}

/-! ## Parsers that finish -/

/-- The cursors and stores of a program in which each table is wrapped around one parser. -/
structure InUse (grammar : Grammar τ ρ) (body : Memo → Option (Parser τ ρ))
    (sources : Nat → Array τ) (c : Cursor τ) (s : Store τ) : Prop where
  inBounds : c.offset ≤ c.buffer.size
  cut : c.buffer.CutFrom sources
  bounded : s.Bounded
  faithful : s.Faithful grammar body sources

section

variable {body : Memo → Option (Parser τ ρ)} {sources : Nat → Array τ}

theorem sound_inUse : Sound (InUse grammar body sources) := fun h => ⟨h.inBounds, h.bounded⟩

theorem exists_of_finishes (ctx : Context) (hc : InUse grammar body sources c s)
    (hp : p.Finishes grammar body sources n c) :
    ∃ r t signals, p.Performs grammar ctx c s r t signals ∧ p.Gives grammar c r ∧
      InUse grammar body sources (Outcome.ofResult c r).cursor t := by
  obtain ⟨r, t, signals, hrun, hr, faithful⟩ := hp ctx s hc.faithful
  obtain ⟨_, d, -⟩ := runs_of_run hrun
  obtain ⟨admits, bounded⟩ := d.bounded hc.inBounds hc.bounded
  refine ⟨r, t, signals, ⟨n, hrun⟩, hr, ?_⟩
  cases r with
  | error f => exact ⟨hc.inBounds, hc.cut, bounded, faithful⟩
  | ok m =>
    obtain ⟨_, parses⟩ := hr
    have same : m.stop.buffer = c.buffer := parses.buffer_stop m rfl
    exact ⟨admits.inBounds, same ▸ hc.cut, bounded, faithful⟩

variable (finishes : ∀ c : Cursor τ, c.buffer.CutFrom sources →
  ∃ n, p.Finishes grammar body sources n c)
include finishes

/-- A parser that finishes everywhere returns wherever it is used. -/
theorem answers_of_finishes : p.Answers grammar ctx (InUse grammar body sources) := by
  intro c s hs
  obtain ⟨n, h⟩ := finishes c hs.cut
  obtain ⟨r, t, signals, h, -, next⟩ := exists_of_finishes ctx hs h
  exact ⟨r, t, signals, h, next⟩

theorem advances_of_finishes
    (consumes : ∀ {c m}, p.Gives grammar c (.ok m) → c.offset < m.stop.offset) :
    p.Advances grammar ctx (InUse grammar body sources) := by
  intro c s m t signals hs h
  obtain ⟨n, h'⟩ := finishes c hs.cut
  obtain ⟨r, _, _, h', gives, -⟩ := exists_of_finishes ctx hs h'
  obtain ⟨rfl, -, -⟩ := h.unique h'
  exact consumes gives

end

/-! ## Rounds -/

section Rounds

variable {Ready : Cursor τ → Store τ → Prop} {limit : Option Nat}

theorem Performs.ahead (h : p.Performs grammar ctx c s (.ok m) t signals) (sound : Sound Ready)
    (hs : Ready c s) : c.LeadsTo m.stop := by
  obtain ⟨inBounds, bounded⟩ := sound hs
  obtain ⟨_, d, -⟩ := performs_iff.mp h
  exact (d.bounded inBounds bounded).1

/-- A match leaves the tokens that it does not consume. -/
theorem Performs.remaining_stop (h : p.Performs grammar ctx c s (.ok m) t signals)
    (sound : Sound Ready) (hs : Ready c s) :
    m.stop.remaining.length + (m.stop.offset - c.offset) = c.remaining.length := by
  have ahead : c.LeadsTo m.stop := h.ahead sound hs
  have le := ahead.le
  have inBounds := ahead.inBounds
  rw [Cursor.length_remaining, Cursor.length_remaining, ahead.size_eq]
  omega

theorem talliedWithin_spent : TalliedWithin grammar ctx counter 0 (.repeated (some 0) p)
    (.repeated (some 0) p') c s :=
  ⟨_, _, (tallied_leaf (.succeed (.list []))).of_unrolled rfl rfl⟩

/-- It is enough that the second of two parsers consumes something. -/
theorem Advances.together (hq : q.Advances grammar ctx Ready) (sound : Sound Ready)
    (hp : p.Answers grammar ctx Ready) : AdvanceTogether grammar ctx Ready p q := by
  intro c s m t signals n u signals' hs h h'
  obtain ⟨r, _, _, answer, next⟩ := hp hs
  obtain ⟨rfl, rfl, -⟩ := h.unique answer
  exact Nat.lt_of_le_of_lt (h.ahead sound hs).le (hq next h')

/-- A first run, counted once, and where it leads to if it matches. -/
theorem exists_tallied (hp : p.Answers grammar ctx Ready) (spared : p.Spares grammar counter)
    (hs : Ready c s) : ∃ r t, Tallied grammar ctx counter 1 p (counted counter p) c s r t ∧
      ∀ m, r = .ok m →
        Ready m.stop t ∧ ∃ signals, p.Performs grammar ctx c s (.ok m) t signals := by
  obtain ⟨r, t, signals, h, next⟩ := hp hs
  refine ⟨r, t, tallied_counted spared h, ?_⟩
  rintro m rfl
  exact ⟨next, signals, h⟩

/-- The same with failures that say which repetition met them. -/
theorem exists_tallied_within (hp : p.Answers grammar ctx Ready)
    (spared : p.Spares grammar counter) (hs : Ready c s) (action : String) :
    ∃ r t, Tallied grammar ctx counter 1 (.adapt (.within action) p)
        (.adapt (.within action) (counted counter p)) c s r t ∧
      ∀ m, r = .ok m →
        Ready m.stop t ∧ ∃ signals, p.Performs grammar ctx c s (.ok m) t signals := by
  obtain ⟨r, t, first, next⟩ := exists_tallied hp spared hs
  refine ⟨_, t, first.adapt (.within action), fun m hm => next m ?_⟩
  cases r with
  | ok n => exact hm
  | error f => cases hm

theorem repeated_round (hp : p.Answers grammar ctx Ready) (spared : p.Spares grammar counter)
    (hs : Ready c s) (more : limit ≠ some 0)
    (rest : ∀ {m t signals}, p.Performs grammar ctx c s (.ok m) t signals → Ready m.stop t →
      TalliedWithin grammar ctx counter n (.repeated (limit.map (· - 1)) p)
        (.repeated (limit.map (· - 1)) (counted counter p)) m.stop t) :
    TalliedWithin grammar ctx counter (1 + n) (.repeated limit p)
      (.repeated limit (counted counter p)) c s := by
  have unrolled (q : Parser τ ρ) : (Parser.repeated limit q).unrolled? grammar =
      some (.orElse (.andThen q (.repeated (limit.map (· - 1)) q) .cons)
        (.leaf (.succeed (.list [])))) := by
    rw [unrolled?, if_neg more]
  obtain ⟨r, t, first, next⟩ := exists_tallied hp spared hs
  obtain ⟨_, _, round⟩ := first.thenWithin (g := Value.cons) fun m hm => by
    obtain ⟨ready, _, h⟩ := next m hm
    exact rest h ready
  obtain ⟨_, _, loop⟩ := round.orElse_leaf (.succeed (.list []))
  exact ⟨_, _, loop.of_unrolled (unrolled p) (unrolled (counted counter p))⟩

theorem till_round {stop : Parser τ ρ} (hp : p.Answers grammar ctx Ready)
    (spared : p.Spares grammar counter) (hstop : stop.Answers grammar ctx Ready)
    (spared' : stop.Spares grammar counter) (hs : Ready c s)
    (rest : ∀ {s m t signals}, Ready c s → p.Performs grammar ctx c s (.ok m) t signals →
      Ready m.stop t → TalliedWithin grammar ctx counter n (.till p stop)
        (.till (counted counter p) stop) m.stop t) :
    TalliedWithin grammar ctx counter (1 + n) (.till p stop) (.till (counted counter p) stop)
      c s := by
  obtain ⟨r, t, _, last, next⟩ := hstop hs
  have ended := (tallied_self spared' last).adapt (.map (.pair (.list [])))
  cases r with
  | ok m => exact ⟨_, _, (ended.orElseFirst.of_unrolled rfl rfl).mono (Nat.zero_le _)⟩
  | error f =>
    obtain ⟨r, u, first, next'⟩ := exists_tallied hp spared next
    obtain ⟨_, _, round⟩ := first.thenWithin (g := Value.consLeft) fun m hm => by
      obtain ⟨ready, _, h⟩ := next' m hm
      exact rest next h ready
    exact ⟨_, _, ((ended.orElse round).of_unrolled rfl rfl).mono (Nat.le_of_eq (Nat.zero_add _))⟩

theorem delimited_round {d : Parser τ ρ} (hd : d.Answers grammar ctx Ready)
    (spared' : d.Spares grammar counter) (hp : p.Answers grammar ctx Ready)
    (spared : p.Spares grammar counter) (hs : Ready c s)
    (rest : ∀ {m t signals n u signals'}, d.Performs grammar ctx c s (.ok m) t signals →
      Ready m.stop t → p.Performs grammar ctx m.stop t (.ok n) u signals' → Ready n.stop u →
      TalliedWithin grammar ctx counter k (.delimited d p) (.delimited d (counted counter p))
        n.stop u) :
    TalliedWithin grammar ctx counter (1 + k) (.delimited d p)
      (.delimited d (counted counter p)) c s := by
  obtain ⟨r, t, _, between, next⟩ := hd hs
  obtain ⟨_, _, round⟩ := (tallied_self spared' between).thenWithin (g := fun _ v => v)
    fun m hm => by
      subst hm
      obtain ⟨r, u, item, next'⟩ := exists_tallied hp spared next
      exact item.thenWithin (g := Value.cons) fun n hn => by
        obtain ⟨ready, _, h⟩ := next' n hn
        exact rest between next h ready
  obtain ⟨_, _, loop⟩ := round.orElse_leaf (.succeed (.list []))
  exact ⟨_, _, (loop.of_unrolled rfl rfl).mono (Nat.le_of_eq (Nat.zero_add _))⟩

/-! ## Loops -/

/-- A limit bounds the rounds whatever the parser does. -/
theorem talliedWithin_limited (hp : p.Answers grammar ctx Ready)
    (spared : p.Spares grammar counter) (hs : Ready c s) (most : Nat) :
    TalliedWithin grammar ctx counter most (.repeated (some most) p)
      (.repeated (some most) (counted counter p)) c s := by
  induction most generalizing c s with
  | zero => exact talliedWithin_spent
  | succ most ih =>
    have round := repeated_round hp spared hs (by simp : some (most + 1) ≠ some 0)
      fun _ next => ih next
    exact round.mono (Nat.le_of_eq (Nat.add_comm 1 most))

section

variable (sound : Sound Ready)
include sound

theorem talliedWithin_repeated (hp : p.Answers grammar ctx Ready)
    (spared : p.Spares grammar counter) (advances : p.Advances grammar ctx Ready) (hs : Ready c s)
    (limit : Option Nat) :
    TalliedWithin grammar ctx counter (c.remaining.length + 1) (.repeated limit p)
      (.repeated limit (counted counter p)) c s := by
  induction hl : c.remaining.length using Nat.strongRecOn generalizing c s limit with
  | ind l ih =>
    by_cases more : limit = some 0
    · subst more
      exact talliedWithin_spent.mono (Nat.zero_le _)
    · have round := repeated_round hp spared hs more (n := l) fun {m} _ _ first next => by
        have fewer := first.remaining_stop sound hs
        have consumed := advances hs first
        exact (ih m.stop.remaining.length (by omega) next _ rfl).mono (by omega)
      exact round.mono (Nat.le_of_eq (Nat.add_comm 1 l))

theorem talliedWithin_till {stop : Parser τ ρ} (hp : p.Answers grammar ctx Ready)
    (spared : p.Spares grammar counter) (advances : p.Advances grammar ctx Ready)
    (hstop : stop.Answers grammar ctx Ready) (spared' : stop.Spares grammar counter)
    (hs : Ready c s) :
    TalliedWithin grammar ctx counter (c.remaining.length + 1) (.till p stop)
      (.till (counted counter p) stop) c s := by
  induction hl : c.remaining.length using Nat.strongRecOn generalizing c s with
  | ind l ih =>
    have round := till_round hp spared hstop spared' hs (n := l) fun {_ m _ _} hs first next => by
      have fewer := first.remaining_stop sound hs
      have consumed := advances hs first
      exact (ih m.stop.remaining.length (by omega) next rfl).mono (by omega)
    exact round.mono (Nat.le_of_eq (Nat.add_comm 1 l))

theorem talliedWithin_delimited {d : Parser τ ρ} (hd : d.Answers grammar ctx Ready)
    (spared' : d.Spares grammar counter) (hp : p.Answers grammar ctx Ready)
    (spared : p.Spares grammar counter) (together : AdvanceTogether grammar ctx Ready d p)
    (hs : Ready c s) :
    TalliedWithin grammar ctx counter (c.remaining.length + 1) (.delimited d p)
      (.delimited d (counted counter p)) c s := by
  induction hl : c.remaining.length using Nat.strongRecOn generalizing c s with
  | ind l ih =>
    have round := delimited_round hd spared' hp spared hs (k := l)
      fun {m _ _ n _ _} between next item next' => by
        have fewer := between.remaining_stop sound hs
        have fewer' := item.remaining_stop sound next
        have consumed := together hs between item
        exact (ih n.stop.remaining.length (by omega) next' rfl).mono (by omega)
    exact round.mono (Nat.le_of_eq (Nat.add_comm 1 l))

end

/-! ## Repetitions -/

/-- The repetition of the parser returns. With a counter around the parser it does the same, and
leaves the counter raised at most `n` times: the parser is run at most `n` times. -/
def ReturnsWithin (grammar : Grammar τ ρ) (ctx : Context) (counter : String) (n : Nat)
    (repetition : Parser τ ρ → Parser τ ρ) (p : Parser τ ρ) (c : Cursor τ) (s : Store τ) : Prop :=
  ∃ r t signals t' signals', (repetition p).Performs grammar ctx c s r t signals ∧
    (repetition (counted counter p)).Performs grammar ctx c s r t' signals' ∧ t.Alike t' ∧
    t'.counter counter ≤ s.counter counter + n

/-- The runs of a parser in its repetitions from a cursor with so many tokens left. -/
structure RunsBounded (grammar : Grammar τ ρ) (ctx : Context) (Ready : Cursor τ → Store τ → Prop)
    (counter : String) (p : Parser τ ρ) (c : Cursor τ) (s : Store τ) : Prop where
  /-- None or more. -/
  any : p.Advances grammar ctx Ready →
    ReturnsWithin grammar ctx counter (c.remaining.length + 1) many p c s
  /-- One or more. -/
  atLeastOne : p.Advances grammar ctx Ready →
    ReturnsWithin grammar ctx counter (c.remaining.length + 1) many1 p c s
  /-- A limited number. -/
  between : p.Advances grammar ctx Ready → ∀ least most,
    ReturnsWithin grammar ctx counter (c.remaining.length + 1) (manyBetween least most) p c s
  /-- The limit holds whether the parser advances or not. -/
  atMost : ∀ least most, ReturnsWithin grammar ctx counter most (manyBetween least most) p c s
  /-- Until any other parser matches. -/
  terminated : p.Advances grammar ctx Ready → ∀ stop : Parser τ ρ, stop.Answers grammar ctx Ready →
    stop.Spares grammar counter →
      ReturnsWithin grammar ctx counter (c.remaining.length + 1) (manyTill · stop) p c s
  /-- With delimiters, none or more. Each of the two may consume nothing. -/
  separated : ∀ d : Parser τ ρ, d.Answers grammar ctx Ready → d.Spares grammar counter →
    AdvanceTogether grammar ctx Ready d p →
      ReturnsWithin grammar ctx counter (c.remaining.length + 2) (sepBy d) p c s
  /-- With delimiters, one or more. -/
  separatedAtLeastOne : ∀ d : Parser τ ρ, d.Answers grammar ctx Ready →
    d.Spares grammar counter → AdvanceTogether grammar ctx Ready d p →
      ReturnsWithin grammar ctx counter (c.remaining.length + 2) (sepBy1 d) p c s

theorem TalliedWithin.returns {repetition : Parser τ ρ → Parser τ ρ}
    (h : TalliedWithin grammar ctx counter n (repetition p) (repetition (counted counter p)) c s) :
    ReturnsWithin grammar ctx counter n repetition p c s := by
  obtain ⟨r, t, h⟩ := h
  obtain ⟨signals, h'⟩ := h.performs
  obtain ⟨t', signals', h'', ht, hn⟩ := h.counts (.refl s)
  exact ⟨r, t, signals, t', signals', h', h'', ht, hn⟩

theorem TalliedWithin.builtIn (h : TalliedWithin grammar ctx counter n p p' c s) (name : String) :
    TalliedWithin grammar ctx counter n (builtIn name p) (builtIn name p') c s := by
  obtain ⟨r, t, h⟩ := h
  exact ⟨r, t, h.builtIn name⟩

theorem returns_many1 (sound : Sound Ready) (hp : p.Answers grammar ctx Ready)
    (spared : p.Spares grammar counter) (advances : p.Advances grammar ctx Ready) (hs : Ready c s) :
    ReturnsWithin grammar ctx counter (c.remaining.length + 1) many1 p c s := by
  obtain ⟨r, t, first, next⟩ := exists_tallied_within hp spared hs "many1"
  have loop := first.thenWithin (g := Value.cons) fun m hm => by
    obtain ⟨ready, _, h⟩ := next m hm
    have fewer := h.remaining_stop sound hs
    have consumed := advances hs h
    exact (talliedWithin_repeated sound hp spared advances ready none).mono
      (by omega : _ ≤ c.remaining.length)
  exact ((loop.mono (Nat.le_of_eq (Nat.add_comm _ _))).builtIn "many1").returns

theorem returns_manyBetween {most : Nat} (h : TalliedWithin grammar ctx counter n
      (.repeated (some most) p) (.repeated (some most) (counted counter p)) c s) (least : Nat) :
    ReturnsWithin grammar ctx counter n (manyBetween least most) p c s := by
  obtain ⟨r, t, h⟩ := h
  exact TalliedWithin.returns ⟨_, _, (h.adapt _).builtIn "many_n"⟩

theorem returns_separated (sound : Sound Ready) (hp : p.Answers grammar ctx Ready)
    (spared : p.Spares grammar counter) (hs : Ready c s) {d : Parser τ ρ}
    (hd : d.Answers grammar ctx Ready) (spared' : d.Spares grammar counter)
    (together : AdvanceTogether grammar ctx Ready d p) :
    ReturnsWithin grammar ctx counter (c.remaining.length + 2) (sepBy d) p c s ∧
      ReturnsWithin grammar ctx counter (c.remaining.length + 2) (sepBy1 d) p c s := by
  -- the first item may consume nothing, and does not count among the rounds of the loop
  have rest {m : Match τ} {t : Store τ} {signals : List (Signal τ)}
      (h : p.Performs grammar ctx c s (.ok m) t signals) (ready : Ready m.stop t) :
      TalliedWithin grammar ctx counter (c.remaining.length + 1) (.delimited d p)
        (.delimited d (counted counter p)) m.stop t := by
    have fewer := h.remaining_stop sound hs
    exact (talliedWithin_delimited sound hd spared' hp spared together ready).mono (by omega)
  have total : 1 + (c.remaining.length + 1) = c.remaining.length + 2 := Nat.add_comm _ _
  constructor
  · obtain ⟨r, t, first, next⟩ := exists_tallied hp spared hs
    obtain ⟨_, _, items⟩ := first.thenWithin (g := Value.cons) fun m hm => by
      obtain ⟨ready, _, h⟩ := next m hm
      exact rest h ready
    have whole := (items.orElse_leaf (.succeed (.list []))).mono (Nat.le_of_eq total)
    exact (whole.builtIn "separated_list0").returns
  · obtain ⟨r, t, first, next⟩ := exists_tallied_within hp spared hs "separated_list1"
    have items := first.thenWithin (g := Value.cons) fun m hm => by
      obtain ⟨ready, _, h⟩ := next m hm
      exact rest h ready
    exact ((items.mono (Nat.le_of_eq total)).builtIn "separated_list1").returns

/-- A repetition of a parser that advances returns, and so does one with delimiters whose items
advance together with them. There is at most one round more than tokens are left, and with
delimiters the first item besides. -/
theorem repetitions_return (sound : Sound Ready) (hp : p.Answers grammar ctx Ready)
    (spared : p.Spares grammar counter) (hs : Ready c s) :
    RunsBounded grammar ctx Ready counter p c s where
  any advances :=
    ((talliedWithin_repeated sound hp spared advances hs none).builtIn "many0").returns
  atLeastOne advances := returns_many1 sound hp spared advances hs
  between advances least _ :=
    returns_manyBetween (talliedWithin_repeated sound hp spared advances hs _) least
  atMost least most := returns_manyBetween (talliedWithin_limited hp spared hs most) least
  terminated advances _ hstop spared' :=
    ((talliedWithin_till sound hp spared advances hstop spared' hs).builtIn "many_till").returns
  separated _ hd spared' together := (returns_separated sound hp spared hs hd spared' together).1
  separatedAtLeastOne _ hd spared' together :=
    (returns_separated sound hp spared hs hd spared' together).2

end Rounds

/-- Letters from a table, in front of another one, with and without commas between them. -/
theorem repetitions_return_of_letters :
    let letter : Parser Char Empty := .memoized ⟨0, "letter"⟩ (.exactly 'a')
    let comma : Parser Char Empty := .optional (.exactly ',')
    let start : Cursor Char := .ofBuffer (.ofArray 0 #['a', ',', 'a', 'a', 'b'])
    ReturnsWithin Empty.elim .plain "letters" 6 many letter start ∅ ∧
      ReturnsWithin Empty.elim .plain "letters" 7 (sepBy comma) letter start ∅ := by
  intro letter comma start
  let body : Memo → Option (Parser Char Empty) := fun memo =>
    if memo = ⟨0, "letter"⟩ then some (.exactly 'a') else none
  let sources : Nat → Array Char := fun _ => #['a', ',', 'a', 'a', 'b']
  have finishes (c : Cursor Char) (hc : c.buffer.CutFrom sources) :
      ∃ n, letter.Finishes Empty.elim body sources n c :=
    ⟨3, (finishes_leaf _).site.memo (if_pos rfl) hc⟩
  have finishes' (c : Cursor Char) (_ : c.buffer.CutFrom sources) :
      ∃ n, comma.Finishes Empty.elim body sources n c :=
    ⟨4, ((finishes_leaf _).site.adapt .optional).site⟩
  have consumes {c : Cursor Char} {m : Match Char} (h : letter.Gives Empty.elim c (.ok m)) :
      c.offset < m.stop.offset := by
    obtain ⟨hhead, hstop, -⟩ := ok_exactly.mp (gives_memo.mp h)
    rw [hstop, (Cursor.over_advance hhead).stop]
    exact Nat.lt_succ_self c.offset
  have hs : InUse Empty.elim body sources start ∅ :=
    ⟨Nat.zero_le _, .ofArray 0, Store.allAnswers_of_fresh fun _ _ => rfl,
      Store.allAnswers_of_fresh fun _ _ => rfl⟩
  have spares (p : Parser Char Empty) (hp : p.Avoids "letters") : p.Spares Empty.elim "letters" :=
    hp.spares fun name => name.elim
  have advances : letter.Advances Empty.elim .plain (InUse Empty.elim body sources) :=
    advances_of_finishes finishes consumes
  have answers : comma.Answers Empty.elim .plain (InUse Empty.elim body sources) :=
    answers_of_finishes finishes'
  have returns : RunsBounded Empty.elim .plain (InUse Empty.elim body sources) "letters" letter
      start ∅ :=
    repetitions_return sound_inUse (answers_of_finishes finishes) (spares letter trivial) hs
  exact ⟨returns.any advances,
    returns.separated comma answers (spares comma trivial) (advances.together sound_inUse answers)⟩

end Packrat.Parser
