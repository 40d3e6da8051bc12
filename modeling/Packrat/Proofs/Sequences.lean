import Packrat.Proofs.Effects
import Packrat.Proofs.Repetition

/-!
# Parsers in turn

The parsers of a sequence are run one after another, each from the store that the one before left
and where it stopped, until one fails or all have matched. All combinators for sequences, and all
forms in which a collection may be given, do nothing else, and make a list of the values.

* `Parser.InTurn`: parsers in turn, with their matches and the failure that ends them, if any.
* `Parser.Gathers`: a parser that runs a list of parsers in turn and makes a value of theirs.
* `Parser.Gathers.andThen`: two such parsers one after another.
* `Parser.sequences_in_turn`: sequences, extended sequences and phrases.
-/

namespace Packrat

variable {τ ρ : Type}

theorem Cursor.behind_append (c : Cursor τ) (ms ns : List (Match τ)) :
    c.behind (ms ++ ns) = (c.behind ms).behind ns := List.foldl_append

namespace Parser

/-- The parsers are run in turn, each where the one before it stopped, until the first failure. -/
abbrev InTurn (grammar : Grammar τ ρ) (ctx : Context) :
    List (Parser τ ρ) → Cursor τ → Store τ → List (Match τ) → Option (Failure τ) → Store τ →
      List (Signal τ) → Prop :=
  WorkedOff grammar ctx .ok .error fun _ m => m.stop

/-- The parser runs the list of parsers in turn, does nothing else, and makes a value of theirs. -/
structure Gathers (grammar : Grammar τ ρ) (shape : List (Value τ) → Value τ)
    (ps : List (Parser τ ρ)) (a : Parser τ ρ) : Prop where
  ok : ∀ {ctx c s m t signals}, a.Performs grammar ctx c s (.ok m) t signals ↔
    ∃ ms, InTurn grammar ctx ps c s ms none t signals ∧
      m = ⟨c.behind ms, shape (ms.map (·.value))⟩
  error : ∀ {ctx c s f t signals}, a.Performs grammar ctx c s (.error f) t signals ↔
    ∃ ms, InTurn grammar ctx ps c s ms (some f) t signals

/-- The value of a single parser. -/
def single (vs : List (Value τ)) : Value τ := vs.headD .unit

variable {grammar : Grammar τ ρ} {ctx : Context} {ps qs : List (Parser τ ρ)} {a b : Parser τ ρ}
  {c : Cursor τ} {s t u : Store τ} {m : Match τ} {ms ns : List (Match τ)} {f : Failure τ}
  {x : Option (Failure τ)} {before after signals : List (Signal τ)}
  {shape shape' whole : List (Value τ) → Value τ}

/-! ## Parsers that run other ones in turn -/

theorem gathers_self (p : Parser τ ρ) : Gathers grammar single [p] p where
  ok := by
    intro ctx c s m t signals
    constructor
    · intro h
      exact ⟨[m], WorkedOff.singleton_iff.mpr ⟨m, h, rfl⟩, rfl⟩
    · rintro ⟨ms, h, rfl⟩
      obtain ⟨m, hm, rfl⟩ := WorkedOff.singleton_iff.mp h
      exact hm
  error := by
    intro ctx c s f t signals
    constructor
    · intro h
      exact ⟨[], .halts h⟩
    · rintro ⟨ms, h⟩
      exact (WorkedOff.singleton_halted_iff.mp h).1

theorem gathers_nothing (shape : List (Value τ) → Value τ) :
    Gathers grammar shape [] (nothing (shape [])) where
  ok := by
    intro ctx c s m t signals
    rw [nothing, performs_leaf]
    constructor
    · rintro ⟨hr, rfl, rfl⟩
      cases hr
      exact ⟨[], .done, rfl⟩
    · rintro ⟨ms, h, rfl⟩
      cases h
      exact ⟨rfl, rfl, rfl⟩
  error := by
    intro ctx c s f t signals
    rw [nothing, performs_leaf]
    constructor
    · rintro ⟨hr, -⟩
      cases hr
    · rintro ⟨ms, h⟩
      cases h

/-- One parser after another runs the parsers of both in turn. -/
theorem Gathers.andThen {combine : Value τ → Value τ → Value τ} (ha : Gathers grammar shape ps a)
    (hb : Gathers grammar shape' qs b)
    (hwhole : ∀ vs ws, vs.length = ps.length → ws.length = qs.length →
      combine (shape vs) (shape' ws) = whole (vs ++ ws)) :
    Gathers grammar whole (ps ++ qs) (.andThen a b combine) where
  ok := by
    intro ctx c s m t signals
    have same {ms ns : List (Match τ)} (hms : ms.length = ps.length)
        (hns : ns.length = qs.length) :
        combine (shape (ms.map (·.value))) (shape' (ns.map (·.value))) =
          whole ((ms ++ ns).map (·.value)) := by
      rw [List.map_append]
      exact hwhole _ _ (by simpa using hms) (by simpa using hns)
    rw [performs_andThen_ok]
    constructor
    · rintro ⟨first, second, u, _, _, h₁, h₂, rfl, rfl⟩
      obtain ⟨ms, hms, rfl⟩ := ha.ok.mp h₁
      obtain ⟨ns, hns, rfl⟩ := hb.ok.mp h₂
      refine ⟨ms ++ ns, hms.append hns, ?_⟩
      rw [same hms.length_eq hns.length_eq, Cursor.behind_append]
    · rintro ⟨all, h, rfl⟩
      rcases h.of_append with ⟨f, hf, -⟩ | ⟨ms, ns, u, _, _, hms, hns, rfl, rfl⟩
      · cases hf
      · refine ⟨_, _, u, _, _, ha.ok.mpr ⟨ms, hms, rfl⟩, hb.ok.mpr ⟨ns, hns, rfl⟩, ?_, rfl⟩
        rw [same hms.length_eq hns.length_eq, Cursor.behind_append]
  error := by
    intro ctx c s f t signals
    rw [performs_andThen_error]
    constructor
    · rintro (h₁ | ⟨first, u, _, _, h₁, h₂, rfl⟩)
      · obtain ⟨ms, hms⟩ := ha.error.mp h₁
        exact ⟨ms, hms.append_of_halted qs⟩
      · obtain ⟨ms, hms, rfl⟩ := ha.ok.mp h₁
        obtain ⟨ns, hns⟩ := hb.error.mp h₂
        exact ⟨ms ++ ns, hms.append hns⟩
    · rintro ⟨all, h⟩
      rcases h.of_append with ⟨f, hf, fails⟩ | ⟨ms, ns, u, _, _, hms, hns, rfl, rfl⟩
      · cases hf
        exact .inl (ha.error.mpr ⟨all, fails⟩)
      · exact .inr ⟨_, u, _, _, ha.ok.mpr ⟨ms, hms, rfl⟩, hb.error.mpr ⟨ns, hns⟩, rfl⟩

/-- Two parsers that gather the values of one list do the same. -/
theorem Gathers.doesAs (ha : Gathers grammar shape ps a) (hb : Gathers grammar shape ps b) :
    DoesAs grammar a b := by
  intro ctx c s r t signals
  cases r with
  | ok m => rw [ha.ok, hb.ok]
  | error f => rw [ha.error, hb.error]

/-! ## The forms of a collection -/

/-- A parser in front of a list. -/
theorem Gathers.cons {q : Parser τ ρ} (ha : Gathers grammar single [q] a)
    (hb : Gathers grammar .list qs b) : Gathers grammar .list (q :: qs) (.andThen a b .cons) := by
  refine ha.andThen hb fun vs ws hvs _ => ?_
  obtain ⟨v, rfl⟩ := List.length_eq_one_iff.mp hvs
  rfl

/-- A parser behind a list. -/
theorem Gathers.snoc {q : Parser τ ρ} (ha : Gathers grammar .list ps a)
    (hb : Gathers grammar single [q] b) :
    Gathers grammar .list (ps ++ [q]) (.andThen a b .snoc) := by
  refine ha.andThen hb fun vs ws _ hws => ?_
  obtain ⟨w, rfl⟩ := List.length_eq_one_iff.mp hws
  rfl

section

variable {between : Parser τ ρ} {F : Parser τ ρ → Parser τ ρ}
  (hF : ∀ p, Gathers grammar single [F p] (skipThen between p))
include hF

theorem gathers_eachOfList (ps : List (Parser τ ρ)) :
    Gathers grammar .list (ps.map F) (Parts.eachOfList between ps) := by
  induction ps with
  | nil => exact gathers_nothing .list
  | cons p ps ih => exact (hF p).cons ih

/-- The values are gathered from the left. -/
theorem Gathers.foldl (ps : List (Parser τ ρ)) (ha : Gathers grammar .list qs a) :
    Gathers grammar .list (qs ++ ps.map F)
      (ps.foldl (fun before p => .andThen before (skipThen between p) .snoc) a) := by
  induction ps generalizing qs a with
  | nil => simpa using ha
  | cons p ps ih => simpa using ih (ha.snoc (hF p))

/-- A list, an array or a tuple: every parser in turn. -/
theorem gathers_eachAfter (x : Collection τ ρ) :
    Gathers grammar .list (x.toList.map F) (Parts.eachAfter between x) := by
  cases x with
  | list ps => exact gathers_eachOfList hF ps
  | array ps =>
    have folded := Gathers.foldl hF ps.toList (gathers_nothing .list)
    rwa [Array.foldl_toList] at folded
  | tuple ps => exact (ps.eachAfter_eq between).symm ▸ gathers_eachOfList hF ps.toList

end

theorem gathers_skipThen_nothing (p : Parser τ ρ) :
    Gathers grammar single [p] (skipThen (nothing .unit) p) :=
  (gathers_nothing fun _ => .unit).andThen (gathers_self p) fun vs _ hvs _ => by
    obtain rfl := List.length_eq_zero_iff.mp hvs
    rfl

/-! ## Sequences -/

/-- What sequences of the parsers of a list do. -/
structure Sequences (grammar : Grammar τ ρ) (ps : List (Parser τ ρ)) : Prop where
  /-- A sequence matches if all parsers match in turn, with their values in order. -/
  inTurn : ∀ ctx start s m t signals,
    (inOrder ps).Performs grammar ctx start s (.ok m) t signals ↔
      ∃ ms inside, InTurn grammar ctx ps start s ms none t inside ∧
        m = ⟨start.behind ms, .list (ms.map (·.value))⟩ ∧
        signals = (Visit.ofLibrary "seq" ctx start (.ok m)).wrap inside
  /-- It fails with the first parser that fails, with the same failure. -/
  firstFailure : ∀ ctx start s f t signals,
    (inOrder ps).Performs grammar ctx start s (.error f) t signals ↔
      ∃ front p back ms u before after, ps = front ++ p :: back ∧
        InTurn grammar ctx front start s ms none u before ∧
        p.Performs grammar ctx (start.behind ms) u (.error f) t after ∧
        signals = (Visit.ofLibrary "seq" ctx start (.error f)).wrap (before ++ after)
  /-- The parsers behind a failure are not run. -/
  unrun : ∀ qs ctx start s f t signals,
    (inOrder ps).Performs grammar ctx start s (.error f) t signals →
      (inOrder (ps ++ qs)).Performs grammar ctx start s (.error f) t signals
  /-- A sequence that is extended is a longer sequence. -/
  extended : ∀ qs : List (Parser τ ρ),
    EndsAs grammar (extendedBy (inOrder ps) qs) (inOrder (ps ++ qs))
  /-- All forms of a collection do the same. -/
  forms : ∀ x : Collection τ ρ, x.toList = ps → DoesAs grammar (inOrder x) (inOrder ps) ∧
    ∀ head, DoesAs grammar (extendedBy head x) (extendedBy head ps)

/-- What phrases of the parsers of a list do. -/
structure Phrases {ρ : Type} (grammar : Grammar Char ρ) (ps : List (Parser Char ρ)) : Prop where
  /-- A phrase is a sequence of parsers with blanks allowed before each. -/
  asSequence : EndsAs grammar (phrase ps) (inOrder (ps.map (keepRight blanks)))
  /-- It stops where the last parser stopped, in front of any blanks. Without parsers it consumes
  nothing. -/
  lastStop : ∀ ctx start s m t signals,
    (phrase ps).Performs grammar ctx start s (.ok m) t signals →
      ps = [] ∧ m.stop = start ∨
        ∃ front p c u n after, ps = front ++ [p] ∧
          p.Performs grammar ctx (Cursor.pastBlanks c) u (.ok n) t after ∧ m.stop = n.stop
  /-- All forms of a collection do the same. -/
  forms : ∀ x : Collection Char ρ, x.toList = ps → DoesAs grammar (phrase x) (phrase ps)

theorem gathers_sequence (x : Collection τ ρ) :
    Gathers grammar .list x.toList (Parts.eachAfter (nothing .unit) x) := by
  have parts : Gathers grammar .list (x.toList.map id) (Parts.eachAfter (nothing .unit) x) :=
    gathers_eachAfter gathers_skipThen_nothing x
  rwa [List.map_id] at parts

theorem performs_inOrder_ok : (inOrder ps).Performs grammar ctx c s (.ok m) t signals ↔
    ∃ ms inside, InTurn grammar ctx ps c s ms none t inside ∧
      m = ⟨c.behind ms, .list (ms.map (·.value))⟩ ∧
      signals = (Visit.ofLibrary "seq" ctx c (.ok m)).wrap inside := by
  have parts : Gathers grammar .list ps (Parts.eachAfter (nothing .unit) ps) :=
    gathers_sequence (.list ps)
  rw [inOrder, performs_builtIn]
  constructor
  · rintro ⟨inside, h, rfl⟩
    obtain ⟨ms, hms, hm⟩ := parts.ok.mp h
    exact ⟨ms, inside, hms, hm, rfl⟩
  · rintro ⟨ms, inside, hms, hm, rfl⟩
    exact ⟨inside, parts.ok.mpr ⟨ms, hms, hm⟩, rfl⟩

theorem performs_inOrder_error : (inOrder ps).Performs grammar ctx c s (.error f) t signals ↔
    ∃ ms inside, InTurn grammar ctx ps c s ms (some f) t inside ∧
      signals = (Visit.ofLibrary "seq" ctx c (.error f)).wrap inside := by
  have parts : Gathers grammar .list ps (Parts.eachAfter (nothing .unit) ps) :=
    gathers_sequence (.list ps)
  rw [inOrder, performs_builtIn]
  constructor
  · rintro ⟨inside, h, rfl⟩
    obtain ⟨ms, hms⟩ := parts.error.mp h
    exact ⟨ms, inside, hms, rfl⟩
  · rintro ⟨ms, inside, hms, rfl⟩
    exact ⟨inside, parts.error.mpr ⟨ms, hms⟩, rfl⟩

theorem endsAs_inOrder (ps : List (Parser τ ρ)) :
    EndsAs grammar (inOrder ps) (Parts.eachAfter (nothing .unit) (Collection.list ps)) :=
  endsAs_site _ _ _

theorem extendedBy_endsAs (ps qs : List (Parser τ ρ)) :
    EndsAs grammar (extendedBy (inOrder ps) qs) (inOrder (ps ++ qs)) := by
  let whole : Parser τ ρ := .andThen (Parts.eachAfter (nothing .unit) (Collection.list ps))
    (Parts.eachAfter (nothing .unit) (Collection.list qs)) .append
  have parts : EndsAs grammar (.andThen (inOrder ps) (inOrder qs) .append) whole :=
    (endsAs_inOrder ps).andThen _ (endsAs_inOrder qs)
  have gathers : Gathers grammar .list (ps ++ qs) whole :=
    (gathers_sequence (.list ps)).andThen (gathers_sequence (.list qs)) fun _ _ _ _ => rfl
  have same := (gathers.doesAs (gathers_sequence (.list (ps ++ qs)))).endsAs
  exact (endsAs_site _ _ _).trans (parts.trans (same.trans (endsAs_inOrder _).symm))

theorem sequences (grammar : Grammar τ ρ) (ps : List (Parser τ ρ)) : Sequences grammar ps where
  inTurn := fun _ _ _ _ _ _ => performs_inOrder_ok
  firstFailure := by
    intro ctx start s f t signals
    rw [performs_inOrder_error]
    constructor
    · rintro ⟨ms, inside, h, rfl⟩
      obtain ⟨front, p, back, u, before, after, rfl, hfront, hp, rfl⟩ := WorkedOff.halted_iff.mp h
      exact ⟨front, p, back, ms, u, before, after, rfl, hfront, hp, rfl⟩
    · rintro ⟨front, p, back, ms, u, before, after, hps, hfront, hp, rfl⟩
      exact ⟨ms, before ++ after,
        WorkedOff.halted_iff.mpr ⟨front, p, back, u, before, after, hps, hfront, hp, rfl⟩, rfl⟩
  unrun := by
    intro qs ctx start s f t signals h
    obtain ⟨ms, inside, hms, rfl⟩ := performs_inOrder_error.mp h
    exact performs_inOrder_error.mpr ⟨ms, inside, hms.append_of_halted qs, rfl⟩
  extended := extendedBy_endsAs ps
  forms := by
    rintro x rfl
    have same : DoesAs grammar (inOrder x) (inOrder x.toList) :=
      ((gathers_sequence x).doesAs (gathers_sequence (.list x.toList))).site _ _
    exact ⟨same, fun head => ((DoesAs.refl head).andThen _ same).site _ _⟩

/-! ## Phrases -/

section

variable {ρ : Type} {grammar : Grammar Char ρ} {c : Cursor Char} {s t : Store Char}
  {m : Match Char} {signals : List (Signal Char)}

/-- Blanks match up to the last one that comes next. -/
theorem Performs.stop_blanks (h : blanks.Performs grammar ctx c s (.ok m) t signals) :
    m.stop = c.pastBlanks := by
  have faithful : s.Faithful grammar (fun _ => none) fun _ => #[] := nofun
  obtain ⟨r, t', signals', h', hr, -⟩ := (finishes_run0 .space) ctx s faithful
  obtain ⟨rfl, -, -⟩ := h.unique ⟨_, h'⟩
  cases gives_run0.mp hr
  rfl

theorem gathers_phrase (x : Collection Char ρ) :
    Gathers grammar .list (x.toList.map (skipThen blanks)) (phrase x) :=
  gathers_eachAfter (fun p => gathers_self (skipThen blanks p)) x

/-- The sites around the parsers make no difference to where a phrase ends. -/
theorem phrase_endsAs (ps : List (Parser Char ρ)) :
    EndsAs grammar (phrase ps) (inOrder (ps.map (keepRight blanks))) := by
  refine EndsAs.trans ?_ (endsAs_inOrder _).symm
  induction ps with
  | nil => exact (DoesAs.refl _).endsAs
  | cons p ps ih =>
    have first : EndsAs grammar (skipThen blanks p)
        (skipThen (nothing .unit) (keepRight blanks p)) :=
      (endsAs_site _ _ _).symm.trans
        ((gathers_self _).doesAs (gathers_skipThen_nothing _)).endsAs
    exact first.andThen _ ih

theorem phrases (grammar : Grammar Char ρ) (ps : List (Parser Char ρ)) : Phrases grammar ps where
  asSequence := phrase_endsAs ps
  lastStop := by
    intro ctx start s m t signals h
    obtain ⟨ms, hms, rfl⟩ := (gathers_phrase (.list ps)).ok.mp h
    rcases List.eq_nil_or_concat ps with rfl | ⟨front, p, rfl⟩
    · cases hms
      exact .inl ⟨rfl, rfl⟩
    · rw [Collection.toList, List.concat_eq_append, List.map_append] at hms
      rcases hms.of_append with ⟨f, hf, -⟩ | ⟨ms₁, ms₂, u, _, _, -, last, rfl, rfl⟩
      · cases hf
      · -- the last parser is run behind the blanks, which themselves are behind all the others
        obtain ⟨n, hn, rfl⟩ := WorkedOff.singleton_iff.mp last
        obtain ⟨b, n', u', _, _, hblanks, hp, rfl, rfl⟩ := performs_andThen_ok.mp hn
        rw [hblanks.stop_blanks] at hp
        exact .inr ⟨front, p, _, u', n', _, List.concat_eq_append, hp, start.behind_append ms₁ _⟩
  forms := by
    rintro x rfl
    exact (gathers_phrase x).doesAs (gathers_phrase (.list x.toList))

end

/-- Sequences run their parsers in turn and stop at the first failure, extended sequences are longer
sequences, phrases are sequences with blanks before each parser, and all forms of a collection do
the same. -/
theorem sequences_in_turn :
    (∀ {τ ρ : Type} (grammar : Grammar τ ρ) (ps : List (Parser τ ρ)), Sequences grammar ps) ∧
      ∀ {ρ : Type} (grammar : Grammar Char ρ) (ps : List (Parser Char ρ)), Phrases grammar ps :=
  ⟨sequences, phrases⟩

end Parser

end Packrat
