import Mathlib.Data.List.Basic
import Packrat.Combinator.Tokens
import Packrat.Proofs.Effects

/-!
# The first parser that matches

The parsers of a choice are tried at one cursor, each from the store that the one before left, until
one matches. What the ones before it consumed is given back, what they did to tables and slots is
not. Choices of choices, and all forms in which a collection may be given, try the same parsers.

* `Parser.Tried`: parsers tried at one cursor, with their failures and the match that ends them.
* `Parser.Chooses`: a parser that tries the parsers of a list and does nothing else.
* `Parser.Chooses.orElse`: two such parsers, one in place of the other.
* `Parser.first_match_wins`: choices and all forms of them.
-/

namespace Packrat.Parser

variable {τ ρ : Type}

/-- The parsers are tried at one cursor until the first match. -/
abbrev Tried (grammar : Grammar τ ρ) (ctx : Context) :
    List (Parser τ ρ) → Cursor τ → Store τ → List (Failure τ) → Option (Match τ) → Store τ →
      List (Signal τ) → Prop :=
  WorkedOff grammar ctx .error .ok fun c _ => c

/-- The parser tries the parsers of the list and does nothing else. It has the first match; if there
is none, it fails in some way. -/
structure Chooses (grammar : Grammar τ ρ) (ps : List (Parser τ ρ)) (a : Parser τ ρ) : Prop where
  ok : ∀ {ctx c s m t signals}, a.Performs grammar ctx c s (.ok m) t signals ↔
    ∃ fs, Tried grammar ctx ps c s fs (some m) t signals
  error : ∀ {ctx c s t signals}, (∃ f, a.Performs grammar ctx c s (.error f) t signals) ↔
    ∃ fs, Tried grammar ctx ps c s fs none t signals

/-- The result of a choice: the match, or always the same failure. -/
def chosen (c : Cursor τ) : Option (Match τ) → Result τ
  | some m => .ok m
  | none => .error ⟨c.offset, .noAlternative⟩

variable {grammar : Grammar τ ρ} {ctx : Context} {ps qs : List (Parser τ ρ)} {a b : Parser τ ρ}
  {c : Cursor τ} {s t u : Store τ} {r : Result τ} {m : Match τ} {fs gs : List (Failure τ)}
  {y : Option (Match τ)} {before after signals : List (Signal τ)}

/-! ## Two lists of parsers -/

theorem Tried.append (h : Tried grammar ctx ps c s fs none u before)
    (h' : Tried grammar ctx qs c u gs y t after) :
    Tried grammar ctx (ps ++ qs) c s (fs ++ gs) y t (before ++ after) := by
  refine WorkedOff.append h ?_
  rwa [List.foldl_fixed]

theorem Tried.of_append (h : Tried grammar ctx (ps ++ qs) c s fs y t signals) :
    (∃ m, y = some m ∧ Tried grammar ctx ps c s fs (some m) t signals) ∨
      ∃ fs₁ fs₂ u before after, Tried grammar ctx ps c s fs₁ none u before ∧
        Tried grammar ctx qs c u fs₂ y t after ∧ fs = fs₁ ++ fs₂ ∧ signals = before ++ after := by
  have split := WorkedOff.of_append h
  simpa only [List.foldl_fixed] using split

/-! ## Parsers that try other ones -/

theorem chooses_self (p : Parser τ ρ) : Chooses grammar [p] p where
  ok := by
    intro ctx c s m t signals
    constructor
    · intro h
      exact ⟨[], .halts h⟩
    · rintro ⟨fs, h⟩
      exact (WorkedOff.singleton_halted_iff.mp h).1
  error := by
    intro ctx c s t signals
    constructor
    · rintro ⟨f, h⟩
      exact ⟨[f], WorkedOff.singleton_iff.mpr ⟨f, h, rfl⟩⟩
    · rintro ⟨fs, h⟩
      obtain ⟨f, hf, -⟩ := WorkedOff.singleton_iff.mp h
      exact ⟨f, hf⟩

theorem chooses_fail (cause : Cause τ) : Chooses grammar [] (.leaf (.fail cause)) where
  ok := by
    intro ctx c s m t signals
    rw [performs_leaf]
    constructor
    · rintro ⟨hr, -⟩
      cases hr
    · rintro ⟨fs, h⟩
      cases h
  error := by
    intro ctx c s t signals
    simp only [performs_leaf]
    constructor
    · rintro ⟨f, -, rfl, rfl⟩
      exact ⟨[], .done⟩
    · rintro ⟨fs, h⟩
      cases h
      exact ⟨_, rfl, rfl, rfl⟩

/-- One parser in place of another tries the parsers of both. -/
theorem Chooses.orElse (ha : Chooses grammar ps a) (hb : Chooses grammar qs b) :
    Chooses grammar (ps ++ qs) (.orElse a b) where
  ok := by
    intro ctx c s m t signals
    rw [performs_orElse]
    constructor
    · rintro (⟨m', hm, h₁⟩ | ⟨f, u, _, _, h₁, h₂, rfl⟩)
      · cases hm
        obtain ⟨fs, hfs⟩ := ha.ok.mp h₁
        exact ⟨fs, hfs.append_of_halted qs⟩
      · obtain ⟨fs, hfs⟩ := ha.error.mp ⟨f, h₁⟩
        obtain ⟨gs, hgs⟩ := hb.ok.mp h₂
        exact ⟨fs ++ gs, Tried.append hfs hgs⟩
    · rintro ⟨fs, h⟩
      rcases Tried.of_append h with ⟨m', hm, found⟩ | ⟨fs₁, fs₂, u, _, _, h₁, h₂, rfl, rfl⟩
      · cases hm
        exact .inl ⟨m, rfl, ha.ok.mpr ⟨fs, found⟩⟩
      · obtain ⟨f, hf⟩ := ha.error.mpr ⟨fs₁, h₁⟩
        exact .inr ⟨f, u, _, _, hf, hb.ok.mpr ⟨fs₂, h₂⟩, rfl⟩
  error := by
    intro ctx c s t signals
    simp only [performs_orElse]
    constructor
    · rintro ⟨g, ⟨m, hm, -⟩ | ⟨f, u, _, _, h₁, h₂, rfl⟩⟩
      · cases hm
      · obtain ⟨fs, hfs⟩ := ha.error.mp ⟨f, h₁⟩
        obtain ⟨gs, hgs⟩ := hb.error.mp ⟨g, h₂⟩
        exact ⟨fs ++ gs, Tried.append hfs hgs⟩
    · rintro ⟨fs, h⟩
      rcases Tried.of_append h with ⟨m, hm, -⟩ | ⟨fs₁, fs₂, u, _, _, h₁, h₂, rfl, rfl⟩
      · cases hm
      · obtain ⟨f, hf⟩ := ha.error.mpr ⟨fs₁, h₁⟩
        obtain ⟨g, hg⟩ := hb.error.mpr ⟨fs₂, h₂⟩
        exact ⟨g, .inr ⟨f, u, _, _, hf, hg, rfl⟩⟩

/-! ## The forms of a collection -/

theorem chooses_firstOfList (ps : List (Parser τ ρ)) :
    Chooses grammar ps (Parts.firstOfList ps) := by
  induction ps with
  | nil => exact chooses_fail _
  | cons p ps ih => exact (chooses_self p).orElse ih

theorem Chooses.foldl (ha : Chooses grammar qs a) (ps : List (Parser τ ρ)) :
    Chooses grammar (qs ++ ps) (ps.foldl .orElse a) := by
  induction ps generalizing qs a with
  | nil => simpa using ha
  | cons p ps ih => simpa using ih (ha.orElse (chooses_self p))

theorem chooses_tuple {n : Nat} (ps : Tuple τ ρ n) :
    Chooses grammar ps.toList (Parts.firstOf ps) := by
  induction n with
  | zero => exact chooses_self ps
  | succ n ih => exact (chooses_self ps.1).orElse (ih ps.2)

/-- A list, an array or a tuple: every parser is tried until one matches. -/
theorem chooses_firstOf (x : Collection τ ρ) :
    Chooses grammar x.toList (Parts.firstOf x) := by
  cases x with
  | list ps => exact chooses_firstOfList ps
  | array ps =>
    have folded : Chooses grammar ps.toList
        (ps.toList.foldl .orElse (.leaf (.fail .noAlternative))) :=
      (chooses_fail .noAlternative).foldl ps.toList
    rwa [Array.foldl_toList] at folded
  | tuple ps => exact chooses_tuple ps

/-! ## Choices -/

theorem performs_choice (x : Collection τ ρ) :
    (choice x).Performs grammar ctx c s r t signals ↔
      ∃ fs y inside, Tried grammar ctx x.toList c s fs y t inside ∧ r = chosen c y ∧
        signals = (Visit.ofLibrary "alt" ctx c r).wrap inside := by
  have parts : Chooses grammar x.toList (Parts.firstOf x) := chooses_firstOf x
  rw [choice, performs_builtIn]
  simp only [performs_adapt]
  constructor
  · rintro ⟨inside, ⟨r', h, rfl⟩, rfl⟩
    cases r' with
    | ok m =>
      obtain ⟨fs, hfs⟩ := parts.ok.mp h
      exact ⟨fs, some m, inside, hfs, rfl, rfl⟩
    | error f =>
      obtain ⟨fs, hfs⟩ := parts.error.mp ⟨f, h⟩
      exact ⟨fs, none, inside, hfs, rfl, rfl⟩
  · rintro ⟨fs, y, inside, h, rfl, rfl⟩
    cases y with
    | some m => exact ⟨inside, ⟨_, parts.ok.mpr ⟨fs, h⟩, rfl⟩, rfl⟩
    | none =>
      obtain ⟨f, hf⟩ := parts.error.mpr ⟨fs, h⟩
      exact ⟨inside, ⟨_, hf, rfl⟩, rfl⟩

/-- A choice of the parsers of a list. -/
theorem performs_choice_list :
    (choice ps).Performs grammar ctx c s r t signals ↔
      ∃ fs y inside, Tried grammar ctx ps c s fs y t inside ∧ r = chosen c y ∧
        signals = (Visit.ofLibrary "alt" ctx c r).wrap inside :=
  performs_choice (.list ps)

theorem choice_doesAs (x : Collection τ ρ) : DoesAs grammar (choice x) (choice x.toList) := by
  intro ctx c s r t signals
  rw [performs_choice x, performs_choice_list]

/-- A match is that of the first parser that has one. -/
theorem performs_choice_ok : (choice ps).Performs grammar ctx c s (.ok m) t signals ↔
    ∃ fs inside, Tried grammar ctx ps c s fs (some m) t inside ∧
      signals = (Visit.ofLibrary "alt" ctx c (.ok m)).wrap inside := by
  rw [performs_choice_list]
  constructor
  · rintro ⟨fs, y, inside, h, hr, hsignals⟩
    cases y with
    | none => cases hr
    | some m' =>
      cases hr
      exact ⟨fs, inside, h, hsignals⟩
  · rintro ⟨fs, inside, h, hsignals⟩
    exact ⟨fs, some m, inside, h, rfl, hsignals⟩

theorem performs_choice_error {f : Failure τ} :
    (choice ps).Performs grammar ctx c s (.error f) t signals ↔
      ∃ fs inside, Tried grammar ctx ps c s fs none t inside ∧ f = ⟨c.offset, .noAlternative⟩ ∧
        signals = (Visit.ofLibrary "alt" ctx c (.error f)).wrap inside := by
  rw [performs_choice_list]
  constructor
  · rintro ⟨fs, y, inside, h, hr, hsignals⟩
    cases y with
    | some m => cases hr
    | none =>
      cases hr
      exact ⟨fs, inside, h, rfl, hsignals⟩
  · rintro ⟨fs, inside, h, rfl, hsignals⟩
    exact ⟨fs, none, inside, h, rfl, hsignals⟩

theorem Tried.performs_choice (h : Tried grammar ctx ps c s fs y t signals) :
    (choice ps).Performs grammar ctx c s (chosen c y) t
      ((Visit.ofLibrary "alt" ctx c (chosen c y)).wrap signals) :=
  performs_choice_list.mpr ⟨fs, y, signals, h, rfl, rfl⟩

/-- A choice of two choices tries the parsers of both. -/
theorem choice_append_endsAs (ps qs : List (Parser τ ρ)) :
    EndsAs grammar (choice (ps ++ qs)) (choice [choice ps, choice qs]) := by
  intro ctx c s r t
  constructor
  · rintro ⟨_, h⟩
    obtain ⟨fs, y, inside, tried, rfl, -⟩ := performs_choice_list.mp h
    rcases tried.of_append with ⟨m, rfl, found⟩ | ⟨fs₁, fs₂, u, _, _, h₁, h₂, -, -⟩
    · exact ⟨_, Tried.performs_choice (.halts (Tried.performs_choice found))⟩
    · have first := Tried.performs_choice h₁
      have second := Tried.performs_choice h₂
      cases y with
      | some m => exact ⟨_, Tried.performs_choice (.next first (.halts second))⟩
      | none => exact ⟨_, Tried.performs_choice (.next first (.next second .done))⟩
  · rintro ⟨_, h⟩
    obtain ⟨fs, y, inside, tried, rfl, -⟩ := performs_choice_list.mp h
    cases tried with
    | halts first =>
      obtain ⟨gs, _, found, -⟩ := performs_choice_ok.mp first
      exact ⟨_, Tried.performs_choice (found.append_of_halted qs)⟩
    | next first rest =>
      -- the first choice fails in one way only, which says that all of its parsers failed
      obtain ⟨gs, _, missed, -, -⟩ := performs_choice_error.mp first
      cases rest with
      | halts second =>
        obtain ⟨gs', _, found, -⟩ := performs_choice_ok.mp second
        exact ⟨_, Tried.performs_choice (Tried.append missed found)⟩
      | next second rest =>
        obtain ⟨gs', _, missed', -, -⟩ := performs_choice_error.mp second
        cases rest
        exact ⟨_, Tried.performs_choice (Tried.append missed missed')⟩

/-- What choices of the parsers of a list do. -/
structure Choices (grammar : Grammar τ ρ) [Token τ] (ps : List (Parser τ ρ)) : Prop where
  /-- A choice matches like the first parser that matches at the start. The ones before it are run
  as well and fail, each from the store that the one before left, and nothing else is done. -/
  firstMatch : ∀ ctx start s m t signals,
    (choice ps).Performs grammar ctx start s (.ok m) t signals ↔
      ∃ front p back fs u before after, ps = front ++ p :: back ∧
        Tried grammar ctx front start s fs none u before ∧
        p.Performs grammar ctx start u (.ok m) t after ∧
        signals = (Visit.ofLibrary "alt" ctx start (.ok m)).wrap (before ++ after)
  /-- The parsers behind a match are not run. -/
  unrun : ∀ qs ctx start s m t signals,
    (choice ps).Performs grammar ctx start s (.ok m) t signals →
      (choice (ps ++ qs)).Performs grammar ctx start s (.ok m) t signals
  /-- It fails if all parsers fail, in one way whatever their failures. -/
  noMatch : ∀ ctx start s f t signals,
    (choice ps).Performs grammar ctx start s (.error f) t signals ↔
      ∃ fs inside, Tried grammar ctx ps start s fs none t inside ∧
        f = ⟨start.offset, .noAlternative⟩ ∧ f.position = start.offset ∧
        f.message = "no alternatives matched" ∧
        signals = (Visit.ofLibrary "alt" ctx start (.error f)).wrap inside
  /-- A choice of two choices ends like the choice of the parsers of both. -/
  nested : ∀ qs : List (Parser τ ρ),
    EndsAs grammar (choice (ps ++ qs)) (choice [choice ps, choice qs])
  /-- All forms of a collection do the same. -/
  forms : ∀ x : Collection τ ρ, x.toList = ps → DoesAs grammar (choice x) (choice ps)

/-- A choice has the first match of its parsers and the effects of all that it ran, and choices of
choices and all forms of a collection come to the same. -/
theorem first_match_wins (grammar : Grammar τ ρ) [Token τ] (ps : List (Parser τ ρ)) :
    Choices grammar ps where
  firstMatch := by
    intro ctx start s m t signals
    rw [performs_choice_ok]
    constructor
    · rintro ⟨fs, inside, h, rfl⟩
      obtain ⟨front, p, back, u, before, after, rfl, hfront, hp, rfl⟩ := WorkedOff.halted_iff.mp h
      rw [List.foldl_fixed] at hp
      exact ⟨front, p, back, fs, u, before, after, rfl, hfront, hp, rfl⟩
    · rintro ⟨front, p, back, fs, u, before, after, rfl, hfront, hp, rfl⟩
      exact ⟨fs ++ [], _, Tried.append hfront (.halts hp), rfl⟩
  unrun := by
    intro qs ctx start s m t signals h
    obtain ⟨fs, inside, found, rfl⟩ := performs_choice_ok.mp h
    exact performs_choice_ok.mpr ⟨fs, inside, found.append_of_halted qs, rfl⟩
  noMatch := by
    intro ctx start s f t signals
    rw [performs_choice_error]
    constructor
    · rintro ⟨fs, inside, h, rfl, hsignals⟩
      exact ⟨fs, inside, h, rfl, rfl, rfl, hsignals⟩
    · rintro ⟨fs, inside, h, hf, -, -, hsignals⟩
      exact ⟨fs, inside, h, hf, hsignals⟩
  nested := choice_append_endsAs ps
  forms := by
    rintro x rfl
    exact choice_doesAs x

/-- The second parser matches, and the answer that the first one entered into its table stays. -/
example :
    let table : Memo := ⟨0, "letter"⟩
    let first : Parser Char Empty := keepRight (.memo table (.exactly 'a')) (.exactly 'b')
    ((choice [first, .exactly 'a']).run Empty.elim 20 .plain
        (.ofBuffer (.ofArray 0 #['a', 'c'])) ∅).map
      (fun x => (x.1.toOption.map fun m => m.stop.offset, (x.2.1.table table).size)) =
        some (some 1, 1) := by
  decide +kernel

end Packrat.Parser
