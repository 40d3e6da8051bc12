import Packrat.Proofs.Steadiness

/-!
# Lists with delimiters

Behind its first item, a list with delimiters repeats a delimiter and an item, for as long as both
are there. The loop commits the two together: it goes along the iteration of the one behind the
other, so a delimiter without an item is left where it is, and nothing in front of it is lost.

* `Parser.Alternates`: delimiters and items in turn, without a gap.
* `Parser.yields_delimited`: the loop goes along the iteration of a delimiter and an item.
* `Parser.separated_lists`: both lists with delimiters, told by an item and a repetition.
-/

namespace Packrat.Parser

variable {τ ρ : Type}

/-- A delimiter where the item before it stopped, an item where the delimiter stopped, and so on
until the cursor at the end. -/
inductive Alternates (grammar : Grammar τ ρ) (Ready : Cursor τ → Store τ → Prop)
    (delimiter item : Parser τ ρ) : Cursor τ → List (Match τ × Match τ) → Cursor τ → Prop where
  | nil {c} : Alternates grammar Ready delimiter item c [] c
  | cons {c m n rows e} (between : delimiter.Yields grammar Ready c (.ok m))
      (next : item.Yields grammar Ready m.stop (.ok n))
      (rest : Alternates grammar Ready delimiter item n.stop rows e) :
      Alternates grammar Ready delimiter item c ((m, n) :: rows) e

variable {grammar : Grammar τ ρ} {Ready : Cursor τ → Store τ → Prop} {delimiter item : Parser τ ρ}
  {ctx : Context} {c : Cursor τ} {s t : Store τ} {r : Result τ} {f : Failure τ}
  {ms : List (Match τ)}

/-! ## The loop behind the first item -/

section

variable (hd : delimiter.Settled grammar Ready) (hi : item.Settled grammar Ready)
include hd hi

/-- A loop that ends has gone along the iteration to its end. -/
theorem exists_iterates_of_delimited {fuel : Nat} {signals : List (Signal τ)} (hs : Ready c s)
    (h : run grammar fuel ctx (.delimited delimiter item) c s = some (r, t, signals)) :
    ∃ ms f, (keepRight delimiter item).Iterates grammar Ready c ms f ∧
      r = .ok ⟨c.behind ms, .list (ms.map (·.value))⟩ := by
  induction fuel generalizing c s r t signals with
  | zero => cases h
  | succ fuel ih =>
    rw [run_delimited] at h
    obtain ⟨r₁, s₁, _, _, hdelimiter, hk₁, rfl⟩ := Run.of_bind h
    obtain ⟨_, first, -⟩ := runs_of_run hdelimiter
    cases r₁ with
    | error f =>
      cases hk₁
      exact ⟨[], f, .stop hs (.site (.andThenFail first)), rfl⟩
    | ok between =>
      have hbetween := (hd.ready hs first).2 between rfl
      obtain ⟨r₂, s₂, _, _, hitem, hk₂, rfl⟩ := Run.of_bind hk₁
      obtain ⟨_, second, -⟩ := runs_of_run hitem
      cases r₂ with
      | error f =>
        -- the delimiter was read, but the loop ends in front of it
        cases hk₂
        exact ⟨[], f, .stop hs (.site (.andThen first second)), rfl⟩
      | ok n =>
        obtain ⟨r₃, s₃, _, _, hrest, hk₃, rfl⟩ := Run.of_bind hk₂
        obtain ⟨ms, f, rest, rfl⟩ := ih ((hi.ready hbetween second).2 n rfl) hrest
        cases hk₃
        exact ⟨n :: ms, f, .step hs (.site (.andThen first second)) rest, rfl⟩

/-- The loop goes along the iteration, under all settings and from all stores that the parsers may
meet. -/
theorem Iterates.exists_runs_delimited
    (h : (keepRight delimiter item).Iterates grammar Ready c ms f) (ctx : Context)
    (hs : Ready c s) :
    ∃ t hist, Runs grammar ctx (.delimited delimiter item) c s
      (.ok ⟨c.behind ms, .list (ms.map (·.value))⟩) t hist := by
  induction h generalizing s with
  | stop ready fails =>
    rcases (yields_keepRight_error hd.toSteady hi.constant).mp ⟨_, _, _, _, ready, fails⟩ with
      h₁ | ⟨between, h₁, h₂⟩
    · obtain ⟨t, _, d₁⟩ := hd.constant.exists_runs h₁ ctx hs
      exact ⟨t, _, .unrolled rfl (.orElse (.andThenFail d₁) .leaf)⟩
    · obtain ⟨t, _, d₁⟩ := hd.constant.exists_runs h₁ ctx hs
      obtain ⟨u, _, d₂⟩ := hi.constant.exists_runs h₂ ctx ((hd.ready hs d₁).2 _ rfl)
      exact ⟨u, _, .unrolled rfl (.orElse (.andThen d₁ (.andThenFail d₂)) .leaf)⟩
  | step ready first _ ih =>
    obtain ⟨between, h₁, h₂⟩ :=
      (yields_keepRight_ok hd.toSteady hi.constant).mp ⟨_, _, _, _, ready, first⟩
    obtain ⟨t, _, d₁⟩ := hd.constant.exists_runs h₁ ctx hs
    have ht := (hd.ready hs d₁).2 _ rfl
    obtain ⟨u, _, d₂⟩ := hi.constant.exists_runs h₂ ctx ht
    obtain ⟨w, _, d₃⟩ := ih ((hi.ready ht d₂).2 _ rfl)
    exact ⟨w, _, .unrolled rfl (.orElseFirst (.andThen d₁ (.andThen d₂ d₃)))⟩

theorem yields_delimited :
    Constant grammar Ready (.delimited delimiter item) ∧
      ∀ {c r}, Yields grammar Ready (.delimited delimiter item) c r ↔
        ∃ ms f, (keepRight delimiter item).Iterates grammar Ready c ms f ∧
          r = .ok ⟨c.behind ms, .list (ms.map (·.value))⟩ := by
  refine constant_of_iterates ?_ fun iterates ctx _ hs =>
    iterates.exists_runs_delimited hd hi ctx hs
  intro c ctx s r t hist hs d
  obtain ⟨fuel, h⟩ := d.exists_run
  exact exists_iterates_of_delimited hd hi hs h

/-- The matches of the iteration are items, each behind a delimiter. -/
theorem Follows.exists_alternates (h : (keepRight delimiter item).Follows grammar Ready c ms) :
    ∃ rows, Alternates grammar Ready delimiter item c rows (c.behind ms) ∧
      rows.map (·.2) = ms := by
  induction h with
  | nil => exact ⟨[], .nil, rfl⟩
  | @cons c m ms first _ ih =>
    obtain ⟨between, h₁, h₂⟩ := (yields_keepRight_ok hd.toSteady hi.constant).mp first
    obtain ⟨rows, hrows, rfl⟩ := ih
    exact ⟨(between, m) :: rows, .cons h₁ h₂ hrows, rfl⟩

end

/-! ## The lists -/

/-- What the lists with delimiters make at a cursor, told by the results of an item there and of the
repetition of a delimiter and an item behind it. -/
structure Separates (grammar : Grammar τ ρ) [Token τ] (Ready : Cursor τ → Store τ → Prop)
    (delimiter item : Parser τ ρ) (start : Cursor τ) (ctx : Context) (s : Store τ) : Prop where
  /-- A list with at least one item is an item and the repetition. -/
  oneOrMore : ∀ m, (sepBy1 delimiter item).Makes grammar ctx start s (.ok m) ↔
    ∃ first stop vs, item.Yields grammar Ready start (.ok first) ∧
      (many (keepRight delimiter item)).Yields grammar Ready first.stop (.ok ⟨stop, .list vs⟩) ∧
      m = ⟨stop, .list (first.value :: vs)⟩
  /-- It fails where there is no item, for the same reason. -/
  noItem : ∀ e, (sepBy1 delimiter item).Makes grammar ctx start s (.error e) ↔
    ∃ f, item.Yields grammar Ready start (.error f) ∧ e = f.within "separated_list1" ∧
      e.position = f.position ∧ e.message = "separated_list1: " ++ f.message
  /-- A list that may be empty is the same list, or empty where there is no item. -/
  possiblyNone : ∀ r, (sepBy delimiter item).Makes grammar ctx start s r ↔
    (∃ m, (sepBy1 delimiter item).Makes grammar ctx start s (.ok m) ∧ r = .ok m) ∨
      (∃ f, item.Yields grammar Ready start (.error f)) ∧ r = .ok ⟨start, .list []⟩
  /-- The values are those of all items up to where the list stops, each but the first directly
  behind a delimiter. There, no delimiter is followed by an item. -/
  unbroken : ∀ m, (sepBy1 delimiter item).Makes grammar ctx start s (.ok m) →
    ∃ first rows, item.Yields grammar Ready start (.ok first) ∧
      Alternates grammar Ready delimiter item first.stop rows m.stop ∧
      m.value = .list (first.value :: rows.map (·.2.value)) ∧
      ((∃ f, delimiter.Yields grammar Ready m.stop (.error f)) ∨
        ∃ between f, delimiter.Yields grammar Ready m.stop (.ok between) ∧
          item.Yields grammar Ready between.stop (.error f))

section

variable (hd : delimiter.Settled grammar Ready) (hi : item.Settled grammar Ready)
include hd hi

/-- Behind the first item, the loop is the repetition of a delimiter and an item. -/
theorem yields_delimited_iff_many :
    Yields grammar Ready (.delimited delimiter item) c r ↔
      (many (keepRight delimiter item)).Yields grammar Ready c r :=
  (yields_delimited hd hi).2.trans (yields_many (hd.keepRight hi).toSteady).2.symm

/-- An item and the loop behind it. -/
theorem yields_items_ok {m : Match τ} :
    Yields grammar Ready (.andThen item (.delimited delimiter item) .cons) c (.ok m) ↔
      ∃ first stop vs, item.Yields grammar Ready c (.ok first) ∧
        (many (keepRight delimiter item)).Yields grammar Ready first.stop (.ok ⟨stop, .list vs⟩) ∧
        m = ⟨stop, .list (first.value :: vs)⟩ := by
  rw [yields_andThen_ok hi.toSteady (yields_delimited hd hi).1]
  simp only [yields_delimited_iff_many hd hi]
  constructor
  · rintro ⟨first, rest, h₁, h₂, rfl⟩
    obtain ⟨ms, f, -, hrest⟩ := (yields_many (hd.keepRight hi).toSteady).2.mp h₂
    cases hrest
    exact ⟨first, _, _, h₁, h₂, rfl⟩
  · rintro ⟨first, stop, vs, h₁, h₂, rfl⟩
    exact ⟨first, _, h₁, h₂, rfl⟩

theorem not_yields_delimited_error :
    ¬ Yields grammar Ready (.delimited delimiter item) c (.error f) := by
  intro h
  obtain ⟨ms, g, -, hr⟩ := (yields_delimited hd hi).2.mp h
  cases hr

theorem yields_items_error :
    Yields grammar Ready (.andThen item (.delimited delimiter item) .cons) c (.error f) ↔
      item.Yields grammar Ready c (.error f) := by
  rw [yields_andThen_error hi.toSteady (yields_delimited hd hi).1]
  simp only [not_yields_delimited_error hd hi, and_false, exists_false, or_false]

theorem constant_sepBy1 : (sepBy1 delimiter item).Constant grammar Ready :=
  (Constant.andThen (hi.adapt _).toSteady (yields_delimited hd hi).1).site _ _

theorem yields_sepBy1_ok {m : Match τ} :
    (sepBy1 delimiter item).Yields grammar Ready c (.ok m) ↔
      Yields grammar Ready (.andThen item (.delimited delimiter item) .cons) c (.ok m) := by
  rw [sepBy1, builtIn, yields_site,
    yields_andThen_ok (hi.adapt _).toSteady (yields_delimited hd hi).1,
    yields_andThen_ok hi.toSteady (yields_delimited hd hi).1]
  simp only [yields_within_ok]

theorem yields_sepBy1_error :
    (sepBy1 delimiter item).Yields grammar Ready c (.error f) ↔
      ∃ g, item.Yields grammar Ready c (.error g) ∧ f = g.within "separated_list1" := by
  rw [sepBy1, builtIn, yields_site,
    yields_andThen_error (hi.adapt _).toSteady (yields_delimited hd hi).1]
  simp only [not_yields_delimited_error hd hi, and_false, exists_false, or_false,
    yields_within_error]

theorem constant_sepBy : (sepBy delimiter item).Constant grammar Ready :=
  ((Constant.andThen hi.toSteady (yields_delimited hd hi).1).orElse_leaf _).site _ _

theorem yields_sepBy : (sepBy delimiter item).Yields grammar Ready c r ↔
    (∃ m, (sepBy1 delimiter item).Yields grammar Ready c (.ok m) ∧ r = .ok m) ∨
      (∃ f, item.Yields grammar Ready c (.error f)) ∧ r = .ok ⟨c, .list []⟩ := by
  rw [sepBy, builtIn, yields_site, nothing, yields_orElse_leaf]
  simp only [yields_sepBy1_ok hd hi, yields_items_error hd hi, Leaf.run]

/-- A delimiter and an item whose results depend on the cursor alone: a list with delimiters is an
item and the repetition of a delimiter and an item, under all settings and from all stores that the
two may meet. -/
theorem separated_lists [Token τ] {start : Cursor τ} (hs : Ready start s) :
    Separates grammar Ready delimiter item start ctx s where
  oneOrMore := by
    intro m
    rw [(constant_sepBy1 hd hi).makes_iff hs, yields_sepBy1_ok hd hi, yields_items_ok hd hi]
  noItem := by
    intro e
    rw [(constant_sepBy1 hd hi).makes_iff hs, yields_sepBy1_error hd hi]
    refine exists_congr fun f => and_congr_right fun _ => ⟨?_, And.left⟩
    rintro rfl
    exact ⟨rfl, rfl, rfl⟩
  possiblyNone := by
    intro r
    simp only [(constant_sepBy hd hi).makes_iff hs, (constant_sepBy1 hd hi).makes_iff hs,
      yields_sepBy hd hi]
  unbroken := by
    intro m h
    rw [(constant_sepBy1 hd hi).makes_iff hs, yields_sepBy1_ok hd hi, yields_items_ok hd hi] at h
    obtain ⟨first, stop, vs, h₁, h₂, rfl⟩ := h
    obtain ⟨ms, f, iterates, hrest⟩ := (yields_many (hd.keepRight hi).toSteady).2.mp h₂
    obtain ⟨follows, fails⟩ := iterates_iff.mp iterates
    obtain ⟨rows, alternates, rfl⟩ := follows.exists_alternates hd hi
    cases hrest
    refine ⟨first, rows, h₁, alternates, by simp, ?_⟩
    rcases (yields_keepRight_error hd.toSteady hi.constant).mp fails with h | ⟨between, h, h'⟩
    · exact .inl ⟨f, h⟩
    · exact .inr ⟨between, f, h, h'⟩

end

/-- Two letters with a comma between them, in front of a comma and another letter. -/
theorem separated_lists_of_letters :
    let table : Memo := ⟨0, "letter"⟩
    let grammar : Grammar Char Empty := Empty.elim
    let item : Parser Char Empty := .memo table (.exactly 'a')
    let start : Cursor Char := .ofBuffer (.ofArray 0 #['a', ',', 'a', ',', 'b'])
    ∃ m Ready, (sepBy1 (.exactly ',') item).Makes grammar .plain start ∅ (.ok m) ∧
      m.stop.offset = 3 ∧ m.value.items.length = 2 ∧
      ∃ first stop vs, item.Yields grammar Ready start (.ok first) ∧
        (many (keepRight (.exactly ',') item)).Yields grammar Ready first.stop
          (.ok ⟨stop, .list vs⟩) ∧
        m = ⟨stop, .list (first.value :: vs)⟩ := by
  intro table grammar item start
  let body : Memo → Option (Parser Char Empty) := fun memo =>
    if memo = table then some (.exactly 'a') else none
  let sources : Nat → Array Char := fun _ => #['a', ',', 'a', ',', 'b']
  let Ready : Cursor Char → Store Char → Prop := fun c s =>
    c.buffer.CutFrom sources ∧ s.Faithful grammar body sources
  have hd : (exactly ',' : Parser Char Empty).Settled grammar Ready :=
    settled_of_uniform (fun name => name.elim) trivial
  have hi : item.Settled grammar Ready :=
    settled_of_uniform (fun name => name.elim) ⟨rfl, trivial⟩
  have hs : Ready start ∅ := ⟨.ofArray 0, Store.allAnswers_of_fresh fun _ _ => rfl⟩
  have returns : ((sepBy1 (exactly ',') item).run grammar 20 .plain start ∅).map
      (fun x => x.1.toOption.map fun m => (m.stop.offset, m.value.items.length)) =
        some (some (3, 2)) := by
    decide +kernel
  obtain ⟨m, made, hm⟩ := exists_makes_of_run returns
  obtain ⟨hoffset, hlength⟩ := Prod.mk.inj hm
  exact ⟨m, Ready, made, hoffset, hlength, ((separated_lists hd hi hs).oneOrMore m).mp made⟩

end Packrat.Parser
