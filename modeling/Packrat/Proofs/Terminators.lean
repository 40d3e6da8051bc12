import Mathlib.Order.Bounds.Basic
import Packrat.Proofs.Steadiness

/-!
# The first terminator

A repetition with a terminator tries the terminator first at each place, so it takes matches of the
body as long as the terminator fails in front of them. Where it ends, either the terminator is
found, and there was none behind fewer matches, or the body fails as well.

* `Parser.Ends`: what the loop makes where it ends.
* `Parser.yields_till`: the loop runs the body as long as the terminator fails.
* `Parser.terminated`: the numbers of matches of the body with a terminator behind them.
* `Parser.first_terminator_found`: the loop ends behind the least of them.
-/

namespace Packrat.Parser

variable {τ ρ : Type}

/-- What the loop makes where it ends: the match of the terminator, or the failure of the body where
the terminator fails too. -/
inductive Ends (grammar : Grammar τ ρ) (Ready : Cursor τ → Store τ → Prop)
    (body stop : Parser τ ρ) : Cursor τ → Result τ → Prop where
  | found {c u} (terminates : stop.Yields grammar Ready c (.ok u)) :
      Ends grammar Ready body stop c (.ok u)
  | stuck {c f g} (missing : stop.Yields grammar Ready c (.error g))
      (fails : body.Yields grammar Ready c (.error f)) : Ends grammar Ready body stop c (.error f)

/-- The values of matches beside the value of the terminator behind them. -/
def besideAll (ms : List (Match τ)) (r : Result τ) : Result τ :=
  r.map fun u => ⟨u.stop, .pair (.list (ms.map (·.value))) u.value⟩

/-- The numbers of successive matches of the body behind which the terminator matches. -/
def terminated (grammar : Grammar τ ρ) (Ready : Cursor τ → Store τ → Prop) (body stop : Parser τ ρ)
    (c : Cursor τ) : Set Nat :=
  {n | ∃ ms u, ms.length = n ∧ body.Follows grammar Ready c ms ∧
    stop.Yields grammar Ready (c.behind ms) (.ok u)}

variable {grammar : Grammar τ ρ} {Ready : Cursor τ → Store τ → Prop}
  {p q body stop : Parser τ ρ} {ctx : Context} {c start : Cursor τ} {s t : Store τ} {r : Result τ}
  {m u : Match τ} {f : Failure τ} {ms ns : List (Match τ)}

/-! ## Matches one after another -/

theorem Follows.imp (h : q.Follows grammar Ready c ms)
    (himp : ∀ {c m}, q.Yields grammar Ready c (.ok m) → p.Yields grammar Ready c (.ok m)) :
    p.Follows grammar Ready c ms := by
  induction h with
  | nil => exact .nil
  | cons first _ ih => exact .cons (himp first) ih

/-- Behind the first of the matches comes the next one. -/
theorem Follows.yields_next {rest : List (Match τ)}
    (h : p.Follows grammar Ready c (ms ++ m :: rest)) :
    p.Yields grammar Ready (c.behind ms) (.ok m) := by
  induction ms generalizing c with
  | nil =>
    cases h with
    | cons first _ => exact first
  | cons n ms ih =>
    cases h with
    | cons _ rest => exact ih rest

/-- Of two sequences of matches from one cursor, the shorter one begins the longer one. -/
theorem Follows.isPrefix (hp : p.Constant grammar Ready) (h : p.Follows grammar Ready c ms)
    (h' : p.Follows grammar Ready c ns) (hle : ms.length ≤ ns.length) : ms <+: ns := by
  induction h generalizing ns with
  | nil => exact List.nil_prefix
  | cons first _ ih =>
    cases h' with
    | nil => exact absurd hle (Nat.not_succ_le_zero _)
    | cons first' rest' =>
      cases hp.unique first first'
      exact List.cons_prefix_cons.mpr ⟨rfl, ih rest' (Nat.le_of_succ_le_succ hle)⟩

/-- Where the parser fails, its matches are over. -/
theorem Follows.isPrefix_of_fails (hp : p.Constant grammar Ready)
    (h : p.Follows grammar Ready c ms) (fails : p.Yields grammar Ready (c.behind ms) (.error f))
    (h' : p.Follows grammar Ready c ns) : ns <+: ms := by
  refine h'.isPrefix hp h (Nat.le_of_not_lt fun longer => ?_)
  obtain ⟨rest, rfl⟩ := h.isPrefix hp h' (Nat.le_of_lt longer)
  cases rest with
  | nil => simp at longer
  | cons m rest => cases hp.unique fails h'.yields_next

/-! ## The body where the terminator fails -/

section

variable (hstop : stop.Settled grammar Ready) (hbody : body.Settled grammar Ready)
include hstop hbody

theorem yields_unlessStop_ok :
    (keepRight (notFollowedBy stop) body).Yields grammar Ready c (.ok m) ↔
      (∃ g, stop.Yields grammar Ready c (.error g)) ∧ body.Yields grammar Ready c (.ok m) := by
  rw [yields_keepRight_ok hstop.notFollowedBy.toSteady hbody.constant]
  simp only [yields_notFollowedBy_ok]
  constructor
  · rintro ⟨_, ⟨missing, rfl⟩, h⟩
    exact ⟨missing, h⟩
  · rintro ⟨missing, h⟩
    exact ⟨_, ⟨missing, rfl⟩, h⟩

theorem exists_yields_unlessStop_error (found : stop.Yields grammar Ready c (.ok u)) :
    ∃ g, (keepRight (notFollowedBy stop) body).Yields grammar Ready c (.error g) :=
  ⟨_, (yields_keepRight_error hstop.notFollowedBy.toSteady hbody.constant).mpr
    (.inl (yields_notFollowedBy_error.mpr ⟨⟨u, found⟩, rfl⟩))⟩

end

/-! ## The loop -/

theorem besideAll_cons (m : Match τ) (ms : List (Match τ)) (r : Result τ) :
    besideAll (m :: ms) r =
      (besideAll ms r).map fun rest => ⟨rest.stop, m.value.consLeft rest.value⟩ := by
  cases r <;> rfl

section

variable (hbody : body.Settled grammar Ready) (hstop : stop.Settled grammar Ready)
include hbody hstop

/-- A loop that ends has run the body as long as the terminator failed. -/
theorem exists_of_till {fuel : Nat} {signals : List (Signal τ)} (hs : Ready c s)
    (h : run grammar fuel ctx (.till body stop) c s = some (r, t, signals)) :
    ∃ ms r', (keepRight (notFollowedBy stop) body).Follows grammar Ready c ms ∧
      Ends grammar Ready body stop (c.behind ms) r' ∧ r = besideAll ms r' := by
  induction fuel generalizing c s r t signals with
  | zero => cases h
  | succ fuel ih =>
    rw [run_till] at h
    obtain ⟨r₁, s₁, _, _, hfirst, hk₁, rfl⟩ := Run.of_bind h
    obtain ⟨_, first, -⟩ := runs_of_run hfirst
    cases r₁ with
    | ok u =>
      cases hk₁
      exact ⟨[], .ok u, .nil, .found ⟨_, _, _, _, hs, first⟩, rfl⟩
    | error g =>
      have missing : stop.Yields grammar Ready c (.error g) := ⟨_, _, _, _, hs, first⟩
      have hs₁ := (hstop.ready hs first).1
      obtain ⟨r₂, s₂, _, _, hsecond, hk₂, rfl⟩ := Run.of_bind hk₁
      obtain ⟨_, second, -⟩ := runs_of_run hsecond
      cases r₂ with
      | error f =>
        cases hk₂
        exact ⟨[], .error f, .nil, .stuck missing ⟨_, _, _, _, hs₁, second⟩, rfl⟩
      | ok m =>
        obtain ⟨r₃, s₃, _, _, hrest, hk₃, rfl⟩ := Run.of_bind hk₂
        obtain ⟨ms, r', follows, ends, rfl⟩ := ih ((hbody.ready hs₁ second).2 m rfl) hrest
        cases hk₃
        refine ⟨m :: ms, r', .cons ?_ follows, ends, (besideAll_cons m ms r').symm⟩
        exact (yields_unlessStop_ok hstop hbody).mpr ⟨⟨g, missing⟩, _, _, _, _, hs₁, second⟩

/-- The loop goes along the body to its end, under all settings and from all stores that the parsers
may meet. -/
theorem exists_runs_till {r' : Result τ}
    (follows : (keepRight (notFollowedBy stop) body).Follows grammar Ready c ms)
    (ends : Ends grammar Ready body stop (c.behind ms) r') (ctx : Context) (hs : Ready c s) :
    ∃ t hist, Runs grammar ctx (.till body stop) c s (besideAll ms r') t hist := by
  induction follows generalizing s with
  | nil =>
    cases ends with
    | found found =>
      obtain ⟨t, _, d⟩ := hstop.constant.exists_runs found ctx hs
      exact ⟨t, _, .unrolled rfl (.orElseFirst (.adapt d))⟩
    | stuck missing fails =>
      obtain ⟨t, _, d₁⟩ := hstop.constant.exists_runs missing ctx hs
      obtain ⟨u, _, d₂⟩ := hbody.constant.exists_runs fails ctx (hstop.ready hs d₁).1
      exact ⟨u, _, .unrolled rfl (.orElse (.adapt d₁) (.andThenFail d₂))⟩
  | cons first _ ih =>
    obtain ⟨⟨g, missing⟩, second⟩ := (yields_unlessStop_ok hstop hbody).mp first
    obtain ⟨t, _, d₁⟩ := hstop.constant.exists_runs missing ctx hs
    have ht := (hstop.ready hs d₁).1
    obtain ⟨u, _, d₂⟩ := hbody.constant.exists_runs second ctx ht
    obtain ⟨w, _, d₃⟩ := ih ends ((hbody.ready ht d₂).2 _ rfl)
    rw [besideAll_cons]
    exact ⟨w, _, .unrolled rfl (.orElse (.adapt d₁) (.andThen d₂ d₃))⟩

/-- The loop runs the body as long as the terminator fails. -/
theorem yields_till : Constant grammar Ready (.till body stop) ∧
    ∀ {c r}, Yields grammar Ready (.till body stop) c r ↔
      ∃ ms r', (keepRight (notFollowedBy stop) body).Follows grammar Ready c ms ∧
        Ends grammar Ready body stop (c.behind ms) r' ∧ r = besideAll ms r' := by
  refine constant_of_told ?_ ?_ ?_
  · intro c ctx s r t hist hs d
    obtain ⟨fuel, h⟩ := d.exists_run
    exact exists_of_till hbody hstop hs h
  · rintro c r ⟨ms, r', follows, ends, -⟩
    cases follows with
    | cons first _ => exact first.exists_ready
    | nil =>
      cases ends with
      | found found | stuck found _ => exact found.exists_ready
  · rintro c r ⟨ms, r', follows, ends, rfl⟩ ctx s hs
    exact exists_runs_till hbody hstop follows ends ctx hs

theorem yields_till_ok : Yields grammar Ready (.till body stop) c (.ok m) ↔
    ∃ ms u, (keepRight (notFollowedBy stop) body).Follows grammar Ready c ms ∧
      stop.Yields grammar Ready (c.behind ms) (.ok u) ∧
      m = ⟨u.stop, .pair (.list (ms.map (·.value))) u.value⟩ := by
  rw [(yields_till hbody hstop).2]
  constructor
  · rintro ⟨ms, r', follows, ends, hr⟩
    cases ends with
    | found found =>
      cases hr
      exact ⟨ms, _, follows, found, rfl⟩
    | stuck _ _ => cases hr
  · rintro ⟨ms, u, follows, found, rfl⟩
    exact ⟨ms, _, follows, .found found, rfl⟩

theorem yields_till_error : Yields grammar Ready (.till body stop) c (.error f) ↔
    ∃ ms g, (keepRight (notFollowedBy stop) body).Follows grammar Ready c ms ∧
      stop.Yields grammar Ready (c.behind ms) (.error g) ∧
      body.Yields grammar Ready (c.behind ms) (.error f) := by
  rw [(yields_till hbody hstop).2]
  constructor
  · rintro ⟨ms, r', follows, ends, hr⟩
    cases ends with
    | found _ => cases hr
    | stuck missing fails =>
      cases hr
      exact ⟨ms, _, follows, missing, fails⟩
  · rintro ⟨ms, g, follows, missing, fails⟩
    exact ⟨ms, _, follows, .stuck missing fails, rfl⟩

/-- The same as a pair of two parsers. -/
theorem yields_till_ok_iff_both : Yields grammar Ready (.till body stop) c (.ok m) ↔
    (both (many (keepRight (notFollowedBy stop) body)) stop).Yields grammar Ready c (.ok m) := by
  have hq := hstop.notFollowedBy.keepRight hbody
  rw [yields_till_ok hbody hstop, both, builtIn, yields_site,
    yields_andThen_ok hq.many hstop.constant]
  simp only [(yields_many hq.toSteady).2, iterates_iff]
  constructor
  · rintro ⟨ms, u, follows, found, rfl⟩
    obtain ⟨g, fails⟩ := exists_yields_unlessStop_error hstop hbody found
    exact ⟨_, u, ⟨ms, g, ⟨follows, fails⟩, rfl⟩, found, rfl⟩
  · rintro ⟨_, u, ⟨ms, g, ⟨follows, -⟩, hr⟩, found, rfl⟩
    cases hr
    exact ⟨ms, u, follows, found, rfl⟩

/-! ## The least number of matches -/

theorem follows_body (h : (keepRight (notFollowedBy stop) body).Follows grammar Ready c ms) :
    body.Follows grammar Ready c ms :=
  h.imp fun yields => ((yields_unlessStop_ok hstop hbody).mp yields).2

/-- Behind a terminator the loop takes no further match. -/
theorem eq_nil_of_found
    (follows : (keepRight (notFollowedBy stop) body).Follows grammar Ready c (ms ++ ns))
    (found : stop.Yields grammar Ready (c.behind ms) (.ok u)) : ns = [] := by
  cases ns with
  | nil => rfl
  | cons m rest =>
    obtain ⟨⟨g, missing⟩, -⟩ := (yields_unlessStop_ok hstop hbody).mp follows.yields_next
    cases hstop.constant.unique found missing

/-- There is no terminator behind fewer matches than the loop takes. -/
theorem isLeast_terminated
    (follows : (keepRight (notFollowedBy stop) body).Follows grammar Ready c ms)
    (found : stop.Yields grammar Ready (c.behind ms) (.ok u)) :
    IsLeast (terminated grammar Ready body stop c) ms.length := by
  have all := follows_body hbody hstop follows
  refine ⟨⟨ms, u, rfl, all, found⟩, ?_⟩
  rintro n ⟨ns, u', rfl, some, found'⟩
  refine Nat.le_of_not_lt fun fewer => ?_
  obtain ⟨rest, rfl⟩ := some.isPrefix hbody.constant all (Nat.le_of_lt fewer)
  obtain rfl := eq_nil_of_found hbody hstop follows found'
  simp at fewer

/-- There is no terminator at all if the body fails first. -/
theorem terminated_eq_empty {g : Failure τ}
    (follows : (keepRight (notFollowedBy stop) body).Follows grammar Ready c ms)
    (missing : stop.Yields grammar Ready (c.behind ms) (.error g))
    (fails : body.Yields grammar Ready (c.behind ms) (.error f)) :
    terminated grammar Ready body stop c = ∅ := by
  have all := follows_body hbody hstop follows
  refine Set.eq_empty_of_forall_notMem ?_
  rintro n ⟨ns, u, rfl, some, found⟩
  obtain ⟨rest, rfl⟩ := all.isPrefix_of_fails hbody.constant fails some
  obtain rfl := eq_nil_of_found hbody hstop follows found
  rw [List.append_nil] at missing
  cases hstop.constant.unique found missing

/-- If the loop ends, then behind the first terminator that there is. -/
theorem yields_till_ok_iff_isLeast (ends : Yields grammar Ready (.till body stop) c r)
    {e : Cursor τ} {vs : List (Value τ)} {v : Value τ} :
    Yields grammar Ready (.till body stop) c (.ok ⟨e, .pair (.list vs) v⟩) ↔
      IsLeast (terminated grammar Ready body stop c) vs.length ∧
        ∃ ms, body.Follows grammar Ready c ms ∧ ms.map (·.value) = vs ∧
          stop.Yields grammar Ready (c.behind ms) (.ok ⟨e, v⟩) := by
  constructor
  · intro h
    obtain ⟨ms, u, follows, found, hm⟩ := (yields_till_ok hbody hstop).mp h
    cases hm
    have least := isLeast_terminated hbody hstop follows found
    rw [List.length_map]
    exact ⟨least, ms, follows_body hbody hstop follows, rfl, found⟩
  · rintro ⟨least, ms, all, rfl, found⟩
    rw [List.length_map] at least
    cases r with
    | ok m =>
      obtain ⟨ns, u, follows, found', rfl⟩ := (yields_till_ok hbody hstop).mp ends
      -- both numbers of matches are the least one
      have same := least.unique (isLeast_terminated hbody hstop follows found')
      obtain rfl := (all.isPrefix hbody.constant (follows_body hbody hstop follows)
        same.le).eq_of_length same
      cases hstop.constant.unique found found'
      exact ends
    | error f =>
      obtain ⟨ns, g, follows, missing, fails⟩ := (yields_till_error hbody hstop).mp ends
      have none := terminated_eq_empty hbody hstop follows missing fails
      rw [none] at least
      exact least.1.elim

/-- If the loop ends and there is no terminator, then where both parsers fail. -/
theorem yields_till_error_iff_empty (ends : Yields grammar Ready (.till body stop) c r) :
    Yields grammar Ready (.till body stop) c (.error f) ↔
      terminated grammar Ready body stop c = ∅ ∧
        ∃ ms g, body.Follows grammar Ready c ms ∧
          stop.Yields grammar Ready (c.behind ms) (.error g) ∧
          body.Yields grammar Ready (c.behind ms) (.error f) := by
  constructor
  · intro h
    obtain ⟨ms, g, follows, missing, fails⟩ := (yields_till_error hbody hstop).mp h
    exact ⟨terminated_eq_empty hbody hstop follows missing fails, ms, g,
      follows_body hbody hstop follows, missing, fails⟩
  · rintro ⟨none, ms, g, all, missing, fails⟩
    cases r with
    | ok m =>
      obtain ⟨ns, u, follows, found, rfl⟩ := (yields_till_ok hbody hstop).mp ends
      have least := isLeast_terminated hbody hstop follows found
      rw [none] at least
      exact least.1.elim
    | error f' =>
      obtain ⟨ns, g', follows, missing', fails'⟩ := (yields_till_error hbody hstop).mp ends
      -- the body has no matches behind a failure, so the two failures are at one place
      have all' := follows_body hbody hstop follows
      obtain rfl := (all.isPrefix_of_fails hbody.constant fails all').eq_of_length_le
        (all'.isPrefix_of_fails hbody.constant fails' all).length_le
      cases hbody.constant.unique fails fails'
      exact ends

end

/-! ## The repetition -/

/-- What a repetition with a terminator makes at a cursor, told by the results of its parts. -/
structure FindsFirst (grammar : Grammar τ ρ) (Ready : Cursor τ → Store τ → Prop)
    (body stop : Parser τ ρ) (start : Cursor τ) (ctx : Context) (s : Store τ) : Prop where
  /-- It matches with as many values as there are matches of the body in front of the first
  terminator, and stops where that stops. -/
  least : ∀ e vs v,
    (manyTill body stop).Makes grammar ctx start s (.ok ⟨e, .pair (.list vs) v⟩) ↔
      IsLeast (terminated grammar Ready body stop start) vs.length ∧
        ∃ ms, body.Follows grammar Ready start ms ∧ ms.map (·.value) = vs ∧
          stop.Yields grammar Ready (start.behind ms) (.ok ⟨e, v⟩)
  /-- A match has no other value. -/
  paired : ∀ m, (manyTill body stop).Makes grammar ctx start s (.ok m) →
    ∃ vs v, m.value = .pair (.list vs) v
  /-- It matches like a repetition of the body where the terminator fails, with the terminator
  behind it. -/
  asPair : ∀ m, (manyTill body stop).Makes grammar ctx start s (.ok m) ↔
    (both (many (keepRight (notFollowedBy stop) body)) stop).Makes grammar ctx start s (.ok m)
  /-- It fails where no terminator comes before a cursor at which both fail, and like the body
  there. -/
  failure : ∀ f, (manyTill body stop).Makes grammar ctx start s (.error f) ↔
    terminated grammar Ready body stop start = ∅ ∧
      ∃ ms g, body.Follows grammar Ready start ms ∧
        stop.Yields grammar Ready (start.behind ms) (.error g) ∧
        body.Yields grammar Ready (start.behind ms) (.error f)

section

variable (hbody : body.Settled grammar Ready) (hstop : stop.Settled grammar Ready)
  (hs : Ready start s)
include hbody hstop hs

theorem makes_manyTill : (manyTill body stop).Makes grammar ctx start s r ↔
    Yields grammar Ready (.till body stop) start r :=
  (((yields_till hbody hstop).1.site _ _).makes_iff hs).trans yields_site

/-- A body and a terminator whose results depend on the cursor alone: a repetition that ends finds
the first terminator, under all settings and from all stores that the two may meet. -/
theorem first_terminator_found (ends : (manyTill body stop).Terminates grammar ctx start s) :
    FindsFirst grammar Ready body stop start ctx s := by
  obtain ⟨r, made⟩ := terminates_iff.mp ends
  rw [makes_manyTill hbody hstop hs] at made
  constructor
  case least =>
    intro e vs v
    rw [makes_manyTill hbody hstop hs, yields_till_ok_iff_isLeast hbody hstop made]
  case paired =>
    intro m hm
    rw [makes_manyTill hbody hstop hs, yields_till_ok hbody hstop] at hm
    obtain ⟨ms, u, -, -, rfl⟩ := hm
    exact ⟨_, _, rfl⟩
  case asPair =>
    intro m
    have pair : (both (many (keepRight (notFollowedBy stop) body)) stop).Constant grammar Ready :=
      (Constant.andThen (hstop.notFollowedBy.keepRight hbody).many hstop.constant).site _ _
    rw [makes_manyTill hbody hstop hs, yields_till_ok_iff_both hbody hstop, pair.makes_iff hs]
  case failure =>
    intro f
    rw [makes_manyTill hbody hstop hs, yields_till_error_iff_empty hbody hstop made]

end

/-- Two memoized letters in front of a semicolon, behind which comes another letter and another
semicolon. -/
theorem first_terminator_found_of_letters :
    let table : Memo := ⟨0, "letter"⟩
    let grammar : Grammar Char Empty := Empty.elim
    let body : Parser Char Empty := .memo table (.exactly 'a')
    let stop : Parser Char Empty := .exactly ';'
    let start : Cursor Char := .ofBuffer (.ofArray 0 #['a', 'a', ';', 'a', ';'])
    ∃ m Ready, (manyTill body stop).Makes grammar .plain start ∅ (.ok m) ∧
      m.stop.offset = 3 ∧ m.value.left.items.length = 2 ∧
      IsLeast (terminated grammar Ready body stop start) 2 ∧
      (both (many (keepRight (notFollowedBy stop) body)) stop).Makes grammar .plain start ∅
        (.ok m) := by
  intro table grammar body stop start
  let wrapped : Memo → Option (Parser Char Empty) := fun memo =>
    if memo = table then some (.exactly 'a') else none
  let sources : Nat → Array Char := fun _ => #['a', 'a', ';', 'a', ';']
  let Ready : Cursor Char → Store Char → Prop := fun c s =>
    c.buffer.CutFrom sources ∧ s.Faithful grammar wrapped sources
  have hbody : body.Settled grammar Ready :=
    settled_of_uniform (fun name => name.elim) ⟨rfl, trivial⟩
  have hstop : stop.Settled grammar Ready := settled_of_uniform (fun name => name.elim) trivial
  have hs : Ready start ∅ := ⟨.ofArray 0, Store.allAnswers_of_fresh fun _ _ => rfl⟩
  have returns : ((manyTill body stop).run grammar 20 .plain start ∅).map
      (fun x => x.1.toOption.map fun m => (m.stop.offset, m.value.left.items.length)) =
        some (some (3, 2)) := by
    decide +kernel
  obtain ⟨m, made, hm⟩ := exists_makes_of_run returns
  obtain ⟨hoffset, hlength⟩ := Prod.mk.inj hm
  have first := first_terminator_found hbody hstop hs (terminates_iff.mpr ⟨_, made⟩)
  obtain ⟨vs, v, hv⟩ := first.paired m made
  obtain ⟨e, value⟩ := m
  obtain rfl : value = .pair (.list vs) v := hv
  have two : vs.length = 2 := hlength
  exact ⟨_, Ready, made, hoffset, hlength, two ▸ ((first.least e vs v).mp made).1,
    (first.asPair _).mp made⟩

end Packrat.Parser
