import Packrat.Combinator.Repetition
import Packrat.Combinator.Tokens
import Packrat.Proofs.Execution
import Packrat.Session

/-!
# Observers change nothing

Nothing that a run computes depends on who listens: neither on the tracer, the switch or the scope
of its context, nor on the tracers of the session or the limit of its log. Two runs that start from
tables and slots with equal contents give one outcome and leave tables and slots with equal contents.

* `Store.Alike`: stores with equal tables and slots.
* `Parser.Runs.of_alike`: an execution goes the same way in another context and from an alike store.
* `Session.outcome_independent_of_observers`: the same for two sessions.
-/

namespace Packrat

variable {τ ρ : Type}

/-! ## Stores with equal contents -/

/-- The tables and the slots of two stores are equal. Their counters, which no parser reads, may
differ. -/
structure Store.Alike (s s' : Store τ) : Prop where
  tables : ∀ memo, s.table memo = s'.table memo
  slots : ∀ name, s.slot? name = s'.slot? name

namespace Store

variable {s s' : Store τ}

theorem Alike.refl (s : Store τ) : s.Alike s := ⟨fun _ => rfl, fun _ => rfl⟩

theorem Alike.setSlot (h : s.Alike s') (name : String) (v : Value τ) :
    (s.setSlot name v).Alike (s'.setSlot name v) where
  tables := h.tables
  slots name' := by simp only [slot?_setSlot, h.slots]

theorem Alike.raise (h : s.Alike s') (counter counter' : String) :
    (s.raise counter).Alike (s'.raise counter') where
  tables := h.tables
  slots := h.slots

theorem Alike.opened (h : s.Alike s') (memo : Memo) : (s.opened memo).Alike (s'.opened memo) where
  tables memo' := by simp only [table_opened, h.tables]
  slots name := by
    have hs : ∀ s : Store τ, (s.opened memo).slot? name = s.slot? name := by
      intro s
      unfold Store.opened openTable
      split <;> rfl
    rw [hs, hs, h.slots]

theorem Alike.hit (h : s.Alike s') (memo : Memo) : (s.hit memo).Alike (s'.hit memo) where
  tables memo' := by simp only [table_hit, h.tables]
  slots := h.slots

theorem Alike.entered (h : s.Alike s') (memo : Memo) (place : Place) (answer : Result τ) :
    (s.entered memo place answer).Alike (s'.entered memo place answer) where
  tables memo' := by simp only [table_entered, h.tables]
  slots := h.slots

end Store

/-! ## Two executions -/

/-- The context decides what is heard, and nothing else. -/
theorem Parser.Runs.of_alike {grammar : Grammar τ ρ} {ctx : Context} {p : Parser τ ρ}
    {c : Cursor τ} {s t : Store τ} {r : Result τ} {hist : History τ}
    (h : Runs grammar ctx p c s r t hist) (ctx' : Context) {s' : Store τ} (hs : s.Alike s') :
    ∃ t' hist', Runs grammar ctx' p c s' r t' hist' ∧ t.Alike t' := by
  induction h generalizing ctx' s' with
  | leaf => exact ⟨s', _, .leaf, hs⟩
  | adapt _ ih =>
    obtain ⟨t', _, d, ht⟩ := ih ctx' hs
    exact ⟨t', _, .adapt d, ht⟩
  | andThenFail _ ih =>
    obtain ⟨t', _, d, ht⟩ := ih ctx' hs
    exact ⟨t', _, .andThenFail d, ht⟩
  | andThen _ _ ih₁ ih₂ =>
    obtain ⟨t', _, d₁, ht⟩ := ih₁ ctx' hs
    obtain ⟨u', _, d₂, hu⟩ := ih₂ ctx' ht
    exact ⟨u', _, .andThen d₁ d₂, hu⟩
  | orElseFirst _ ih =>
    obtain ⟨t', _, d, ht⟩ := ih ctx' hs
    exact ⟨t', _, .orElseFirst d, ht⟩
  | orElse _ _ ih₁ ih₂ =>
    obtain ⟨t', _, d₁, ht⟩ := ih₁ ctx' hs
    obtain ⟨u', _, d₂, hu⟩ := ih₂ ctx' ht
    exact ⟨u', _, .orElse d₁ d₂, hu⟩
  | unrolled hq _ ih =>
    obtain ⟨t', _, d, ht⟩ := ih ctx' hs
    exact ⟨t', _, .unrolled hq d, ht⟩
  | assignFail _ ih =>
    obtain ⟨t', _, d, ht⟩ := ih ctx' hs
    exact ⟨t', _, .assignFail d, ht⟩
  | assign _ ih =>
    obtain ⟨t', _, d, ht⟩ := ih ctx' hs
    exact ⟨_, _, .assign d, ht.setSlot _ _⟩
  | memoAtEnd hc _ ih =>
    obtain ⟨t', _, d, ht⟩ := ih ctx' hs
    exact ⟨t', _, .memoAtEnd hc d, ht⟩
  | memoHit hc found =>
    rw [hs.tables] at found
    exact ⟨_, _, .memoHit hc found, (hs.opened _).hit _⟩
  | memoMiss hc missing _ ih =>
    rw [hs.tables] at missing
    obtain ⟨t', _, d, ht⟩ := ih ctx' (hs.opened _)
    exact ⟨_, _, .memoMiss hc missing d, ht.entered _ _ _⟩
  | tally _ ih =>
    obtain ⟨t', _, d, ht⟩ := ih ctx' (hs.raise _ _)
    exact ⟨t', _, .tally d, ht⟩
  | site _ ih =>
    obtain ⟨t', _, d, ht⟩ := ih ctx' hs
    exact ⟨t', _, .site d, ht⟩
  | scope _ ih =>
    obtain ⟨t', _, d, ht⟩ := ih (ctx'.inScope _) hs
    exact ⟨t', _, .scope d, ht⟩

/-! ## Two sessions -/

namespace Session

variable [Token τ]

/-- Whoever listens in the two sessions, and whatever their contexts say: if one run has an outcome,
so has the other, the outcomes are equal, and so are the tables and slots that are left. -/
theorem outcome_independent_of_observers {grammar : Grammar τ ρ} {p : Parser τ ρ}
    {start : Cursor τ} {ctx ctx' : Context} {s s' t : Session τ} (hs : s.store.Alike s'.store)
    {fuel : Nat} {out : Outcome τ} {records : List Record}
    (h : s.run grammar fuel ctx p start = some (out, t, records)) :
    (∃ fuel', (s'.run grammar fuel' ctx' p start).isSome) ∧
      ∀ fuel' out' t' records', s'.run grammar fuel' ctx' p start = some (out', t', records') →
        out' = out ∧ t.store.Alike t'.store := by
  obtain ⟨r, _, hr, rfl, -⟩ := of_run h
  obtain ⟨_, d, -⟩ := Parser.runs_of_run hr
  obtain ⟨store', _, d', hstore⟩ := d.of_alike ctx' hs
  constructor
  · obtain ⟨fuel', hr'⟩ := d'.exists_run
    exact ⟨fuel', by simp [run, hr']⟩
  · intro fuel' out' t' records' h'
    obtain ⟨r', _, hr', rfl, -⟩ := of_run h'
    obtain ⟨_, d'', -⟩ := Parser.runs_of_run hr'
    obtain ⟨rfl, rfl, -⟩ := d'.unique d''
    exact ⟨rfl, hstore⟩

/-- A transcript that listens, against nobody. -/
theorem outcome_independent_of_observers_of_choice :
    let p : Parser Char Empty :=
      .choice [Parser.storedIn "x" (.memoized ⟨0, "m"⟩ (.many (.exactly 'a'))),
        Parser.muted (.exactly 'b')]
    let start : Cursor Char := .ofBuffer (.ofArray 0 #['a', 'a', 'b'])
    let s : Session Char :=
      .start ((∅ : Registry String Tracer).insert "t" (.transcript ⟨.all, .trace, 0⟩)) (some .trace)
    let s' : Session Char := .start ∅ none
    ∃ out t t' records records',
      s.run nofun 12 ⟨some "t", true, none⟩ p start = some (out, t, records) ∧
      s'.run nofun 12 .plain p start = some (out, t', records') ∧ t.store.Alike t'.store := by
  intro p start s s'
  have returns : (s.run nofun 12 ⟨some "t", true, none⟩ p start).isSome := by decide +kernel
  have returns' : (s'.run nofun 12 .plain p start).isSome := by decide +kernel
  obtain ⟨⟨out, t, records⟩, h⟩ := Option.isSome_iff_exists.mp returns
  obtain ⟨⟨out', t', records'⟩, h'⟩ := Option.isSome_iff_exists.mp returns'
  have alike : s.store.Alike s'.store := .refl ∅
  obtain ⟨rfl, hstore⟩ := (outcome_independent_of_observers alike h).2 _ _ _ _ h'
  exact ⟨_, t, t', records, records', h, h', hstore⟩

end Session

end Packrat
