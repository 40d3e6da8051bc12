import Packrat.Proofs.Effects
import Packrat.Proofs.Observers

/-!
# Counting the runs of a parser

How often a parser is run inside of another one is told by a counter around it. Nothing reads the
counters, so the parser with the counter inside of it does the same as the one without; the two are
told side by side, node by node, with the number of times that the counter is raised.

* `Parser.Spares`, `Parser.Avoids`: parsers that never raise a counter.
* `Parser.Tallied`: a parser and the same one with a counter inside of it, side by side.
* `Parser.tallied_counted`: a run is counted once.
* `Parser.Tallied.andThen`, `Parser.Tallied.orElse`: the counts of two parsers add up.
-/

namespace Packrat

variable {τ ρ : Type}

theorem Store.counter_opened (s : Store τ) (memo : Memo) (counter : String) :
    (s.opened memo).counter counter = s.counter counter := by
  unfold opened openTable
  split <;> rfl

namespace Parser

/-! ## Parsers that spare a counter -/

/-- The parser never raises the counter. -/
def Spares (grammar : Grammar τ ρ) (counter : String) (p : Parser τ ρ) : Prop :=
  ∀ {ctx c s r t signals}, p.Performs grammar ctx c s r t signals →
    t.counter counter = s.counter counter

/-- No node of the tree raises the counter. -/
def Avoids (counter : String) : Parser τ ρ → Prop
  | .leaf _ => True
  | .adapt _ p => p.Avoids counter
  | .andThen p q _ => p.Avoids counter ∧ q.Avoids counter
  | .orElse p q => p.Avoids counter ∧ q.Avoids counter
  | .repeated _ p => p.Avoids counter
  | .till p q => p.Avoids counter ∧ q.Avoids counter
  | .delimited p q => p.Avoids counter ∧ q.Avoids counter
  | .assign _ p => p.Avoids counter
  | .memo _ p => p.Avoids counter
  | .tally name p => name ≠ counter ∧ p.Avoids counter
  | .rule _ => True
  | .site _ _ p => p.Avoids counter
  | .scope _ p => p.Avoids counter

variable {grammar : Grammar τ ρ} {ctx : Context} {counter : String} {n k : Nat}
  {p p' q q' : Parser τ ρ} {c : Cursor τ} {s t u : Store τ} {r : Result τ} {m : Match τ}
  {f : Failure τ} {signals : List (Signal τ)}

theorem Avoids.unrolled (rules : ∀ name, (grammar name).Avoids counter) (hp : p.Avoids counter)
    (hq : p.unrolled? grammar = some q) : q.Avoids counter := by
  cases p with
  | repeated limit p =>
    rw [unrolled?] at hq
    split at hq <;> cases hq
    · trivial
    · exact ⟨⟨hp, hp⟩, trivial⟩
  | till p q =>
    cases hq
    exact ⟨hp.2, hp.1, hp⟩
  | delimited p q =>
    cases hq
    exact ⟨⟨hp.1, hp.2, hp⟩, trivial⟩
  | rule name =>
    cases hq
    exact rules name
  | _ => cases hq

theorem Runs.counter_eq {hist : History τ} (h : Runs grammar ctx p c s r t hist)
    (rules : ∀ name, (grammar name).Avoids counter) (hp : p.Avoids counter) :
    t.counter counter = s.counter counter := by
  induction h with
  | leaf => rfl
  | adapt _ ih => exact ih hp
  | andThenFail _ ih => exact ih hp.1
  | andThen _ _ ih₁ ih₂ => rw [ih₂ hp.2, ih₁ hp.1]
  | orElseFirst _ ih => exact ih hp.1
  | orElse _ _ ih₁ ih₂ => rw [ih₂ hp.2, ih₁ hp.1]
  | unrolled hq _ ih => exact ih (hp.unrolled rules hq)
  | assignFail _ ih => exact ih hp
  | assign _ ih => exact ih hp
  | memoAtEnd _ _ ih => exact ih hp
  | memoHit => exact Store.counter_opened _ _ _
  | memoMiss _ _ _ ih => exact (ih hp).trans (Store.counter_opened _ _ _)
  | tally _ ih => rw [ih hp.2, Store.counter_raise, if_neg hp.1, Nat.add_zero]
  | site _ ih => exact ih hp
  | scope _ ih => exact ih hp

/-- A parser in which the counter does not occur spares it. -/
theorem Avoids.spares (hp : p.Avoids counter) (rules : ∀ name, (grammar name).Avoids counter) :
    p.Spares grammar counter := by
  intro ctx c s r t signals h
  obtain ⟨_, d, -⟩ := performs_iff.mp h
  exact d.counter_eq rules hp

/-! ## Counting side by side -/

/-- Both parsers have the result, from alike stores and with alike stores, and the second one raises
the counter at most `n` times. -/
structure Tallied (grammar : Grammar τ ρ) (ctx : Context) (counter : String) (n : Nat)
    (p p' : Parser τ ρ) (c : Cursor τ) (s : Store τ) (r : Result τ) (t : Store τ) : Prop where
  performs : ∃ signals, p.Performs grammar ctx c s r t signals
  counts : ∀ {s'}, s.Alike s' → ∃ t' signals, p'.Performs grammar ctx c s' r t' signals ∧
    t.Alike t' ∧ t'.counter counter ≤ s'.counter counter + n

/-- Both parsers return, and the second one raises the counter at most `n` times. -/
def TalliedWithin (grammar : Grammar τ ρ) (ctx : Context) (counter : String) (n : Nat)
    (p p' : Parser τ ρ) (c : Cursor τ) (s : Store τ) : Prop :=
  ∃ r t, Tallied grammar ctx counter n p p' c s r t

theorem Performs.of_alike (h : p.Performs grammar ctx c s r t signals) {s' : Store τ}
    (hs : s.Alike s') : ∃ t' signals', p.Performs grammar ctx c s' r t' signals' ∧ t.Alike t' := by
  obtain ⟨_, d, -⟩ := performs_iff.mp h
  obtain ⟨t', _, d', ht⟩ := d.of_alike ctx hs
  exact ⟨t', _, performs_iff.mpr ⟨_, d', rfl⟩, ht⟩

/-- A parser that spares the counter beside itself. -/
theorem tallied_self (hp : p.Spares grammar counter)
    (h : p.Performs grammar ctx c s r t signals) : Tallied grammar ctx counter 0 p p c s r t where
  performs := ⟨signals, h⟩
  counts hs := by
    obtain ⟨t', signals', h', ht⟩ := h.of_alike hs
    exact ⟨t', signals', h', ht, Nat.le_of_eq (hp h')⟩

/-- One run is counted once. -/
theorem tallied_counted (hp : p.Spares grammar counter)
    (h : p.Performs grammar ctx c s r t signals) :
    Tallied grammar ctx counter 1 p (counted counter p) c s r t where
  performs := ⟨signals, h⟩
  counts {s'} hs := by
    have raised : s.Alike (s'.raise counter) := ⟨hs.tables, hs.slots⟩
    obtain ⟨t', signals', h', ht⟩ := h.of_alike raised
    refine ⟨t', signals', performs_counted.mpr h', ht, Nat.le_of_eq ?_⟩
    rw [hp h', Store.counter_raise, if_pos rfl]

theorem Tallied.mono (h : Tallied grammar ctx counter n p p' c s r t) (hle : n ≤ k) :
    Tallied grammar ctx counter k p p' c s r t where
  performs := h.performs
  counts hs := by
    obtain ⟨t', signals, h', ht, hn⟩ := h.counts hs
    exact ⟨t', signals, h', ht, by omega⟩

theorem TalliedWithin.mono (h : TalliedWithin grammar ctx counter n p p' c s) (hle : n ≤ k) :
    TalliedWithin grammar ctx counter k p p' c s := by
  obtain ⟨r, t, h⟩ := h
  exact ⟨r, t, h.mono hle⟩

/-! ## Nodes side by side -/

/-- What is around the two parsers and runs nothing else changes no count. -/
theorem Tallied.around {around around' : Parser τ ρ} {r' : Result τ}
    (h : Tallied grammar ctx counter n p p' c s r t)
    (ha : ∀ {s t signals}, p.Performs grammar ctx c s r t signals →
      ∃ signals', around.Performs grammar ctx c s r' t signals')
    (ha' : ∀ {s t signals}, p'.Performs grammar ctx c s r t signals →
      ∃ signals', around'.Performs grammar ctx c s r' t signals') :
    Tallied grammar ctx counter n around around' c s r' t where
  performs := by
    obtain ⟨_, h⟩ := h.performs
    exact ha h
  counts hs := by
    obtain ⟨t', _, h', ht, hn⟩ := h.counts hs
    obtain ⟨signals', h'⟩ := ha' h'
    exact ⟨t', signals', h', ht, hn⟩

theorem tallied_leaf (l : Leaf τ) :
    Tallied grammar ctx counter 0 (.leaf l) (.leaf l) c s (l.run c) s where
  performs := ⟨[], performs_leaf.mpr ⟨rfl, rfl, rfl⟩⟩
  counts {s'} hs := ⟨s', [], performs_leaf.mpr ⟨rfl, rfl, rfl⟩, hs, Nat.le_refl _⟩

theorem Tallied.adapt (h : Tallied grammar ctx counter n p p' c s r t) (a : Adapter τ) :
    Tallied grammar ctx counter n (.adapt a p) (.adapt a p') c s (a.apply c r) t :=
  h.around (fun h => ⟨_, performs_adapt.mpr ⟨r, h, rfl⟩⟩)
    fun h => ⟨_, performs_adapt.mpr ⟨r, h, rfl⟩⟩

theorem Tallied.builtIn (h : Tallied grammar ctx counter n p p' c s r t) (name : String) :
    Tallied grammar ctx counter n (builtIn name p) (builtIn name p') c s r t :=
  h.around (fun h => ⟨_, performs_builtIn.mpr ⟨_, h, rfl⟩⟩)
    fun h => ⟨_, performs_builtIn.mpr ⟨_, h, rfl⟩⟩

theorem Tallied.of_unrolled (h : Tallied grammar ctx counter n q q' c s r t)
    (hq : p.unrolled? grammar = some q) (hq' : p'.unrolled? grammar = some q') :
    Tallied grammar ctx counter n p p' c s r t :=
  h.around (fun h => ⟨_, (performs_unrolled hq).mpr h⟩) fun h => ⟨_, (performs_unrolled hq').mpr h⟩

section

variable {g : Value τ → Value τ → Value τ}

theorem Tallied.andThenFail (h : Tallied grammar ctx counter n p p' c s (.error f) t) :
    Tallied grammar ctx counter n (.andThen p q g) (.andThen p' q' g) c s (.error f) t :=
  h.around (fun h => ⟨_, performs_andThen_error.mpr (.inl h)⟩)
    fun h => ⟨_, performs_andThen_error.mpr (.inl h)⟩

theorem performs_andThen (h : p.Performs grammar ctx c s (.ok m) t signals)
    {signals' : List (Signal τ)} (h' : q.Performs grammar ctx m.stop t r u signals') :
    ∃ signals, Performs grammar ctx (.andThen p q g) c s
      (r.map fun n => ⟨n.stop, g m.value n.value⟩) u signals := by
  cases r with
  | ok n => exact ⟨_, performs_andThen_ok.mpr ⟨m, n, t, _, _, h, h', rfl, rfl⟩⟩
  | error f => exact ⟨_, performs_andThen_error.mpr (.inr ⟨m, t, _, _, h, h', rfl⟩)⟩

/-- The counts of one parser after another add up. -/
theorem Tallied.andThen (h : Tallied grammar ctx counter n p p' c s (.ok m) t)
    (h' : Tallied grammar ctx counter k q q' m.stop t r u) :
    Tallied grammar ctx counter (n + k) (.andThen p q g) (.andThen p' q' g) c s
      (r.map fun n => ⟨n.stop, g m.value n.value⟩) u where
  performs := by
    obtain ⟨_, h⟩ := h.performs
    obtain ⟨_, h'⟩ := h'.performs
    exact performs_andThen h h'
  counts hs := by
    obtain ⟨t', _, h, ht, hn⟩ := h.counts hs
    obtain ⟨u', _, h', hu, hk⟩ := h'.counts ht
    obtain ⟨signals, both⟩ := performs_andThen (g := g) h h'
    exact ⟨u', signals, both, hu, by omega⟩

/-- A parser that fails is counted without the one behind it. -/
theorem Tallied.thenWithin (h : Tallied grammar ctx counter n p p' c s r t)
    (rest : ∀ m, r = .ok m → TalliedWithin grammar ctx counter k q q' m.stop t) :
    TalliedWithin grammar ctx counter (n + k) (.andThen p q g) (.andThen p' q' g) c s := by
  cases r with
  | error f => exact ⟨_, _, h.andThenFail.mono (Nat.le_add_right n k)⟩
  | ok m =>
    obtain ⟨_, _, h'⟩ := rest m rfl
    exact ⟨_, _, h.andThen h'⟩

end

theorem Tallied.orElseFirst (h : Tallied grammar ctx counter n p p' c s (.ok m) t) :
    Tallied grammar ctx counter n (.orElse p q) (.orElse p' q') c s (.ok m) t :=
  h.around (fun h => ⟨_, performs_orElse.mpr (.inl ⟨m, rfl, h⟩)⟩)
    fun h => ⟨_, performs_orElse.mpr (.inl ⟨m, rfl, h⟩)⟩

/-- The counts of a parser that fails and of the one in its place add up. -/
theorem Tallied.orElse (h : Tallied grammar ctx counter n p p' c s (.error f) t)
    (h' : Tallied grammar ctx counter k q q' c t r u) :
    Tallied grammar ctx counter (n + k) (.orElse p q) (.orElse p' q') c s r u where
  performs := by
    obtain ⟨_, h⟩ := h.performs
    obtain ⟨_, h'⟩ := h'.performs
    exact ⟨_, performs_orElse.mpr (.inr ⟨f, t, _, _, h, h', rfl⟩)⟩
  counts hs := by
    obtain ⟨t', _, h, ht, hn⟩ := h.counts hs
    obtain ⟨u', _, h', hu, hk⟩ := h'.counts ht
    exact ⟨u', _, performs_orElse.mpr (.inr ⟨f, t', _, _, h, h', rfl⟩), hu, by omega⟩

/-- Nothing is run in place of a parser that fails. -/
theorem Tallied.orElse_leaf (h : Tallied grammar ctx counter n p p' c s r t) (l : Leaf τ) :
    TalliedWithin grammar ctx counter n (.orElse p (.leaf l)) (.orElse p' (.leaf l)) c s := by
  cases r with
  | ok m => exact ⟨_, _, h.orElseFirst⟩
  | error f => exact ⟨_, _, h.orElse (tallied_leaf l)⟩

end Parser

end Packrat
