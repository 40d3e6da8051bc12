import Packrat.Proofs.Positions
import Packrat.Proofs.Sequences

/-!
# The input that a parser consumed

A match stops in the buffer in which its parser was started, and not before its start. For an answer
from a memo table this rests on the table: whichever parser entered the answer was started at the
same place, and buffers of one identity are equal. So the slice from the start to the stop is the
input that the parser consumed, and the slices of parsers in turn make one slice.

* `Store.ReachableFrom`: the stores of a program that reads its sources.
* `Store.Local`: the answers in the tables stay in the buffers that they are for.
* `Parser.Runs.position_stop`: a match from a position stops at a position behind it.
* `Parser.retold`: matches with the slices that they consumed in place of their values.
* `Parser.recognized_is_consumed`: slices, texts and spans, and the slices of sequences.
-/

namespace Packrat

variable {τ ρ : Type} {sources : Nat → Array τ}

/-! ## Answers in tables stay in their buffers -/

/-- The stores that runs at the cursors of a program lead to from the empty one, of any parsers,
which may share tables. -/
inductive Store.ReachableFrom (sources : Nat → Array τ) : Store τ → Prop where
  | empty : ReachableFrom sources ∅
  | run {ρ : Type} {grammar : Grammar τ ρ} {fuel : Nat} {ctx : Context} {p : Parser τ ρ}
      {c : Cursor τ} {s t : Store τ} {r : Result τ} {signals : List (Signal τ)}
      (before : ReachableFrom sources s) (hc : c.Reachable sources)
      (h : p.run grammar fuel ctx c s = some (r, t, signals)) : ReachableFrom sources t

/-- Every match in a table stops in the buffer of the cursor at its place. -/
def Store.Local (sources : Nat → Array τ) : Store τ → Prop :=
  AllAnswers fun _ place r => ∀ c : Cursor τ, c.buffer.CutFrom sources → c.place? = some place →
    ∀ m, r = .ok m → m.stop.buffer = c.buffer

theorem Parser.Runs.buffer_stop {grammar : Grammar τ ρ} {ctx : Context} {p : Parser τ ρ}
    {c : Cursor τ} {s t : Store τ} {r : Result τ} {hist : History τ}
    (h : Runs grammar ctx p c s r t hist) (hc : c.buffer.CutFrom sources)
    (hs : s.Local sources) :
    (∀ m, r = .ok m → m.stop.buffer = c.buffer) ∧ t.Local sources := by
  induction h with
  | leaf => exact ⟨fun m hm => Leaf.buffer_stop _ hm, hs⟩
  | adapt _ ih =>
    obtain ⟨hr, ht⟩ := ih hc hs
    exact ⟨fun m hm => Adapter.buffer_stop _ hr hm, ht⟩
  | andThenFail _ ih => exact ⟨nofun, (ih hc hs).2⟩
  | @andThen _ _ _ _ c _ m _ _ r _ _ _ _ ih₁ ih₂ =>
    obtain ⟨hm, ht⟩ := ih₁ hc hs
    have same : m.stop.buffer = c.buffer := hm m rfl
    obtain ⟨hr, hu⟩ := ih₂ (same ▸ hc) ht
    refine ⟨fun n hn => ?_, hu⟩
    cases r with
    | error f => cases hn
    | ok second =>
      cases hn
      exact (hr second rfl).trans same
  | orElseFirst _ ih => exact ih hc hs
  | orElse _ _ ih₁ ih₂ => exact ih₂ hc (ih₁ hc hs).2
  | unrolled _ _ ih => exact ih hc hs
  | assignFail _ ih => exact ⟨nofun, (ih hc hs).2⟩
  | assign _ ih =>
    obtain ⟨hr, ht⟩ := ih hc hs
    refine ⟨fun n hn => ?_, ht.setSlot _ _⟩
    cases hn
    exact (hr _ rfl :)
  | memoAtEnd _ _ ih => exact ih hc hs
  | memoHit hplace found => exact ⟨hs _ _ _ found _ hc hplace, (hs.opened _).hit _⟩
  | memoMiss hplace _ _ ih =>
    obtain ⟨hr, ht⟩ := ih hc (hs.opened _)
    -- whoever asks at this place later is the cursor of this run
    exact ⟨hr, ht.entered fun d hd hplace' => Cursor.eq_of_place hc hd hplace hplace' ▸ hr⟩
  | tally _ ih => exact ih hc (hs.raise _)
  | site _ ih => exact ih hc hs
  | scope _ ih => exact ih hc hs

namespace Store.ReachableFrom

variable {s t : Store τ}

theorem reachable (h : s.ReachableFrom sources) : s.Reachable := by
  induction h with
  | empty => exact .empty
  | run _ hc h ih => exact .run ih hc.inBounds h

theorem isLocal (h : s.ReachableFrom sources) : s.Local sources := by
  induction h with
  | empty => exact allAnswers_of_fresh fun _ _ => rfl
  | run _ hc h ih =>
    obtain ⟨_, d, -⟩ := Parser.runs_of_run h
    exact (d.buffer_stop hc.cutFrom ih).2

end Store.ReachableFrom

/-! ## Matches stop at positions -/

namespace Cursor

variable {c d : Cursor τ}

theorem Reachable.advanced (h : c.Reachable sources) (n : Nat)
    (inside : c.offset + n ≤ c.buffer.size) :
    (⟨c.buffer, c.offset + n⟩ : Cursor τ).Reachable sources := by
  induction n with
  | zero => exact h
  | succ n ih =>
    have before := (ih (by omega)).advance
    have more : (⟨c.buffer, c.offset + n⟩ : Cursor τ).atEnd = false := by
      simp only [atEnd, decide_eq_false_iff_not]
      omega
    rwa [Cursor.advance, more] at before

/-- What lies behind a position in its buffer is a position. -/
theorem Reachable.of_leadsTo (h : c.Reachable sources) (ahead : c.LeadsTo d)
    (same : d.buffer = c.buffer) : d.Reachable sources := by
  have inside := ahead.inBounds
  rw [same] at inside
  have reached := h.advanced (d.offset - c.offset) (by rwa [Nat.add_sub_cancel' ahead.le])
  rwa [Nat.add_sub_cancel' ahead.le, ← same] at reached

/-- The tokens of the buffer from `c` up to `d`. -/
def between (c d : Cursor τ) : List τ := (c.buffer.tokens.extract c.offset d.offset).toList

theorem between_of_atEnd (h : c.atEnd = true) : c.between d = [] := by
  rw [atEnd_iff] at h
  simp [between, h]

theorem sliceTo?_of_leadsTo (h : c.LeadsTo d) :
    c.sliceTo? d = if c.atEnd then none else some (c.between d) := by
  have forward : ¬ d.offset < c.offset := Nat.not_lt_of_le h.le
  unfold sliceTo?
  simp [h.shares, forward, between]

/-- At the end of input there is no slice, and no token either. -/
theorem consumed_of_leadsTo (h : c.LeadsTo d) : c.consumed d = c.between d := by
  rw [consumed, sliceTo?_of_leadsTo h]
  split
  · rename_i ended
    rw [between_of_atEnd ended]
    rfl
  · rfl

end Cursor

theorem Value.tokens_injective : Function.Injective (tokens : List τ → Value τ) := by
  intro xs ys h
  have single : Function.Injective (token : τ → Value τ) := fun _ _ => token.inj
  exact single.list_map (list.inj h)

namespace Parser

/-- The parser matches, whatever signals it emits. -/
def Matches (grammar : Grammar τ ρ) (ctx : Context) (p : Parser τ ρ) (c : Cursor τ) (s : Store τ)
    (m : Match τ) (t : Store τ) : Prop :=
  ∃ signals, p.Performs grammar ctx c s (.ok m) t signals

variable {grammar : Grammar τ ρ} {ctx : Context} {p : Parser τ ρ} {ps : List (Parser τ ρ)}
  {c start stop : Cursor τ} {s t : Store τ} {v : Value τ} {m : Match τ} {ms ns : List (Match τ)}
  {signals : List (Signal τ)}

theorem Performs.reachableFrom {r : Result τ} (h : p.Performs grammar ctx c s r t signals)
    (hs : s.ReachableFrom sources) (hc : c.Reachable sources) : t.ReachableFrom sources := by
  obtain ⟨_, h⟩ := h
  exact .run hs hc h

/-- A match from a position stops in the same buffer and not before its start. -/
theorem Performs.leadsTo (h : p.Performs grammar ctx c s (.ok m) t signals)
    (hs : s.ReachableFrom sources) (hc : c.Reachable sources) :
    c.LeadsTo m.stop ∧ m.stop.buffer = c.buffer := by
  obtain ⟨_, d, -⟩ := performs_iff.mp h
  exact ⟨(d.bounded hc.inBounds hs.reachable.bounded).1,
    (d.buffer_stop hc.cutFrom hs.isLocal).1 m rfl⟩

theorem Performs.reachable_stop (h : p.Performs grammar ctx c s (.ok m) t signals)
    (hs : s.ReachableFrom sources) (hc : c.Reachable sources) : m.stop.Reachable sources := by
  obtain ⟨ahead, same⟩ := h.leadsTo hs hc
  exact hc.of_leadsTo ahead same

/-! ## Slices and spans in place of values -/

/-- An adapter that puts another value in place of that of a match, at a site of the library. -/
theorem matches_adapted {a : Adapter τ} {name : String} {f : Match τ → Value τ}
    (ok : ∀ m, a.apply c (.ok m) = .ok ⟨m.stop, f m⟩)
    (error : ∀ f, a.apply c (.error f) = .error f) :
    Matches grammar ctx (builtIn name (.adapt a p)) c s ⟨stop, v⟩ t ↔
      ∃ w, Matches grammar ctx p c s ⟨stop, w⟩ t ∧ v = f ⟨stop, w⟩ := by
  constructor
  · rintro ⟨_, h⟩
    obtain ⟨_, h, -⟩ := performs_builtIn.mp h
    obtain ⟨r, inner, he⟩ := performs_adapt.mp h
    cases r with
    | error f =>
      rw [error] at he
      cases he
    | ok m =>
      rw [ok] at he
      cases he
      exact ⟨m.value, ⟨_, inner⟩, rfl⟩
  · rintro ⟨w, ⟨inside, h⟩, rfl⟩
    exact ⟨_, performs_builtIn.mpr ⟨inside, performs_adapt.mpr ⟨_, h, (ok ⟨stop, w⟩).symm⟩, rfl⟩⟩

theorem matches_consumed : Matches grammar ctx (consumed p) c s ⟨stop, v⟩ t ↔
    ∃ w, Matches grammar ctx p c s ⟨stop, w⟩ t ∧ v = .tokens (c.consumed stop) :=
  matches_adapted (f := fun m => .tokens (c.consumed m.stop)) (fun _ => rfl) fun _ => rfl

theorem matches_spanned : Matches grammar ctx (spanned p) c s ⟨stop, v⟩ t ↔
    ∃ w, Matches grammar ctx p c s ⟨stop, w⟩ t ∧ v = .span ⟨c, stop⟩ :=
  matches_adapted (f := fun m => .span ⟨c, m.stop⟩) (fun _ => rfl) fun _ => rfl

theorem matches_map {f : Value τ → Value τ} : Matches grammar ctx (map f p) c s ⟨stop, v⟩ t ↔
    ∃ w, Matches grammar ctx p c s ⟨stop, w⟩ t ∧ v = f w :=
  matches_adapted (f := fun m => f m.value) (fun _ => rfl) fun _ => rfl

/-! ## Slices of parsers in turn -/

/-- The slices that matches in turn consumed. -/
def pieces (c : Cursor τ) : List (Match τ) → List (List τ)
  | [] => []
  | m :: ms => c.consumed m.stop :: pieces m.stop ms

/-- The matches with the slices that they consumed in place of their values. -/
def retold (c : Cursor τ) : List (Match τ) → List (Match τ)
  | [] => []
  | m :: ms => ⟨m.stop, .tokens (c.consumed m.stop)⟩ :: retold m.stop ms

theorem map_value_retold (c : Cursor τ) (ms : List (Match τ)) :
    (retold c ms).map (·.value) = (pieces c ms).map .tokens := by
  induction ms generalizing c with
  | nil => rfl
  | cons m ms ih => exact congrArg (_ :: ·) (ih m.stop)

theorem behind_retold (c : Cursor τ) (ms : List (Match τ)) :
    c.behind (retold c ms) = c.behind ms := by
  induction ms generalizing c with
  | nil => rfl
  | cons m ms ih => exact ih m.stop

/-- The slices of parsers in turn are those of their matches in turn. -/
theorem inTurn_consumed :
    (∃ signals, InTurn grammar ctx (ps.map consumed) c s ns none t signals) ↔
      ∃ ms signals, InTurn grammar ctx ps c s ms none t signals ∧ ns = retold c ms := by
  induction ps generalizing c s ns with
  | nil =>
    constructor
    · rintro ⟨_, h⟩
      cases h
      exact ⟨[], _, .done, rfl⟩
    · rintro ⟨_, _, h, rfl⟩
      cases h
      exact ⟨_, .done⟩
  | cons p ps ih =>
    constructor
    · rintro ⟨_, h⟩
      cases h with
      | next first rest =>
        obtain ⟨w, ⟨_, first'⟩, hv⟩ := matches_consumed.mp ⟨_, first⟩
        obtain ⟨ms, _, rest', rfl⟩ := ih.mp ⟨_, rest⟩
        exact ⟨⟨_, w⟩ :: ms, _, .next first' rest', by rw [retold, ← hv]⟩
    · rintro ⟨_, _, h, rfl⟩
      cases h with
      | next first rest =>
        obtain ⟨_, first⟩ := matches_consumed.mpr ⟨_, ⟨_, first⟩, rfl⟩
        obtain ⟨_, rest⟩ := ih.mpr ⟨_, _, rest, rfl⟩
        exact ⟨_, .next first rest⟩

/-- No token between the start of the first parser and the stop of the last is lost or repeated. -/
theorem consumed_behind (h : InTurn grammar ctx ps c s ms none t signals)
    (hs : s.ReachableFrom sources) (hc : c.Reachable sources) :
    c.Over (pieces c ms).flatten (c.behind ms) := by
  induction ps generalizing c s ms signals with
  | nil =>
    cases h
    exact Cursor.over_nil_iff.mpr rfl
  | cons p ps ih =>
    cases h with
    | next first rest =>
      obtain ⟨ahead, same⟩ := first.leadsTo hs hc
      exact (Cursor.over_consumed ahead same).append
        (ih rest (first.reachableFrom hs hc) (first.reachable_stop hs hc))

theorem matches_inOrder (x : Collection τ ρ) : Matches grammar ctx (inOrder x) c s m t ↔
    ∃ ms signals, InTurn grammar ctx x.toList c s ms none t signals ∧
      m = ⟨c.behind ms, .list (ms.map (·.value))⟩ := by
  constructor
  · rintro ⟨_, h⟩
    obtain ⟨inside, h, -⟩ := performs_builtIn.mp h
    obtain ⟨ms, h, hm⟩ := (gathers_sequence x).ok.mp h
    exact ⟨ms, inside, h, hm⟩
  · rintro ⟨ms, inside, h, hm⟩
    exact ⟨_, performs_builtIn.mpr ⟨inside, (gathers_sequence x).ok.mpr ⟨ms, h, hm⟩, rfl⟩⟩

/-! ## What is recognized -/

/-- What is recognized of the input of parsers that are started somewhere. -/
structure Recognizes (grammar : Grammar τ ρ) (ctx : Context) (start : Cursor τ) (s : Store τ) :
    Prop where
  /-- The tokens from the start to the stop of a match. -/
  slice : ∀ p stop v t, Matches grammar ctx (consumed p) start s ⟨stop, v⟩ t ↔
    ∃ w, Matches grammar ctx p start s ⟨stop, w⟩ t ∧ v = .tokens (start.between stop)
  /-- The start and the stop of a match. -/
  span : ∀ p stop v t, Matches grammar ctx (spanned p) start s ⟨stop, v⟩ t ↔
    ∃ w, Matches grammar ctx p start s ⟨stop, w⟩ t ∧ v = .span ⟨start, stop⟩
  /-- The span of a match is as long as there are tokens between its ends. It has a slice unless it
  starts at the end of input, where it is empty. -/
  extent : ∀ p m t, Matches grammar ctx p start s m t →
    m.stop.buffer = start.buffer ∧ start.offset + (start.between m.stop).length = m.stop.offset ∧
      (Span.mk start m.stop).length = m.stop.offset - start.offset ∧
      (Span.mk start m.stop).slice? = if start.atEnd then none else some (start.between m.stop)
  /-- The slices of parsers in turn make the slice of their sequence. -/
  sequence : ∀ (x : Collection τ ρ) m t, Matches grammar ctx (consumed (inOrder x)) start s m t ↔
    ∃ ms signals, ∃ xs : List (List τ),
      InTurn grammar ctx (x.toList.map consumed) start s ms none t signals ∧
        ms.map (·.value) = xs.map .tokens ∧ m = ⟨start.behind ms, .tokens xs.flatten⟩

theorem recognizes (grammar : Grammar τ ρ) (ctx : Context) (hs : s.ReachableFrom sources)
    (hstart : start.Reachable sources) : Recognizes grammar ctx start s where
  slice := by
    intro p stop v t
    rw [matches_consumed]
    refine exists_congr fun w => and_congr_right ?_
    rintro ⟨_, h⟩
    rw [Cursor.consumed_of_leadsTo (h.leadsTo hs hstart).1]
  span _ _ _ _ := matches_spanned
  extent := by
    rintro p m t ⟨_, h⟩
    obtain ⟨ahead, same⟩ := h.leadsTo hs hstart
    refine ⟨same, ?_, rfl, Cursor.sliceTo?_of_leadsTo ahead⟩
    rw [← Cursor.consumed_of_leadsTo ahead, Cursor.length_consumed ahead same]
  sequence := by
    intro x m t
    constructor
    · intro h
      obtain ⟨w, h, hv⟩ := matches_consumed.mp h
      obtain ⟨ms, _, h, hm⟩ := (matches_inOrder x).mp h
      obtain ⟨_, turn⟩ := inTurn_consumed.mpr ⟨ms, _, h, rfl⟩
      have stop : m.stop = start.behind ms := congrArg Match.stop hm
      refine ⟨retold start ms, _, pieces start ms, turn, map_value_retold start ms, ?_⟩
      rw [behind_retold, ← (consumed_behind h hs hstart).consumed_eq, ← stop, ← hv]
    · rintro ⟨ns, signals, xs, turn, hvalues, rfl⟩
      obtain ⟨ms, _, h, rfl⟩ := inTurn_consumed.mp ⟨signals, turn⟩
      rw [map_value_retold] at hvalues
      obtain rfl : pieces start ms = xs := Value.tokens_injective.list_map hvalues
      rw [behind_retold, matches_consumed, (consumed_behind h hs hstart).consumed_eq]
      exact ⟨_, (matches_inOrder x).mpr ⟨ms, _, h, rfl⟩, rfl⟩

/-- The text of the tokens from the start to the stop of a match. -/
theorem matches_written {ρ : Type} {sources : Nat → Array Char} {grammar : Grammar Char ρ}
    {p : Parser Char ρ} {start stop : Cursor Char} {s t : Store Char} {v : Value Char}
    (hs : s.ReachableFrom sources) (hstart : start.Reachable sources) :
    Matches grammar ctx (written p) start s ⟨stop, v⟩ t ↔
      ∃ w, Matches grammar ctx p start s ⟨stop, w⟩ t ∧
        v = .text (String.ofList (start.between stop)) := by
  have slice := (recognizes grammar ctx hs hstart).slice p stop
  rw [written, matches_map]
  constructor
  · rintro ⟨x, h, rfl⟩
    obtain ⟨w, matched, rfl⟩ := (slice x t).mp h
    exact ⟨w, matched, Value.joined_tokens _⟩
  · rintro ⟨w, h, rfl⟩
    exact ⟨.tokens (start.between stop), (slice _ t).mpr ⟨w, h, rfl⟩,
      (Value.joined_tokens _).symm⟩

/-- Whatever was run before, and whichever parsers share a table: what is recognized of the input of
a parser is what lies between its start and its stop, as a slice, as a span and as a text, and the
slices of parsers in turn make the slice of their sequence. -/
theorem recognized_is_consumed :
    (∀ {τ ρ : Type} {sources : Nat → Array τ} {s : Store τ}, s.ReachableFrom sources →
      ∀ (grammar : Grammar τ ρ) (ctx : Context) {start : Cursor τ}, start.Reachable sources →
        Recognizes grammar ctx start s) ∧
    ∀ {ρ : Type} {sources : Nat → Array Char} {s : Store Char}, s.ReachableFrom sources →
      ∀ (grammar : Grammar Char ρ) (ctx : Context) {start : Cursor Char}, start.Reachable sources →
        ∀ p stop v t, Matches grammar ctx (written p) start s ⟨stop, v⟩ t ↔
          ∃ w, Matches grammar ctx p start s ⟨stop, w⟩ t ∧
            v = .text (String.ofList (start.between stop)) :=
  ⟨fun hs grammar ctx _ hstart => recognizes grammar ctx hs hstart,
    fun hs _ _ _ hstart _ _ _ _ => matches_written hs hstart⟩

/-- One table around two parsers: the letters of a buffer, and letters `b`, which are answered with
the letters of the first run. What is recognized are the letters. -/
theorem recognized_is_consumed_of_shared_table :
    let table : Memo := ⟨0, "shared"⟩
    let start : Cursor Char := .ofBuffer (.ofArray 0 #['a', 'b', 'a'])
    let letters : Parser Char Empty := .memoized table (.many .anyToken)
    let bs : Parser Char Empty := .memoized table (.many (.exactly 'b'))
    ∃ first, ∃ m : Match Char, ∃ t,
      letters.run Empty.elim 9 .plain start ∅ = some first ∧ m.stop.offset = 3 ∧
      Matches Empty.elim .plain (consumed bs) start first.2.1
        ⟨m.stop, .tokens ['a', 'b', 'a']⟩ t ∧
      Matches Empty.elim .plain (written bs) start first.2.1 ⟨m.stop, .text "aba"⟩ t := by
  intro table start letters bs
  have returns : ∃ second,
      ((letters.run Empty.elim 9 .plain start ∅).bind fun first =>
        bs.run Empty.elim 9 .plain start first.2.1) = some second ∧
      second.1.toOption.map (·.stop.offset) = some 3 := by
    refine ⟨_, rfl, ?_⟩
    decide +kernel
  obtain ⟨⟨r, t, signals⟩, h, hsecond⟩ := returns
  obtain ⟨first, h₁, h₂⟩ := Option.bind_eq_some_iff.mp h
  have hstart : start.Reachable fun _ => #['a', 'b', 'a'] := .start (.whole 0)
  have hs : first.2.1.ReachableFrom fun _ => #['a', 'b', 'a'] := .run .empty hstart h₁
  cases r with
  | error f => cases hsecond
  | ok m =>
    have offset : m.stop.offset = 3 := Option.some.inj hsecond
    have matched : Matches Empty.elim .plain bs start first.2.1 m t := ⟨_, _, h₂⟩
    have between : start.between m.stop = ['a', 'b', 'a'] := by
      rw [Cursor.between, offset]
      rfl
    have slice := (recognized_is_consumed.1 hs Empty.elim .plain hstart).slice bs m.stop
    have text := recognized_is_consumed.2 hs Empty.elim .plain hstart bs m.stop
    rw [between] at slice text
    exact ⟨first, m, t, h₁, offset, (slice _ t).mpr ⟨_, matched, rfl⟩,
      (text _ t).mpr ⟨_, matched, rfl⟩⟩

end Parser

end Packrat
