import Packrat.Combinator.Repetition
import Packrat.Combinator.Tokens
import Packrat.Proofs.Execution

/-!
# Cursors stay in bounds

An execution that starts within its buffer ends there, at or after its start, and a failure is
noticed there as well. For an answer from a memo table this rests on the table: whoever entered the
answer, and for whichever parser, it keeps the bounds of every cursor at its place.

* `Cursor.Admits`: the results that keep the bounds of a cursor.
* `Store.Bounded`: the tables hold no other answers.
* `Parser.Runs.bounded`: an execution keeps the bounds, and a bounded store stays bounded.
* `Store.Reachable.bounded`: every store that runs can lead to is bounded.
* `Store.Reachable.run_stays_in_buffer`: the end of a match and the position of a failure.
-/

namespace Packrat

variable {τ ρ : Type}

theorem Buffer.isSame_iff {a b : Buffer τ} :
    a.isSame b = true ↔ a.source = b.source ∧ a.first = b.first ∧ a.size = b.size := by
  simp [Buffer.isSame, and_assoc]

namespace Cursor

/-! ## Bounds of a cursor -/

/-- The cursor `d` lies in the buffer of `c`, not before `c` and not beyond the end of input. -/
structure LeadsTo (c d : Cursor τ) : Prop where
  shares : c.sharesBuffer d = true
  le : c.offset ≤ d.offset
  inBounds : d.offset ≤ d.buffer.size

/-- A match stops within bounds, and a failure is noticed within bounds. -/
def Admits (c : Cursor τ) : Result τ → Prop
  | .ok m => c.LeadsTo m.stop
  | .error f => c.offset ≤ f.position ∧ f.position ≤ c.buffer.size

theorem sharesBuffer_iff {c d : Cursor τ} :
    c.sharesBuffer d = true ↔ c.buffer.source = d.buffer.source ∧
      c.buffer.first = d.buffer.first ∧ c.buffer.size = d.buffer.size :=
  Buffer.isSame_iff

theorem sharesBuffer_of_eq {c d : Cursor τ} (h : d.buffer = c.buffer) : c.sharesBuffer d = true :=
  sharesBuffer_iff.mpr (by rw [h]; exact ⟨rfl, rfl, rfl⟩)

theorem sharesBuffer_trans {c d e : Cursor τ} (h : c.sharesBuffer d = true)
    (h' : d.sharesBuffer e = true) : c.sharesBuffer e = true := by
  obtain ⟨source, first, size⟩ := sharesBuffer_iff.mp h
  obtain ⟨source', first', size'⟩ := sharesBuffer_iff.mp h'
  exact sharesBuffer_iff.mpr ⟨source.trans source', first.trans first', size.trans size'⟩

theorem leadsTo_of_buffer_eq {c d : Cursor τ} (h : d.buffer = c.buffer) (hle : c.offset ≤ d.offset)
    (hd : d.offset ≤ d.buffer.size) : c.LeadsTo d :=
  ⟨sharesBuffer_of_eq h, hle, hd⟩

theorem LeadsTo.refl {c : Cursor τ} (hc : c.offset ≤ c.buffer.size) : c.LeadsTo c :=
  leadsTo_of_buffer_eq rfl (Nat.le_refl _) hc

theorem LeadsTo.size_eq {c d : Cursor τ} (h : c.LeadsTo d) : c.buffer.size = d.buffer.size :=
  (sharesBuffer_iff.mp h.shares).2.2

theorem LeadsTo.trans {c d e : Cursor τ} (h : c.LeadsTo d) (h' : d.LeadsTo e) : c.LeadsTo e where
  shares := sharesBuffer_trans h.shares h'.shares
  le := Nat.le_trans h.le h'.le
  inBounds := h'.inBounds

/-- What is within the bounds of a later cursor is within those of an earlier one. -/
theorem Admits.mono {c d : Cursor τ} {r : Result τ} (h : c.LeadsTo d) (hr : d.Admits r) :
    c.Admits r := by
  cases r with
  | ok m => exact h.trans hr
  | error f =>
    obtain ⟨hle, hbound⟩ := hr
    exact ⟨Nat.le_trans h.le hle, h.size_eq ▸ hbound⟩

theorem place?_eq_some {c : Cursor τ} {place : Place} :
    c.place? = some place ↔ c.offset < c.buffer.size ∧
      place = ⟨c.buffer.source, c.buffer.first, c.buffer.size, c.offset⟩ := by
  unfold place? atEnd
  by_cases hc : c.buffer.size ≤ c.offset
  · simp [hc, Nat.not_lt_of_le hc]
  · simp [hc, Nat.lt_of_not_le hc, eq_comm]

/-- Two cursors at one place have the same bounds. -/
theorem leadsTo_of_place {c d : Cursor τ} {place : Place} (hc : c.place? = some place)
    (hd : d.place? = some place) : c.LeadsTo d := by
  obtain ⟨_, rfl⟩ := place?_eq_some.mp hc
  obtain ⟨hlt, he⟩ := place?_eq_some.mp hd
  obtain ⟨hsource, hfirst, hsize, hoffset⟩ := Place.mk.inj he
  exact ⟨sharesBuffer_iff.mpr ⟨hsource, hfirst, hsize⟩, Nat.le_of_eq hoffset, Nat.le_of_lt hlt⟩

/-! ## The tokens that are left -/

theorem remaining_of_atEnd {c : Cursor τ} (h : c.atEnd = true) : c.remaining = [] := by
  rw [atEnd_iff] at h
  simpa [remaining] using h

theorem remaining_of_read? {c : Cursor τ} {a : τ} (h : c.read? = some a) :
    c.remaining = a :: c.advance.remaining := by
  obtain ⟨hlt, ha⟩ := Array.getElem?_eq_some_iff.mp h
  unfold remaining
  rw [offset_advance_of_read? h, buffer_advance, List.drop_eq_getElem_cons (by simpa using hlt)]
  simp [ha]

theorem length_remaining (c : Cursor τ) : c.remaining.length = c.buffer.size - c.offset := by
  simp [remaining, Buffer.size]

end Cursor

/-! ## Leaves and adapters -/

theorem Leaf.run_admits (l : Leaf τ) {c : Cursor τ} (hc : c.offset ≤ c.buffer.size) :
    c.Admits (l.run c) := by
  cases l with
  | token test atEnd refusal =>
    unfold Leaf.run
    dsimp only
    split
    · exact ⟨Nat.le_refl _, hc⟩
    · rename_i got hgot
      have hlt : c.offset < c.buffer.size := (Array.getElem?_eq_some_iff.mp hgot).1
      split
      · refine Cursor.leadsTo_of_buffer_eq c.buffer_advance ?_ ?_
        · change c.offset ≤ c.advance.offset
          rw [Cursor.offset_advance_of_read? hgot]
          omega
        · change c.advance.offset ≤ c.advance.buffer.size
          rw [Cursor.offset_advance_of_read? hgot, Cursor.buffer_advance]
          omega
      · exact ⟨Nat.le_refl _, hc⟩
  | remainder => exact Cursor.leadsTo_of_buffer_eq rfl hc (Nat.le_refl _)
  | endOfInput =>
    unfold Leaf.run
    dsimp only
    split
    · exact .refl hc
    · exact ⟨Nat.le_refl _, hc⟩
  | succeed value => exact .refl hc
  | fail cause => exact ⟨Nat.le_refl _, hc⟩

theorem Adapter.apply_admits (a : Adapter τ) {c : Cursor τ} {r : Result τ}
    (hc : c.offset ≤ c.buffer.size) (hr : c.Admits r) : c.Admits (a.apply c r) := by
  cases r with
  | ok m =>
    cases a with
    | refine f =>
      unfold Adapter.apply
      dsimp only
      split
      · exact hr
      · exact ⟨Nat.le_refl _, hc⟩
    | lookAhead => exact .refl hc
    | negate => exact ⟨Nat.le_refl _, hc⟩
    | _ => exact hr
  | error f =>
    cases a with
    | optional => exact .refl hc
    | negate => exact .refl hc
    | otherwise cause => exact ⟨Nat.le_refl _, hc⟩
    | _ => exact hr

/-! ## Answers in tables -/

namespace Store

/-- Every answer in a table satisfies `P`, of the table, the place and the answer. -/
def AllAnswers (P : Memo → Place → Result τ → Prop) (s : Store τ) : Prop :=
  ∀ memo place r, (s.table memo).find? place = some r → P memo place r

variable {P : Memo → Place → Result τ → Prop} {s t : Store τ}

theorem allAnswers_of_fresh (fresh : ∀ memo place, (s.table memo).find? place = none) :
    s.AllAnswers P := by
  intro memo place r found
  rw [fresh] at found
  cases found

theorem AllAnswers.of_tables (hs : s.AllAnswers P)
    (h : ∀ memo place, (t.table memo).find? place = (s.table memo).find? place) :
    t.AllAnswers P := by
  intro memo place r found
  rw [h] at found
  exact hs memo place r found

theorem AllAnswers.setSlot (hs : s.AllAnswers P) (slot : String) (v : Value τ) :
    (s.setSlot slot v).AllAnswers P := hs.of_tables fun _ _ => rfl

theorem AllAnswers.raise (hs : s.AllAnswers P) (counter : String) :
    (s.raise counter).AllAnswers P := hs.of_tables fun _ _ => rfl

theorem AllAnswers.opened (hs : s.AllAnswers P) (memo : Memo) : (s.opened memo).AllAnswers P :=
  hs.of_tables (find?_opened s memo)

theorem AllAnswers.hit (hs : s.AllAnswers P) (memo : Memo) : (s.hit memo).AllAnswers P :=
  hs.of_tables (find?_hit s memo)

theorem AllAnswers.entered (hs : s.AllAnswers P) {memo : Memo} {place : Place} {r : Result τ}
    (hr : P memo place r) : (s.entered memo place r).AllAnswers P := by
  intro memo' place' r' found
  rw [table_entered] at found
  split at found
  · rename_i same
    subst same
    rw [Table.remember, Table.find?, Registry.find?_insert] at found
    split at found
    · rename_i here
      subst here
      cases found
      exact hr
    · exact hs memo place' r' found
  · exact hs memo' place' r' found

end Store

/-- Every answer in a table keeps the bounds of the cursors at its place. -/
def Store.Bounded : Store τ → Prop :=
  AllAnswers fun _ place r => ∀ c : Cursor τ, c.place? = some place → c.Admits r

/-! ## Executions -/

theorem Parser.Runs.bounded {grammar : Grammar τ ρ} {ctx : Context} {p : Parser τ ρ} {c : Cursor τ}
    {s t : Store τ} {r : Result τ} {hist : History τ} (h : Runs grammar ctx p c s r t hist)
    (hc : c.offset ≤ c.buffer.size) (hs : s.Bounded) : c.Admits r ∧ t.Bounded := by
  induction h with
  | leaf => exact ⟨Leaf.run_admits _ hc, hs⟩
  | adapt _ ih =>
    obtain ⟨hr, ht⟩ := ih hc hs
    exact ⟨Adapter.apply_admits _ hc hr, ht⟩
  | andThenFail _ ih => exact ih hc hs
  | @andThen _ _ _ _ _ _ m _ _ r _ _ _ _ ih₁ ih₂ =>
    obtain ⟨hm, ht⟩ := ih₁ hc hs
    obtain ⟨hr, hu⟩ := ih₂ hm.inBounds ht
    have hr := Cursor.Admits.mono hm hr
    cases r <;> exact ⟨hr, hu⟩
  | orElseFirst _ ih => exact ih hc hs
  | orElse _ _ ih₁ ih₂ => exact ih₂ hc (ih₁ hc hs).2
  | unrolled _ _ ih => exact ih hc hs
  | assignFail _ ih => exact ih hc hs
  | assign _ ih =>
    obtain ⟨hr, ht⟩ := ih hc hs
    exact ⟨hr, ht⟩
  | memoAtEnd _ _ ih => exact ih hc hs
  -- the answer may be that of another parser, entered in an earlier run
  | memoHit hplace found => exact ⟨hs _ _ _ found _ hplace, (hs.opened _).hit _⟩
  | memoMiss hplace _ _ ih =>
    obtain ⟨hr, ht⟩ := ih hc (hs.opened _)
    exact ⟨hr, ht.entered fun d hd => hr.mono (Cursor.leadsTo_of_place hd hplace)⟩
  | tally _ ih => exact ih hc hs
  | site _ ih => exact ih hc hs
  | scope _ ih => exact ih hc hs

/-! ## Reachable stores -/

/-- The stores that runs lead to from the empty one: of any parsers, which may share tables, at any
cursors within bounds. -/
inductive Store.Reachable : Store τ → Prop where
  | empty : Reachable ∅
  | run {ρ : Type} {grammar : Grammar τ ρ} {fuel : Nat} {ctx : Context} {p : Parser τ ρ}
      {c : Cursor τ} {s t : Store τ} {r : Result τ} {signals : List (Signal τ)}
      (before : Reachable s) (hc : c.offset ≤ c.buffer.size)
      (h : p.run grammar fuel ctx c s = some (r, t, signals)) : Reachable t

theorem Store.Reachable.bounded {s : Store τ} (h : s.Reachable) : s.Bounded := by
  induction h with
  | empty => exact allAnswers_of_fresh fun _ _ => rfl
  | run _ hc h ih =>
    obtain ⟨_, d, -⟩ := Parser.runs_of_run h
    exact (d.bounded hc ih).2

/-- Whatever was run before, and whichever parsers share a table: a run that starts within its
buffer stops in that buffer, between its start and the end of input, or fails at an offset between
the two. -/
theorem Store.Reachable.run_stays_in_buffer {s : Store τ} (hs : s.Reachable)
    {grammar : Grammar τ ρ} {p : Parser τ ρ} {ctx : Context} {start : Cursor τ}
    (hstart : start.offset ≤ start.buffer.size) {fuel : Nat} {r : Result τ} {t : Store τ}
    {signals : List (Signal τ)} (h : p.run grammar fuel ctx start s = some (r, t, signals)) :
    (∀ m, r = .ok m → start.sharesBuffer m.stop = true ∧ start.offset ≤ m.stop.offset ∧
        m.stop.offset ≤ start.buffer.size) ∧
      ∀ f, r = .error f → start.offset ≤ f.position ∧ f.position ≤ start.buffer.size := by
  obtain ⟨_, d, -⟩ := Parser.runs_of_run h
  have admits : start.Admits r := (d.bounded hstart hs.bounded).1
  constructor
  · rintro m rfl
    have hstop : start.LeadsTo m.stop := admits
    exact ⟨hstop.shares, hstop.le, hstop.size_eq ▸ hstop.inBounds⟩
  · rintro f rfl
    exact admits

/-- One table around three parsers: the letters of a buffer, those of a part that overlaps it, and a
single letter, which is answered with the letters of the first run. -/
theorem Store.Reachable.run_stays_in_buffer_of_shared_table :
    let table : Memo := ⟨0, "shared"⟩
    let whole : Buffer Char := .ofArray 0 #['a', 'b', 'a']
    let letters : Parser Char Empty := .memoized table (.many .anyToken)
    let letter : Parser Char Empty := .memoized table (.exactly 'b')
    ∃ first second third m,
      letters.run nofun 9 .plain (.ofBuffer whole) ∅ = some first ∧
      letters.run nofun 9 .plain ⟨whole.slice 1 3, 1⟩ first.2.1 = some second ∧
      letter.run nofun 9 .plain (.ofBuffer whole) second.2.1 = some third ∧
      third.1 = .ok m ∧ m.stop.offset = 3 ∧
      (Cursor.ofBuffer whole).sharesBuffer m.stop = true ∧ m.stop.offset ≤ whole.size := by
  intro table whole letters letter
  have returns : ∃ third,
      ((letters.run nofun 9 .plain (.ofBuffer whole) ∅).bind fun first =>
        (letters.run nofun 9 .plain ⟨whole.slice 1 3, 1⟩ first.2.1).bind fun second =>
          letter.run nofun 9 .plain (.ofBuffer whole) second.2.1) = some third ∧
      third.1.toOption.map (·.stop.offset) = some 3 := by
    refine ⟨_, rfl, ?_⟩
    decide +kernel
  obtain ⟨third, h, hthird⟩ := returns
  obtain ⟨first, h₁, h⟩ := Option.bind_eq_some_iff.mp h
  obtain ⟨second, h₂, h⟩ := Option.bind_eq_some_iff.mp h
  obtain ⟨r, t, signals⟩ := third
  have reachable : second.2.1.Reachable := .run (.run .empty (by decide) h₁) (by decide) h₂
  cases r with
  | error f => cases hthird
  | ok m =>
    obtain ⟨hshares, -, hle⟩ := (reachable.run_stays_in_buffer (by decide) h).1 m rfl
    exact ⟨first, second, _, m, h₁, h₂, h, rfl, Option.some.inj hthird, hshares, hle⟩

end Packrat
