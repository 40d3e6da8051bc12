import Mathlib.Logic.Relation
import Packrat.Proofs.Bounds

/-!
# Parsing without state

What comes of a parser depends on its tree, on the grammar and on the input. Tables, slots, counters
and observers are left out here: a memoized parser is one that makes a call, and its own calls are
made whenever the call is made for the first time.

* `Buffer.CutFrom`: buffers that hold the part of a source that their identity says.
* `Parser.Parses`: the result of a parser at a cursor, and the calls that it makes.
* `Parser.Uniform`: trees in which every table is wrapped around one parser.
* `Parser.Parses.not_inside`: no call is made inside of itself.
-/

namespace Packrat

variable {τ ρ : Type}

/-! ## Buffers cut from sources -/

/-- The tokens of the buffer are the part of its source that its identity says. Sources do not change
while tables refer to them, so this holds of all buffers that a program can make: whole sources and
slices of buffers. -/
def Buffer.CutFrom (sources : Nat → Array τ) (b : Buffer τ) : Prop :=
  b.tokens = (sources b.source).extract b.first (b.first + b.size)

namespace Buffer.CutFrom

variable {sources : Nat → Array τ}

theorem ofArray (n : Nat) : (Buffer.ofArray n (sources n)).CutFrom sources := by
  simp [CutFrom, Buffer.ofArray, Buffer.size]

theorem slice {b : Buffer τ} (h : b.CutFrom sources) (start stop : Nat) :
    (b.slice start stop).CutFrom sources := by
  have hsize : (b.slice start stop).size = min stop b.size - start := Array.size_extract
  unfold CutFrom at h
  change b.tokens.extract start stop = (sources b.source).extract (b.first + start)
    (b.first + start + (b.slice start stop).size)
  rw [hsize, h, Array.extract_extract, Array.extract_eq_extract_right]
  omega

/-- Buffers of one identity are equal. -/
theorem eq_of_isSame {a b : Buffer τ} (ha : a.CutFrom sources) (hb : b.CutFrom sources)
    (h : a.isSame b = true) : a = b := by
  obtain ⟨hsource, hfirst, hsize⟩ := Buffer.isSame_iff.mp h
  have htokens : a.tokens = b.tokens := by rw [ha, hb, hsource, hfirst, hsize]
  cases a
  cases b
  simp_all

end Buffer.CutFrom

theorem Cursor.eq_of_place {sources : Nat → Array τ} {c d : Cursor τ}
    (hc : c.buffer.CutFrom sources) (hd : d.buffer.CutFrom sources) {place : Place}
    (h : c.place? = some place) (h' : d.place? = some place) : c = d := by
  obtain ⟨_, rfl⟩ := place?_eq_some.mp h
  obtain ⟨_, he⟩ := place?_eq_some.mp h'
  obtain ⟨hsource, hfirst, hsize, hoffset⟩ := Place.mk.inj he
  have hbuffer := hc.eq_of_isSame hd (Buffer.isSame_iff.mpr ⟨hsource, hfirst, hsize⟩)
  cases c
  cases d
  cases hbuffer
  cases hoffset
  rfl

/-! ## Results and calls -/

/-- A use of a memo table: the table and the cursor at which it was asked. -/
structure Call (τ : Type) where
  table : Memo
  start : Cursor τ

namespace Parser

/-- What a parser makes of a cursor, and the calls that it makes itself, in order. The calls that are
made inside of a call are not among them. -/
inductive Parses (grammar : Grammar τ ρ) :
    Parser τ ρ → Cursor τ → Result τ → List (Call τ) → Prop where
  | leaf {l c} : Parses grammar (.leaf l) c (l.run c) []
  | adapt {a p c r ks} (inner : Parses grammar p c r ks) :
      Parses grammar (.adapt a p) c (a.apply c r) ks
  | andThenFail {p q combine c f ks} (first : Parses grammar p c (.error f) ks) :
      Parses grammar (.andThen p q combine) c (.error f) ks
  | andThen {p q combine c m ks r ks'} (first : Parses grammar p c (.ok m) ks)
      (second : Parses grammar q m.stop r ks') :
      Parses grammar (.andThen p q combine) c
        (r.map fun n => ⟨n.stop, combine m.value n.value⟩) (ks ++ ks')
  | orElseFirst {p q c m ks} (first : Parses grammar p c (.ok m) ks) :
      Parses grammar (.orElse p q) c (.ok m) ks
  | orElse {p q c f ks r ks'} (first : Parses grammar p c (.error f) ks)
      (second : Parses grammar q c r ks') : Parses grammar (.orElse p q) c r (ks ++ ks')
  | unrolled {p q c r ks} (hq : p.unrolled? grammar = some q) (inner : Parses grammar q c r ks) :
      Parses grammar p c r ks
  | assign {slot p c r ks} (inner : Parses grammar p c r ks) :
      Parses grammar (.assign slot p) c (r.map fun m => ⟨m.stop, .unit⟩) ks
  | memoAtEnd {table p c r ks} (hc : c.place? = none) (inner : Parses grammar p c r ks) :
      Parses grammar (.memo table p) c r ks
  | memo {table p c place r ks} (hc : c.place? = some place) (inner : Parses grammar p c r ks) :
      Parses grammar (.memo table p) c r [⟨table, c⟩]
  | tally {counter p c r ks} (inner : Parses grammar p c r ks) :
      Parses grammar (.tally counter p) c r ks
  | site {name report p c r ks} (inner : Parses grammar p c r ks) :
      Parses grammar (.site name report p) c r ks
  | scope {on p c r ks} (inner : Parses grammar p c r ks) : Parses grammar (.scope on p) c r ks

section

variable {grammar : Grammar τ ρ} {p q : Parser τ ρ} {c : Cursor τ} {r : Result τ}
  {ks : List (Call τ)}

/-- A parser has one result at a cursor, and makes the same calls each time. -/
theorem Parses.unique (h : Parses grammar p c r ks) {r' : Result τ} {ks' : List (Call τ)}
    (h' : Parses grammar p c r' ks') : r = r' ∧ ks = ks' := by
  induction h generalizing r' ks' with
  | leaf =>
    cases h' with
    | leaf => exact ⟨rfl, rfl⟩
    | unrolled hq _ => cases hq
  | adapt _ ih =>
    cases h' with
    | adapt inner =>
      obtain ⟨rfl, rfl⟩ := ih inner
      exact ⟨rfl, rfl⟩
    | unrolled hq _ => cases hq
  | andThenFail _ ih =>
    cases h' with
    | andThenFail first => exact ih first
    | andThen first _ => cases (ih first).1
    | unrolled hq _ => cases hq
  | andThen _ _ ih₁ ih₂ =>
    cases h' with
    | andThenFail first => cases (ih₁ first).1
    | andThen first second =>
      obtain ⟨he, rfl⟩ := ih₁ first
      cases he
      obtain ⟨rfl, rfl⟩ := ih₂ second
      exact ⟨rfl, rfl⟩
    | unrolled hq _ => cases hq
  | orElseFirst _ ih =>
    cases h' with
    | orElseFirst first => exact ih first
    | orElse first _ => cases (ih first).1
    | unrolled hq _ => cases hq
  | orElse _ _ ih₁ ih₂ =>
    cases h' with
    | orElseFirst first => cases (ih₁ first).1
    | orElse first second =>
      obtain ⟨_, rfl⟩ := ih₁ first
      obtain ⟨rfl, rfl⟩ := ih₂ second
      exact ⟨rfl, rfl⟩
    | unrolled hq _ => cases hq
  | unrolled hq _ ih =>
    cases h' with
    | unrolled hq' inner =>
      rw [hq] at hq'
      cases hq'
      exact ih inner
    | _ => cases hq
  | assign _ ih =>
    cases h' with
    | assign inner =>
      obtain ⟨rfl, rfl⟩ := ih inner
      exact ⟨rfl, rfl⟩
    | unrolled hq _ => cases hq
  | memoAtEnd hc _ ih =>
    cases h' with
    | memoAtEnd _ inner => exact ih inner
    | memo hc' _ => cases hc.symm.trans hc'
    | unrolled hq _ => cases hq
  | memo hc _ ih =>
    cases h' with
    | memoAtEnd hc' _ => cases hc.symm.trans hc'
    | memo _ inner => exact ⟨(ih inner).1, rfl⟩
    | unrolled hq _ => cases hq
  | tally _ ih =>
    cases h' with
    | tally inner => exact ih inner
    | unrolled hq _ => cases hq
  | site _ ih =>
    cases h' with
    | site inner => exact ih inner
    | unrolled hq _ => cases hq
  | scope _ ih =>
    cases h' with
    | scope inner => exact ih inner
    | unrolled hq _ => cases hq

end

end Parser

/-! ## Matches stay in the buffer -/

theorem Leaf.buffer_stop (l : Leaf τ) {c : Cursor τ} {m : Match τ} (h : l.run c = .ok m) :
    m.stop.buffer = c.buffer := by
  cases l with
  | token test atEnd refusal =>
    unfold Leaf.run at h
    dsimp only at h
    split at h
    · cases h
    · split at h
      · cases h
        exact c.buffer_advance
      · cases h
  | remainder =>
    cases h
    rfl
  | endOfInput =>
    unfold Leaf.run at h
    dsimp only at h
    split at h
    · cases h
      rfl
    · cases h
  | succeed value =>
    cases h
    rfl
  | fail cause => cases h

theorem Adapter.buffer_stop (a : Adapter τ) {c : Cursor τ} {r : Result τ}
    (hr : ∀ n, r = .ok n → n.stop.buffer = c.buffer) {m : Match τ} (h : a.apply c r = .ok m) :
    m.stop.buffer = c.buffer := by
  cases r with
  | ok n =>
    have hn := hr n rfl
    cases a with
    | refine f =>
      unfold Adapter.apply at h
      dsimp only at h
      split at h <;> cases h
      exact hn
    | negate => cases h
    | lookAhead =>
      cases h
      rfl
    | _ =>
      cases h
      exact hn
  | error f =>
    cases a with
    | optional =>
      cases h
      rfl
    | negate =>
      cases h
      rfl
    | _ => cases h

namespace Parser

section

variable {grammar : Grammar τ ρ} {p q : Parser τ ρ} {c : Cursor τ} {r : Result τ}
  {ks : List (Call τ)}

theorem Parses.buffer_stop (h : Parses grammar p c r ks) :
    ∀ m, r = .ok m → m.stop.buffer = c.buffer := by
  induction h with
  | leaf => exact fun m hm => Leaf.buffer_stop _ hm
  | adapt _ ih => exact fun m hm => Adapter.buffer_stop _ ih hm
  | andThenFail => exact nofun
  | @andThen _ _ _ _ _ _ r _ _ _ ih₁ ih₂ =>
    intro m hm
    cases r with
    | error f => cases hm
    | ok n =>
      cases hm
      exact (ih₂ n rfl).trans (ih₁ _ rfl)
  | orElseFirst _ ih => exact ih
  | orElse _ _ _ ih => exact ih
  | unrolled _ _ ih => exact ih
  | @assign _ _ _ r _ _ ih =>
    intro m hm
    cases r with
    | error f => cases hm
    | ok n =>
      cases hm
      exact ih n rfl
  | memoAtEnd _ _ ih => exact ih
  | memo _ _ ih => exact ih
  | tally _ ih => exact ih
  | site _ ih => exact ih
  | scope _ ih => exact ih

/-! ## Tables that belong to one parser -/

/-- Every table of the tree is wrapped around the parser that `body` says, everywhere in it. -/
def Uniform (body : Memo → Option (Parser τ ρ)) : Parser τ ρ → Prop
  | .leaf _ => True
  | .adapt _ p => p.Uniform body
  | .andThen p q _ => p.Uniform body ∧ q.Uniform body
  | .orElse p q => p.Uniform body ∧ q.Uniform body
  | .repeated _ p => p.Uniform body
  | .till p q => p.Uniform body ∧ q.Uniform body
  | .delimited p q => p.Uniform body ∧ q.Uniform body
  | .assign _ p => p.Uniform body
  | .memo table p => body table = some p ∧ p.Uniform body
  | .tally _ p => p.Uniform body
  | .rule _ => True
  | .site _ _ p => p.Uniform body
  | .scope _ p => p.Uniform body

variable {body : Memo → Option (Parser τ ρ)}

theorem Uniform.unrolled (rules : ∀ name, (grammar name).Uniform body) (hp : p.Uniform body)
    (hq : p.unrolled? grammar = some q) : q.Uniform body := by
  cases p with
  | repeated limit p =>
    rw [unrolled?] at hq
    split at hq <;> cases hq
    · trivial
    · exact ⟨⟨hp, hp⟩, trivial⟩
  | till p q =>
    cases hq
    exact ⟨hp.2, hp.1, hp⟩
  | delimited p q =>
    cases hq
    exact ⟨⟨hp.1, hp.2, hp⟩, trivial⟩
  | rule name =>
    cases hq
    exact rules name
  | _ => cases hq

/-! ## Calls inside of calls -/

/-- The parser of the table of `k` makes the call `k'` itself, where `k` is made. -/
def Inside (grammar : Grammar τ ρ) (body : Memo → Option (Parser τ ρ)) (k' k : Call τ) : Prop :=
  ∃ q r ks, body k.table = some q ∧ q.Parses grammar k.start r ks ∧ k' ∈ ks

/-- The calls of a parser that has a result go only finitely deep. -/
theorem Parses.acc (rules : ∀ name, (grammar name).Uniform body) (h : Parses grammar p c r ks)
    (hp : p.Uniform body) : ∀ k ∈ ks, Acc (Inside grammar body) k := by
  induction h with
  | leaf => exact nofun
  | adapt _ ih => exact ih hp
  | andThenFail _ ih => exact ih hp.1
  | andThen _ _ ih₁ ih₂ =>
    intro k hk
    rcases List.mem_append.mp hk with hk | hk
    · exact ih₁ hp.1 k hk
    · exact ih₂ hp.2 k hk
  | orElseFirst _ ih => exact ih hp.1
  | orElse _ _ ih₁ ih₂ =>
    intro k hk
    rcases List.mem_append.mp hk with hk | hk
    · exact ih₁ hp.1 k hk
    · exact ih₂ hp.2 k hk
  | unrolled hq _ ih => exact ih (hp.unrolled rules hq)
  | assign _ ih => exact ih hp
  | memoAtEnd _ _ ih => exact ih hp.2
  | memo hc inner ih =>
    obtain ⟨hbody, hp⟩ := hp
    intro k hk
    cases List.mem_singleton.mp hk
    constructor
    rintro k' ⟨q, r', ks', hq, h', hk'⟩
    -- the calls of the table's parser are those that were made here
    cases hbody.symm.trans hq
    obtain ⟨rfl, rfl⟩ := inner.unique h'
    exact ih hp k' hk'
  | tally _ ih => exact ih hp
  | site _ ih => exact ih hp
  | scope _ ih => exact ih hp

/-- No call is made inside of itself. -/
theorem Parses.not_inside (rules : ∀ name, (grammar name).Uniform body) {table : Memo}
    (hbody : body table = some q) (hq : q.Uniform body) (h : Parses grammar q c r ks) :
    ∀ k ∈ ks, ¬ Relation.ReflTransGen (Inside grammar body) ⟨table, c⟩ k := by
  intro k hk hinside
  have step : Inside grammar body k ⟨table, c⟩ := ⟨q, r, ks, hbody, h, hk⟩
  have hacc : Acc (Relation.TransGen (Inside grammar body)) k := (h.acc rules hq k hk).transGen
  have cycle : Relation.TransGen (Inside grammar body) k k := .head' step hinside
  clear step hinside hk
  induction hacc with
  | intro k _ ih => exact ih k cycle cycle

end

end Parser

end Packrat
