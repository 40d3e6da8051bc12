import Packrat.Characters
import Packrat.Proofs.Bounds

/-!
# Runs do not look behind their start

What stands in a buffer before the start of a run, and how much, makes no difference to the run. A
run in the middle of a buffer goes like a run at the start of the rest of the buffer, which is a
buffer of its own: the ends, the spans in the values and the positions of failures are moved by the
same amount. This presumes that the functions in the tree do not look at the offsets of spans.

* `Run.Matches`: two computations that go alike. It passes through binds.
* `Value.relocate`: a value with the spans of the rest moved into the whole buffer.
* `Parser.Blind`: the functions in a tree commute with the move, each at values of its own kind.
* `Parser.runsAlike`: the run in the whole buffer goes like the run in the rest.
* `Parser.run_rest`: the same from tables in which nothing was entered.
-/

namespace Packrat

variable {τ ρ : Type}

/-! ## Computations that go alike -/

namespace Run

variable {α β γ δ : Type} {Q : Store τ → Store τ → Prop} {A : α → β → Prop} {B : γ → δ → Prop}

/-- From stores related by `Q` either both computations have outcomes or none has. The results are
related by `A`, and the stores are related as before. -/
def Matches (Q : Store τ → Store τ → Prop) (A : α → β → Prop) (x : Run τ α) (y : Run τ β) : Prop :=
  ∀ s s', Q s s' → Option.Rel (fun out out' => A out.1 out'.1 ∧ Q out.2.1 out'.2.1) (x s) (y s')

theorem matches_pure {a : α} {b : β} (h : A a b) :
    Matches Q A (Pure.pure a : Run τ α) (Pure.pure b) :=
  fun _ _ hs => .some ⟨h, hs⟩

theorem matches_modify {f g : Store τ → Store τ} (h : ∀ s s', Q s s' → Q (f s) (g s')) :
    Matches Q (fun _ _ => True) (modify f) (modify g) :=
  fun s s' hs => .some ⟨trivial, h s s' hs⟩

theorem matches_emit (signal signal' : Signal τ) :
    Matches Q (fun _ _ => True) (emit signal) (emit signal') :=
  fun _ _ hs => .some ⟨trivial, hs⟩

theorem Matches.mono {A' : α → β → Prop} {x : Run τ α} {y : Run τ β} (h : Matches Q A x y)
    (hA : ∀ a b, A a b → A' a b) : Matches Q A' x y := by
  intro s s' hs
  have hxy := h s s' hs
  generalize x s = o, y s' = o' at hxy ⊢
  cases hxy with
  | none => exact .none
  | some hout => exact .some ⟨hA _ _ hout.1, hout.2⟩

theorem bind_none {x : Run τ α} {s : Store τ} (hx : x s = none) (f : α → Run τ γ) :
    (x >>= f) s = none := by
  change Run.bind x f s = none
  simp [Run.bind, hx]

theorem Matches.bind {x : Run τ α} {y : Run τ β} (h : Matches Q A x y) {f : α → Run τ γ}
    {g : β → Run τ δ} (hf : ∀ a b, A a b → Matches Q B (f a) (g b)) :
    Matches Q B (x >>= f) (y >>= g) := by
  intro s s' hs
  have hxy := h s s' hs
  cases hx : x s <;> cases hy : y s' <;> rw [hx, hy] at hxy <;> cases hxy
  · rw [bind_none hx, bind_none hy]
    exact .none
  · rename_i out out' hout
    have hfg := hf _ _ hout.1 _ _ hout.2
    rw [bind_apply hx, bind_apply hy]
    generalize f out.1 out.2.1 = o, g out'.1 out'.2.1 = o' at hfg ⊢
    cases hfg with
    | none => exact .none
    | some hout' => exact .some hout'

end Run

/-! ## The rest of a buffer -/

/-- The part of a buffer from the offset `k` on. -/
def Buffer.rest (b : Buffer τ) (k : Nat) : Buffer τ := b.slice k b.size

section

variable (b : Buffer τ) (k i : Nat)

theorem Buffer.size_rest : (b.rest k).size = b.size - k := by
  simp [rest, slice, size]

namespace Cursor

theorem read?_rest : (⟨b.rest k, i⟩ : Cursor τ).read? = (⟨b, k + i⟩ : Cursor τ).read? := by
  by_cases hi : k + i < b.tokens.size
  · have hi' : i < b.tokens.size - k := by omega
    simp [read?, Buffer.rest, Buffer.slice, Buffer.size, hi, hi']
  · have hi' : ¬ i < b.tokens.size - k := by omega
    simp [read?, Buffer.rest, Buffer.slice, Buffer.size, hi, hi']

theorem atEnd_rest : (⟨b.rest k, i⟩ : Cursor τ).atEnd = (⟨b, k + i⟩ : Cursor τ).atEnd := by
  have ends : (b.rest k).size ≤ i ↔ b.size ≤ k + i := by
    rw [Buffer.size_rest]
    omega
  exact decide_eq_decide.mpr ends

theorem remaining_rest :
    (⟨b.rest k, i⟩ : Cursor τ).remaining = (⟨b, k + i⟩ : Cursor τ).remaining := by
  simp [remaining, Buffer.rest, Buffer.slice, Buffer.size, List.take_of_length_le]

theorem advance_rest : ∃ j, (⟨b.rest k, i⟩ : Cursor τ).advance = ⟨b.rest k, j⟩ ∧
    (⟨b, k + i⟩ : Cursor τ).advance = ⟨b, k + j⟩ := by
  unfold advance
  rw [atEnd_rest]
  split
  · exact ⟨i, rfl, rfl⟩
  · exact ⟨i + 1, rfl, rfl⟩

theorem consumed_rest (j : Nat) : (⟨b.rest k, i⟩ : Cursor τ).consumed ⟨b.rest k, j⟩ =
    (⟨b, k + i⟩ : Cursor τ).consumed ⟨b, k + j⟩ := by
  have extracts : ((b.rest k).tokens.extract i j).toList =
      (b.tokens.extract (k + i) (k + j)).toList := by
    simp only [Buffer.rest, Buffer.slice, Buffer.size, Array.toList_extract,
      List.extract_eq_take_drop, List.drop_take, List.drop_drop, List.take_take]
    rw [List.take_eq_take_iff, List.length_drop, Array.length_toList]
    omega
  unfold consumed sliceTo? sharesBuffer
  rw [atEnd_rest, extracts]
  simp [Buffer.isSame]

end Cursor

end

/-! ## Relocated values -/

variable [DecidableEq τ] (b : Buffer τ) (k : Nat)

/-- A cursor of the rest of `b` as a cursor of `b`. Any other cursor stays. -/
def Cursor.relocate (c : Cursor τ) : Cursor τ :=
  if c.buffer = b.rest k then ⟨b, k + c.offset⟩ else c

def Span.relocate (s : Span τ) : Span τ := ⟨s.start.relocate b k, s.stop.relocate b k⟩

namespace Value

mutual

def relocate : Value τ → Value τ
  | .unit => .unit
  | .token t => .token t
  | .text s => .text s
  | .number n => .number n
  | .list vs => .list (relocateAll vs)
  | .pair v w => .pair v.relocate w.relocate
  | .absent => .absent
  | .present v => .present v.relocate
  | .span s => .span (s.relocate b k)
  | .expr e => .expr e

def relocateAll : List (Value τ) → List (Value τ)
  | [] => []
  | v :: vs => v.relocate :: relocateAll vs

end

theorem relocateAll_eq_map (vs : List (Value τ)) : relocateAll b k vs = vs.map (relocate b k) := by
  induction vs with
  | nil => rfl
  | cons v vs ih => rw [relocateAll, ih, List.map_cons]

@[simp] theorem relocate_list (vs : List (Value τ)) :
    relocate b k (.list vs) = .list (vs.map (relocate b k)) := by
  rw [relocate, relocateAll_eq_map]

@[simp] theorem relocate_tokens (ts : List τ) : relocate b k (.tokens ts) = .tokens ts := by
  rw [tokens, relocate_list, List.map_map]
  rfl

variable (v w : Value τ)

@[simp] theorem items_relocate : (v.relocate b k).items = v.items.map (relocate b k) := by
  cases v with
  | list vs => rw [relocate_list, items, items]
  | _ => rfl

@[simp] theorem left_relocate : (v.relocate b k).left = v.left.relocate b k := by
  cases v <;> rfl

@[simp] theorem right_relocate : (v.relocate b k).right = v.right.relocate b k := by
  cases v <;> rfl

@[simp] theorem relocate_cons :
    (v.cons w).relocate b k = (v.relocate b k).cons (w.relocate b k) := by
  simp [cons]

@[simp] theorem relocate_consLeft :
    (v.consLeft w).relocate b k = (v.relocate b k).consLeft (w.relocate b k) := by
  simp [consLeft, relocate]

end Value

/-- The result of a run in `b` beside that of a run in the rest of `b`. Both match or both fail, with
ends and positions `k` apart. The values differ in their spans only, which are `k` apart as well, and
that in the rest satisfies `T`. The causes of failures are equal. -/
inductive Relocated (T : Value τ → Prop) : Result τ → Result τ → Prop where
  | ok {i v} (hv : T v) :
      Relocated T (.ok ⟨⟨b, k + i⟩, v.relocate b k⟩) (.ok ⟨⟨b.rest k, i⟩, v⟩)
  | error {i cause} : Relocated T (.error ⟨k + i, cause⟩) (.error ⟨i, cause⟩)

variable {b k}

theorem Relocated.mono {T T' : Value τ → Prop} (hT : ∀ v, T v → T' v) {r r' : Result τ}
    (h : Relocated b k T r r') : Relocated b k T' r r' := by
  cases h with
  | ok hv => exact .ok (hT _ hv)
  | error => exact .error

theorem Relocated.map {S T : Value τ → Prop} {f g : Value τ → Value τ} {r r' : Result τ}
    (h : Relocated b k S r r') (hT : ∀ v, S v → T (g v))
    (hf : ∀ v, S v → f (v.relocate b k) = (g v).relocate b k) :
    Relocated b k T (r.map fun m => ⟨m.stop, f m.value⟩) (r'.map fun m => ⟨m.stop, g m.value⟩) := by
  cases h with
  | @ok i v hv =>
    have hok := Relocated.ok (b := b) (k := k) (i := i) (hT v hv)
    rw [← hf v hv] at hok
    exact hok
  | error => exact .error

/-! ## Functions that do not look at offsets -/

variable (b k)

/-- The values of a leaf satisfy `T`, and a fixed value has no span that moves. -/
def Leaf.Blind (T : Value τ → Prop) : Leaf τ → Prop
  | .token test _ _ => ∀ t, test t = true → T (.token t)
  | .remainder => ∀ ts, T (.tokens ts)
  | .endOfInput => T .unit
  | .succeed value => T value ∧ value.relocate b k = value
  | .fail _ => True

/-- Values that satisfy `S` become values that satisfy `T`, and it makes no difference whether the
spans are moved before or after. -/
def Adapter.Blind (S T : Value τ → Prop) : Adapter τ → Prop
  | .map f => ∀ v, S v → T (f v) ∧ f (v.relocate b k) = (f v).relocate b k
  | .refine f => ∀ v, S v →
      (∀ w, f v = .ok w → T w) ∧ f (v.relocate b k) = (f v).map (Value.relocate b k)
  | .optional => T .absent ∧ ∀ v, S v → T (.present v)
  | .lookAhead => ∀ v, S v → T v
  | .negate => T .unit
  | .consumed => ∀ ts, T (.tokens ts)
  | .spanned => ∀ s, T (.span s)
  | .within _ => ∀ v, S v → T v
  | .otherwise _ => ∀ v, S v → T v

/-- The kinds of values that the rules give and that the memo tables hold, like the types of rules
and tables in a typed language. -/
structure Kinds (τ ρ : Type) where
  rule : ρ → Value τ → Prop
  table : Memo → Value τ → Prop

/-- The parser gives values that satisfy `T`. For each parser inside of it there is such a condition
on its values, and the functions that are applied to these values do not look at the offsets of
spans. -/
def Parser.Blind (kinds : Kinds τ ρ) : Parser τ ρ → (Value τ → Prop) → Prop
  | .leaf l, T => l.Blind b k T
  | .adapt a p, T => ∃ S, p.Blind kinds S ∧ a.Blind b k S T
  | .andThen p q combine, T => ∃ S S', p.Blind kinds S ∧ q.Blind kinds S' ∧ ∀ v w, S v → S' w →
      T (combine v w) ∧
        combine (v.relocate b k) (w.relocate b k) = (combine v w).relocate b k
  | .orElse p q, T => p.Blind kinds T ∧ q.Blind kinds T
  | .repeated _ p, T => ∃ S, p.Blind kinds S ∧ ∀ vs, (∀ v ∈ vs, S v) → T (.list vs)
  | .till body stop, T => ∃ S S', body.Blind kinds S ∧ stop.Blind kinds S' ∧
      ∀ vs w, (∀ v ∈ vs, S v) → S' w → T (.pair (.list vs) w)
  | .delimited delimiter item, T => (∃ D, delimiter.Blind kinds D) ∧
      ∃ S, item.Blind kinds S ∧ ∀ vs, (∀ v ∈ vs, S v) → T (.list vs)
  | .assign _ p, T => (∃ S, p.Blind kinds S) ∧ T .unit
  | .memo table p, T => p.Blind kinds (kinds.table table) ∧ ∀ v, kinds.table table v → T v
  | .tally _ p, T => p.Blind kinds T
  | .rule name, T => ∀ v, kinds.rule name v → T v
  | .site _ _ p, T => p.Blind kinds T
  | .scope _ p, T => p.Blind kinds T

/-! ## Leaves and adapters -/

variable {b k} {T : Value τ → Prop}

theorem Leaf.run_relocated {l : Leaf τ} (hl : l.Blind b k T) (hk : k ≤ b.size) (i : Nat) :
    Relocated b k T (l.run ⟨b, k + i⟩) (l.run ⟨b.rest k, i⟩) := by
  cases l with
  | token test atEnd refusal =>
    obtain ⟨j, hrest, hwhole⟩ := Cursor.advance_rest b k i
    simp only [run, Cursor.read?_rest, hrest, hwhole]
    split
    · exact .error
    · split
      · rename_i passes
        exact .ok (hl _ passes)
      · exact .error
  | remainder =>
    have hstop : b.size = k + (b.rest k).size := by
      rw [Buffer.size_rest]
      omega
    have hwhole : (⟨b, k + i⟩ : Cursor τ).toEnd = ⟨b, k + (b.rest k).size⟩ := by
      rw [← hstop]
      rfl
    have h := Relocated.ok (b := b) (k := k) (i := (b.rest k).size)
      (hl (Cursor.remaining ⟨b, k + i⟩))
    rw [Value.relocate_tokens] at h
    rw [run, run, Cursor.remaining_rest, hwhole]
    exact h
  | endOfInput =>
    simp only [run, Cursor.atEnd_rest]
    split
    · exact .ok (v := .unit) hl
    · exact .error
  | succeed value =>
    -- no span in a fixed value moves, so it is the same value in both buffers
    have h := Relocated.ok (b := b) (k := k) (i := i) hl.1
    rw [hl.2] at h
    exact h
  | fail cause => exact .error

theorem Adapter.apply_relocated {a : Adapter τ} {S : Value τ → Prop} (ha : a.Blind b k S T)
    {i : Nat} {r r' : Result τ} (hr : Relocated b k S r r') :
    Relocated b k T (a.apply ⟨b, k + i⟩ r) (a.apply ⟨b.rest k, i⟩ r') := by
  cases hr with
  | @ok j v hv =>
    cases a with
    | map f =>
      obtain ⟨hT, hf⟩ := ha v hv
      simp only [apply, hf]
      exact .ok hT
    | refine f =>
      obtain ⟨hT, hf⟩ := ha v hv
      simp only [apply, hf]
      cases hfv : f v with
      | ok w => exact .ok (hT w hfv)
      | error cause => exact .error
    | optional => exact .ok (v := .present v) (ha.2 v hv)
    | lookAhead => exact .ok (ha v hv)
    | negate => exact .error
    | consumed =>
      have h := Relocated.ok (b := b) (k := k) (i := j) (ha (Cursor.consumed ⟨b, k + i⟩ ⟨b, k + j⟩))
      rw [Value.relocate_tokens] at h
      simp only [apply, Cursor.consumed_rest]
      exact h
    | spanned =>
      have h := Relocated.ok (b := b) (k := k) (i := j) (ha ⟨⟨b.rest k, i⟩, ⟨b.rest k, j⟩⟩)
      simp only [Value.relocate, Span.relocate, Cursor.relocate, if_true] at h
      exact h
    | within action => exact .ok (ha v hv)
    | otherwise cause => exact .ok (ha v hv)
  | error =>
    cases a with
    | optional => exact .ok (v := .absent) ha.1
    | negate => exact .ok (v := .unit) ha
    | _ => exact .error

/-! ## Stores -/

/-- The answers in the tables of two stores, the first for places in `b` and the second for those in
the rest of `b`. -/
def Store.Relocated (b : Buffer τ) (k : Nat) (kinds : Kinds τ ρ) (s s' : Store τ) : Prop :=
  ∀ memo i place place', (⟨b, k + i⟩ : Cursor τ).place? = some place →
    (⟨b.rest k, i⟩ : Cursor τ).place? = some place' →
    Option.Rel (Packrat.Relocated b k (kinds.table memo)) ((s.table memo).find? place)
      ((s'.table memo).find? place')

namespace Store.Relocated

variable {kinds : Kinds τ ρ} {s s' t t' : Store τ}

theorem of_fresh (fresh : ∀ memo place, (s.table memo).find? place = none)
    (fresh' : ∀ memo place, (s'.table memo).find? place = none) : s.Relocated b k kinds s' := by
  intro memo i place place' _ _
  rw [fresh, fresh']
  exact .none

theorem of_tables (hs : s.Relocated b k kinds s')
    (ht : ∀ memo place, (t.table memo).find? place = (s.table memo).find? place)
    (ht' : ∀ memo place, (t'.table memo).find? place = (s'.table memo).find? place) :
    t.Relocated b k kinds t' := by
  intro memo i place place' hplace hplace'
  rw [ht, ht']
  exact hs memo i place place' hplace hplace'

theorem opened (hs : s.Relocated b k kinds s') (memo : Memo) :
    (s.opened memo).Relocated b k kinds (s'.opened memo) :=
  hs.of_tables (find?_opened s memo) (find?_opened s' memo)

theorem hit (hs : s.Relocated b k kinds s') (memo : Memo) :
    (s.hit memo).Relocated b k kinds (s'.hit memo) :=
  hs.of_tables (find?_hit s memo) (find?_hit s' memo)

theorem entered (hs : s.Relocated b k kinds s') {memo : Memo} {i : Nat} {place place' : Place}
    (hplace : (⟨b, k + i⟩ : Cursor τ).place? = some place)
    (hplace' : (⟨b.rest k, i⟩ : Cursor τ).place? = some place') {r r' : Result τ}
    (hr : Packrat.Relocated b k (kinds.table memo) r r') :
    (s.entered memo place r).Relocated b k kinds (s'.entered memo place' r') := by
  intro memo' j q q' hq hq'
  -- within one buffer, places differ in their offsets only
  have same : place = q ↔ place' = q' := by
    obtain ⟨-, rfl⟩ := Cursor.place?_eq_some.mp hplace
    obtain ⟨-, rfl⟩ := Cursor.place?_eq_some.mp hplace'
    obtain ⟨-, rfl⟩ := Cursor.place?_eq_some.mp hq
    obtain ⟨-, rfl⟩ := Cursor.place?_eq_some.mp hq'
    simp
  have before := hs memo' j q q' hq hq'
  rw [table_entered, table_entered]
  by_cases hmemo : memo = memo'
  · subst hmemo
    simp only [if_true, Table.remember, Table.find?, Registry.find?_insert]
    by_cases hhere : place = q
    · rw [if_pos hhere, if_pos (same.mp hhere)]
      exact .some hr
    · rw [if_neg hhere, if_neg (fun h => hhere (same.mpr h))]
      exact before
  · simpa [hmemo] using before

end Store.Relocated

/-! ## The run in the whole buffer and the run in the rest -/

/-- A list of values that satisfy `S`. -/
def Value.ListOf (S : Value τ → Prop) (v : Value τ) : Prop := ∃ vs, v = .list vs ∧ ∀ w ∈ vs, S w

namespace Parser

variable {grammar : Grammar τ ρ} {kinds : Kinds τ ρ} {fuel : Nat}

/-- With so much fuel, every parser whose functions do not look at the offsets of spans goes alike
in the whole buffer and in the rest. -/
def RunsAlike (b : Buffer τ) (k : Nat) (kinds : Kinds τ ρ) (grammar : Grammar τ ρ)
    (fuel : Nat) : Prop :=
  ∀ ctx p T i, p.Blind b k kinds T →
    Run.Matches (Store.Relocated b k kinds) (Relocated b k T)
      (run grammar fuel ctx p ⟨b, k + i⟩) (run grammar fuel ctx p ⟨b.rest k, i⟩)

section Step

variable (ih : RunsAlike b k kinds grammar fuel) (ctx : Context) {i : Nat}
include ih

theorem matches_andThen {p q : Parser τ ρ} {combine : Value τ → Value τ → Value τ}
    (h : (Parser.andThen p q combine).Blind b k kinds T) :
    Run.Matches (Store.Relocated b k kinds) (Relocated b k T)
      (run grammar (fuel + 1) ctx (.andThen p q combine) ⟨b, k + i⟩)
      (run grammar (fuel + 1) ctx (.andThen p q combine) ⟨b.rest k, i⟩) := by
  obtain ⟨S, S', hp, hq, hcombine⟩ := h
  rw [run_andThen, run_andThen]
  refine (ih ctx p S i hp).bind fun r r' hr => ?_
  cases hr with
  | error => exact Run.matches_pure .error
  | @ok j v hv =>
    refine (ih ctx q S' j hq).bind fun r r' hr => Run.matches_pure ?_
    exact hr.map (fun w hw => (hcombine v w hv hw).1) fun w hw => (hcombine v w hv hw).2

theorem matches_orElse {p q : Parser τ ρ} (h : (Parser.orElse p q).Blind b k kinds T) :
    Run.Matches (Store.Relocated b k kinds) (Relocated b k T)
      (run grammar (fuel + 1) ctx (.orElse p q) ⟨b, k + i⟩)
      (run grammar (fuel + 1) ctx (.orElse p q) ⟨b.rest k, i⟩) := by
  rw [run_orElse, run_orElse]
  refine (ih ctx p T i h.1).bind fun r r' hr => ?_
  cases hr with
  | ok hv => exact Run.matches_pure (.ok hv)
  | error => exact ih ctx q T i h.2

theorem matches_repeated {limit : Option Nat} {p : Parser τ ρ} {S : Value τ → Prop}
    (hp : p.Blind b k kinds S) :
    Run.Matches (Store.Relocated b k kinds) (Relocated b k (Value.ListOf S))
      (run grammar (fuel + 1) ctx (.repeated limit p) ⟨b, k + i⟩)
      (run grammar (fuel + 1) ctx (.repeated limit p) ⟨b.rest k, i⟩) := by
  have none : Relocated b k (Value.ListOf S) (.ok ⟨⟨b, k + i⟩, .list []⟩)
      (.ok ⟨⟨b.rest k, i⟩, .list []⟩) := .ok (v := .list []) ⟨[], rfl, nofun⟩
  rw [run_repeated, run_repeated]
  split
  · exact Run.matches_pure none
  · refine (ih ctx p S i hp).bind fun r r' hr => ?_
    cases hr with
    | error => exact Run.matches_pure none
    | @ok j v hv =>
      -- that the rest gives a list of such values is more than the kind of the whole may tell
      refine (ih ctx (.repeated _ p) (Value.ListOf S) j
        ⟨S, hp, fun vs hvs => ⟨vs, rfl, hvs⟩⟩).bind fun r r' hr => Run.matches_pure ?_
      refine hr.map ?_ fun w _ => (Value.relocate_cons b k v w).symm
      rintro _ ⟨vs, rfl, hvs⟩
      exact ⟨v :: vs, rfl, List.forall_mem_cons.mpr ⟨hv, hvs⟩⟩

theorem matches_till {body stop : Parser τ ρ} (h : (Parser.till body stop).Blind b k kinds T) :
    Run.Matches (Store.Relocated b k kinds) (Relocated b k T)
      (run grammar (fuel + 1) ctx (.till body stop) ⟨b, k + i⟩)
      (run grammar (fuel + 1) ctx (.till body stop) ⟨b.rest k, i⟩) := by
  obtain ⟨S, S', hbody, hstop, hT⟩ := h
  -- the rest of the loop gives a pair as well
  let Pairs (v : Value τ) : Prop := ∃ vs w, v = .pair (.list vs) w ∧ (∀ v ∈ vs, S v) ∧ S' w
  have pairs : (Parser.till body stop).Blind b k kinds Pairs :=
    ⟨S, S', hbody, hstop, fun vs w hvs hw => ⟨vs, w, rfl, hvs, hw⟩⟩
  rw [run_till, run_till]
  refine (ih ctx stop S' i hstop).bind fun r r' hr => ?_
  cases hr with
  | @ok j w hw =>
    have h := Relocated.ok (b := b) (k := k) (i := j) (hT [] w nofun hw)
    simp only [Value.relocate, Value.relocateAll] at h
    exact Run.matches_pure h
  | error =>
    refine (ih ctx body S i hbody).bind fun r r' hr => ?_
    cases hr with
    | error => exact Run.matches_pure .error
    | @ok j v hv =>
      refine (ih ctx _ Pairs j pairs).bind fun r r' hr => Run.matches_pure ?_
      refine hr.map ?_ fun w _ => (Value.relocate_consLeft b k v w).symm
      rintro _ ⟨vs, w, rfl, hvs, hw⟩
      exact hT (v :: vs) w (List.forall_mem_cons.mpr ⟨hv, hvs⟩) hw

theorem matches_delimited {delimiter item : Parser τ ρ} {D S : Value τ → Prop}
    (hdelimiter : delimiter.Blind b k kinds D) (hitem : item.Blind b k kinds S) :
    Run.Matches (Store.Relocated b k kinds) (Relocated b k (Value.ListOf S))
      (run grammar (fuel + 1) ctx (.delimited delimiter item) ⟨b, k + i⟩)
      (run grammar (fuel + 1) ctx (.delimited delimiter item) ⟨b.rest k, i⟩) := by
  have none : Relocated b k (Value.ListOf S) (.ok ⟨⟨b, k + i⟩, .list []⟩)
      (.ok ⟨⟨b.rest k, i⟩, .list []⟩) := .ok (v := .list []) ⟨[], rfl, nofun⟩
  rw [run_delimited, run_delimited]
  refine (ih ctx delimiter D i hdelimiter).bind fun r r' hr => ?_
  cases hr with
  | error => exact Run.matches_pure none
  | @ok j =>
    refine (ih ctx item S j hitem).bind fun r r' hr => ?_
    cases hr with
    | error => exact Run.matches_pure none
    | @ok j v hv =>
      refine (ih ctx (.delimited delimiter item) (Value.ListOf S) j
        ⟨⟨D, hdelimiter⟩, S, hitem, fun vs hvs => ⟨vs, rfl, hvs⟩⟩).bind
        fun r r' hr => Run.matches_pure ?_
      refine hr.map ?_ fun w _ => (Value.relocate_cons b k v w).symm
      rintro _ ⟨vs, rfl, hvs⟩
      exact ⟨v :: vs, rfl, List.forall_mem_cons.mpr ⟨hv, hvs⟩⟩

theorem matches_memo {table : Memo} {p : Parser τ ρ}
    (hp : p.Blind b k kinds (kinds.table table)) :
    Run.Matches (Store.Relocated b k kinds) (Relocated b k (kinds.table table))
      (run grammar (fuel + 1) ctx (.memo table p) ⟨b, k + i⟩)
      (run grammar (fuel + 1) ctx (.memo table p) ⟨b.rest k, i⟩) := by
  have inner := ih ctx p _ i hp
  cases hend : (⟨b, k + i⟩ : Cursor τ).atEnd with
  | true =>
    have hplace : (⟨b, k + i⟩ : Cursor τ).place? = none := by simp [Cursor.place?, hend]
    have hplace' : (⟨b.rest k, i⟩ : Cursor τ).place? = none := by
      simp [Cursor.place?, Cursor.atEnd_rest, hend]
    simpa only [run, hplace, hplace'] using inner
  | false =>
    obtain ⟨place, hplace⟩ : ∃ place, (⟨b, k + i⟩ : Cursor τ).place? = some place := by
      simp [Cursor.place?, hend]
    obtain ⟨place', hplace'⟩ : ∃ place, (⟨b.rest k, i⟩ : Cursor τ).place? = some place := by
      simp [Cursor.place?, Cursor.atEnd_rest, hend]
    simp only [run, hplace, hplace']
    have consults : Run.Matches (Store.Relocated b k kinds)
        (Option.Rel (Relocated b k (kinds.table table))) (Run.consult table place)
        (Run.consult table place') := by
      intro s s' hs
      have found := hs table i place place' hplace hplace'
      unfold Run.consult
      cases h : (s.table table).find? place <;> cases h' : (s'.table table).find? place' <;>
        rw [h, h'] at found <;> cases found
      · rw [Store.consult_of_none h, Store.consult_of_none h']
        exact .some ⟨.none, hs.opened table⟩
      · rename_i hr
        rw [Store.consult_of_some h, Store.consult_of_some h']
        exact .some ⟨.some hr, (hs.opened table).hit table⟩
    refine consults.bind fun found found' hfound => ?_
    cases hfound with
    | some hr => exact Run.matches_pure hr
    | none =>
      refine inner.bind fun r r' hr => ?_
      refine Run.Matches.bind (A := fun _ _ => True) ?_ fun _ _ _ => Run.matches_pure hr
      exact fun s s' hs => .some ⟨trivial, hs.entered hplace hplace' hr⟩

end Step

theorem runsAlike (hk : k ≤ b.size)
    (rules : ∀ name, (grammar name).Blind b k kinds (kinds.rule name)) (fuel : Nat) :
    RunsAlike b k kinds grammar fuel := by
  induction fuel with
  | zero => exact fun _ _ _ _ _ _ _ _ => .none
  | succ fuel ih =>
    intro ctx p T i hp
    cases p with
    | leaf l => exact Run.matches_pure (Leaf.run_relocated hp hk i)
    | adapt a p =>
      obtain ⟨S, hp, ha⟩ := hp
      rw [run_adapt, run_adapt]
      exact (ih ctx p S i hp).bind fun r r' hr => Run.matches_pure (Adapter.apply_relocated ha hr)
    | andThen p q combine => exact matches_andThen ih ctx hp
    | orElse p q => exact matches_orElse ih ctx hp
    | repeated limit p =>
      obtain ⟨S, hp, hT⟩ := hp
      refine (matches_repeated ih ctx hp).mono fun r r' hr => hr.mono ?_
      rintro _ ⟨vs, rfl, hvs⟩
      exact hT vs hvs
    | till body stop => exact matches_till ih ctx hp
    | delimited delimiter item =>
      obtain ⟨⟨D, hdelimiter⟩, S, hitem, hT⟩ := hp
      refine (matches_delimited ih ctx hdelimiter hitem).mono fun r r' hr => hr.mono ?_
      rintro _ ⟨vs, rfl, hvs⟩
      exact hT vs hvs
    | assign slot p =>
      obtain ⟨⟨S, hp⟩, hT⟩ := hp
      refine (ih ctx p S i hp).bind fun r r' hr => ?_
      cases hr with
      | error => exact Run.matches_pure .error
      | ok =>
        refine (Run.matches_modify fun s s' hs => ?_).bind fun _ _ _ =>
          Run.matches_pure (.ok (v := .unit) hT)
        exact hs.of_tables (fun _ _ => rfl) fun _ _ => rfl
    | memo table p => exact (matches_memo ih ctx hp.1).mono fun r r' hr => hr.mono hp.2
    | tally counter p =>
      refine (Run.matches_modify fun s s' hs => ?_).bind fun _ _ _ => ih ctx p T i hp
      exact hs.of_tables (fun _ _ => rfl) fun _ _ => rfl
    | rule name => exact (ih ctx _ _ i (rules name)).mono fun r r' hr => hr.mono hp
    | site name report p =>
      have inner := ih ctx p T i hp
      rw [run, run]
      split
      · refine (Run.matches_emit _ _).bind fun _ _ _ => inner.bind fun r r' hr => ?_
        exact (Run.matches_emit _ _).bind fun _ _ _ => Run.matches_pure hr
      · exact inner
    | scope on p => exact ih (ctx.inScope on) p T i hp

/-- A run at the offset `k` of a buffer against a run at the start of the rest of the buffer, each
from tables in which nothing was entered: both return or none does, and if both return, both match
or both fail, with ends, spans and positions `k` apart and with equal causes. -/
theorem run_rest (hk : k ≤ b.size)
    (rules : ∀ name, (grammar name).Blind b k kinds (kinds.rule name)) {p : Parser τ ρ}
    (hp : p.Blind b k kinds T) (ctx : Context) {s s' : Store τ}
    (fresh : ∀ memo place, (s.table memo).find? place = none)
    (fresh' : ∀ memo place, (s'.table memo).find? place = none) :
    (p.Terminates grammar ctx ⟨b, k⟩ s ↔ p.Terminates grammar ctx (.ofBuffer (b.rest k)) s') ∧
      ∀ {fuel fuel' r r' t t' signals signals'},
        p.run grammar fuel ctx ⟨b, k⟩ s = some (r, t, signals) →
        p.run grammar fuel' ctx (.ofBuffer (b.rest k)) s' = some (r', t', signals') →
          Relocated b k T r r' := by
  have both : ∀ fuel, Option.Rel
      (fun out out' => Relocated b k T out.1 out'.1 ∧ out.2.1.Relocated b k kinds out'.2.1)
      (p.run grammar fuel ctx ⟨b, k⟩ s) (p.run grammar fuel ctx (.ofBuffer (b.rest k)) s') :=
    fun fuel => runsAlike hk rules fuel ctx p T 0 hp s s' (.of_fresh fresh fresh')
  refine ⟨exists_congr fun fuel => ?_, ?_⟩
  · have h := both fuel
    generalize p.run grammar fuel ctx ⟨b, k⟩ s = o,
      p.run grammar fuel ctx (.ofBuffer (b.rest k)) s' = o' at h
    cases h <;> rfl
  · intro fuel fuel' r r' t t' signals signals' hrun hrun'
    have h := both (max fuel fuel')
    rw [run_below grammar (Nat.le_max_left fuel fuel') ctx p _ _ _ hrun,
      run_below grammar (Nat.le_max_right fuel fuel') ctx p _ _ _ hrun'] at h
    cases h with
    | some hout => exact hout.1

/-! ### Combinators of the library -/

section

variable {S S' : Value τ → Prop} {p q : Parser τ ρ}

theorem Blind.spanned (hp : p.Blind b k kinds S) (hT : ∀ s, T (.span s)) :
    p.spanned.Blind b k kinds T :=
  ⟨S, hp, hT⟩

theorem Blind.both (hp : p.Blind b k kinds S) (hq : q.Blind b k kinds S')
    (hT : ∀ v w, S v → S' w → T (.pair v w)) : (p.both q).Blind b k kinds T :=
  ⟨S, S', hp, hq, fun v w hv hw => ⟨hT v w hv hw, rfl⟩⟩

theorem Blind.many (hp : p.Blind b k kinds S) : p.many.Blind b k kinds (Value.ListOf S) :=
  ⟨S, hp, fun vs hvs => ⟨vs, rfl, hvs⟩⟩

theorem blind_cons (hp : p.Blind b k kinds S) (hq : q.Blind b k kinds (Value.ListOf S)) :
    (Parser.andThen p q .cons).Blind b k kinds (Value.ListOf S) := by
  refine ⟨S, Value.ListOf S, hp, hq, ?_⟩
  rintro v _ hv ⟨vs, rfl, hvs⟩
  exact ⟨⟨v :: vs, rfl, List.forall_mem_cons.mpr ⟨hv, hvs⟩⟩, (Value.relocate_cons b k _ _).symm⟩

theorem Blind.many1 (hp : p.Blind b k kinds S) : p.many1.Blind b k kinds (Value.ListOf S) :=
  blind_cons (p := .adapt (.within "many1") p) ⟨S, hp, fun _ hv => hv⟩
    ⟨S, hp, fun vs hvs => ⟨vs, rfl, hvs⟩⟩

theorem blind_nothing : (nothing (.list []) : Parser τ ρ).Blind b k kinds (Value.ListOf S) :=
  ⟨⟨[], rfl, nofun⟩, Value.relocate_list b k []⟩

theorem blind_inOrder {ps : List (Parser τ ρ)} (h : ∀ p ∈ ps, p.Blind b k kinds S) :
    (inOrder ps).Blind b k kinds (Value.ListOf S) := by
  change (Parts.eachOfList (nothing .unit) ps).Blind b k kinds (Value.ListOf S)
  induction ps with
  | nil => exact blind_nothing
  | cons p ps ih =>
    obtain ⟨hp, hps⟩ := List.forall_mem_cons.mp h
    refine blind_cons ?_ (ih hps)
    exact ⟨fun _ => True, S, ⟨trivial, rfl⟩, hp, fun v w _ hw => ⟨hw, rfl⟩⟩

theorem blind_choice {ps : List (Parser τ ρ)} (h : ∀ p ∈ ps, p.Blind b k kinds T) :
    (choice ps).Blind b k kinds T := by
  have first : (Parts.firstOfList ps).Blind b k kinds T := by
    induction ps with
    | nil => trivial
    | cons p ps ih =>
      obtain ⟨hp, hps⟩ := List.forall_mem_cons.mp h
      exact ⟨hp, ih hps⟩
  exact ⟨T, first, fun _ hv => hv⟩

end

section

variable {b : Buffer Char} {kinds : Kinds Char ρ} {S T : Value Char → Prop} {p : Parser Char ρ}

/-- Values without spans that move may be joined, although a span would be spelled with its
offsets. -/
theorem Blind.joined (hp : p.Blind b k kinds S) (hS : ∀ v, S v → v.relocate b k = v)
    (hT : ∀ s, T (.text s)) : p.joined.Blind b k kinds T := by
  refine ⟨S, hp, fun v hv => ⟨hT _, ?_⟩⟩
  rw [hS v hv]
  rfl

theorem Blind.written (hp : p.Blind b k kinds S) (hT : ∀ s, T (.text s)) :
    p.written.Blind b k kinds T := by
  have unmoved : ∀ v : Value Char, (∃ ts, v = .tokens ts) → v.relocate b k = v := by
    rintro _ ⟨ts, rfl⟩
    exact Value.relocate_tokens b k ts
  exact Blind.joined ⟨S, hp, fun ts => ⟨ts, rfl⟩⟩ unmoved hT

theorem blind_tag (text : String) (hT : ∀ s, T (.text s)) :
    (tag text : Parser Char ρ).Blind b k kinds T := by
  let Still (v : Value Char) : Prop := v.relocate b k = v
  have letters : ∀ p ∈ text.toList.map exactly, (p : Parser Char ρ).Blind b k kinds Still := by
    intro p hp
    obtain ⟨c, -, rfl⟩ := List.mem_map.mp hp
    exact fun _ _ => rfl
  refine (blind_inOrder letters).joined ?_ hT
  rintro _ ⟨vs, rfl, hvs⟩
  rw [Value.relocate_list, List.map_congr_left hvs, List.map_id']

end

/-- The span of the next letters, looked up once and then answered from a table, and a text after
them. -/
theorem run_rest_of_letters :
    let b : Buffer Char := .ofArray 0 #['x', 'x', 'a', 'a', 'b']
    let letters : Parser Char Empty := .memoized ⟨0, "letters"⟩ (.spanned (.many1 (.exactly 'a')))
    let p := letters.lookAhead.both (inOrder [letters, choice [tag "c", written (many anyToken)]])
    ∃ out out' v, p.run nofun 20 .plain ⟨b, 2⟩ ∅ = some out ∧
      p.run nofun 20 .plain (.ofBuffer (b.rest 2)) ∅ = some out' ∧
      out.1 = .ok ⟨⟨b, 5⟩, v.relocate b 2⟩ ∧ out'.1 = .ok ⟨⟨b.rest 2, 3⟩, v⟩ := by
  intro b letters p
  let Any : Value Char → Prop := fun _ => True
  let kinds : Kinds Char Empty := ⟨nofun, fun _ => Any⟩
  have letter : (Parser.exactly 'a').Blind b 2 kinds Any := fun _ _ => trivial
  have hletters : letters.Blind b 2 kinds Any :=
    ⟨letter.many1.spanned fun _ => trivial, fun _ _ => trivial⟩
  have ahead : letters.lookAhead.Blind b 2 kinds Any := ⟨Any, hletters, fun _ _ => trivial⟩
  have rest : (Parser.anyToken : Parser Char Empty).Blind b 2 kinds Any := fun _ _ => trivial
  have text : (choice [tag "c", written (many anyToken)]).Blind b 2 kinds Any := by
    refine blind_choice (List.forall_mem_cons.mpr ⟨?_, List.forall_mem_singleton.mpr ?_⟩)
    · exact blind_tag "c" fun _ => trivial
    · exact rest.many.written fun _ => trivial
  have parts : (inOrder [letters, choice [tag "c", written (many anyToken)]]).Blind b 2 kinds
      (Value.ListOf Any) :=
    blind_inOrder (List.forall_mem_cons.mpr ⟨hletters, List.forall_mem_singleton.mpr text⟩)
  have hp : p.Blind b 2 kinds Any := ahead.both parts fun _ _ _ _ => trivial
  have returns : (p.run nofun 20 .plain ⟨b, 2⟩ ∅).isSome := by decide +kernel
  have returns' : (p.run nofun 20 .plain (.ofBuffer (b.rest 2)) ∅).map
      (·.1.toOption.map (·.stop.offset)) = some (some 3) := by
    decide +kernel
  obtain ⟨⟨r, t, signals⟩, h⟩ := Option.isSome_iff_exists.mp returns
  obtain ⟨⟨r', t', signals'⟩, h', hr'⟩ := Option.map_eq_some_iff.mp returns'
  have related := (run_rest (by decide) nofun hp .plain (fun _ _ => rfl) fun _ _ => rfl).2 h h'
  cases related with
  | @ok i v =>
    cases hr'
    exact ⟨_, _, v, h, h', rfl, rfl⟩
  | error => cases hr'

end Parser

end Packrat
