import Mathlib.Order.Defs.Unbundled
import Packrat.Proofs.Matching

/-!
# Positions in buffers

The buffers of a program are whole sources and slices of other buffers, and its cursors are the
starts of buffers and what comes of them by moving forward. Such a cursor is told by the identity of
its buffer and its offset: equal contents do not make two buffers one, and neither does a common
first token. Cursors are ordered within their buffer only, and the slices between them add up.

* `Buffer.Made`, `Cursor.Reachable`, `Position`: the buffers and the cursors of a program.
* `Cursor.over_consumed`: a slice reaches from the one cursor to the other.
* `Cursor.LeadsTo.consumed_append`: slices next to each other make one slice.
* `Position.coherent`: identity, order and slices.
-/

namespace Packrat

variable {τ : Type}

/-! ## The buffers and the cursors of a program -/

/-- The buffers that a program makes of its sources: each source as a whole, and parts of buffers
that it has made. -/
inductive Buffer.Made (sources : Nat → Array τ) : Buffer τ → Prop where
  | whole (n : Nat) : Made sources (.ofArray n (sources n))
  | slice {b : Buffer τ} {start stop : Nat} (of : Made sources b) (forward : start ≤ stop)
      (inside : stop ≤ b.size) : Made sources (b.slice start stop)

/-- The cursors that a program reaches from the starts of its buffers. -/
inductive Cursor.Reachable (sources : Nat → Array τ) : Cursor τ → Prop where
  | start {b : Buffer τ} (made : b.Made sources) : Reachable sources (.ofBuffer b)
  | advance {c : Cursor τ} (before : Reachable sources c) : Reachable sources c.advance
  | toEnd {c : Cursor τ} (before : Reachable sources c) : Reachable sources c.toEnd

/-- A cursor that a program reaches. -/
def Position (sources : Nat → Array τ) : Type := { c : Cursor τ // c.Reachable sources }

/-- One cursor is the other or lies before it in the same buffer. -/
def Cursor.notAfter (c d : Cursor τ) : Bool := (c.compare? d).any Ordering.isLE

variable {sources : Nat → Array τ}

theorem Buffer.size_slice {b : Buffer τ} {start stop : Nat} (h : stop ≤ b.size) :
    (b.slice start stop).size = stop - start := by
  rw [slice, size, Array.size_extract]
  change min stop b.size - start = stop - start
  rw [Nat.min_eq_left h]

/-- Two slices of a buffer are one buffer only if they have the same ends. -/
theorem Buffer.isSame_slice_iff {b : Buffer τ} {i j k l : Nat} (hij : i ≤ j) (hj : j ≤ b.size)
    (hkl : k ≤ l) (hl : l ≤ b.size) :
    (b.slice i j).isSame (b.slice k l) = true ↔ i = k ∧ j = l := by
  rw [isSame_iff, size_slice hj, size_slice hl]
  change b.source = b.source ∧ b.first + i = b.first + k ∧ j - i = l - k ↔ i = k ∧ j = l
  omega

theorem Buffer.Made.cutFrom {b : Buffer τ} (h : b.Made sources) : b.CutFrom sources := by
  induction h with
  | whole n => exact .ofArray n
  | slice _ _ _ ih => exact ih.slice _ _

namespace Cursor

variable {a b c d : Cursor τ}

theorem Reachable.cutFrom (h : c.Reachable sources) : c.buffer.CutFrom sources := by
  induction h with
  | start made => exact made.cutFrom
  | advance _ ih =>
    rw [buffer_advance]
    exact ih
  | toEnd _ ih => exact ih

theorem Reachable.inBounds (h : c.Reachable sources) : c.offset ≤ c.buffer.size := by
  induction h with
  | start => exact Nat.zero_le _
  | @advance c _ ih =>
    rw [buffer_advance, Cursor.advance, atEnd]
    split <;> rename_i more
    · exact ih
    · simp only [decide_eq_true_eq] at more
      exact Nat.lt_of_not_le more
  | toEnd => exact Nat.le_refl _

/-! ## Order -/

theorem isSame_iff : c.isSame d = true ↔ c.sharesBuffer d = true ∧ c.offset = d.offset := by
  simp [isSame]

theorem notAfter_iff : c.notAfter d = true ↔ c.sharesBuffer d = true ∧ c.offset ≤ d.offset := by
  unfold notAfter compare?
  split <;> rename_i shares <;> simp [shares, Nat.isLE_compare]

theorem notAfter_refl (c : Cursor τ) : c.notAfter c = true :=
  notAfter_iff.mpr ⟨sharesBuffer_of_eq rfl, Nat.le_refl _⟩

theorem notAfter_trans (h : a.notAfter b = true) (h' : b.notAfter c = true) :
    a.notAfter c = true := by
  obtain ⟨shares, le⟩ := notAfter_iff.mp h
  obtain ⟨shares', le'⟩ := notAfter_iff.mp h'
  exact notAfter_iff.mpr ⟨sharesBuffer_trans shares shares', Nat.le_trans le le'⟩

theorem sharesBuffer_comm (c d : Cursor τ) : c.sharesBuffer d = d.sharesBuffer c := by
  rw [Bool.eq_iff_iff, sharesBuffer_iff, sharesBuffer_iff]
  simp only [eq_comm]

theorem isSome_compare? (c d : Cursor τ) : (c.compare? d).isSome = c.sharesBuffer d := by
  unfold compare?
  split <;> rename_i shares <;> simp [shares]

theorem compare?_swap (c d : Cursor τ) : d.compare? c = (c.compare? d).map Ordering.swap := by
  unfold compare?
  rw [sharesBuffer_comm]
  split
  · rw [Option.map_some, Nat.compare_swap]
  · rfl

theorem compare?_eq_some_eq_iff : c.compare? d = some .eq ↔ c.isSame d = true := by
  rw [isSame_iff]
  unfold compare?
  split <;> rename_i shares <;> simp [shares]

theorem place?_eq_iff (hc : c.atEnd = false) (hd : d.atEnd = false) :
    c.place? = d.place? ↔ c.isSame d = true := by
  simp [isSame_iff, sharesBuffer_iff, place?, hc, hd, and_assoc]

theorem leadsTo_of_notAfter (h : c.notAfter d = true) (hd : d.Reachable sources) :
    c.LeadsTo d := by
  obtain ⟨shares, le⟩ := notAfter_iff.mp h
  exact ⟨shares, le, hd.inBounds⟩

/-- Cursors that share a buffer have the same tokens around them. -/
theorem buffer_eq_of_sharesBuffer (hc : c.Reachable sources) (hd : d.Reachable sources)
    (h : c.sharesBuffer d = true) : d.buffer = c.buffer :=
  (hc.cutFrom.eq_of_isSame hd.cutFrom h).symm

/-! ## Slices -/

/-- What lies between a cursor and one behind it is the slice between them. -/
theorem over_consumed (h : c.LeadsTo d) (same : d.buffer = c.buffer) : c.Over (c.consumed d) d := by
  obtain ⟨-, le, inBounds⟩ := h
  have split : c.remaining = c.remaining.take (d.offset - c.offset) ++
      c.remaining.drop (d.offset - c.offset) := (List.take_append_drop _ _).symm
  have length : (c.remaining.take (d.offset - c.offset)).length = d.offset - c.offset := by
    rw [same] at inBounds
    rw [List.length_take, length_remaining]
    omega
  have reach := over_of_remaining split
  have stop : (⟨c.buffer, c.offset + (c.remaining.take (d.offset - c.offset)).length⟩ :
      Cursor τ) = d := by
    rw [length, Nat.add_sub_cancel' le, ← same]
  rw [stop] at reach
  rw [reach.consumed_eq]
  exact reach

theorem length_consumed (h : c.LeadsTo d) (same : d.buffer = c.buffer) :
    c.offset + (c.consumed d).length = d.offset :=
  (congrArg Cursor.offset (over_consumed h same).stop).symm

theorem sliceTo?_eq_none_of_lt (h : d.offset < c.offset) : c.sliceTo? d = none := by
  simp [sliceTo?, h]

/-- Slices next to each other make one slice. -/
theorem LeadsTo.consumed_append (h : a.LeadsTo b) (h' : b.LeadsTo c) (same : b.buffer = a.buffer)
    (same' : c.buffer = b.buffer) : a.consumed c = a.consumed b ++ b.consumed c :=
  ((over_consumed h same).append (over_consumed h' same')).consumed_eq

end Cursor

/-! ## Coherence -/

namespace Position

/-- Two positions in one buffer with one offset are one position. -/
theorem eq_of_isSame {a b : Position sources} (h : a.1.isSame b.1 = true) : a = b := by
  obtain ⟨shares, offset⟩ := Cursor.isSame_iff.mp h
  have buffer : b.1.buffer = a.1.buffer := Cursor.buffer_eq_of_sharesBuffer a.2 b.2 shares
  apply Subtype.ext
  calc a.1 = ⟨a.1.buffer, a.1.offset⟩ := rfl
    _ = ⟨b.1.buffer, b.1.offset⟩ := by rw [buffer, offset]
    _ = b.1 := rfl

/-- Whoever is not after another and not before it either is at the same place. -/
theorem notAfter_antisymm {a b : Position sources} (h : a.1.notAfter b.1 = true)
    (h' : b.1.notAfter a.1 = true) : a = b := by
  obtain ⟨shares, le⟩ := Cursor.notAfter_iff.mp h
  obtain ⟨-, le'⟩ := Cursor.notAfter_iff.mp h'
  exact eq_of_isSame (Cursor.isSame_iff.mpr ⟨shares, Nat.le_antisymm le le'⟩)

/-- What can be said of all positions in the buffers made of some sources. -/
structure Coherent (sources : Nat → Array τ) : Prop where
  /-- Parts of one buffer are told apart by their ends, however much they overlap. -/
  parts : ∀ b : Buffer τ, b.Made sources → ∀ i j k l, i ≤ j → j ≤ b.size → k ≤ l → l ≤ b.size →
    ((b.slice i j).isSame (b.slice k l) = true ↔ i = k ∧ j = l)
  /-- Before the end of input, the identities are equal if the positions are the same. -/
  identity : ∀ a b : Position sources, a.1.atEnd = false → b.1.atEnd = false →
    (a.1.place? = b.1.place? ↔ a.1.isSame b.1 = true)
  /-- The order is a partial order. -/
  order : IsPartialOrder (Position sources) fun a b => a.1.notAfter b.1 = true
  /-- The comparison the other way round has the opposite answer. -/
  swap : ∀ a b : Position sources, b.1.compare? a.1 = (a.1.compare? b.1).map Ordering.swap
  /-- Positions in one buffer are comparable, and no others. -/
  comparable : ∀ a b : Position sources, (a.1.compare? b.1).isSome = a.1.sharesBuffer b.1
  /-- The comparison says which positions are the same. -/
  equal : ∀ a b : Position sources, a.1.compare? b.1 = some .eq ↔ a.1.isSame b.1 = true
  /-- A slice is made of the slice up to a position in between and the slice from there on. -/
  additive : ∀ a b c : Position sources, a.1.notAfter b.1 = true → b.1.notAfter c.1 = true →
    a.1.consumed c.1 = a.1.consumed b.1 ++ b.1.consumed c.1
  /-- A slice has as many tokens as there are offsets between its ends, and so says the span. -/
  length : ∀ a c : Position sources, a.1.notAfter c.1 = true →
    a.1.offset + (a.1.consumed c.1).length = c.1.offset ∧
      (Span.mk a.1 c.1).length = (a.1.consumed c.1).length
  /-- A span that ends before it begins has no slice and no length. -/
  backward : ∀ a c : Position sources, c.1.offset < a.1.offset →
    (Span.mk a.1 c.1).slice? = none ∧ (Span.mk a.1 c.1).length = 0

/-- Identities, the order and the slices of positions agree with each other, and buffers are told
apart by their places. -/
theorem coherent (sources : Nat → Array τ) : Coherent sources where
  parts _ _ _ _ _ _ hij hj hkl hl := Buffer.isSame_slice_iff hij hj hkl hl
  identity _ _ := Cursor.place?_eq_iff
  order :=
    { refl := fun a => Cursor.notAfter_refl a.1
      trans := fun _ _ _ => Cursor.notAfter_trans
      antisymm := fun _ _ => notAfter_antisymm }
  swap a b := Cursor.compare?_swap a.1 b.1
  comparable a b := Cursor.isSome_compare? a.1 b.1
  equal _ _ := Cursor.compare?_eq_some_eq_iff
  additive a b c hab hbc :=
    (Cursor.leadsTo_of_notAfter hab b.2).consumed_append (Cursor.leadsTo_of_notAfter hbc c.2)
      (Cursor.buffer_eq_of_sharesBuffer a.2 b.2 (Cursor.notAfter_iff.mp hab).1)
      (Cursor.buffer_eq_of_sharesBuffer b.2 c.2 (Cursor.notAfter_iff.mp hbc).1)
  length a c hac := by
    have split : a.1.offset + (a.1.consumed c.1).length = c.1.offset :=
      Cursor.length_consumed (Cursor.leadsTo_of_notAfter hac c.2)
        (Cursor.buffer_eq_of_sharesBuffer a.2 c.2 (Cursor.notAfter_iff.mp hac).1)
    exact ⟨split, by rw [Span.length, ← split, Nat.add_sub_cancel_left]⟩
  backward _ _ h := ⟨Cursor.sliceTo?_eq_none_of_lt h, Nat.sub_eq_zero_of_le (Nat.le_of_lt h)⟩

end Position

end Packrat
