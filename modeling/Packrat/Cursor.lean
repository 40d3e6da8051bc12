/-!
# Buffers, cursors and spans

A buffer is an array of tokens with an identity: the source that it was cut from and the place of
its first token in that source. A cursor is an offset into a buffer, and a span is a pair of
cursors. Two buffers with equal tokens but different identities are different buffers, and no cursor
of one is comparable with a cursor of the other.

* `Cursor.place?`: what tells a cursor from all others, absent at the end of input.
* `Cursor.sliceTo?`: the tokens between two cursors.
-/

namespace Packrat

/-- An array of tokens, cut from the source numbered `source` at the offset `first`. -/
structure Buffer (τ : Type) where
  source : Nat
  first : Nat
  tokens : Array τ
deriving Repr, DecidableEq

namespace Buffer

variable {τ : Type}

/-- A whole source. -/
def ofArray (source : Nat) (tokens : Array τ) : Buffer τ := ⟨source, 0, tokens⟩

/-- The number of tokens. -/
def size (b : Buffer τ) : Nat := b.tokens.size

/-- The part of `b` from the offset `start` up to the offset `stop`. -/
def slice (b : Buffer τ) (start stop : Nat) : Buffer τ :=
  ⟨b.source, b.first + start, b.tokens.extract start stop⟩

/-- Whether two buffers are the same part of the same source. -/
def isSame (a b : Buffer τ) : Bool :=
  a.source == b.source && a.first == b.first && a.size == b.size

end Buffer

/-- The identity of a cursor that is not at the end of input: its buffer's and its offset. -/
structure Place where
  source : Nat
  first : Nat
  size : Nat
  offset : Nat
deriving Repr, DecidableEq

/-- An offset into a buffer. -/
structure Cursor (τ : Type) where
  buffer : Buffer τ
  offset : Nat
deriving Repr, DecidableEq

namespace Cursor

variable {τ : Type}

/-- The start of a buffer. -/
def ofBuffer (b : Buffer τ) : Cursor τ := ⟨b, 0⟩

/-- Whether no token is left. -/
def atEnd (c : Cursor τ) : Bool := c.buffer.size ≤ c.offset

/-- The token under the cursor. -/
def read? (c : Cursor τ) : Option τ := c.buffer.tokens[c.offset]?

/-- The next cursor; at the end of input, the same one. -/
def advance (c : Cursor τ) : Cursor τ := if c.atEnd then c else { c with offset := c.offset + 1 }

/-- The cursor at the end of input. -/
def toEnd (c : Cursor τ) : Cursor τ := { c with offset := c.buffer.size }

/-- The tokens that are left. -/
def remaining (c : Cursor τ) : List τ := c.buffer.tokens.toList.drop c.offset

/-- The first `n` of the tokens that are left. -/
def window (c : Cursor τ) (n : Nat) : List τ :=
  (c.buffer.tokens.extract c.offset (c.offset + n)).toList

/-- Whether two cursors share a buffer. -/
def sharesBuffer (c d : Cursor τ) : Bool := c.buffer.isSame d.buffer

/-- The tokens from `c` up to `d`: none if `c` is at the end of input, if the cursors do not share a
buffer, or if `d` lies before `c`. -/
def sliceTo? (c d : Cursor τ) : Option (List τ) :=
  if c.atEnd || !c.sharesBuffer d || d.offset < c.offset then none
  else some (c.buffer.tokens.extract c.offset d.offset).toList

/-- The tokens from `c` up to `d`, no token where there is no slice. -/
def consumed (c d : Cursor τ) : List τ := (c.sliceTo? d).getD []

/-- The identity of the cursor; the end of input has none. -/
def place? (c : Cursor τ) : Option Place :=
  if c.atEnd then none else some ⟨c.buffer.source, c.buffer.first, c.buffer.size, c.offset⟩

/-- Two cursors are the same when they share a buffer and have one offset. -/
def isSame (c d : Cursor τ) : Bool := c.sharesBuffer d && c.offset == d.offset

/-- The order of two cursors of one buffer. -/
def compare? (c d : Cursor τ) : Option Ordering :=
  if c.sharesBuffer d then some (compare c.offset d.offset) else none

/-- The cursor `n` tokens further, or at the end of input if fewer are left. -/
def advanceBy (c : Cursor τ) : Nat → Cursor τ
  | 0 => c
  | n + 1 => c.advance.advanceBy n

/-- The text of a cursor. -/
def display (c : Cursor τ) : String := s!"cursor({c.offset})"

/-- The text of a cursor with the size of its buffer. -/
def spelling (c : Cursor τ) : String := s!"cursor({c.offset}/{c.buffer.size})"

@[simp] theorem buffer_advance (c : Cursor τ) : c.advance.buffer = c.buffer := by
  unfold advance; split <;> rfl

@[simp] theorem buffer_toEnd (c : Cursor τ) : c.toEnd.buffer = c.buffer := rfl

theorem offset_advance_of_read? {c : Cursor τ} {t : τ} (h : c.read? = some t) :
    c.advance.offset = c.offset + 1 := by
  have : c.offset < c.buffer.tokens.size := (Array.getElem?_eq_some_iff.mp h).1
  have : ¬ c.buffer.size ≤ c.offset := by simpa [Buffer.size] using this
  simp [advance, atEnd, this]

theorem atEnd_iff {c : Cursor τ} : c.atEnd = true ↔ c.buffer.tokens.size ≤ c.offset := by
  unfold atEnd Buffer.size
  exact decide_eq_true_iff

@[simp] theorem read?_eq_none {c : Cursor τ} : c.read? = none ↔ c.atEnd = true := by
  rw [atEnd_iff, read?, Array.getElem?_eq_none_iff]

/-- The token under the cursor is the first of those that are left. -/
theorem head?_remaining (c : Cursor τ) : c.remaining.head? = c.read? := by
  simp [remaining, read?, List.head?_drop]

end Cursor

/-- A pair of cursors. The stop may lie before the start; such a span is empty. -/
structure Span (τ : Type) where
  start : Cursor τ
  stop : Cursor τ
deriving Repr, DecidableEq

namespace Span

variable {τ : Type}

/-- The tokens of the span. -/
def slice? (s : Span τ) : Option (List τ) := s.start.sliceTo? s.stop

/-- The number of tokens from the start to the stop. -/
def length (s : Span τ) : Nat := s.stop.offset - s.start.offset

/-- Whether the span has no length. -/
def isEmpty (s : Span τ) : Bool := s.length == 0

/-- Two spans are the same when their ends are. -/
def isSame (s t : Span τ) : Bool := s.start.isSame t.start && s.stop.isSame t.stop

/-- The text of a span. -/
def spelling (s : Span τ) : String := s!"span({s.start.offset}..{s.stop.offset})"

end Span

end Packrat
