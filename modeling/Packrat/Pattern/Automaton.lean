import Packrat.Pattern.Shape
import Packrat.Text.ByteRanges

/-!
# Automata of patterns

A shape unfolds to two automata over the bytes of UTF-8, one that reads a text from its start and one
that reads it from its end. A pattern is too large if one of them takes too much space, so the
automata are built here as far as their size goes: the states are counted, and the bytes that edges
take beside them.

States for the bytes of a set of characters are shared with the help of tables of bounded size. A
state that fell out of its table is made once more, which is why the tables are part of what is built.
All these states lead to one new state, so those of an earlier set are never found again.

* `Automaton.grow`: more states and edges, within the limit.
* `Automaton.ofShape`: the part of an automaton for a shape.
* `Automaton.build`: the automaton for a shape.
* `Shape.fits`: whether both automata of a shape stay within the limit.
-/

namespace Packrat

/-- The end of the text from which an automaton reads. -/
inductive Direction where
  | forward
  | backward
deriving Repr, DecidableEq

/-- An edge that reads a byte of a range, and the state at its other end. -/
structure ByteEdge where
  first : Nat
  last : Nat
  state : Nat
deriving Repr, DecidableEq

/-- What is known of an automaton that is being built. -/
structure Automaton where
  /-- The number of states. States are numbered from zero on. -/
  states : Nat
  /-- The bytes that edges take beside the states. -/
  edgeBytes : Nat
  /-- Whether the part that was built last ends in a state that forks. -/
  endsInFork : Bool
  /-- States that read forwards, with the edges that leave them. -/
  leaving : Array (Option (List ByteEdge × Nat))
  /-- States that read backwards, each with its only edge. -/
  entering : Array (Option (ByteEdge × Nat))
deriving Repr, DecidableEq

namespace Automaton

/-- The size of a state. -/
def stateBytes : Nat := 32

/-- The size of an edge that reads a byte of a range, in a state that has many of them. -/
def rangeBytes : Nat := 8

/-- The size of an edge that reads nothing, in a state that forks. -/
def forkBytes : Nat := 4

/-- The size that no automaton may exceed. -/
def limit : Nat := 10 * 1024 * 1024

/-- An automaton of which nothing was built. -/
def empty : Automaton := ⟨0, 0, false, .replicate 10000 none, .replicate 1000 none⟩

/-- The space that an automaton takes. -/
def size (a : Automaton) : Nat := stateBytes * a.states + a.edgeBytes

/-- A part of an automaton: what there is once the part was built, unless it takes too much space. -/
abbrev Part := Automaton → Option Automaton

/-- More states and edges, the last of them in a state that does not fork. -/
def grow (states edgeBytes : Nat) : Part := fun a =>
  let a := { a with
    states := a.states + states, edgeBytes := a.edgeBytes + edgeBytes, endsInFork := false }
  if a.size ≤ limit then some a else none

/-- A state. -/
def addState : Part := grow 1 0

/-- A state that forks into `n` edges. -/
def addFork (n : Nat) : Part := grow 1 (forkBytes * n)

/-- An edge from the end of the part that was built last. Only a state that forks needs space for
it. -/
def link : Part := fun a => if a.endsInFork then grow 0 forkBytes a else some a

/-- The same as before, but ending in a state that forks. -/
def markFork : Part := fun a => some { a with endsInFork := true }

/-- A part `n` times in turn. -/
def times (part : Part) : Nat → Part
  | 0, a => some a
  | n + 1, a =>
    match part a with
    | some a => times part n a
    | none => none

/-- `n` copies of a part that are linked to each other. Without any there is a state. -/
def copies (part : Part) : Nat → Part
  | 0 => addState
  | n + 1 => part >=> times (link >=> part) n

/-! ## Words -/

/-- The UTF-8 bytes of a word, in the order in which they are read. -/
def wordBytes (dir : Direction) (text : List Char) : List UInt8 :=
  let bytes := text.flatMap String.utf8EncodeChar
  match dir with
  | .forward => bytes
  | .backward => bytes.reverse

/-- The alternatives among words of which a byte is still to be read, in groups between those of which
none is. -/
def segments (words : List (List UInt8)) : List (List (List UInt8)) :=
  (words.splitBy fun v w => !v.isEmpty && !w.isEmpty).filter (·.any fun w => !w.isEmpty)

/-- How often a word of which nothing is left to read stands among others: words at the start count
once. -/
def endings (words : List (List UInt8)) : Nat :=
  (if words.head?.any (·.isEmpty) then 1 else 0) + (words.dropWhile (·.isEmpty)).countP (·.isEmpty)

/-- What is left to read after the byte `b` of the words that begin with it. -/
def restsAfter (b : UInt8) (words : List (List UInt8)) : List (List UInt8) :=
  words.filterMap fun
    | first :: rest => if first = b then some rest else none
    | [] => none

/-- The tree of alternative words. What is left to read at a place has one state that forks, and a
state for each of its segments. Every level reads a byte of each word, so one more than the length of
the longest word is fuel enough. -/
def addTree : Nat → List (List UInt8) → Part
  | 0, _, a => some a
  | fuel + 1, words, a =>
    match segments words with
    | [] => some a
    | segments => do
      let a ← addFork (segments.length + endings words) a
      segments.foldlM (fun a segment => do
        let bytes := (segment.filterMap List.head?).eraseDups
        let a ← grow 1 (if bytes.length = 1 then 0 else rangeBytes * bytes.length) a
        bytes.foldlM (fun a b => addTree fuel (restsAfter b segment) a) a) a

/-- The part for alternative words: one state at their end, and their tree. -/
def addWords (words : List (List UInt8)) : Part :=
  addState >=> addTree ((words.map List.length).foldl max 0 + 1) words

/-! ## Sets of characters -/

/-- The slot for some numbers in a table of `n` slots. Numbers that are close to each other have slots
that are not. -/
def slotOf (n : Nat) (numbers : List Nat) : Nat :=
  let digest := numbers.foldl (fun (h : UInt64) k => (h ^^^ k.toUInt64) * 1099511628211)
    14695981039346656037
  digest.toNat % n

/-- The state that the edges leave. A state with the same edges is used again if it is still in the
table. -/
def stateLeaving (edges : List ByteEdge) (a : Automaton) : Option (Nat × Automaton) :=
  let slot := slotOf a.leaving.size (edges.flatMap fun e => [e.first, e.last, e.state])
  match a.leaving[slot]?.join with
  | some (known, state) => if known = edges then some (state, a) else add slot
  | none => add slot
where
  add (slot : Nat) : Option (Nat × Automaton) := do
    let state := a.states
    let a ← grow 1 (rangeBytes * edges.length) a
    return (state, { a with leaving := a.leaving.setIfInBounds slot (some (edges, state)) })

/-- The state from which the sequences are read up to `target`. Sequences have at most four ranges, so
five levels are enough. -/
def stateOf : Nat → Nat → List Text.ByteSequence → Automaton → Option (Nat × Automaton)
  | 0, target, _, a => some (target, a)
  | fuel + 1, target, seqs, a =>
    if seqs.all (·.isEmpty) then some (target, a)
    else do
      let groups := seqs.splitBy fun s t => s.head? == t.head?
      let (edges, a) ← groups.foldlM (fun (edges, a) group => do
        let (first, last) ← group.head?.bind List.head?
        let (state, a) ← stateOf fuel target (group.map List.tail) a
        return (⟨first, last, state⟩ :: edges, a)) ([], a)
      a.stateLeaving edges.reverse

/-- The state that enters the state of an edge. A state with the same edge is used again if it is
still in the table. -/
def stateEntering (edge : ByteEdge) (a : Automaton) : Option (Nat × Automaton) :=
  let slot := slotOf a.entering.size [edge.state, edge.first, edge.last]
  match a.entering[slot]?.join with
  | some (known, state) => if known = edge then some (state, a) else add slot
  | none => add slot
where
  add (slot : Nat) : Option (Nat × Automaton) := do
    let state := a.states
    let a ← addState a
    return (state, { a with entering := a.entering.setIfInBounds slot (some (edge, state)) })

/-- The part for one character of a set. A set of ASCII characters takes one state with an edge for
every range, and one at its end. All others take states for every byte of their UTF-8 forms. -/
def addSet (dir : Direction) (ranges : List (Nat × Nat)) : Part :=
  if ranges.all fun r => r.2 < 0x80 then grow 2 (rangeBytes * ranges.length)
  else
    let seqs := ranges.flatMap fun r => Text.byteRanges r.1 r.2
    match dir with
    | .forward => fun a => do
      let target := a.states
      let a ← addState a
      return (← stateOf 5 target seqs a).2
    | .backward => fun a => do
      let a ← addFork seqs.length a
      let target := a.states
      let a ← addState a
      seqs.foldlM (fun a seq => do
        let (_, a) ← seq.foldlM (fun (state, a) r => stateEntering ⟨r.1, r.2, state⟩ a) (target, a)
        return a) a

/-! ## Shapes -/

/-- At least `least` and at most `most` copies of a part in turn. If copies go on without limit, the
last one is entered again, which takes a second fork if a copy may read nothing. -/
def addRepeated (least : Nat) (most : Option Nat) (reads : Bool) (part : Part) : Part :=
  match least, most with
  | 0, some 1 => addFork 2 >=> part >=> link >=> addState
  | 0, none =>
    if reads then addFork 1 >=> part >=> link >=> markFork
    else part >=> link >=> addFork 2 >=> addFork 2 >=> addState
  | least, none => copies part least >=> link >=> addFork 1 >=> markFork
  | least, some most =>
    if least = most then copies part least
    else copies part least >=> link >=> addState >=>
      times (addFork 2 >=> part >=> link) (most - least)

/-- The words that alternatives are, if all of them are words. -/
def words? : Shape → Option (List (List Char))
  | .word text => some [text]
  | .alt p q => do return (← words? p) ++ (← words? q)
  | _ => none

/-- The part for a shape. Of alternatives, the first two come before the states that join all of
them; `joined` says that these states are there, so that a choice is the rest of a longer one. -/
def ofShape (dir : Direction) (joined : Bool) : Shape → Part
  | .empty | .start | .stop => addState
  | .word text => grow (wordBytes dir text).length 0
  | .chars set => addSet dir set.ranges
  | .captured p =>
    match dir with
    | .forward => addState >=> ofShape dir false p >=> link >=> addState
    | .backward => ofShape dir false p
  | .repeated least most _ p =>
    addRepeated least most (p.shortest.any (0 < ·)) (ofShape dir false p)
  | .seq p q =>
    match dir with
    | .forward => ofShape dir false p >=> link >=> ofShape dir false q
    | .backward => ofShape dir false q >=> link >=> ofShape dir false p
  | .alt p q =>
    if joined then ofShape dir false p >=> link >=> ofShape dir true q
    else
      match words? (.alt p q) with
      | some words => addWords (words.map (wordBytes dir))
      | none =>
        ofShape dir false p >=> link >=>
          match q with
          | .alt q r =>
            ofShape dir false q >=> link >=> addFork (2 + r.branches.length) >=> addState >=>
              ofShape dir true r >=> link
          | q => ofShape dir false q >=> link >=> addFork 2 >=> addState

/-- What comes before a match. If the match need not begin at the end from which the text is read, it
is a fork that skips bytes one by one, otherwise an empty state. -/
def lead (anchored : Bool) : Part :=
  if anchored then addState else grow 3 (rangeBytes + 2 * forkBytes)

/-- The automaton for a shape. Where the match lies is noted as it is for a part. -/
def build (dir : Direction) (p : Shape) : Option Automaton :=
  let anchored := match dir with
    | .forward => p.opens
    | .backward => p.closes
  (lead anchored >=> ofShape dir false (.captured p) >=> link >=> addState) empty

end Automaton

namespace Shape

/-- The number of words from which on a choice of words is searched for without an automaton. -/
def manyWords : Nat := 3000

/-- Whether the automata of a shape stay within the limit, if they are needed. -/
def fits (p : Shape) : Bool :=
  (Automaton.words? p).any (manyWords ≤ ·.length) ||
    ((Automaton.build .forward p).isSome && (Automaton.build .backward p).isSome)

end Shape

end Packrat
