import Packrat.Pattern.Class
import Packrat.Pattern.Draft
import Packrat.Text.Blank

/-!
# The notation of patterns

Literal characters, the dot, anchors, classes in brackets, escapes, groups, alternatives, repetition
signs and counts, and the flag for any case. A backslash before a sign takes the sign as it stands.

A text is read in two passes: into signs, and from the signs, with a stack of the open groups, into
the draft of a pattern.

* `signs`: the first pass.
* `assemble`: the second pass.
* `Pattern.read`: both.
-/

namespace Packrat.Pattern

/-- A sign of the notation. -/
inductive Sign where
  /-- One character of a class, in a notation with `depth` levels. -/
  | chars (e : ClassExpr) (depth : Nat)
  | start
  | stop
  | bar
  /-- The start of a group that notes where it matched, or not, with or without a word on any case. -/
  | opening (captures : Bool) (anyCase : Option Bool)
  | closing
  | anyCase (on : Bool)
  /-- The part before it again and again, as often as possible or as rarely. -/
  | repetition (least : Nat) (most : Option Nat) (greedy : Bool)
deriving Repr, DecidableEq

/-- The number that decimal digits stand for, if there are any and it fits into 32 bits. -/
def countOf? (digits : List Char) : Option Nat :=
  if digits.isEmpty then none
  else
    let n := digits.foldl (fun n c => n * 10 + (c.toNat - '0'.toNat)) 0
    if n < UInt32.size then some n else none

/-- A number with blanks allowed around it, and what follows it. -/
def readNumber (cs : List Char) : Except PatternError (Nat × List Char) :=
  let cs := cs.dropWhile Text.isBlank
  match countOf? (cs.takeWhile Char.isDigit) with
  | some n => .ok (n, (cs.dropWhile Char.isDigit).dropWhile Text.isBlank)
  | none => .error .badCount

/-- The sign of a repetition whose numbers were read. A question mark after it says that few matches
are preferred. -/
def repetition (least : Nat) (most : Option Nat) : List Char → Sign × List Char
  | '?' :: rest => (.repetition least most false, rest)
  | rest => (.repetition least most true, rest)

/-- The rest of a count after its opening brace. -/
def readCount (cs : List Char) : Except PatternError (Sign × List Char) := do
  let (least, rest) ← readNumber cs
  match rest with
  | '}' :: rest => return repetition least (some least) rest
  | ',' :: '}' :: rest => return repetition least none rest
  | ',' :: rest =>
    let (most, rest) ← readNumber rest
    match rest with
    | '}' :: rest =>
      if least ≤ most then return repetition least (some most) rest else throw .badCount
    | _ => throw .badCount
  | _ => throw .badCount

/-- A group after its opening parenthesis. -/
def readGroup : List Char → Except PatternError (Sign × List Char)
  | '?' :: ':' :: rest => .ok (.opening false none, rest)
  | '?' :: 'i' :: ')' :: rest => .ok (.anyCase true, rest)
  | '?' :: 'i' :: ':' :: rest => .ok (.opening false (some true), rest)
  | '?' :: '-' :: 'i' :: ')' :: rest => .ok (.anyCase false, rest)
  | '?' :: '-' :: 'i' :: ':' :: rest => .ok (.opening false (some false), rest)
  | '?' :: _ => .error .badGroup
  | rest => .ok (.opening true none, rest)

/-- One character as it stands. -/
def Sign.char (c : Char) : Sign := .chars (.one c) 0

/-- What a backslash makes of the character after it. -/
def readEscape : List Char → Except PatternError (Sign × List Char)
  | [] => .error .badEscape
  | 'd' :: rest => .ok (.chars .digit 0, rest)
  | 'D' :: rest => .ok (.chars (.complement .digit) 0, rest)
  | 'A' :: rest => .ok (.start, rest)
  | 'z' :: rest => .ok (.stop, rest)
  | c :: rest =>
    match escaped? c with
    | some c => .ok (.char c, rest)
    | none => .error .badEscape

/-- The first sign of a text that begins with `c`, and what follows the sign. The fuel has to exceed
the length of `rest`. -/
def readSign (fuel : Nat) (c : Char) (rest : List Char) :
    Except PatternError (Sign × List Char) :=
  match c with
  | '.' => .ok (.chars .notLineFeed 0, rest)
  | '^' => .ok (.start, rest)
  | '$' => .ok (.stop, rest)
  | '|' => .ok (.bar, rest)
  | ')' => .ok (.closing, rest)
  | '*' => .ok (repetition 0 none rest)
  | '+' => .ok (repetition 1 none rest)
  | '?' => .ok (repetition 0 (some 1) rest)
  | '{' => readCount rest
  | '(' => readGroup rest
  | '[' => do
    let (part, rest) ← readClass fuel rest
    return (.chars part.expr part.depth, rest)
  | '\\' => readEscape rest
  | c => .ok (.char c, rest)

/-- The signs of a text. Every sign has a character at least, so one more than the length of the text
is fuel enough. -/
def signs : Nat → List Char → Except PatternError (List Sign)
  | 0, _ => .ok []
  | _ + 1, [] => .ok []
  | fuel + 1, c :: rest => do
    let (sign, rest) ← readSign fuel c rest
    return sign :: (← signs fuel rest)

/-- A group that is being read: whether it notes where it matched, the alternatives before the last
bar and the items after it, both from the last to the first, whether any case is on, and whether the
last sign can be repeated. -/
structure Group where
  captures : Bool
  earlier : List Draft
  items : List Draft
  anyCase : Bool
  repeatable : Bool
deriving Repr, DecidableEq

namespace Group

/-- A group of which nothing was read. -/
def start (captures anyCase : Bool) : Group := ⟨captures, [], [], anyCase, false⟩

/-- The draft of all that was read. -/
def draft (g : Group) : Draft :=
  let last := Draft.inOrder g.items.reverse
  match g.earlier.reverse with
  | [] => last
  | first :: rest => .alternatives first (rest ++ [last])

/-- The draft of a whole group. -/
def closed (g : Group) : Draft := if g.captures then g.draft.captured else g.draft.grouped

/-- The group with one more item. -/
def push (g : Group) (d : Draft) : Group := { g with items := d :: g.items, repeatable := true }

/-- The group with a bar after what was read. -/
def bar (g : Group) : Group :=
  { g with
    earlier := Draft.inOrder g.items.reverse :: g.earlier, items := [], repeatable := false }

/-- The group from here on with any case or without. The word is an item that cannot be repeated. -/
def setCase (g : Group) (on : Bool) : Group :=
  { g with items := .empty :: g.items, anyCase := on, repeatable := false }

/-- The group with its last item repeated, if it can be. -/
def repeatLast? (g : Group) (least : Nat) (most : Option Nat) (greedy : Bool) : Option Group :=
  match g.repeatable, g.items with
  | true, d :: items => some { g with items := d.repeated least most greedy :: items }
  | _, _ => none

end Group

/-- The draft that signs make, read within the group `g` that stands inside the groups `outer`. -/
def assemble (outer : List Group) (g : Group) : List Sign → Except PatternError Draft
  | [] => if outer.isEmpty then .ok g.draft else .error .openGroup
  | .chars e depth :: rest => assemble outer (g.push (.chars (e.toSet g.anyCase) depth)) rest
  | .start :: rest => assemble outer (g.push .start) rest
  | .stop :: rest => assemble outer (g.push .stop) rest
  | .bar :: rest => assemble outer g.bar rest
  | .opening captures anyCase :: rest =>
    assemble (g :: outer) (.start captures (anyCase.getD g.anyCase)) rest
  | .anyCase on :: rest => assemble outer (g.setCase on) rest
  | .closing :: rest =>
    match outer with
    | [] => .error .unmatchedClosing
    | around :: outer => assemble outer (around.push g.closed) rest
  | .repetition least most greedy :: rest =>
    match g.repeatLast? least most greedy with
    | some g => assemble outer g rest
    | none => .error .nothingToRepeat

/-- The draft that a text is the notation of. -/
def read (text : List Char) : Except PatternError Draft := do
  assemble [] (.start false false) (← signs (text.length + 1) text)

end Packrat.Pattern
