/-!
# Bytes as text

Reading bytes as UTF-8 without ever refusing: each well-formed sequence gives its character and each
maximal part of an ill-formed sequence gives one replacement character.

* `step`: the character that the next bytes give, and how many of them belong to it.
* `ofBytes`: the whole text.
-/

namespace Packrat.Text.Utf8

/-- The character that stands for bytes that are not UTF-8. -/
def replacement : Char := Char.ofNat 0xFFFD

/-- Whether `b` continues a sequence. -/
def isContinuation (b : UInt8) : Bool := 0x80 ≤ b && b ≤ 0xBF

/-- Whether `second` may follow the first byte of a sequence of three: longer forms of shorter
sequences and surrogates are excluded here. -/
def secondOfThree (first second : UInt8) : Bool :=
  if first == 0xE0 then 0xA0 ≤ second && second ≤ 0xBF
  else if first == 0xED then 0x80 ≤ second && second ≤ 0x9F
  else isContinuation second

/-- Whether `second` may follow the first byte of a sequence of four: longer forms and code points
past the last one are excluded here. -/
def secondOfFour (first second : UInt8) : Bool :=
  if first == 0xF0 then 0x90 ≤ second && second ≤ 0xBF
  else if first == 0xF4 then 0x80 ≤ second && second ≤ 0x8F
  else isContinuation second

/-- The six payload bits of a continuation byte. -/
def payload (b : UInt8) : Nat := b.toNat - 0x80

/-- The character that `first :: rest` begins with and the number of bytes of `rest` that belong to
it. An ill-formed sequence gives the replacement character and is left at the first byte that cannot
continue it. -/
def step (first : UInt8) (rest : List UInt8) : Char × Nat :=
  if first < 0x80 then (Char.ofNat first.toNat, 0)
  else if 0xC2 ≤ first && first ≤ 0xDF then
    match rest with
    | b :: _ =>
      if isContinuation b then (Char.ofNat ((first.toNat - 0xC0) * 64 + payload b), 1)
      else (replacement, 0)
    | [] => (replacement, 0)
  else if 0xE0 ≤ first && first ≤ 0xEF then
    match rest with
    | b :: rest =>
      if secondOfThree first b then
        match rest with
        | c :: _ =>
          if isContinuation c then
            (Char.ofNat (((first.toNat - 0xE0) * 64 + payload b) * 64 + payload c), 2)
          else (replacement, 1)
        | [] => (replacement, 1)
      else (replacement, 0)
    | [] => (replacement, 0)
  else if 0xF0 ≤ first && first ≤ 0xF4 then
    match rest with
    | b :: rest =>
      if secondOfFour first b then
        match rest with
        | c :: rest =>
          if isContinuation c then
            match rest with
            | d :: _ =>
              if isContinuation d then
                (Char.ofNat ((((first.toNat - 0xF0) * 64 + payload b) * 64 + payload c) * 64
                  + payload d), 3)
              else (replacement, 2)
            | [] => (replacement, 2)
          else (replacement, 1)
        | [] => (replacement, 1)
      else (replacement, 0)
    | [] => (replacement, 0)
  else (replacement, 0)

/-- The characters of a list of bytes. -/
def decode : List UInt8 → List Char
  | [] => []
  | b :: rest => (step b rest).1 :: decode (rest.drop (step b rest).2)
termination_by bytes => bytes.length
decreasing_by simp only [List.length_drop, List.length_cons]; omega

/-- The text of a list of bytes. -/
def ofBytes (bytes : List UInt8) : String := String.ofList (decode bytes)

@[simp] theorem decode_nil : decode [] = [] := by rw [decode]

theorem decode_cons (b : UInt8) (rest : List UInt8) :
    decode (b :: rest) = (step b rest).1 :: decode (rest.drop (step b rest).2) := by rw [decode]

end Packrat.Text.Utf8
