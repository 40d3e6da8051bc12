/-!
# Ranges of characters as ranges of bytes

The UTF-8 forms of the code points in a range, as sequences of byte ranges: a sequence stands for all
byte strings with one byte from each of its ranges in turn.

* `byteRanges`: the sequences for a range of code points, in increasing order.
-/

namespace Packrat.Text

/-- A range of bytes for each byte of a form. -/
abbrev ByteSequence := List (Nat × Nat)

/-- The greatest code points whose forms have one, two and three bytes. -/
def lengthLimits : List Nat := [0x7F, 0x7FF, 0xFFFF]

/-- The bytes of the UTF-8 form of a code point. -/
def codeBytes (n : Nat) : List Nat := (String.utf8EncodeChar (Char.ofNat n)).map UInt8.toNat

/-- Where a range, cut into pieces that differ in their last bytes alone, has its first cut: the last
code point before the cut. -/
def firstCut? (first last : Nat) : Option Nat :=
  [64, 64 * 64, 64 * 64 * 64].findSome? fun block =>
    if first / block = last / block then none
    else if first % block ≠ 0 then some ((first / block + 1) * block - 1)
    else if last % block ≠ block - 1 then some (last / block * block - 1)
    else none

/-- The sequences for the code points from `first` to `last`, with fuel for the number of cuts around
one piece. -/
def byteRangesWithin : Nat → Nat → Nat → List ByteSequence
  | 0, _, _ => []
  | fuel + 1, first, last =>
    if last < first then []
    else if first < 0xE000 && 0xD7FF < last then
      byteRangesWithin fuel first 0xD7FF ++ byteRangesWithin fuel 0xE000 last
    else
      match lengthLimits.find? fun limit => first ≤ limit && limit < last with
      | some limit => byteRangesWithin fuel first limit ++ byteRangesWithin fuel (limit + 1) last
      | none =>
        if last ≤ 0x7F then [[(first, last)]]
        else
          match firstCut? first last with
          | some cut => byteRangesWithin fuel first cut ++ byteRangesWithin fuel (cut + 1) last
          | none => [(codeBytes first).zip (codeBytes last)]

/-- The sequences for the code points from `first` to `last`. A range has at most one cut around the
surrogates, three between lengths and six between blocks. -/
def byteRanges (first last : Nat) : List ByteSequence := byteRangesWithin 16 first last

end Packrat.Text
