import Packrat.Text.Utf8
import Mathlib.Data.List.Basic

/-!
# Bytes are read as UTF-8

The text of a list of bytes has a character for each well-formed sequence and a replacement
character for each maximal part of an ill-formed one: a part that begins the sequence of some
character and cannot go on with the byte behind it, or a byte that begins none.

* `Broken`: the maximal parts of ill-formed sequences.
* `Renders`: the texts of bytes, in terms of the encoding of characters.
* `step_takes`: each step takes a sequence or a broken part.
* `renders_iff`: the text that is read from bytes is the only one that renders them.
-/

namespace Packrat.Text.Utf8

/-! ## Texts of bytes -/

/-- The sequence of some character begins with these bytes. -/
def Opens (part : List UInt8) : Prop := ∃ c, part <+: String.utf8EncodeChar c

/-- In front of `rest`, the bytes are a maximal part of an ill-formed sequence: a byte, or several
that begin a sequence, which are none themselves and do not begin one together with the next
byte. -/
structure Broken (part rest : List UInt8) : Prop where
  nonempty : part ≠ []
  begun : part.length = 1 ∨ Opens part
  incomplete : ∀ c, part ≠ String.utf8EncodeChar c
  longest : ∀ b ∈ rest.head?, ¬ Opens (part ++ [b])

/-- The characters render the bytes: one for the sequence of each, and the replacement character for
each maximal part of an ill-formed sequence. -/
inductive Renders : List UInt8 → List Char → Prop where
  | nil : Renders [] []
  | char {rest cs} (c : Char) (more : Renders rest cs) :
      Renders (String.utf8EncodeChar c ++ rest) (c :: cs)
  | broken {part rest cs} (h : Broken part rest) (more : Renders rest cs) :
      Renders (part ++ rest) (replacement :: cs)

/-! ## Well-formed sequences by their bytes -/

theorem isContinuation_iff {b : UInt8} :
    isContinuation b = true ↔ 0x80 ≤ b.toNat ∧ b.toNat ≤ 0xBF := by
  simp [isContinuation, UInt8.le_iff_toNat_le]

theorem secondOfThree_iff {a b : UInt8} :
    secondOfThree a b = true ↔ 0x80 ≤ b.toNat ∧ b.toNat ≤ 0xBF ∧
      (a.toNat = 0xE0 → 0xA0 ≤ b.toNat) ∧ (a.toNat = 0xED → b.toNat ≤ 0x9F) := by
  unfold secondOfThree
  split
  · simp_all [UInt8.le_iff_toNat_le]
    omega
  split
  · simp_all [UInt8.le_iff_toNat_le]
    omega
  · simp_all [isContinuation_iff, ← UInt8.toNat_inj]

theorem secondOfFour_iff {a b : UInt8} :
    secondOfFour a b = true ↔ 0x80 ≤ b.toNat ∧ b.toNat ≤ 0xBF ∧
      (a.toNat = 0xF0 → 0x90 ≤ b.toNat) ∧ (a.toNat = 0xF4 → b.toNat ≤ 0x8F) := by
  unfold secondOfFour
  split
  · simp_all [UInt8.le_iff_toNat_le]
    omega
  split
  · simp_all [UInt8.le_iff_toNat_le]
    omega
  · simp_all [isContinuation_iff, ← UInt8.toNat_inj]

/-- The bytes of a character, by their numbers. -/
def Sequence : List UInt8 → Prop
  | [a] => a.toNat < 0x80
  | [a, b] => 0xC2 ≤ a.toNat ∧ a.toNat ≤ 0xDF ∧ 0x80 ≤ b.toNat ∧ b.toNat ≤ 0xBF
  | [a, b, c] => 0xE0 ≤ a.toNat ∧ a.toNat ≤ 0xEF ∧ (0x80 ≤ b.toNat ∧ b.toNat ≤ 0xBF ∧
      (a.toNat = 0xE0 → 0xA0 ≤ b.toNat) ∧ (a.toNat = 0xED → b.toNat ≤ 0x9F)) ∧
      0x80 ≤ c.toNat ∧ c.toNat ≤ 0xBF
  | [a, b, c, d] => 0xF0 ≤ a.toNat ∧ a.toNat ≤ 0xF4 ∧ (0x80 ≤ b.toNat ∧ b.toNat ≤ 0xBF ∧
      (a.toNat = 0xF0 → 0x90 ≤ b.toNat) ∧ (a.toNat = 0xF4 → b.toNat ≤ 0x8F)) ∧
      (0x80 ≤ c.toNat ∧ c.toNat ≤ 0xBF) ∧ 0x80 ≤ d.toNat ∧ d.toNat ≤ 0xBF
  | _ => False

theorem sequence_encode (c : Char) : Sequence (String.utf8EncodeChar c) := by
  have valid : c.val.toNat < 0xD800 ∨ 0xDFFF < c.val.toNat ∧ c.val.toNat < 0x110000 := c.valid
  unfold String.utf8EncodeChar
  dsimp only
  generalize c.val.toNat = v at valid ⊢
  split
  · simp [Sequence]
    omega
  split
  · simp [Sequence]
    omega
  split
  · simp [Sequence]
    omega
  · simp [Sequence]
    omega

theorem toNat_val_ofNat {n : Nat} (h : n < 0xD800 ∨ 0xDFFF < n ∧ n < 0x110000) :
    (Char.ofNat n).val.toNat = n := by
  have valid : n.isValidChar := h
  rw [Char.ofNat, dif_pos valid]
  rfl

section

variable {a b c d : UInt8}

theorem encode_one (h : Sequence [a]) : String.utf8EncodeChar (Char.ofNat a.toNat) = [a] := by
  simp only [Sequence] at h
  rw [String.utf8EncodeChar, toNat_val_ofNat (by omega)]
  rw [if_pos (by omega), UInt8.ofNat_toNat]

theorem encode_two (h : Sequence [a, b]) :
    String.utf8EncodeChar (Char.ofNat ((a.toNat - 0xC0) * 64 + payload b)) = [a, b] := by
  simp only [Sequence] at h
  unfold payload
  rw [String.utf8EncodeChar, toNat_val_ofNat (by omega)]
  rw [if_neg (by omega), if_pos (by omega)]
  simp [← UInt8.toNat_inj]
  omega

theorem encode_three (h : Sequence [a, b, c]) :
    String.utf8EncodeChar (Char.ofNat (((a.toNat - 0xE0) * 64 + payload b) * 64 + payload c)) =
      [a, b, c] := by
  simp only [Sequence] at h
  unfold payload
  rw [String.utf8EncodeChar, toNat_val_ofNat (by omega)]
  rw [if_neg (by omega), if_neg (by omega), if_pos (by omega)]
  simp [← UInt8.toNat_inj]
  omega

theorem encode_four (h : Sequence [a, b, c, d]) :
    String.utf8EncodeChar (Char.ofNat ((((a.toNat - 0xF0) * 64 + payload b) * 64 + payload c) * 64
      + payload d)) = [a, b, c, d] := by
  simp only [Sequence] at h
  unfold payload
  rw [String.utf8EncodeChar, toNat_val_ofNat (by omega)]
  rw [if_neg (by omega), if_neg (by omega), if_neg (by omega)]
  simp [← UInt8.toNat_inj]
  omega

theorem exists_encode {l : List UInt8} (h : Sequence l) : ∃ c, String.utf8EncodeChar c = l := by
  rcases l with _ | ⟨a, _ | ⟨b, _ | ⟨c, _ | ⟨d, _ | ⟨e, l⟩⟩⟩⟩⟩
  · exact h.elim
  · exact ⟨_, encode_one h⟩
  · exact ⟨_, encode_two h⟩
  · exact ⟨_, encode_three h⟩
  · exact ⟨_, encode_four h⟩
  · exact h.elim

/-! ## Beginnings of sequences -/

theorem opens_iff {part : List UInt8} : Opens part ↔ ∃ rest, Sequence (part ++ rest) := by
  constructor
  · rintro ⟨c, rest, hrest⟩
    exact ⟨rest, hrest ▸ sequence_encode c⟩
  · rintro ⟨rest, h⟩
    obtain ⟨c, hc⟩ := exists_encode h
    exact ⟨c, rest, hc.symm⟩

theorem Opens.two (h : Opens [a, b]) : Sequence [a, b] ∨ Sequence [a, b, 0x80] ∨
    Sequence [a, b, 0x80, 0x80] := by
  obtain ⟨rest, h⟩ := opens_iff.mp h
  rcases rest with _ | ⟨c, _ | ⟨d, _ | ⟨e, rest⟩⟩⟩ <;> simp [Sequence] at h ⊢ <;> omega

theorem Opens.three (h : Opens [a, b, c]) : Sequence [a, b, c] ∨ Sequence [a, b, c, 0x80] := by
  obtain ⟨rest, h⟩ := opens_iff.mp h
  rcases rest with _ | ⟨d, _ | ⟨e, rest⟩⟩ <;> simp [Sequence] at h ⊢ <;> omega

theorem Opens.four (h : Opens [a, b, c, d]) : Sequence [a, b, c, d] := by
  obtain ⟨rest, h⟩ := opens_iff.mp h
  rcases rest with _ | ⟨e, rest⟩
  · exact h
  · exact h.elim

variable {rest : List UInt8}

theorem broken_of_sequence {part : List UInt8} (nonempty : part ≠ [])
    (begun : part.length = 1 ∨ ∃ more, Sequence (part ++ more)) (incomplete : ¬ Sequence part)
    (longest : ∀ b ∈ rest.head?, ¬ Opens (part ++ [b])) : Broken part rest where
  nonempty := nonempty
  begun := begun.imp_right opens_iff.mpr
  incomplete := fun c hc => incomplete (hc ▸ sequence_encode c)
  longest := longest

theorem broken_one (h : ¬ a.toNat < 0x80) (longest : ∀ b ∈ rest.head?, ¬ Opens [a, b]) :
    Broken [a] rest :=
  broken_of_sequence (List.cons_ne_nil _ _) (.inl rfl) h longest

theorem broken_two (h : Sequence [a, b, 0x80] ∨ Sequence [a, b, 0x80, 0x80])
    (longest : ∀ c ∈ rest.head?, ¬ Opens [a, b, c]) : Broken [a, b] rest := by
  have begun : ∃ more, Sequence ([a, b] ++ more) := h.elim (fun h => ⟨_, h⟩) fun h => ⟨_, h⟩
  have incomplete : ¬ Sequence [a, b] := by
    simp only [Sequence] at h ⊢
    omega
  exact broken_of_sequence (List.cons_ne_nil _ _) (.inr begun) incomplete longest

theorem broken_three (h : Sequence [a, b, c, 0x80])
    (longest : ∀ d ∈ rest.head?, ¬ Opens [a, b, c, d]) : Broken [a, b, c] rest := by
  have incomplete : ¬ Sequence [a, b, c] := by
    simp only [Sequence] at h ⊢
    omega
  exact broken_of_sequence (List.cons_ne_nil _ _) (.inr ⟨_, h⟩) incomplete longest

end

/-! ## Steps -/

/-- A step of this outcome takes the sequence of its character, or it takes a broken part and gives
the replacement character. -/
def Takes (b : UInt8) (rest : List UInt8) (outcome : Char × Nat) : Prop :=
  String.utf8EncodeChar outcome.1 = b :: rest.take outcome.2 ∨
    outcome.1 = replacement ∧ Broken (b :: rest.take outcome.2) (rest.drop outcome.2)

section

variable {a b c d : UInt8} {rest : List UInt8}

theorem takes_char {x : Char} {k : Nat} (h : String.utf8EncodeChar x = a :: rest.take k) :
    Takes a rest (x, k) := .inl h

theorem takes_one (high : ¬ a.toNat < 0x80) (h : ∀ b ∈ rest.head?, ¬ Opens [a, b]) :
    Takes a rest (replacement, 0) := .inr ⟨rfl, broken_one high h⟩

theorem takes_one_of_second (high : ¬ a.toNat < 0x80)
    (refused : ¬ (Sequence [a, b] ∨ Sequence [a, b, 0x80] ∨ Sequence [a, b, 0x80, 0x80])) :
    Takes a (b :: rest) (replacement, 0) := by
  refine takes_one high ?_
  rintro _ ⟨⟩ h
  exact refused h.two

theorem takes_two (begun : Sequence [a, b, 0x80] ∨ Sequence [a, b, 0x80, 0x80])
    (h : ∀ c ∈ rest.head?, ¬ Opens [a, b, c]) : Takes a (b :: rest) (replacement, 1) :=
  .inr ⟨rfl, broken_two begun h⟩

theorem takes_two_of_third (begun : Sequence [a, b, 0x80] ∨ Sequence [a, b, 0x80, 0x80])
    (refused : ¬ (Sequence [a, b, c] ∨ Sequence [a, b, c, 0x80])) :
    Takes a (b :: c :: rest) (replacement, 1) := by
  refine takes_two begun ?_
  rintro _ ⟨⟩ h
  exact refused h.three

theorem takes_three (begun : Sequence [a, b, c, 0x80])
    (h : ∀ d ∈ rest.head?, ¬ Opens [a, b, c, d]) : Takes a (b :: c :: rest) (replacement, 2) :=
  .inr ⟨rfl, broken_three begun h⟩

theorem takes_three_of_fourth (begun : Sequence [a, b, c, 0x80])
    (refused : ¬ Sequence [a, b, c, d]) : Takes a (b :: c :: d :: rest) (replacement, 2) := by
  refine takes_three begun ?_
  rintro _ ⟨⟩ h
  exact refused h.four

/-- A step from the first byte of a sequence of two. -/
theorem step_takes_two (first : 0xC2 ≤ a.toNat ∧ a.toNat ≤ 0xDF) : Takes a rest (step a rest) := by
  have high : ¬ a.toNat < 0x80 := by omega
  unfold step
  simp only [Bool.and_eq_true, decide_eq_true_eq, UInt8.le_iff_toNat_le, UInt8.lt_iff_toNat_lt,
    UInt8.reduceToNat, isContinuation_iff]
  rw [if_neg high, if_pos first]
  rcases rest with _ | ⟨b, rest⟩
  · exact takes_one high nofun
  dsimp only
  split
  · refine takes_char (encode_two ?_)
    simp only [Sequence]
    omega
  · refine takes_one_of_second high ?_
    simp only [Sequence]
    omega

/-- A step from the first byte of a sequence of three. -/
theorem step_takes_three (first : 0xE0 ≤ a.toNat ∧ a.toNat ≤ 0xEF) :
    Takes a rest (step a rest) := by
  have high : ¬ a.toNat < 0x80 := by omega
  unfold step
  simp only [Bool.and_eq_true, decide_eq_true_eq, UInt8.le_iff_toNat_le, UInt8.lt_iff_toNat_lt,
    UInt8.reduceToNat, isContinuation_iff, secondOfThree_iff]
  rw [if_neg high, if_neg (by omega), if_pos first]
  rcases rest with _ | ⟨b, rest⟩
  · exact takes_one high nofun
  dsimp only
  split
  case isFalse =>
    refine takes_one_of_second high ?_
    simp only [Sequence]
    omega
  have begun : Sequence [a, b, 0x80] := by
    simp only [Sequence, UInt8.reduceToNat]
    omega
  rcases rest with _ | ⟨c, rest⟩
  · exact takes_two (.inl begun) nofun
  dsimp only
  split
  · refine takes_char (encode_three ?_)
    simp only [Sequence]
    omega
  · refine takes_two_of_third (.inl begun) ?_
    simp only [Sequence]
    omega

/-- A step from the first byte of a sequence of four. -/
theorem step_takes_four (first : 0xF0 ≤ a.toNat ∧ a.toNat ≤ 0xF4) : Takes a rest (step a rest) := by
  have high : ¬ a.toNat < 0x80 := by omega
  unfold step
  simp only [Bool.and_eq_true, decide_eq_true_eq, UInt8.le_iff_toNat_le, UInt8.lt_iff_toNat_lt,
    UInt8.reduceToNat, isContinuation_iff, secondOfFour_iff]
  rw [if_neg high, if_neg (by omega), if_neg (by omega), if_pos first]
  rcases rest with _ | ⟨b, rest⟩
  · exact takes_one high nofun
  dsimp only
  split
  case isFalse =>
    refine takes_one_of_second high ?_
    simp only [Sequence]
    omega
  have begun : Sequence [a, b, 0x80, 0x80] := by
    simp only [Sequence, UInt8.reduceToNat]
    omega
  rcases rest with _ | ⟨c, rest⟩
  · exact takes_two (.inr begun) nofun
  dsimp only
  split
  case isFalse =>
    refine takes_two_of_third (.inr begun) ?_
    simp only [Sequence]
    omega
  have begun : Sequence [a, b, c, 0x80] := by
    simp only [Sequence, UInt8.reduceToNat]
    omega
  rcases rest with _ | ⟨d, rest⟩
  · exact takes_three begun nofun
  dsimp only
  split
  · refine takes_char (encode_four ?_)
    simp only [Sequence]
    omega
  · refine takes_three_of_fourth begun ?_
    simp only [Sequence]
    omega

/-- Each step takes the sequence of a character or a broken part. -/
theorem step_takes (a : UInt8) (rest : List UInt8) : Takes a rest (step a rest) := by
  by_cases two : 0xC2 ≤ a.toNat ∧ a.toNat ≤ 0xDF
  · exact step_takes_two two
  by_cases three : 0xE0 ≤ a.toNat ∧ a.toNat ≤ 0xEF
  · exact step_takes_three three
  by_cases four : 0xF0 ≤ a.toNat ∧ a.toNat ≤ 0xF4
  · exact step_takes_four four
  unfold step
  simp only [Bool.and_eq_true, decide_eq_true_eq, UInt8.le_iff_toNat_le, UInt8.lt_iff_toNat_lt,
    UInt8.reduceToNat, if_neg two, if_neg three, if_neg four]
  split
  case isTrue one => exact takes_char (encode_one one)
  case isFalse high =>
    -- no sequence of several bytes begins with this one
    refine takes_one high fun b _ h => ?_
    have begun := h.two
    simp only [Sequence] at begun
    omega

end

/-- The text of a list of bytes renders them. -/
theorem renders_decode (bytes : List UInt8) : Renders bytes (decode bytes) := by
  induction bytes using decode.induct with
  | case1 =>
    rw [decode_nil]
    exact .nil
  | case2 b rest ih =>
    rw [decode_cons]
    have whole : b :: rest =
        (b :: rest.take (step b rest).2) ++ rest.drop (step b rest).2 := by simp
    rw [whole]
    rcases step_takes b rest with h | ⟨h, broken⟩
    · rw [← h]
      exact .char _ ih
    · rw [h]
      exact .broken broken ih

/-! ## Bytes have one text -/

theorem encode_injective {c d : Char} (h : String.utf8EncodeChar c = String.utf8EncodeChar d) :
    c = d := by
  have whole : [c].utf8Encode = [d].utf8Encode := by
    rw [List.utf8Encode_singleton, List.utf8Encode_singleton, h]
  have same : some c = some d := by
    rw [← List.utf8DecodeChar?_utf8Encode_singleton, whole,
      List.utf8DecodeChar?_utf8Encode_singleton]
  exact Option.some.inj same

/-- No sequence of a character goes on as that of another one. -/
theorem encode_append {c d : Char} {t : List UInt8}
    (h : String.utf8EncodeChar d = String.utf8EncodeChar c ++ t) : t = [] ∧ d = c := by
  have hc := sequence_encode c
  have hd := sequence_encode d
  have nil : t = [] := by
    rw [h] at hd
    generalize String.utf8EncodeChar c = l at hc hd
    rcases l with _ | ⟨a, _ | ⟨b, _ | ⟨c, _ | ⟨d, _ | ⟨e, l⟩⟩⟩⟩⟩ <;>
      rcases t with _ | ⟨a', _ | ⟨b', _ | ⟨c', _ | ⟨d', t⟩⟩⟩⟩ <;>
      simp [Sequence] at hc hd ⊢ <;> omega
  subst nil
  exact ⟨rfl, encode_injective (h.trans (List.append_nil _))⟩

theorem encode_ne_nil (c : Char) : String.utf8EncodeChar c ≠ [] := by
  have h := sequence_encode c
  intro hc
  rw [hc] at h
  exact h

namespace Broken

variable {part part' rest rest' : List UInt8}

/-- A broken part of two bytes or more begins a sequence. -/
theorem opens {xs ys : List UInt8} (h : Broken (xs ++ ys) rest) (hxs : xs ≠ []) (hys : ys ≠ []) :
    Opens (xs ++ ys) := by
  refine h.begun.resolve_left fun one => ?_
  have hx := List.length_pos_of_ne_nil hxs
  have hy := List.length_pos_of_ne_nil hys
  rw [List.length_append] at one
  omega

/-- Where there is a broken part there is no sequence of a character. -/
theorem not_encode (h : Broken part rest) (c : Char) :
    String.utf8EncodeChar c ++ rest' ≠ part ++ rest := by
  intro same
  rcases List.append_eq_append_iff.mp same with ⟨t, rfl, -⟩ | ⟨t, hc, rfl⟩
  · -- the part would begin with the whole sequence
    by_cases nil : t = []
    · subst nil
      exact h.incomplete c (List.append_nil _)
    · obtain ⟨d, u, hd⟩ := h.opens (encode_ne_nil c) nil
      rw [List.append_assoc] at hd
      exact nil (List.append_eq_nil_iff.mp (encode_append hd.symm).1).1
  · -- the sequence would go on behind the part
    cases t with
    | nil => exact h.incomplete c (by rw [hc, List.append_nil])
    | cons b t =>
      refine h.longest b rfl ⟨c, t, ?_⟩
      rw [hc, List.append_assoc]
      rfl

/-- A broken part is not longer than another one. -/
theorem eq_nil_of_append {t : List UInt8} (h : Broken part (t ++ rest))
    (h' : Broken (part ++ t) rest) : t = [] := by
  cases t with
  | nil => rfl
  | cons b t =>
    obtain ⟨c, u, hc⟩ := h'.opens h.nonempty (List.cons_ne_nil b t)
    refine absurd ⟨c, t ++ u, ?_⟩ (h.longest b rfl)
    rw [← hc]
    simp

/-- Bytes begin with one broken part. -/
theorem unique (h : Broken part rest) (h' : Broken part' rest')
    (same : part ++ rest = part' ++ rest') : part = part' ∧ rest = rest' := by
  rcases List.append_eq_append_iff.mp same with ⟨t, rfl, rfl⟩ | ⟨t, rfl, rfl⟩
  · obtain rfl := h.eq_nil_of_append h'
    exact ⟨(List.append_nil _).symm, rfl⟩
  · obtain rfl := h'.eq_nil_of_append h
    exact ⟨List.append_nil _, rfl⟩

end Broken

theorem Renders.unique {bytes : List UInt8} {cs cs' : List Char} (h : Renders bytes cs)
    (h' : Renders bytes cs') : cs = cs' := by
  induction h generalizing cs' with
  | nil =>
    generalize hb : [] = bytes at h'
    cases h' with
    | nil => rfl
    | char c more => exact absurd (List.append_eq_nil_iff.mp hb.symm).1 (encode_ne_nil c)
    | broken h more => exact absurd (List.append_eq_nil_iff.mp hb.symm).1 h.nonempty
  | @char rest cs c more ih =>
    generalize hb : String.utf8EncodeChar c ++ rest = bytes at h'
    cases h' with
    | nil => exact absurd (List.append_eq_nil_iff.mp hb).1 (encode_ne_nil c)
    | char d more' =>
      obtain ⟨rfl, rfl⟩ : d = c ∧ rest = _ := by
        rcases List.append_eq_append_iff.mp hb with ⟨t, hd, hrest⟩ | ⟨t, hc, hrest⟩
        · obtain ⟨rfl, rfl⟩ := encode_append hd
          exact ⟨rfl, hrest⟩
        · obtain ⟨rfl, rfl⟩ := encode_append hc
          exact ⟨rfl, hrest.symm⟩
      rw [ih more']
    | broken h more' => exact absurd hb (h.not_encode c)
  | @broken part rest cs h more ih =>
    generalize hb : part ++ rest = bytes at h'
    cases h' with
    | nil => exact absurd (List.append_eq_nil_iff.mp hb).1 h.nonempty
    | char d more' => exact absurd hb.symm (h.not_encode d)
    | broken h' more' =>
      obtain ⟨rfl, rfl⟩ := h.unique h' hb
      rw [ih more']

/-- Bytes have one text, that which is read. -/
theorem renders_iff {bytes : List UInt8} {cs : List Char} :
    Renders bytes cs ↔ decode bytes = cs := by
  constructor
  · exact (renders_decode bytes).unique
  · rintro rfl
    exact renders_decode bytes

end Packrat.Text.Utf8
