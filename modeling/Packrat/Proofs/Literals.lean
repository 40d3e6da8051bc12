import Mathlib.Data.List.Forall2
import Packrat.Bytes
import Packrat.Proofs.Repetition
import Packrat.Proofs.Utf8

/-!
# Literals

A literal asks for one token after another, and all literals are built from such demands in turn:
literals of any tokens, texts and runs of bytes, with the case of letters kept or not. They match
where the tokens that come next meet all demands. The first demand that is not met tells where the
literal and the input part, which is behind the longest prefix that they have in common.

* `IsLongestCommonPrefix`: how far two lists agree.
* `Demand`: what the parts of a literal ask of tokens.
* `Parser.Asks`: a parser that does nothing but ask for the parts of a literal.
* `Parser.ReadsLiteral`, `Parser.ReadsInAnyCase`: what a literal makes at every cursor.
* `Parser.literals_read`: all literals, and the agreement of characters and bytes on ASCII.
-/

namespace Packrat

variable {α τ ρ : Type}

/-! ## How far two lists agree -/

/-- Both `a` and `b` begin with `x`, and with no longer list. -/
structure IsLongestCommonPrefix (x a b : List τ) : Prop where
  left : x <+: a
  right : x <+: b
  longest : ∀ y, y <+: a → y <+: b → y.length ≤ x.length

/-- Two lists agree no longer where only one of them goes on with `want`. -/
theorem isLongestCommonPrefix_of_head {want : τ} {x a b : List τ} (h : b.head? ≠ some want) :
    IsLongestCommonPrefix x (x ++ want :: a) (x ++ b) where
  left := List.prefix_append _ _
  right := List.prefix_append _ _
  longest := by
    intro y hleft hright
    by_contra longer
    have onward : x ++ [want] <+: x ++ want :: a := by
      rw [List.prefix_append_right_inj]
      exact ⟨a, rfl⟩
    have within : x ++ [want] <+: y := by
      refine List.prefix_of_prefix_length_le onward hleft ?_
      rw [List.length_append, List.length_singleton]
      omega
    obtain ⟨rest, hb⟩ := (List.prefix_append_right_inj x).mp (within.trans hright)
    rw [← hb] at h
    exact h rfl

/-! ## Parsers that ask for one token after another -/

/-- What the parts of a literal ask of the tokens that they stand for. -/
structure Demand (α τ : Type) where
  site : String
  test : α → τ → Bool
  atEnd : α → Cause τ
  refusal : α → τ → Cause τ

namespace Demand

variable (d : Demand α τ)

/-- The tokens of `x` meet the demands of `wants`, each its own. -/
def Meets (wants : List α) (x : List τ) : Prop :=
  List.Forall₂ (fun w t => d.test w t = true) wants x

/-- The failure at a cursor where the demand of `want` is not met. -/
def Refuses (want : α) (c : Cursor τ) (f : Failure τ) : Prop :=
  c.remaining = [] ∧ f = ⟨c.offset, d.atEnd want⟩ ∨
    ∃ got, c.remaining.head? = some got ∧ d.test want got = false ∧
      f = ⟨c.offset, d.refusal want got⟩

/-- The token `want`. -/
def exact [DecidableEq τ] : Demand τ τ where
  site := "expect"
  test := fun w t => t = w
  atEnd := .endInsteadOf
  refusal := fun w t => .mismatch t w

/-- A token that passes the test which belongs to `want`. -/
def passing (test : α → τ → Bool) : Demand α τ where
  site := "satisfy"
  test := test
  atEnd := fun _ => .endOfInput
  refusal := fun _ => .untrue

end Demand

namespace Parser

/-- The part of a literal that stands for `want`. -/
def demanding (d : Demand α τ) (want : α) : Parser τ ρ :=
  builtIn d.site (.leaf (.token (d.test want) (d.atEnd want) (d.refusal want)))

/-- The parser asks for the tokens of a literal in turn, does nothing else, and makes a value of the
tokens that it met. -/
structure Asks (grammar : Grammar τ ρ) (d : Demand α τ) (wants : List α)
    (value : List τ → Value τ) (p : Parser τ ρ) : Prop where
  ok : ∀ {c m}, p.Gives grammar c (.ok m) ↔
    ∃ x e, d.Meets wants x ∧ c.Over x e ∧ m = ⟨e, value x⟩
  error : ∀ {c f}, p.Gives grammar c (.error f) ↔
    ∃ front want back x e, wants = front ++ want :: back ∧ d.Meets front x ∧ c.Over x e ∧
      d.Refuses want e f
  halts : ∀ c, p.Halts grammar c

section

variable {grammar : Grammar τ ρ} {d : Demand α τ} {want : α} {wants : List α}
  {value value' : List τ → Value τ} {p : Parser τ ρ} {c : Cursor τ} {s : Store τ} {m : Match τ}
  {f : Failure τ} {r : Result τ} {ctx : Context}

theorem ok_demanding : (demanding d want).Gives grammar c (.ok m) ↔
    ∃ t, c.remaining.head? = some t ∧ d.test want t = true ∧ m = ⟨c.advance, .token t⟩ := by
  obtain ⟨stop, v⟩ := m
  rw [demanding, builtIn, gives_site, ok_token]
  simp only [Match.mk.injEq, eq_comm]

theorem error_demanding : (demanding d want).Gives grammar c (.error f) ↔ d.Refuses want c f := by
  rw [demanding, builtIn, gives_site, gives_leaf, Leaf.run, Demand.Refuses,
    ← List.head?_eq_none_iff, c.head?_remaining]
  cases c.read? with
  | none => simp [eq_comm (a := f)]
  | some t => cases ht : d.test want t <;> simp [ht, eq_comm (a := f)]

/-! ## Literals of any kind -/

/-- The parts of a literal in turn, with the tokens that they met as value. -/
def demands (d : Demand α τ) (wants : List α) : Parser τ ρ :=
  Parts.eachOfList (nothing .unit) (wants.map (demanding d))

theorem ok_demands : (demands d wants).Gives grammar c (.ok m) ↔
    ∃ x e, d.Meets wants x ∧ c.Over x e ∧ m = ⟨e, .tokens x⟩ := by
  induction wants generalizing c m with
  | nil =>
    rw [demands, List.map_nil, gives_each_nil, Except.ok.injEq]
    constructor
    · rintro rfl
      exact ⟨[], c, .nil, Cursor.over_nil_iff.mpr rfl, rfl⟩
    · rintro ⟨x, e, ⟨⟩, hover, rfl⟩
      obtain rfl := Cursor.over_nil_iff.mp hover
      rfl
  | cons want wants ih =>
    simp only [demands] at ih
    rw [demands, List.map_cons, ok_each_cons]
    simp only [ok_demanding, ih]
    constructor
    · rintro ⟨_, _, ⟨t, hhead, ht, rfl⟩, ⟨x, e, hx, hover, rfl⟩, rfl⟩
      exact ⟨t :: x, e, .cons ht hx, Cursor.over_cons_iff.mpr ⟨hhead, hover⟩, rfl⟩
    · rintro ⟨x, e, hx, hover, rfl⟩
      cases hx with
      | cons ht hx =>
        obtain ⟨hhead, hover⟩ := Cursor.over_cons_iff.mp hover
        exact ⟨_, _, ⟨_, hhead, ht, rfl⟩, ⟨_, e, hx, hover, rfl⟩, rfl⟩

/-- The first part that is not met refuses, behind the tokens that met those in front of it. -/
theorem error_demands : (demands d wants).Gives grammar c (.error f) ↔
    ∃ front want back x e, wants = front ++ want :: back ∧ d.Meets front x ∧ c.Over x e ∧
      d.Refuses want e f := by
  induction wants generalizing c with
  | nil =>
    rw [demands, List.map_nil, gives_each_nil]
    constructor
    · intro h
      cases h
    · rintro ⟨front, want, back, x, e, hwants, -⟩
      cases front <;> cases hwants
  | cons want wants ih =>
    simp only [demands] at ih
    rw [demands, List.map_cons, error_each_cons]
    simp only [error_demanding, ok_demanding, ih]
    constructor
    · rintro (refuses | ⟨_, ⟨t, hhead, ht, rfl⟩, front, w, back, x, e, rfl, hx, hover, refuses⟩)
      · exact ⟨[], want, wants, [], c, rfl, .nil, Cursor.over_nil_iff.mpr rfl, refuses⟩
      · exact ⟨want :: front, w, back, t :: x, e, rfl, .cons ht hx,
          Cursor.over_cons_iff.mpr ⟨hhead, hover⟩, refuses⟩
    · rintro ⟨front, w, back, x, e, hwants, hx, hover, refuses⟩
      cases hx with
      | nil =>
        cases hwants
        obtain rfl := Cursor.over_nil_iff.mp hover
        exact .inl refuses
      | cons ht hx =>
        cases hwants
        obtain ⟨hhead, hover⟩ := Cursor.over_cons_iff.mp hover
        exact .inr ⟨_, ⟨_, hhead, ht, rfl⟩, _, w, back, _, e, rfl, hx, hover, refuses⟩

theorem halts_demands (wants : List α) (c : Cursor τ) : (demands d wants).Halts grammar c := by
  induction wants generalizing c with
  | nil => exact halts_leaf _
  | cons want wants ih => exact (halts_leaf _).site.each_cons fun _ _ => ih _

theorem asks_demands (d : Demand α τ) (wants : List α) :
    Asks grammar d wants .tokens (demands d wants) where
  ok := ok_demands
  error := error_demands
  halts := halts_demands wants

theorem Asks.site (h : Asks grammar d wants value p) (name : String) (report : Report) :
    Asks grammar d wants value (.site name report p) where
  ok := gives_site.trans h.ok
  error := gives_site.trans h.error
  halts := fun c => (h.halts c).site

/-- Another value of the tokens that were met, for an adapter that lets failures pass. -/
theorem Asks.adapt {a : Adapter τ} (h : Asks grammar d wants value p)
    (hok : ∀ {c x e}, c.Over x e → a.apply c (.ok ⟨e, value x⟩) = .ok ⟨e, value' x⟩)
    (herror : ∀ c f, a.apply c (.error f) = .error f) :
    Asks grammar d wants value' (.adapt a p) where
  ok := by
    intro c m
    rw [gives_adapt]
    constructor
    · rintro ⟨r, hr, hm⟩
      cases r with
      | error f => cases (herror c f).symm.trans hm
      | ok n =>
        obtain ⟨x, e, hx, hover, rfl⟩ := h.ok.mp hr
        rw [hok hover] at hm
        cases hm
        exact ⟨x, e, hx, hover, rfl⟩
    · rintro ⟨x, e, hx, hover, rfl⟩
      exact ⟨_, h.ok.mpr ⟨x, e, hx, hover, rfl⟩, hok hover⟩
  error := by
    intro c f
    rw [gives_adapt, ← h.error]
    constructor
    · rintro ⟨r, hr, hf⟩
      cases r with
      | error f' =>
        rw [herror] at hf
        cases hf
        exact hr
      | ok n =>
        obtain ⟨x, e, -, hover, rfl⟩ := h.ok.mp hr
        cases (hok hover).symm.trans hf
    · intro hf
      exact ⟨_, hf, herror c f⟩
  halts := fun c => (h.halts c).adapt a

theorem asks_inOrder (d : Demand α τ) (wants : List α) :
    Asks grammar d wants .tokens (inOrder (wants.map (demanding d))) :=
  (asks_demands d wants).site _ _

theorem Asks.map (h : Asks grammar d wants value p) (g : Value τ → Value τ) :
    Asks grammar d wants (fun x => g (value x)) (map g p) :=
  (h.adapt (fun _ => rfl) fun _ _ => rfl).site _ _

theorem Asks.replacedBy (h : Asks grammar d wants value p) (v : Value τ) :
    Asks grammar d wants (fun _ => v) (replacedBy v p) :=
  (h.adapt (fun _ => rfl) fun _ _ => rfl).site _ _

theorem Asks.consumed (h : Asks grammar d wants value p) :
    Asks grammar d wants .tokens (consumed p) := by
  refine (h.adapt ?_ fun _ _ => rfl).site _ _
  intro c x e hover
  rw [Adapter.apply, hover.consumed_eq]

/-! ## What literals make -/

/-- The tokens that come next meet all demands. -/
theorem Asks.makes_ok (h : Asks grammar d wants value p) : p.Makes grammar ctx c s (.ok m) ↔
    ∃ x, x <+: c.remaining ∧ d.Meets wants x ∧
      m = ⟨⟨c.buffer, c.offset + wants.length⟩, value x⟩ := by
  rw [(h.halts c).makes_iff, h.ok]
  constructor
  · rintro ⟨x, e, hx, hover, rfl⟩
    obtain ⟨hbegin, rfl⟩ := Cursor.over_iff.mp hover
    refine ⟨x, hbegin, hx, ?_⟩
    rw [hx.length_eq]
  · rintro ⟨x, hbegin, hx, rfl⟩
    refine ⟨x, _, hx, Cursor.over_iff.mpr ⟨hbegin, rfl⟩, ?_⟩
    rw [hx.length_eq]

theorem Asks.exists_error (h : Asks grammar d wants value p) (ctx : Context) (s : Store τ)
    (unmet : ¬ ∃ x, x <+: c.remaining ∧ d.Meets wants x) :
    ∃ f, p.Makes grammar ctx c s (.error f) := by
  obtain ⟨r, hr⟩ := (h.halts c).exists_makes ctx s
  cases r with
  | error f => exact ⟨f, hr⟩
  | ok m =>
    obtain ⟨x, hbegin, hx, -⟩ := h.makes_ok.mp hr
    exact absurd ⟨x, hbegin, hx⟩ unmet

/-! ## The wanted tokens themselves -/

/-- The failure `f` is at the first token at which the input parts from the literal: behind
`common`, where the literal goes on with `want`. -/
structure PartsAt [Token τ] (literal : List τ) (c : Cursor τ) (common : List τ) (want : τ)
    (f : Failure τ) : Prop where
  longest : IsLongestCommonPrefix common literal c.remaining
  wanted : literal[common.length]? = some want
  position : f.position = c.offset + common.length
  atEnd : c.remaining[common.length]? = none → f.message = "got EOF, want " ++ Token.spelling want
  mismatch : ∀ got, c.remaining[common.length]? = some got →
    f.message = "got " ++ Token.spelling got ++ ", want " ++ Token.spelling want

/-- What a literal makes at every cursor, under all settings and from all stores: it matches exactly
where the tokens that are left begin with it, and fails where these part from it. -/
structure ReadsLiteral (grammar : Grammar τ ρ) [Token τ] (p : Parser τ ρ) (literal : List τ)
    (value : Value τ) : Prop where
  ok : ∀ ctx c s m, p.Makes grammar ctx c s (.ok m) ↔
    literal <+: c.remaining ∧ m = ⟨⟨c.buffer, c.offset + literal.length⟩, value⟩
  error : ∀ ctx c s, ¬ literal <+: c.remaining →
    ∃ common want f, PartsAt literal c common want f ∧ p.Makes grammar ctx c s (.error f)

theorem meets_exact [DecidableEq τ] {literal x : List τ} :
    Demand.exact.Meets literal x ↔ x = literal := by
  have same : (fun w t : τ => Demand.exact.test w t = true) = fun w t => w = t := by
    funext w t
    simp [Demand.exact, eq_comm]
  rw [Demand.Meets, same, List.forall₂_eq_eq_eq, eq_comm]

theorem partsAt_of_refuses [Token τ] [DecidableEq τ] {front back : List τ} {want : τ} {e : Cursor τ}
    (hover : c.Over front e) (refuses : Demand.exact.Refuses want e f) :
    PartsAt (front ++ want :: back) c front want f := by
  have next : c.remaining[front.length]? = e.remaining.head? := by
    rw [hover.tokens, List.getElem?_append_right (Nat.le_refl _), Nat.sub_self,
      List.head?_eq_getElem?]
  have elsewhere : e.remaining.head? ≠ some want := by
    rcases refuses with ⟨hend, -⟩ | ⟨got, hgot, other, -⟩
    · simp [hend]
    · rw [hgot]
      intro same
      cases same
      exact absurd rfl (of_decide_eq_false other)
  have position : f.position = c.offset + front.length := by
    have stop : e.offset = c.offset + front.length := by rw [hover.stop]
    rcases refuses with ⟨-, rfl⟩ | ⟨got, -, -, rfl⟩ <;> exact stop
  refine ⟨?_, by simp, position, ?_, ?_⟩
  · rw [hover.tokens]
    exact isLongestCommonPrefix_of_head elsewhere
  · rw [next]
    intro hend
    rcases refuses with ⟨-, rfl⟩ | ⟨got, hgot, -⟩
    · rfl
    · cases hgot.symm.trans hend
  · rw [next]
    intro got hgot
    rcases refuses with ⟨hend, -⟩ | ⟨got', hgot', -, rfl⟩
    · simp [hend] at hgot
    · cases hgot'.symm.trans hgot
      rfl

theorem Asks.readsLiteral [Token τ] [DecidableEq τ] {literal : List τ}
    (h : Asks grammar .exact literal value p) : ReadsLiteral grammar p literal (value literal) where
  ok := by
    intro ctx c s m
    rw [h.makes_ok]
    constructor
    · rintro ⟨x, hbegin, hx, rfl⟩
      obtain rfl := meets_exact.mp hx
      exact ⟨hbegin, rfl⟩
    · rintro ⟨hbegin, rfl⟩
      exact ⟨literal, hbegin, meets_exact.mpr rfl, rfl⟩
  error := by
    intro ctx c s other
    have unmet : ¬ ∃ x, x <+: c.remaining ∧ Demand.exact.Meets literal x := by
      rintro ⟨x, hbegin, hx⟩
      obtain rfl := meets_exact.mp hx
      exact other hbegin
    obtain ⟨f, hf⟩ := h.exists_error ctx s unmet
    obtain ⟨front, want, back, x, e, rfl, hx, hover, refuses⟩ :=
      h.error.mp ((h.halts c).makes_iff.mp hf)
    obtain rfl := meets_exact.mp hx
    exact ⟨_, want, f, partsAt_of_refuses hover refuses, hf⟩

theorem readsLiteral_literally [Token τ] [DecidableEq τ] (grammar : Grammar τ ρ)
    (literal : List τ) : ReadsLiteral grammar (literally literal) literal (.tokens literal) := by
  have inOrder : Asks grammar .exact literal .tokens (inOrder (literal.map exactly)) :=
    asks_inOrder .exact literal
  exact ((inOrder.replacedBy (.tokens literal)).site _ _).readsLiteral

theorem readsLiteral_tag (grammar : Grammar Char ρ) (text : String) :
    ReadsLiteral grammar (tag text) text.toList (.text text) := by
  have inOrder : Asks grammar .exact text.toList .tokens (inOrder (text.toList.map exactly)) :=
    asks_inOrder .exact text.toList
  have reads := (inOrder.map Value.joined).readsLiteral
  rw [Value.joined_tokens, String.ofList_toList] at reads
  exact reads

theorem readsLiteral_bytesTag (grammar : Grammar UInt8 ρ) (bytes : List UInt8) :
    ReadsLiteral grammar (bytesTag bytes) bytes (.tokens bytes) := by
  have inOrder : Asks grammar .exact bytes .tokens (inOrder (bytes.map exactly)) :=
    asks_inOrder .exact bytes
  exact inOrder.consumed.readsLiteral

end

/-! ## Letters in either case -/

/-- What a literal in any case makes at every cursor, under all settings and from all stores: it
matches exactly where enough tokens are left and each is the same as the wanted one. -/
structure ReadsInAnyCase (grammar : Grammar τ ρ) (p : Parser τ ρ) (Same : τ → τ → Prop)
    (literal : List τ) (value : List τ → Value τ) : Prop where
  ok : ∀ ctx c s m, p.Makes grammar ctx c s (.ok m) ↔
    ∃ x, x <+: c.remaining ∧ List.Forall₂ Same x literal ∧
      m = ⟨⟨c.buffer, c.offset + literal.length⟩, value x⟩
  error : ∀ ctx c s, (¬ ∃ x, x <+: c.remaining ∧ List.Forall₂ Same x literal) →
    ∃ f, p.Makes grammar ctx c s (.error f)

theorem meets_passing {test : τ → τ → Bool} {Same : τ → τ → Prop} {literal x : List τ}
    (same : ∀ w t, test w t = true ↔ Same t w) :
    (Demand.passing test).Meets literal x ↔ List.Forall₂ Same x literal := by
  have flipped : (fun w t => (Demand.passing test).test w t = true) = flip Same := by
    funext w t
    exact propext (same w t)
  rw [Demand.Meets, flipped]
  exact ⟨List.Forall₂.flip, List.Forall₂.flip⟩

theorem Asks.readsInAnyCase {grammar : Grammar τ ρ} {p : Parser τ ρ} {test : τ → τ → Bool}
    {Same : τ → τ → Prop} {literal : List τ} {value : List τ → Value τ}
    (h : Asks grammar (.passing test) literal value p) (same : ∀ w t, test w t = true ↔ Same t w) :
    ReadsInAnyCase grammar p Same literal value where
  ok := by
    intro ctx c s m
    rw [h.makes_ok]
    simp only [meets_passing same]
  error := by
    intro ctx c s unmet
    refine h.exists_error ctx s ?_
    simpa only [meets_passing same] using unmet

/-- Two bytes are equal, or they are one letter of ASCII in both cases. -/
def SameByte (a b : UInt8) : Prop :=
  a = b ∨ (65 ≤ a.toNat ∧ a.toNat ≤ 90 ∧ b.toNat = a.toNat + 32) ∨
    65 ≤ b.toNat ∧ b.toNat ≤ 90 ∧ a.toNat = b.toNat + 32

/-- A number of ASCII with capital letters moved to small ones. -/
def lowered (n : Nat) : Nat := if 65 ≤ n ∧ n ≤ 90 then n + 32 else n

theorem toNat_lowerByte (b : UInt8) : (lowerByte b).toNat = lowered b.toNat := by
  have capital : (0x41 ≤ b && b ≤ 0x5A) = true ↔ 65 ≤ b.toNat ∧ b.toNat ≤ 90 := by
    rw [Bool.and_eq_true, decide_eq_true_iff, decide_eq_true_iff, UInt8.le_iff_toNat_le,
      UInt8.le_iff_toNat_le]
    rfl
  rw [lowerByte, lowered]
  by_cases h : 65 ≤ b.toNat ∧ b.toNat ≤ 90
  · have small : b.toNat + 32 < 256 := by omega
    rw [if_pos (capital.mpr h), if_pos h, UInt8.toNat_add]
    exact Nat.mod_eq_of_lt small
  · rw [if_neg (mt capital.mp h), if_neg h]

theorem sameByte_iff {a b : UInt8} : SameByte a b ↔ lowered a.toNat = lowered b.toNat := by
  rw [SameByte, ← UInt8.toNat_inj, lowered, lowered]
  split <;> split <;> omega

/-- The lower-case forms of the characters are the same. -/
def SameLowercase (a b : Char) : Prop := Text.lowercase a = Text.lowercase b

theorem readsInAnyCase_tag (grammar : Grammar Char ρ) (text : String) :
    ReadsInAnyCase grammar (tagInAnyCase text) SameLowercase text.toList
      (fun x => .text (.ofList x)) := by
  let test (w t : Char) : Bool := Text.sameIgnoringCase t w
  have inOrder : Asks grammar (.passing test) text.toList .tokens
      (inOrder (text.toList.map eitherCase)) := asks_inOrder (.passing test) text.toList
  have same : ∀ w t, test w t = true ↔ SameLowercase t w := by
    intro w t
    simp only [test, Text.sameIgnoringCase, SameLowercase, Bool.or_eq_true, beq_iff_eq]
    constructor
    · rintro (rfl | h)
      · rfl
      · exact h
    · exact .inr
  have reads := (inOrder.map Value.joined).readsInAnyCase same
  simp only [Value.joined_tokens] at reads
  exact reads

theorem readsInAnyCase_bytesTag (grammar : Grammar UInt8 ρ) (bytes : List UInt8) :
    ReadsInAnyCase grammar (bytesTagInAnyCase bytes) SameByte bytes .tokens := by
  let test (w t : UInt8) : Bool := lowerByte t == lowerByte w
  have inOrder : Asks grammar (.passing test) bytes .tokens
      (inOrder (bytes.map fun w => satisfying fun t => lowerByte t == lowerByte w)) :=
    asks_inOrder (.passing test) bytes
  refine inOrder.consumed.readsInAnyCase fun w t => ?_
  rw [sameByte_iff, ← toNat_lowerByte, ← toNat_lowerByte, UInt8.toNat_inj]
  exact beq_iff_eq

/-! ## Characters and bytes of ASCII -/

/-- All characters of the text belong to ASCII. -/
def IsAscii (x : List Char) : Prop := ∀ a ∈ x, a.toNat < 128

/-- On texts of ASCII the literals in any case of characters and of bytes match at the same places,
and match as much. -/
structure AgreesOnAscii {ρ' : Type} (grammar : Grammar Char ρ) (grammar' : Grammar UInt8 ρ')
    (literal : String) : Prop where
  matched : ∀ ctx ctx' c (c' : Cursor UInt8) s s' n, IsAscii literal.toList →
    IsAscii c.remaining → c'.remaining = c.remaining.map Char.toUInt8 →
    ((∃ m, (tagInAnyCase literal).Makes grammar ctx c s (.ok m) ∧ m.stop.offset = c.offset + n) ↔
      ∃ m, (bytesTagInAnyCase (literal.toList.map Char.toUInt8)).Makes grammar' ctx' c' s' (.ok m) ∧
        m.stop.offset = c'.offset + n)

/-- The first run is that of the capital letters of ASCII, and no other one reaches into ASCII. -/
theorem map_lowercaseRuns {n : Nat} (h : n < 128) :
    Text.CaseRange.map Text.lowercaseRuns n = lowered n := by
  have split : Text.lowercaseRuns = ⟨0x41, 0x5A, 1, 32⟩ :: Text.lowercaseRuns.tail := rfl
  have beyond : Text.lowercaseRuns.tail.all (fun r => 128 ≤ r.first) = true := by decide +kernel
  have others : Text.lowercaseRuns.tail.find? (·.contains n) = none := by
    refine List.find?_eq_none.mpr fun r hr => ?_
    have hfirst := of_decide_eq_true (List.all_eq_true.mp beyond r hr)
    have below : ¬ r.first ≤ n := by omega
    simp [Text.CaseRange.contains, below]
  rw [Text.CaseRange.map, split, List.find?_cons, others, lowered]
  by_cases hn : 65 ≤ n ∧ n ≤ 90
  · simp [Text.CaseRange.contains, hn, Nat.mod_one]
    omega
  · have outside : Text.CaseRange.contains ⟨0x41, 0x5A, 1, 32⟩ n = false := by
      simp [Text.CaseRange.contains, Nat.mod_one]
      omega
    rw [outside, if_neg hn]

theorem sameLowercase_iff {a b : Char} (ha : a.toNat < 128) (hb : b.toNat < 128) :
    SameLowercase a b ↔ lowered a.toNat = lowered b.toNat := by
  have form : ∀ c : Char, c.toNat < 128 → Text.lowercase c = [Char.ofNat (lowered c.toNat)] := by
    intro c hc
    rw [Text.lowercase, if_neg (by omega), map_lowercaseRuns hc]
  have toNat : ∀ n < 128, (Char.ofNat (lowered n)).toNat = lowered n := by
    intro n hn
    refine Text.Utf8.toNat_val_ofNat (.inl ?_)
    rw [lowered]
    split <;> omega
  rw [SameLowercase, form a ha, form b hb, List.singleton_inj]
  constructor
  · intro h
    rw [← toNat _ ha, ← toNat _ hb, h]
  · intro h
    rw [h]

theorem sameLowercase_iff_sameByte {a b : Char} (ha : a.toNat < 128) (hb : b.toNat < 128) :
    SameLowercase a b ↔ SameByte a.toUInt8 b.toUInt8 := by
  have byte : ∀ c : Char, c.toNat < 128 → c.toUInt8.toNat = c.toNat := by
    intro c hc
    exact Nat.mod_eq_of_lt (Nat.lt_trans hc (by decide))
  rw [sameLowercase_iff ha hb, sameByte_iff, byte a ha, byte b hb]

theorem forall₂_sameLowercase_iff {x y : List Char} (hx : IsAscii x) (hy : IsAscii y) :
    List.Forall₂ SameLowercase x y ↔
      List.Forall₂ SameByte (x.map Char.toUInt8) (y.map Char.toUInt8) := by
  induction x generalizing y with
  | nil => cases y <;> simp
  | cons a x ih =>
    cases y with
    | nil => simp
    | cons b y =>
      obtain ⟨ha, hx⟩ := List.forall_mem_cons.mp hx
      obtain ⟨hb, hy⟩ := List.forall_mem_cons.mp hy
      rw [List.map_cons, List.map_cons, List.forall₂_cons, List.forall₂_cons, ih hx hy,
        sameLowercase_iff_sameByte ha hb]

theorem agreesOnAscii {ρ' : Type} (grammar : Grammar Char ρ) (grammar' : Grammar UInt8 ρ')
    (literal : String) : AgreesOnAscii grammar grammar' literal where
  matched := by
    intro ctx ctx' c c' s s' n hliteral hc hc'
    simp only [(readsInAnyCase_tag grammar literal).ok, (readsInAnyCase_bytesTag grammar' _).ok]
    constructor
    · rintro ⟨_, ⟨x, hbegin, hx, rfl⟩, hn⟩
      have ascii : IsAscii x := fun a ha => hc a (hbegin.subset ha)
      refine ⟨_, ⟨x.map Char.toUInt8, ?_, ?_, rfl⟩, ?_⟩
      · rw [hc']
        exact hbegin.map _
      · exact (forall₂_sameLowercase_iff ascii hliteral).mp hx
      · simpa using hn
    · rintro ⟨_, ⟨_, hbegin, hx, rfl⟩, hn⟩
      rw [hc', List.prefix_map_iff] at hbegin
      obtain ⟨x, hbegin, rfl⟩ := hbegin
      have ascii : IsAscii x := fun a ha => hc a (hbegin.subset ha)
      refine ⟨_, ⟨x, hbegin, ?_, rfl⟩, ?_⟩
      · exact (forall₂_sameLowercase_iff ascii hliteral).mpr hx
      · simpa using hn

/-! ## All literals -/

/-- What the literals of characters make. -/
structure CharacterLiterals (grammar : Grammar Char ρ) (literal : String) : Prop where
  exact : ReadsLiteral grammar (tag literal) literal.toList (.text literal)
  inAnyCase : ReadsInAnyCase grammar (tagInAnyCase literal) SameLowercase literal.toList
    fun x => .text (.ofList x)

/-- What the literals of bytes make. -/
structure ByteLiterals (grammar : Grammar UInt8 ρ) (literal : List UInt8) : Prop where
  exact : ReadsLiteral grammar (bytesTag literal) literal (.tokens literal)
  inAnyCase : ReadsInAnyCase grammar (bytesTagInAnyCase literal) SameByte literal .tokens

/-- Literals match exactly the texts that they stand for, and fail where the input parts from them.
In any case they match the texts that differ from them in nothing but the case of letters, and the
value is the text as it stands in the input. On ASCII there is one notion of case. -/
theorem literals_read :
    (∀ {τ ρ : Type} [Token τ] [DecidableEq τ] (grammar : Grammar τ ρ) (literal : List τ),
      ReadsLiteral grammar (literally literal) literal (.tokens literal)) ∧
    (∀ {ρ : Type} (grammar : Grammar Char ρ) literal, CharacterLiterals grammar literal) ∧
    (∀ {ρ : Type} (grammar : Grammar UInt8 ρ) literal, ByteLiterals grammar literal) ∧
    ∀ {ρ ρ' : Type} (grammar : Grammar Char ρ) (grammar' : Grammar UInt8 ρ') literal,
      AgreesOnAscii grammar grammar' literal :=
  ⟨readsLiteral_literally,
    fun grammar literal => ⟨readsLiteral_tag grammar literal, readsInAnyCase_tag grammar literal⟩,
    fun grammar literal =>
      ⟨readsLiteral_bytesTag grammar literal, readsInAnyCase_bytesTag grammar literal⟩,
    agreesOnAscii⟩

/-- The input parts from the literal at its third character. -/
example : ((literally ['a', 'b', 'c'] : Parser Char Empty).run Empty.elim 12 .plain
    (.ofBuffer (.ofArray 0 #['a', 'b', 'x', 'c'])) ∅).map (fun x => x.1.map fun _ => ()) =
      some (.error ⟨2, .mismatch 'x' 'c'⟩) := by decide +kernel

end Parser

end Packrat
