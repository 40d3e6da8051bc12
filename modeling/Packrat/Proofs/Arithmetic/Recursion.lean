import Mathlib.Data.List.Chain
import Packrat.Proofs.Arithmetic.Descent

/-!
# The recursion of the rules is well founded

Whatever a text looks like, no rule calls itself without end: inside of a rule either fewer
characters are left, or as many and the rule that is called is a lower one. This holds of every chain
of calls, without memo tables and with them, whatever earlier calls have entered there. So a chain
has no more than six calls for each character that is left, and every rule returns.

* `Smaller`: the order of calls, by what is left and then by the height of the rule.
* `Nests`: chains of calls, each inside of the one before it.
* `Descends.falls`: in an activity that descends, the calls of a chain become smaller.
* `recursion_descends`: so it is for all rules, and they return.
-/

namespace Packrat.Arithmetic

open Packrat.Parser

/-! ## The order of calls -/

/-- The call `x` of a rule at a cursor is smaller than the call `y`: fewer characters are left at its
cursor, or as many and its rule is lower. -/
def Smaller (x y : Rule × Cursor Char) : Prop :=
  Prod.Lex (· < ·) (· < ·) (x.2.remaining.length, x.1.height) (y.2.remaining.length, y.1.height)

theorem wellFounded_smaller : WellFounded Smaller :=
  InvImage.wf (fun x : Rule × Cursor Char => (x.2.remaining.length, x.1.height))
    (Prod.lex Nat.lt_wfRel Nat.lt_wfRel).wf

section

variable {q r : Rule} {c d : Cursor Char}

/-- The levels order the calls in the same way. -/
theorem smaller_iff : Smaller (q, d) (r, c) ↔ levelAt q d < levelAt r c := by
  have hq := q.height_le
  have hr := r.height_le
  rw [Smaller, Prod.lex_def]
  show d.remaining.length < c.remaining.length ∨
    d.remaining.length = c.remaining.length ∧ q.height < r.height ↔ _
  simp only [levelAt, levels]
  omega

/-- The most calls that a chain can have from this one on. -/
def callsFrom (x : Rule × Cursor Char) : Nat := 6 * x.2.remaining.length + x.1.height + 1

theorem callsFrom_le (h : levelAt q d ≤ levelAt r c) : callsFrom (q, d) ≤ callsFrom (r, c) := by
  have hq := q.height_le
  have hr := r.height_le
  simp only [levelAt, levels] at h
  simp only [callsFrom]
  omega

theorem callsFrom_lt (h : levelAt q d < levelAt r c) : callsFrom (q, d) < callsFrom (r, c) := by
  have hq := q.height_le
  have hr := r.height_le
  simp only [levelAt, levels] at h
  simp only [callsFrom]
  omega

end

/-! ## Chains of calls -/

/-- Rules that are called in an activity, each inside of the one before it. Calls may be left out of
the chain. -/
inductive Nests : Activity Char → List (Rule × Cursor Char) → Prop where
  | nil {act} : Nests act []
  | first {act act' chain} (inside : Nests act chain) : Nests (.both act act') chain
  | second {act act' chain} (inside : Nests act' chain) : Nests (.both act act') chain
  | call {o act chain} (inside : Nests act chain) : Nests (.call o act) chain
  | visit {name c act chain} (inside : Nests act chain) : Nests (.visit name c act) chain
  | rule {r : Rule} {c act chain} (inside : Nests act chain) :
      Nests (.visit r.tag c act) ((r, c) :: chain)

/-- Each call of the chain is smaller than the one around it. -/
def Falls (chain : List (Rule × Cursor Char)) : Prop :=
  chain.IsChain fun outer inner => Smaller inner outer

/-- The calls of the chain begin below the level. -/
def Under (n : Nat) (chain : List (Rule × Cursor Char)) : Prop :=
  ∀ x ∈ chain.head?, levelAt x.1 x.2 < n

variable {base? : Option Nat} {b : Buffer Char} {n : Nat} {act : Activity Char}
  {chain : List (Rule × Cursor Char)} {r : Rule} {c : Cursor Char}

theorem Falls.cons (h : Falls chain) (lower : Under (levelAt r c) chain) :
    Falls ((r, c) :: chain) :=
  List.isChain_cons.mpr ⟨fun x hx => smaller_iff.mpr (lower x hx), h⟩

theorem Falls.length_le (h : Falls ((r, c) :: chain)) :
    ((r, c) :: chain).length ≤ callsFrom (r, c) := by
  induction chain generalizing r c with
  | nil => exact Nat.le_add_left _ _
  | cons x chain ih =>
    obtain ⟨q, d⟩ := x
    obtain ⟨smaller, rest⟩ := List.isChain_cons_cons.mp h
    have hlength := ih rest
    have hlt := callsFrom_lt (smaller_iff.mp smaller)
    rw [List.length_cons]
    omega

theorem nests_call {o : Activation Char} (h : Nests (.call o act) chain) : Nests act chain := by
  cases h with
  | nil => exact .nil
  | call inside => exact inside

/-- A chain in the visit of a rule begins with the rule, or it is a chain inside of the visit. -/
theorem falls_visit (lower : levelAt r c < n) (h : Nests (.visit r.tag c act) chain)
    (inner : ∀ {chain}, Nests act chain → Falls chain ∧ Under (levelAt r c) chain) :
    Falls chain ∧ Under n chain := by
  generalize hname : r.tag = name at h
  cases h with
  | nil => exact ⟨.nil, nofun⟩
  | visit inside =>
    obtain ⟨falls, below⟩ := inner inside
    exact ⟨falls, fun x hx => Nat.lt_trans (below x hx) lower⟩
  | rule inside =>
    obtain rfl := Rule.tag_injective hname
    obtain ⟨falls, below⟩ := inner inside
    refine ⟨falls.cons below, fun x hx => ?_⟩
    cases hx
    exact lower

/-- In an activity that descends the calls of a chain become smaller, from the level on. -/
theorem Descends.falls (h : Descends base? b n act) (hchain : Nests act chain) :
    Falls chain ∧ Under n chain := by
  induction h generalizing chain with
  | quiet =>
    cases hchain with
    | nil => exact ⟨.nil, nofun⟩
  | both _ _ ih₁ ih₂ =>
    cases hchain with
    | nil => exact ⟨.nil, nofun⟩
    | first inside => exact ih₁ inside
    | second inside => exact ih₂ inside
  | site other _ ih =>
    cases hchain with
    | nil => exact ⟨.nil, nofun⟩
    | visit inside => exact ih inside
    | rule inside => exact absurd rfl (other _)
  | plain _ _ lower _ ih => exact falls_visit lower hchain ih
  | memoized _ _ _ _ lower _ ih =>
    exact falls_visit lower hchain fun inside => ih (nests_call inside)

/-! ## Calls after other calls -/

namespace Query

/-- After any calls of the rules of one grammar, which has no tables or had nothing in them before
these calls, every rule returns at every cursor. Whatever happens inside of it, the calls of a chain
become smaller in a well-founded order, by the number of characters left and then by the height of
the rule, and a chain has at most six calls for each character left, and six more. -/
theorem recursion_descends {sources : Nat → Array Char} {earlier : List Query} {fuel : Nat}
    {s t : Store Char} {results : List (Result Char)} {signals : List (Signal Char)}
    (cut : Cut sources earlier) (unused : Unused base? s)
    (before : runAll base? fuel earlier s = some (results, t, signals))
    (r : Rule) (c : Cursor Char) (hc : c.buffer.CutFrom sources) (ctx : Context) :
    WellFounded Smaller ∧
      (∃ fuel out u signals act,
        r.call.run (rules base?) fuel ctx c t = some (out, u, signals) ∧
          r.call.Activates (rules base?) c t out u act) ∧
      ∀ out u act, r.call.Activates (rules base?) c t out u act →
        ∀ chain, Nests act chain →
          Falls chain ∧ chain.length ≤ 6 * (c.remaining.length + 1) := by
  obtain ⟨_, -, faithful⟩ := Job.parseAll_of_runAll Store.faithful_kept (uniform_rules base?)
    (fits cut) before [] (faithful_of_unused unused)
  refine ⟨wellFounded_smaller, ?_, ?_⟩
  · obtain ⟨out, u, signals, returned, -, -⟩ := finishes_call base? hc r ctx t faithful
    obtain ⟨_, d, -⟩ := Parser.runs_of_run returned
    obtain ⟨act, happened, -⟩ := d.exists_activates
    exact ⟨_, out, u, signals, act, returned, happened⟩
  · intro out u act happened chain hchain
    obtain ⟨-, descends, -⟩ := sinks_call base? sources r c hc faithful happened
    obtain ⟨falls, below⟩ := descends.falls hchain
    refine ⟨falls, ?_⟩
    cases chain with
    | nil => exact Nat.zero_le _
    | cons x chain =>
      obtain ⟨q, d⟩ := x
      -- the chain begins with the rule itself or with a smaller call
      have first : levelAt q d ≤ levelAt r c := Nat.le_of_lt_succ (below (q, d) rfl)
      have hmost := callsFrom_le first
      have hheight := r.height_le
      have hlength := falls.length_le
      simp only [callsFrom] at hmost hlength
      omega

/-! ### Parentheses that are not closed -/

/-- The start of the text, which is no expression, and the sum that its inner parentheses begin with,
after a call of the number inside of them. -/
theorem recursion_descends_of_open_parens :
    let start := startOf "((1"
    let digit : Cursor Char := { start with offset := 2 }
    ∃ results t signals,
      runAll (some 0) 300 [⟨.plain, .number, digit⟩] ∅ = some (results, t, signals) ∧
      (∃ fuel out u signals act,
        Rule.expression.call.run (rules (some 0)) fuel .plain start t = some (out, u, signals) ∧
          Rule.expression.call.Activates (rules (some 0)) start t out u act) ∧
      ∀ out u act, Rule.expression.call.Activates (rules (some 0)) start t out u act →
        ∀ chain, Nests act chain → Falls chain ∧ chain.length ≤ 24 := by
  intro start digit
  have returns : (runAll (some 0) 300 [⟨.plain, .number, digit⟩] ∅).isSome := by decide +kernel
  obtain ⟨⟨results, t, signals⟩, h⟩ := Option.isSome_iff_exists.mp returns
  have buffer : start.buffer.CutFrom fun _ => "((1".toList.toArray := cutFrom_startOf _
  have cut : Cut (fun _ => "((1".toList.toArray) [⟨.plain, .number, digit⟩] := by
    intro q hq
    cases List.mem_singleton.mp hq
    exact buffer
  obtain ⟨-, terminates, descends⟩ :=
    recursion_descends cut (unused_empty _) h .expression start buffer .plain
  exact ⟨results, t, signals, h, terminates, descends⟩

end Query

end Packrat.Arithmetic
