import Packrat.Proofs.Arithmetic.Totality
import Packrat.Proofs.Reordering

/-!
# Calls of the rules of one grammar

A program may call the rules of a grammar in any order, at cursors of several buffers and under
different settings. All these calls share the memo tables of the grammar. What each of them returns
is known without the tables: it is what the rule gives, which is the same in the grammar that has no
tables, and it is derived from the notation.

* `Query`: a call of a rule.
* `gives_of_runAll`: each call returns what its rule gives.
* `Query.results_as_plain`: the grammar with tables against the one without.
* `Query.matches_derived`: every match is a derivation.
-/

namespace Packrat.Arithmetic

open Packrat.Parser

/-- A call of a rule: the settings, the rule and the cursor. -/
structure Query where
  ctx : Context
  rule : Rule
  start : Cursor Char

/-- Nothing was entered yet into the tables of the grammar, if it has tables. -/
def Unused (base? : Option Nat) (s : Store Char) : Prop :=
  ∀ base ∈ base?, ∀ (r : Rule) place, (s.table (r.table base)).find? place = none

namespace Query

variable {base? : Option Nat} {sources : Nat → Array Char} {queries : List Query}
  {s t : Store Char} {fuel : Nat} {results : List (Result Char)} {signals : List (Signal Char)}

/-- The run of a call. -/
def job (q : Query) : Job Char Rule := ⟨q.ctx, q.rule.call, q.start⟩

/-- The runs of several calls, one after another from one store. -/
def runAll (base? : Option Nat) (fuel : Nat) (queries : List Query) :
    Run Char (List (Result Char)) :=
  Job.runAll (rules base?) fuel (queries.map job)

/-- The buffers of all calls are cut from the sources. -/
def Cut (sources : Nat → Array Char) (queries : List Query) : Prop :=
  ∀ q ∈ queries, q.start.buffer.CutFrom sources

theorem faithful_of_unused (unused : Unused base? s) :
    s.Faithful (rules base?) (tableBody base?) sources := by
  intro memo place r found p hbody
  obtain ⟨base, hbase, hfind⟩ := Option.bind_eq_some_iff.mp hbody
  obtain ⟨rule, hrule, -⟩ := Option.map_eq_some_iff.mp hfind
  have table : rule.table base = memo := by simpa using List.find?_some hrule
  rw [← table, unused base hbase rule place] at found
  cases found

theorem fits (cut : Cut sources queries) :
    ∀ j ∈ queries.map job, j.Fits (tableBody base?) sources := by
  intro _ hjob
  obtain ⟨q, hq, rfl⟩ := List.mem_map.mp hjob
  exact ⟨trivial, cut q hq⟩

theorem exists_parseAll (base? : Option Nat) (cut : Cut sources queries) :
    ∃ results asked, Job.ParseAll (rules base?) (queries.map job) results asked := by
  induction queries with
  | nil => exact ⟨[], [], .nil⟩
  | cons q queries ih =>
    obtain ⟨hq, cut⟩ := List.forall_mem_cons.mp cut
    obtain ⟨r, ks, first⟩ := (finishes_call base? hq q.rule).exists_gives
    obtain ⟨results, asked, rest⟩ := ih cut
    exact ⟨r :: results, ks ++ asked, .cons first rest⟩

theorem exists_runAll (cut : Cut sources queries) (unused : Unused base? s) :
    ∃ fuel, (runAll base? fuel queries s).isSome := by
  obtain ⟨results, asked, hall⟩ := exists_parseAll base? cut
  exact hall.exists_runAll (uniform_rules base?) (fits cut) (faithful_of_unused unused)

theorem gives_of_runAll (cut : Cut sources queries) (unused : Unused base? s)
    (h : runAll base? fuel queries s = some (results, t, signals)) :
    List.Forall₂ (fun q r => q.start.buffer.CutFrom sources ∧
      q.rule.call.Gives (rules base?) q.start r) queries results := by
  obtain ⟨asked, hall, -⟩ := Job.parseAll_of_runAll Store.faithful_kept (uniform_rules base?)
    (fits cut) h [] (faithful_of_unused unused)
  clear h
  induction queries generalizing results asked with
  | nil =>
    cases hall
    exact .nil
  | cons q queries ih =>
    obtain ⟨hq, cut⟩ := List.forall_mem_cons.mp cut
    cases hall with
    | cons first rest => exact .cons ⟨hq, _, first⟩ (ih cut _ rest)

/-! ## The grammar without tables -/

theorem rulesWithoutMemo_rules (base? : Option Nat) :
    rulesWithoutMemo (rules base?) = rules none := by
  funext r
  cases base? <;> exact congrArg (Parser.named r.tag) (withoutMemo_body r)

/-- Calls of the rules of one grammar, in any order, at any cursors and under any settings, from
tables in which nothing was entered yet: they all return, and each returns what the same rule of the
grammar without tables returns there. -/
theorem results_as_plain {base : Nat} (cut : Cut sources queries) (unused : Unused (some base) s) :
    (∃ fuel, (runAll (some base) fuel queries s).isSome) ∧
      ∀ fuel results t signals,
        runAll (some base) fuel queries s = some (results, t, signals) →
        List.Forall₂ (fun q r => q.rule.call.Returns (rules none) q.start r) queries results := by
  refine ⟨exists_runAll cut unused, ?_⟩
  intro fuel results t signals h
  refine (gives_of_runAll cut unused h).imp ?_
  rintro q r ⟨hcut, ks, hr⟩
  rw [← rulesWithoutMemo_rules (some base)]
  exact hr.returns_withoutMemo hcut

/-! ### Three calls on two texts -/

/-- A sum, the product that it begins with, and a text in parentheses. -/
def threeQueries : List Query :=
  [⟨.plain, .expression, startOf "2*3 + 1"⟩, ⟨.plain, .product, startOf "2*3 + 1"⟩,
    ⟨.plain, .parens, .ofBuffer (.ofArray 1 "( 4-5 )".toList.toArray)⟩]

/-- The characters of the two texts. -/
def twoSources (n : Nat) : Array Char :=
  if n = 0 then "2*3 + 1".toList.toArray else "( 4-5 )".toList.toArray

theorem cut_threeQueries : Cut twoSources threeQueries := by
  have first : (startOf "2*3 + 1").buffer.CutFrom twoSources := .ofArray 0
  have second : (Buffer.ofArray 1 "( 4-5 )".toList.toArray).CutFrom twoSources := .ofArray 1
  intro q hq
  simp only [threeQueries, List.mem_cons, List.not_mem_nil, or_false] at hq
  rcases hq with rfl | rfl | rfl
  · exact first
  · exact first
  · exact second

theorem unused_empty (base? : Option Nat) : Unused base? ∅ := fun _ _ _ _ => rfl

/-- The product is answered from its table, with what it returns where there is none. -/
theorem results_as_plain_of_two_texts :
    ∃ results t signals, runAll (some 0) 300 threeQueries ∅ = some (results, t, signals) ∧
      (t.table (Rule.product.table 0)).hits = 3 ∧
      List.Forall₂ (fun q r => q.rule.call.Returns (rules none) q.start r)
        threeQueries results := by
  have returns : ((runAll (some 0) 300 threeQueries ∅).map fun out =>
      (out.2.1.table (Rule.product.table 0)).hits) = some 3 := by
    decide +kernel
  obtain ⟨⟨results, t, signals⟩, h, hits⟩ := Option.map_eq_some_iff.mp returns
  have agree := (results_as_plain cut_threeQueries (unused_empty (some 0))).2
  exact ⟨results, t, signals, h, hits, agree _ _ _ _ h⟩

/-! ## Matches are derivations -/

/-- Between the cursors stand blanks and then a text that the rule derives with this tree, and no
blank is at the end. -/
def Derived (r : Rule) (c d : Cursor Char) (e : Expr) : Prop :=
  ∃ b w, Blank b ∧ c.Over (b ++ w) d ∧ Derives false r w e ∧
    ∀ a ∈ w.getLast?, CharClass.space.contains a = false

theorem derived_of_reading {r : Rule} {c d : Cursor Char} {b w : List Char} {e : Expr}
    (h : Reading base? r c d b w e) : Derived r c d e := by
  refine ⟨b, w, h.blank, h.between, h.derives.unordered, ?_⟩
  intro a ha
  rcases h.derives.last a ha with digit | rfl
  · exact not_space_of_isDigit digit
  · rfl

/-- Whatever a call of a rule that builds trees matches, with tables or without and after any other
calls, is derived from the notation, and the value is the tree of the derivation. A text that is read
as a whole is such a derivation, with white space behind it. -/
theorem matches_derived :
    (∀ base? sources queries s, Cut sources queries → Unused base? s →
      ∀ fuel results t signals, runAll base? fuel queries s = some (results, t, signals) →
        List.Forall₂ (fun q r => ∀ d v, q.rule ∈ treeRules → r = .ok ⟨d, v⟩ →
          ∃ e, v = .expr e ∧ Derived q.rule q.start d e) queries results) ∧
    ∀ text e, parse? text = some (.ok e) →
      ∃ d, Derived .expression (startOf text) d e ∧
        ∀ a ∈ d.remaining, CharClass.multispace.contains a = true := by
  constructor
  · intro base? sources queries s cut unused fuel results t signals h
    refine (gives_of_runAll cut unused h).imp ?_
    rintro q r ⟨-, hr⟩ d v tree rfl
    obtain ⟨b, w, e, read, rfl⟩ := exists_reading tree hr
    exact ⟨e, rfl, derived_of_reading read⟩
  · intro text e h
    obtain ⟨d, v, hexpr, hspace, rfl⟩ := parse?_eq_ok.mp h
    obtain ⟨b, w, e, read, rfl⟩ := exists_reading (by decide) hexpr
    exact ⟨d, derived_of_reading read, hspace⟩

/-- The same three calls, and the first of their texts as a whole. -/
theorem matches_derived_of_two_texts :
    (∃ results t signals, runAll (some 0) 300 threeQueries ∅ = some (results, t, signals) ∧
      results.all (·.isOk) = true ∧
      List.Forall₂ (fun q r => ∀ d v, q.rule ∈ treeRules → r = .ok ⟨d, v⟩ →
        ∃ e, v = .expr e ∧ Derived q.rule q.start d e) threeQueries results) ∧
    ∃ e, parse? "2*3 + 1" = some (.ok e) ∧ ∃ d, Derived .expression (startOf "2*3 + 1") d e ∧
      ∀ a ∈ d.remaining, CharClass.multispace.contains a = true := by
  have returns : ((runAll (some 0) 300 threeQueries ∅).map fun out =>
      out.1.all (·.isOk)) = some true := by
    decide +kernel
  obtain ⟨⟨results, t, signals⟩, h, matched⟩ := Option.map_eq_some_iff.mp returns
  have read : parse? "2*3 + 1" =
      some (.ok (.binary '+' (.binary '*' (.number 2) (.number 3)) (.number 1))) := by
    decide +kernel
  have derived := matches_derived.1 (some 0) twoSources threeQueries ∅ cut_threeQueries
    (unused_empty (some 0)) 300 results t signals h
  exact ⟨⟨results, t, signals, h, matched, derived⟩, _, read, matches_derived.2 _ _ read⟩

end Query

end Packrat.Arithmetic
