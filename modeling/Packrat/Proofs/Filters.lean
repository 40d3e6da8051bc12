import Packrat.Proofs.Quotation
import Packrat.Trace.Filter

/-!
# Filters as sets of rules

A filter is built by calls, each of which adds a rule. What the filter allows depends on the set of
these rules only: not on their order, and not on how often a call was made. This holds of every
engine for regular expressions. That the rule of a module matches its names rests on three promises
of the engine: how it searches, how it escapes texts, and how it anchors them.

* `Filter.Call`: the calls that build filters, and the names that their rules match.
* `Filter.Holds`: the rules of a filter are those of some calls, which each call preserves.
* `Filter.Allowed`: what the rules of some calls allow.
* `Filter.ModuleRule`: what the rule of a module matches.
* `Filter.rules_decide`: filters as sets of rules, and the rules of modules.
-/

namespace Packrat

namespace Filter

/-! ## Calls -/

/-- A call that adds a rule to a filter. -/
inductive Call where
  | including (pattern : String)
  | excluding (pattern : String)
  | includingModule (path : String)
  | excludingModule (path : String)
deriving Repr, DecidableEq

variable {engine : Regex.Engine}

namespace Call

/-- Whether the rule of the call excludes names. -/
def excludes : Call → Bool
  | .including _ | .includingModule _ => false
  | .excluding _ | .excludingModule _ => true

section

variable (engine : Regex.Engine)

/-- What the call makes of a filter. -/
def apply (f : Filter) : Call → Except engine.Error Filter
  | .including pattern => f.including engine pattern
  | .excluding pattern => f.excluding engine pattern
  | .includingModule path => f.includingModule engine path
  | .excludingModule path => f.excludingModule engine path

/-- The pattern of the rule that the call adds. -/
def pattern : Call → String
  | .including pattern | .excluding pattern => pattern
  | .includingModule path | .excludingModule path => modulePattern engine path

/-- The pattern of the call is compiled to `r`. -/
def Compiles (call : Call) (r : Regex) : Prop := engine.compile (call.pattern engine) = .ok r

/-- The pattern of the call is valid. -/
def Valid (call : Call) : Prop := engine.Accepts (call.pattern engine)

instance (call : Call) : Decidable (call.Valid engine) :=
  inferInstanceAs (Decidable (engine.Accepts _))

/-- The rule of the call matches the name. -/
def Matches (call : Call) (name : String) : Prop :=
  ∃ r, call.Compiles engine r ∧ r.isMatch name = true

end

variable {call : Call} {r r' : Regex} {name : String}

theorem compiles_iff (h : call.Compiles engine r) : call.Compiles engine r' ↔ r' = r := by
  have compiled : engine.compile (call.pattern engine) = .ok r := h
  rw [Compiles, compiled, Except.ok.injEq, eq_comm]

theorem matches_iff (h : call.Compiles engine r) :
    call.Matches engine name ↔ r.isMatch name = true := by
  simp only [Matches, compiles_iff h, exists_eq_left]

end Call

/-- The filter that calls make one after the other. -/
def ofCalls (engine : Regex.Engine) (calls : List Call) : Except engine.Error Filter :=
  calls.foldlM (fun f call => call.apply engine f) .all

/-! ## Rules -/

/-- The rules of a filter that exclude names, or those that include them. -/
def rules (f : Filter) : Bool → List Regex
  | true => f.excluded
  | false => f.included

/-- The filter with one more rule. -/
def withRule (f : Filter) (excludes : Bool) (r : Regex) : Filter :=
  match excludes with
  | true => { f with excluded := f.excluded ++ [r] }
  | false => { f with included := f.included ++ [r] }

variable {calls others : List Call} {call : Call} {f : Filter} {r r' : Regex} {b c : Bool}
  {name : String}

theorem mem_rules_withRule :
    r' ∈ (f.withRule b r).rules c ↔ r' ∈ f.rules c ∨ b = c ∧ r' = r := by
  cases b <;> cases c <;> simp [withRule, rules]

theorem apply_of_compiles (h : call.Compiles engine r) :
    call.apply engine f = .ok (f.withRule call.excludes r) := by
  have compiled : engine.compile (call.pattern engine) = .ok r := h
  have step : call.apply engine f =
      (engine.compile (call.pattern engine) >>= fun r => pure (f.withRule call.excludes r)) := by
    cases call <;> rfl
  rw [step, compiled]
  rfl

/-- The rules of the filter are those of the calls, all of which have valid patterns. -/
structure Holds (engine : Regex.Engine) (calls : List Call) (f : Filter) : Prop where
  valid : ∀ call ∈ calls, call.Valid engine
  mem_rules : ∀ b r, r ∈ f.rules b ↔ ∃ call ∈ calls, call.excludes = b ∧ call.Compiles engine r

theorem holds_all : Holds engine [] .all where
  valid call h := absurd h List.not_mem_nil
  mem_rules b r := by cases b <;> simp [rules, all]

/-- A call adds its rule. -/
theorem Holds.withRule (h : Holds engine calls f) (hr : call.Compiles engine r) :
    Holds engine (calls ++ [call]) (f.withRule call.excludes r) where
  valid d hd := by
    rcases List.mem_append.mp hd with hd | hd
    · exact h.valid d hd
    · exact List.mem_singleton.mp hd ▸ ⟨r, hr⟩
  mem_rules b r' := by
    simp [mem_rules_withRule, h.mem_rules, Call.compiles_iff hr, or_and_right, exists_or]

/-- Calls add their rules. -/
theorem Holds.foldlM {before : List Call} (h : Holds engine before f)
    (valid : ∀ call ∈ calls, call.Valid engine) :
    ∃ g, calls.foldlM (fun f call => call.apply engine f) f = .ok g ∧
      Holds engine (before ++ calls) g := by
  induction calls generalizing before f with
  | nil => exact ⟨f, rfl, by rwa [List.append_nil]⟩
  | cons call calls ih =>
    obtain ⟨r, hr⟩ := valid call List.mem_cons_self
    obtain ⟨g, hg, holds⟩ := ih (h.withRule hr) fun d hd => valid d (List.mem_cons_of_mem _ hd)
    refine ⟨g, ?_, by rwa [List.append_assoc] at holds⟩
    rw [List.foldlM_cons, apply_of_compiles hr]
    exact hg

theorem Holds.any_isMatch (h : Holds engine calls f) :
    (f.rules b).any (·.isMatch name) = true ↔
      ∃ call ∈ calls, call.excludes = b ∧ call.Matches engine name := by
  rw [List.any_eq_true]
  constructor
  · intro ⟨r, hr, found⟩
    obtain ⟨call, hcall, hb, compiled⟩ := (h.mem_rules b r).mp hr
    exact ⟨call, hcall, hb, (Call.matches_iff compiled).mpr found⟩
  · intro ⟨call, hcall, hb, found⟩
    obtain ⟨r, compiled⟩ := h.valid call hcall
    have hr := (h.mem_rules b r).mpr ⟨call, hcall, hb, compiled⟩
    exact ⟨r, hr, (Call.matches_iff compiled).mp found⟩

theorem Holds.rules_isEmpty (h : Holds engine calls f) :
    (f.rules b).isEmpty = true ↔ ¬ ∃ call ∈ calls, call.excludes = b := by
  rw [List.isEmpty_iff, List.eq_nil_iff_forall_not_mem]
  constructor
  · intro none ⟨call, hcall, hb⟩
    obtain ⟨r, compiled⟩ := h.valid call hcall
    exact none r ((h.mem_rules b r).mpr ⟨call, hcall, hb, compiled⟩)
  · intro none r hr
    obtain ⟨call, hcall, hb, -⟩ := (h.mem_rules b r).mp hr
    exact none ⟨call, hcall, hb⟩

/-! ## Names -/

/-- The rules of the calls allow the name: none that excludes names matches it, and one that
includes names does, unless there is none. -/
def Allowed (engine : Regex.Engine) (calls : List Call) (name : String) : Prop :=
  (¬ ∃ call ∈ calls, call.excludes = true ∧ call.Matches engine name) ∧
    ((¬ ∃ call ∈ calls, call.excludes = false) ∨
      ∃ call ∈ calls, call.excludes = false ∧ call.Matches engine name)

theorem Holds.allows_iff (h : Holds engine calls f) :
    f.allows name = true ↔ Allowed engine calls name := by
  have split : f.allows name = (!(f.rules true).any (·.isMatch name) &&
    ((f.rules false).isEmpty || (f.rules false).any (·.isMatch name))) := rfl
  rw [split, Bool.and_eq_true, Bool.or_eq_true, Bool.not_eq_true', ← Bool.not_eq_true,
    h.any_isMatch, h.any_isMatch, h.rules_isEmpty, Allowed]

theorem allowed_congr (same : ∀ call, call ∈ others ↔ call ∈ calls) :
    Allowed engine others name ↔ Allowed engine calls name := by
  simp only [Allowed, same]

/-- What is allowed with one more exclusion is allowed without it. -/
theorem Allowed.of_exclusion (excludes : call.excludes = true)
    (more : ∀ d, d ∈ others ↔ d = call ∨ d ∈ calls) (h : Allowed engine others name) :
    Allowed engine calls name := by
  obtain ⟨spared, wanted⟩ := h
  have includes : ∀ d, d ∈ others → d.excludes = false → d ∈ calls := by
    intro d hd hb
    rcases (more d).mp hd with rfl | hd
    · cases excludes.symm.trans hb
    · exact hd
  refine ⟨fun ⟨d, hd, hb⟩ => spared ⟨d, (more d).mpr (.inr hd), hb⟩, ?_⟩
  rcases wanted with none | ⟨d, hd, hb, found⟩
  · exact .inl fun ⟨d, hd, hb⟩ => none ⟨d, (more d).mpr (.inr hd), hb⟩
  · exact .inr ⟨d, includes d hd hb, hb, found⟩

/-- Calls with valid patterns make a filter that allows what their rules allow. -/
theorem exists_ofCalls (valid : ∀ call ∈ calls, call.Valid engine) :
    ∃ f, ofCalls engine calls = .ok f ∧
      ∀ name, f.allows name = true ↔ Allowed engine calls name := by
  obtain ⟨f, hf, holds⟩ := holds_all.foldlM valid
  exact ⟨f, hf, fun name => holds.allows_iff⟩

/-- The filter that the calls make decides as a set of rules. -/
structure Decides (engine : Regex.Engine) (calls : List Call) (f : Filter) : Prop where
  allows_iff : ∀ name, f.allows name = true ↔ Allowed engine calls name
  /-- Neither the order of the calls matters nor how often each of them is made. -/
  sameRules : ∀ others, (∀ call, call ∈ others ↔ call ∈ calls) →
    ∃ g, ofCalls engine others = .ok g ∧ ∀ name, g.allows name = f.allows name
  /-- One more exclusion anywhere among the calls allows no further name. -/
  narrows : ∀ before after call, calls = before ++ after → call.excludes = true →
    call.Valid engine → ∃ g, ofCalls engine (before ++ call :: after) = .ok g ∧
      ∀ name, g.allows name = true → f.allows name = true
  /-- An exclusion always wins. -/
  exclusionWins : ∀ call ∈ calls, call.excludes = true →
    ∀ name, call.Matches engine name → f.allows name = false

theorem decides (valid : ∀ call ∈ calls, call.Valid engine)
    (allows : ∀ name, f.allows name = true ↔ Allowed engine calls name) :
    Decides engine calls f where
  allows_iff := allows
  sameRules others same := by
    obtain ⟨g, hg, decided⟩ := exists_ofCalls fun call hcall => valid call ((same call).mp hcall)
    refine ⟨g, hg, fun name => ?_⟩
    rw [Bool.eq_iff_iff, decided, allows, allowed_congr same]
  narrows before after call split excluding compiled := by
    have more : ∀ d, d ∈ before ++ call :: after ↔ d = call ∨ d ∈ calls := by
      intro d
      rw [split, List.mem_append, List.mem_append, List.mem_cons, or_left_comm]
    have still : ∀ d ∈ before ++ call :: after, d.Valid engine := by
      intro d hd
      rcases (more d).mp hd with rfl | hd
      · exact compiled
      · exact valid d hd
    obtain ⟨g, hg, decided⟩ := exists_ofCalls still
    refine ⟨g, hg, fun name h => ?_⟩
    exact (allows name).mpr (((decided name).mp h).of_exclusion excluding more)
  exclusionWins call hcall excluding name found := by
    rw [← Bool.not_eq_true, allows]
    exact fun h => h.1 ⟨call, hcall, excluding, found⟩

/-! ## Modules -/

/-- The calls for the module `path` are accepted, and their rules match the names that begin with
the path and two colons. -/
structure ModuleRule (engine : Regex.Engine) (path : String) : Prop where
  accepted : ∀ f : Filter, ∃ g h,
    f.includingModule engine path = .ok g ∧ f.excludingModule engine path = .ok h
  including : ∀ name, (Call.includingModule path).Matches engine name ↔
    ∃ rest, name = path ++ "::" ++ rest
  excluding : ∀ name, (Call.excludingModule path).Matches engine name ↔
    ∃ rest, name = path ++ "::" ++ rest

section

variable {Spans : String → String → Nat → Nat → Prop} (escapes : engine.Escapes Spans)
  (anchors : engine.Anchors Spans) (path : String)
include escapes

/-- The colons can be escaped together with the path. -/
theorem modulePattern_eq : modulePattern engine path = "^" ++ engine.escape (path ++ "::") := by
  rw [modulePattern, escapes.append, escapes.colons, String.append_assoc]

include anchors

/-- The pattern of a module matches the path and the colons at the start of a name. -/
theorem exists_spans_module : (∃ i j, Spans (modulePattern engine path) name i j) ↔
    ∃ rest, name = path ++ "::" ++ rest := by
  rw [modulePattern_eq escapes]
  simp only [anchors.spans_iff, escapes.spans_iff]
  constructor
  · rintro ⟨_, _, rfl, before, rest, rfl, empty, -⟩
    obtain rfl : before = "" := String.length_eq_zero_iff.mp empty.symm
    exact ⟨rest, by rw [String.empty_append]⟩
  · rintro ⟨rest, rfl⟩
    exact ⟨0, _, rfl, "", rest, by rw [String.empty_append], rfl, rfl⟩

theorem moduleRule (searches : engine.Searches Spans) : ModuleRule engine path := by
  obtain ⟨r, compiled⟩ := anchors.accepted (path ++ "::")
  rw [← modulePattern_eq escapes] at compiled
  have found (name : String) : r.isMatch name = true ↔ ∃ rest, name = path ++ "::" ++ rest := by
    rw [searches _ _ compiled, exists_spans_module escapes anchors]
  have included : (Call.includingModule path).Compiles engine r := compiled
  have excluded : (Call.excludingModule path).Compiles engine r := compiled
  exact
    { accepted := fun _ => ⟨_, _, apply_of_compiles included, apply_of_compiles excluded⟩
      including := fun name => (Call.matches_iff included).trans (found name)
      excluding := fun name => (Call.matches_iff excluded).trans (found name) }

end

/-- Calls with valid patterns make a filter that decides as the set of their rules, whatever the
engine. If the engine searches, escapes texts and anchors them as it should, the calls for a module
are accepted, whatever its path, and their rules match the names of the module. -/
theorem rules_decide (engine : Regex.Engine) :
    (∀ calls : List Call, (∀ call ∈ calls, call.Valid engine) →
      ∃ f, ofCalls engine calls = .ok f ∧ Decides engine calls f) ∧
    ∀ Spans, engine.Searches Spans → engine.Escapes Spans → engine.Anchors Spans →
      ∀ path, ModuleRule engine path := by
  refine ⟨fun calls valid => ?_, fun Spans searches escapes anchors path => ?_⟩
  · obtain ⟨f, hf, allows⟩ := exists_ofCalls valid
    exact ⟨f, hf, decides valid allows⟩
  · exact moduleRule escapes anchors path searches

/-- Names of the module `expr`, but none that ends in `number`, with an engine that has limits, and
the module of a path with a sign in it, with the engine that has none. -/
theorem rules_decide_expr :
    let calls : List Call := [.includingModule "expr", .excluding "number$"]
    (∀ call ∈ calls, call.Valid Pattern.limitedEngine) ∧
      ∃ f, ofCalls Pattern.limitedEngine calls = .ok f ∧
        Decides Pattern.limitedEngine calls f ∧
        f.allows "expr::sum" = true ∧ f.allows "expr::number" = false ∧
        f.allows "chars::digit1" = false ∧ ModuleRule Pattern.engine "a.b" := by
  intro calls
  have valid : ∀ call ∈ calls, call.Valid Pattern.limitedEngine := by
    rw [List.forall_mem_cons, List.forall_mem_singleton]
    exact ⟨by decide +kernel, by decide +kernel⟩
  have answers : (ofCalls Pattern.limitedEngine calls).toOption.map
      (fun f => (f.allows "expr::sum", f.allows "expr::number", f.allows "chars::digit1")) =
        some (true, false, false) := by decide +kernel
  obtain ⟨f, hf, decided⟩ := (rules_decide Pattern.limitedEngine).1 _ valid
  rw [hf] at answers
  simp only [Except.toOption, Option.map_some, Option.some.injEq, Prod.mk.injEq] at answers
  obtain ⟨sum, number, digit⟩ := answers
  have signs : ModuleRule Pattern.engine "a.b" :=
    (rules_decide Pattern.engine).2 Pattern.ReadSpans Pattern.engine_searches
      Pattern.engine_escapes Pattern.engine_anchors "a.b"
  exact ⟨valid, f, hf, decided, sum, number, digit, signs⟩

end Filter

end Packrat
