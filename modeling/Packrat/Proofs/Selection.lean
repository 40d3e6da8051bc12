import Packrat.Combinator.Repetition
import Packrat.Combinator.Tokens
import Packrat.Proofs.Nesting

/-!
# A recorder selects events

The events that a recorder keeps are a part of those that happen at the sites of the tree, whether
anybody hears them or not: the events at sites for which tracing is on and whose names the filter
allows. The innermost override around a site has the word on the former, and without one the
context. All events are what a recorder without a filter keeps of the tree without overrides.

* `Parser.Traces`: the events of an execution, each with the overrides around its site.
* `Parser.Runs.traces`: an execution has such events, and its history keeps the selected ones.
* `Parser.Traces.runs_unscoped`: the history of the tree without overrides keeps all of them.
* `Session.recorded_events_selected`: the events that two runs add to their recorders.
-/

namespace Packrat

variable {τ ρ : Type}

/-! ## Trees without overrides -/

namespace Parser

/-- The same parser with tracing overridden nowhere. -/
def unscoped : Parser τ ρ → Parser τ ρ
  | .leaf l => .leaf l
  | .adapt a p => .adapt a p.unscoped
  | .andThen p q combine => .andThen p.unscoped q.unscoped combine
  | .orElse p q => .orElse p.unscoped q.unscoped
  | .repeated limit p => .repeated limit p.unscoped
  | .till body stop => .till body.unscoped stop.unscoped
  | .delimited delimiter item => .delimited delimiter.unscoped item.unscoped
  | .assign slot p => .assign slot p.unscoped
  | .memo table p => .memo table p.unscoped
  | .tally counter p => .tally counter p.unscoped
  | .rule name => .rule name
  | .site name report p => .site name report p.unscoped
  | .scope _ p => p.unscoped

def unscopedRules (grammar : Grammar τ ρ) : Grammar τ ρ := fun name => (grammar name).unscoped

theorem homomorphic_unscoped : Homomorphic (unscoped : Parser τ ρ → Parser τ ρ) where
  leaf _ := rfl
  adapt _ _ := rfl
  andThen _ _ _ := rfl
  orElse _ _ := rfl
  repeated _ _ := rfl
  till _ _ := rfl
  delimited _ _ := rfl
  rule _ := rfl

end Parser

/-! ## Contexts inside of overrides -/

namespace Context

/-- The context inside of overrides, the innermost first. -/
def within (ctx : Context) (scopes : List Bool) : Context :=
  scopes.foldr (fun on ctx => ctx.inScope on) ctx

theorem tracing_within (ctx : Context) (scopes : List Bool) :
    (ctx.within scopes).tracing = scopes.head?.getD ctx.tracing := by
  cases scopes <;> rfl

theorem tracer_within (ctx : Context) (scopes : List Bool) :
    (ctx.within scopes).tracer = ctx.tracer := by
  induction scopes with
  | nil => rfl
  | cons on scopes ih => exact ih

theorem listening_eq_tracing {ctx : Context} {tracer : String} (h : ctx.tracer = some tracer) :
    ctx.listening = ctx.tracing := by
  unfold listening listener?
  rw [h]
  cases ctx.tracing <;> rfl

end Context

/-! ## Stores with equal tables -/

namespace Store

def SameTables (s s' : Store τ) : Prop := ∀ memo, s.table memo = s'.table memo

variable {s s' s'' : Store τ}

theorem SameTables.trans (h : s.SameTables s') (h' : s'.SameTables s'') : s.SameTables s'' :=
  fun memo => (h memo).trans (h' memo)

theorem SameTables.raise (h : s.SameTables s') (counter : String) :
    (s.raise counter).SameTables (s'.raise counter) := h

theorem SameTables.opened (h : s.SameTables s') (memo : Memo) :
    (s.opened memo).SameTables (s'.opened memo) := by
  intro memo'
  rw [table_opened, table_opened, h]

theorem SameTables.hit (h : s.SameTables s') (memo : Memo) :
    (s.hit memo).SameTables (s'.hit memo) := by
  intro memo'
  rw [table_hit, table_hit, h]

theorem SameTables.entered (h : s.SameTables s') (memo : Memo) (place : Place) (answer : Result τ) :
    (s.entered memo place answer).SameTables (s'.entered memo place answer) := by
  intro memo'
  rw [table_entered, table_entered, h]

end Store

/-! ## Events with the overrides around them -/

/-- An event at a site, and the overrides of tracing around the site, the innermost first. -/
structure ScopedEvent where
  scopes : List Bool
  event : TraceEvent

/-- Whether tracing is on at the site and the filter allows its name. The innermost override has the
word, and without one it is `tracing`. -/
def ScopedEvent.selected (filter : Filter) (tracing : Bool) (e : ScopedEvent) : Bool :=
  e.scopes.head?.getD tracing && filter.allows e.event.name

variable [Token τ]

/-- The events of a visit, with those inside of it in between. -/
def Visit.around (v : Visit τ) (scopes : List Bool) (inside : List ScopedEvent) :
    List ScopedEvent :=
  ⟨scopes, .enter v.name v.start.offset⟩ ::
    (inside ++ [⟨scopes, .exit v.name v.start.offset v.stop.offset v.text⟩])

theorem Visit.map_filter_around (v : Visit τ) (scopes : List Bool) (inside : List ScopedEvent)
    (filter : Filter) (tracing : Bool) :
    ((v.around scopes inside).filter (·.selected filter tracing)).map (·.event) =
      if scopes.head?.getD tracing && filter.allows v.name then
        .enter v.name v.start.offset ::
          ((inside.filter (·.selected filter tracing)).map (·.event) ++
            [.exit v.name v.start.offset v.stop.offset v.text])
      else (inside.filter (·.selected filter tracing)).map (·.event) := by
  have hentry : ScopedEvent.selected filter tracing ⟨scopes, .enter v.name v.start.offset⟩ =
      (scopes.head?.getD tracing && filter.allows v.name) := rfl
  have hexit : ScopedEvent.selected filter tracing
      ⟨scopes, .exit v.name v.start.offset v.stop.offset v.text⟩ =
        (scopes.head?.getD tracing && filter.allows v.name) := rfl
  unfold around
  rw [List.filter_cons, List.filter_append, List.filter_cons, hentry, hexit]
  split <;> simp

namespace Parser

/-- The executions with the events at their sites, whether or not anybody hears them. The list are
the overrides around the parser, the innermost first. -/
inductive Traces (grammar : Grammar τ ρ) : List Bool → Parser τ ρ → Cursor τ → Store τ → Result τ →
    Store τ → List ScopedEvent → Prop where
  | leaf {scopes l c s} : Traces grammar scopes (.leaf l) c s (l.run c) s []
  | adapt {scopes a p c s r t es} (inner : Traces grammar scopes p c s r t es) :
      Traces grammar scopes (.adapt a p) c s (a.apply c r) t es
  | andThenFail {scopes p q combine c s f t es}
      (first : Traces grammar scopes p c s (.error f) t es) :
      Traces grammar scopes (.andThen p q combine) c s (.error f) t es
  | andThen {scopes p q combine c s m t es r u es'}
      (first : Traces grammar scopes p c s (.ok m) t es)
      (second : Traces grammar scopes q m.stop t r u es') :
      Traces grammar scopes (.andThen p q combine) c s
        (r.map fun n => ⟨n.stop, combine m.value n.value⟩) u (es ++ es')
  | orElseFirst {scopes p q c s m t es} (first : Traces grammar scopes p c s (.ok m) t es) :
      Traces grammar scopes (.orElse p q) c s (.ok m) t es
  | orElse {scopes p q c s f t es r u es'} (first : Traces grammar scopes p c s (.error f) t es)
      (second : Traces grammar scopes q c t r u es') :
      Traces grammar scopes (.orElse p q) c s r u (es ++ es')
  | unrolled {scopes p q c s r t es} (hq : p.unrolled? grammar = some q)
      (inner : Traces grammar scopes q c s r t es) : Traces grammar scopes p c s r t es
  | assignFail {scopes slot p c s f t es} (inner : Traces grammar scopes p c s (.error f) t es) :
      Traces grammar scopes (.assign slot p) c s (.error f) t es
  | assign {scopes slot p c s m t es} (inner : Traces grammar scopes p c s (.ok m) t es) :
      Traces grammar scopes (.assign slot p) c s (.ok ⟨m.stop, .unit⟩) (t.setSlot slot m.value) es
  | memoAtEnd {scopes table p c s r t es} (hc : c.place? = none)
      (inner : Traces grammar scopes p c s r t es) :
      Traces grammar scopes (.memo table p) c s r t es
  | memoHit {scopes table p c s place r} (hc : c.place? = some place)
      (found : (s.table table).find? place = some r) :
      Traces grammar scopes (.memo table p) c s r ((s.opened table).hit table) []
  | memoMiss {scopes table p c s place r t es} (hc : c.place? = some place)
      (missing : (s.table table).find? place = none)
      (inner : Traces grammar scopes p c (s.opened table) r t es) :
      Traces grammar scopes (.memo table p) c s r (t.entered table place r) es
  | tally {scopes counter p c s r t es}
      (inner : Traces grammar scopes p c (s.raise counter) r t es) :
      Traces grammar scopes (.tally counter p) c s r t es
  | site {scopes name report p c s r t es} (inner : Traces grammar scopes p c s r t es) :
      Traces grammar scopes (.site name report p) c s r t
        (Visit.around ⟨name, report, true, c, r⟩ scopes es)
  | scope {scopes on p c s r t es} (inner : Traces grammar (on :: scopes) p c s r t es) :
      Traces grammar scopes (.scope on p) c s r t es

end Parser

namespace History

theorem events_congr {hist hist' : History τ} (h : hist.signals = hist'.signals) (filter : Filter) :
    hist.events filter = hist'.events filter := by
  have kept := filterMap_signals ⟨filter, #[]⟩ hist
  rw [h, filterMap_signals] at kept
  exact kept.symm

end History

namespace Parser

variable {grammar : Grammar τ ρ}

theorem events_opening (s : Store τ) (memo : Memo) (filter : Filter) :
    (s.opening memo).events filter = [] := by
  unfold Store.opening
  split <;> rfl

/-! ## What is recorded of a tree -/

theorem Runs.traces {ctx : Context} {p : Parser τ ρ} {c : Cursor τ} {s t : Store τ} {r : Result τ}
    {hist : History τ} (h : Runs grammar ctx p c s r t hist) {outer : Context} {tracer : String}
    (htracer : outer.tracer = some tracer) {scopes : List Bool} (hctx : ctx = outer.within scopes) :
    ∃ es, Traces grammar scopes p c s r t es ∧ ∀ filter : Filter,
      hist.events filter = (es.filter (·.selected filter outer.tracing)).map (·.event) := by
  induction h generalizing scopes with
  | leaf => exact ⟨_, .leaf, fun _ => rfl⟩
  | adapt _ ih =>
    obtain ⟨es, d, he⟩ := ih hctx
    exact ⟨es, .adapt d, he⟩
  | andThenFail _ ih =>
    obtain ⟨es, d, he⟩ := ih hctx
    exact ⟨es, .andThenFail d, he⟩
  | andThen _ _ ih₁ ih₂ =>
    obtain ⟨es₁, d₁, he₁⟩ := ih₁ hctx
    obtain ⟨es₂, d₂, he₂⟩ := ih₂ hctx
    refine ⟨es₁ ++ es₂, .andThen d₁ d₂, fun filter => ?_⟩
    rw [History.events, he₁, he₂, List.filter_append, List.map_append]
  | orElseFirst _ ih =>
    obtain ⟨es, d, he⟩ := ih hctx
    exact ⟨es, .orElseFirst d, he⟩
  | orElse _ _ ih₁ ih₂ =>
    obtain ⟨es₁, d₁, he₁⟩ := ih₁ hctx
    obtain ⟨es₂, d₂, he₂⟩ := ih₂ hctx
    refine ⟨es₁ ++ es₂, .orElse d₁ d₂, fun filter => ?_⟩
    rw [History.events, he₁, he₂, List.filter_append, List.map_append]
  | unrolled hq _ ih =>
    obtain ⟨es, d, he⟩ := ih hctx
    exact ⟨es, .unrolled hq d, he⟩
  | assignFail _ ih =>
    obtain ⟨es, d, he⟩ := ih hctx
    exact ⟨es, .assignFail d, he⟩
  | assign _ ih =>
    obtain ⟨es, d, he⟩ := ih hctx
    exact ⟨es, .assign d, he⟩
  | memoAtEnd hc _ ih =>
    obtain ⟨es, d, he⟩ := ih hctx
    exact ⟨es, .memoAtEnd hc d, he⟩
  | memoHit hc found =>
    -- an answer from a table makes no events
    refine ⟨[], .memoHit hc found, fun filter => ?_⟩
    rw [History.events, events_opening]
    rfl
  | memoMiss hc missing _ ih =>
    obtain ⟨es, d, he⟩ := ih hctx
    refine ⟨es, .memoMiss hc missing d, fun filter => ?_⟩
    rw [History.events, events_opening, History.events, he]
    exact List.append_nil _
  | tally _ ih =>
    obtain ⟨es, d, he⟩ := ih hctx
    exact ⟨es, .tally d, he⟩
  | @site ctx name report p c s r t hist _ ih =>
    obtain ⟨es, d, he⟩ := ih hctx
    refine ⟨_, .site d, fun filter => ?_⟩
    -- what the context says here is what the innermost override says
    have heard : ctx.listening = scopes.head?.getD outer.tracing := by
      rw [hctx, Context.listening_eq_tracing ((outer.tracer_within scopes).trans htracer),
        Context.tracing_within]
    have around := Visit.map_filter_around ⟨name, report, ctx.listening, c, r⟩ scopes es filter
      outer.tracing
    rw [← heard, ← he] at around
    exact around.symm
  | @scope ctx on _ _ _ _ _ _ _ ih =>
    have hscope : ctx.inScope on = outer.within (on :: scopes) := by
      rw [hctx]
      rfl
    obtain ⟨es, d, he⟩ := ih hscope
    exact ⟨es, .scope d, he⟩

/-! ## What is recorded of the tree without overrides -/

theorem Traces.runs_unscoped {scopes : List Bool} {p : Parser τ ρ} {c : Cursor τ} {s t : Store τ}
    {r : Result τ} {es : List ScopedEvent} (h : Traces grammar scopes p c s r t es) {ctx : Context}
    (listening : ctx.listening = true) {s' : Store τ} (hs : s.SameTables s') :
    ∃ t' hist, Runs (unscopedRules grammar) ctx p.unscoped c s' r t' hist ∧ t.SameTables t' ∧
      hist.events .all = es.map (·.event) := by
  induction h generalizing s' with
  | leaf => exact ⟨s', _, .leaf, hs, rfl⟩
  | adapt _ ih =>
    obtain ⟨t', _, d, ht, he⟩ := ih hs
    exact ⟨t', _, .adapt d, ht, he⟩
  | andThenFail _ ih =>
    obtain ⟨t', _, d, ht, he⟩ := ih hs
    exact ⟨t', _, .andThenFail d, ht, he⟩
  | andThen _ _ ih₁ ih₂ =>
    obtain ⟨t', _, d₁, ht, he₁⟩ := ih₁ hs
    obtain ⟨u', _, d₂, hu, he₂⟩ := ih₂ ht
    exact ⟨u', _, .andThen d₁ d₂, hu, by rw [History.events, he₁, he₂, List.map_append]⟩
  | orElseFirst _ ih =>
    obtain ⟨t', _, d, ht, he⟩ := ih hs
    exact ⟨t', _, .orElseFirst d, ht, he⟩
  | orElse _ _ ih₁ ih₂ =>
    obtain ⟨t', _, d₁, ht, he₁⟩ := ih₁ hs
    obtain ⟨u', _, d₂, hu, he₂⟩ := ih₂ ht
    exact ⟨u', _, .orElse d₁ d₂, hu, by rw [History.events, he₁, he₂, List.map_append]⟩
  | unrolled hq _ ih =>
    obtain ⟨t', _, d, ht, he⟩ := ih hs
    exact ⟨t', _, .unrolled (homomorphic_unscoped.unrolled? hq) d, ht, he⟩
  | assignFail _ ih =>
    obtain ⟨t', _, d, ht, he⟩ := ih hs
    exact ⟨t', _, .assignFail d, ht, he⟩
  | assign _ ih =>
    obtain ⟨t', _, d, ht, he⟩ := ih hs
    exact ⟨_, _, .assign d, ht, he⟩
  | memoAtEnd hc _ ih =>
    obtain ⟨t', _, d, ht, he⟩ := ih hs
    exact ⟨t', _, .memoAtEnd hc d, ht, he⟩
  | memoHit hc found =>
    rw [hs] at found
    refine ⟨_, _, .memoHit hc found, (hs.opened _).hit _, ?_⟩
    rw [History.events, events_opening]
    rfl
  | memoMiss hc missing _ ih =>
    rw [hs] at missing
    obtain ⟨t', _, d, ht, he⟩ := ih (hs.opened _)
    refine ⟨_, _, .memoMiss hc missing d, ht.entered _ _ _, ?_⟩
    rw [History.events, events_opening, History.events, he]
    exact List.append_nil _
  | tally _ ih =>
    obtain ⟨t', _, d, ht, he⟩ := ih (hs.raise _)
    exact ⟨t', _, .tally d, ht, he⟩
  | site _ ih =>
    obtain ⟨t', _, d, ht, he⟩ := ih hs
    refine ⟨t', _, .site d, ht, ?_⟩
    rw [History.events, he, listening]
    simp [Visit.around, Visit.stop, Visit.text, Filter.allows, Filter.all]
  | scope _ ih =>
    obtain ⟨t', _, d, ht, he⟩ := ih hs
    exact ⟨t', _, d, ht, he⟩

end Parser

/-! ## Two recorders -/

namespace Session

theorem recorded_of_run {grammar : Grammar τ ρ} {p : Parser τ ρ} {start : Cursor τ} {ctx : Context}
    {s t : Session τ} {tracer : String} {r : Recorder} (hctx : ctx.tracer = some tracer)
    (hr : s.tracers.find? tracer = some (.recorder r)) {fuel : Nat} {out : Outcome τ}
    {records : List Record} (h : s.run grammar fuel ctx p start = some (out, t, records)) :
    ∃ result hist q, p.Runs grammar ctx start s.store result t.store hist ∧
      out = .ofResult start result ∧ t.tracers.find? tracer = some (.recorder q) ∧
      q.events.toList = r.events.toList ++ hist.events r.filter := by
  obtain ⟨result, signals, hrun, hout, hnotify⟩ := of_run h
  obtain ⟨hist, d, rfl⟩ := Parser.runs_of_run hrun
  have found := find?_notify (s := { s with store := t.store }) hr hist.signals
  rw [← hctx, hnotify] at found
  refine ⟨result, hist, _, d, hout, found, ?_⟩
  rw [Recorder.toList_hearAll, History.filterMap_signals]

/-- Two runs from equal tables: of a tree with any overrides, heard by a recorder with any filter,
and of the tree without overrides, with tracing on and heard by a recorder without a filter. Some
events happen at the sites of the tree. The second recorder gets all of them, and the first those
that are selected by its filter and by the innermost overrides around their sites. Besides, the runs
have equal outcomes. -/
theorem recorded_events_selected {grammar : Grammar τ ρ} {p : Parser τ ρ} {start : Cursor τ}
    {ctx ctx' : Context} {s s' t : Session τ} {tracer tracer' : String} {r r' : Recorder}
    (tables : s.store.SameTables s'.store) (hctx : ctx.tracer = some tracer)
    (hr : s.tracers.find? tracer = some (.recorder r)) (hctx' : ctx'.tracer = some tracer')
    (tracing : ctx'.tracing = true) (hr' : s'.tracers.find? tracer' = some (.recorder r'))
    (unfiltered : r'.filter = .all) {fuel : Nat} {out : Outcome τ} {records : List Record}
    (h : s.run grammar fuel ctx p start = some (out, t, records)) :
    ∃ result es q, p.Traces grammar [] start s.store result t.store es ∧
      t.tracers.find? tracer = some (.recorder q) ∧
      q.events.toList = r.events.toList ++
        (es.filter (·.selected r.filter ctx.tracing)).map (·.event) ∧
      (∃ fuel', (s'.run (Parser.unscopedRules grammar) fuel' ctx' p.unscoped start).isSome) ∧
      ∀ fuel' out' t' records',
        s'.run (Parser.unscopedRules grammar) fuel' ctx' p.unscoped start =
          some (out', t', records') →
        out' = out ∧ t.store.SameTables t'.store ∧ ∃ q',
          t'.tracers.find? tracer' = some (.recorder q') ∧
          q'.events.toList = r'.events.toList ++ es.map (·.event) := by
  have listening : ctx'.listening = true :=
    (Context.listening_eq_tracing hctx').trans tracing
  obtain ⟨result, hist, q, d, rfl, hq, added⟩ := recorded_of_run hctx hr h
  have outermost : ctx = ctx.within [] := rfl
  obtain ⟨es, traces, selected⟩ := d.traces hctx outermost
  obtain ⟨u, hist', d', hu, all⟩ := traces.runs_unscoped listening tables
  rw [selected] at added
  refine ⟨result, es, q, traces, hq, added, ?_, ?_⟩
  · obtain ⟨fuel', hrun'⟩ := d'.exists_run
    refine ⟨fuel', ?_⟩
    unfold Session.run
    rw [hrun']
    rfl
  · intro fuel' out' t' records' h'
    obtain ⟨result', hist'', q', d'', rfl, hq', added'⟩ := recorded_of_run hctx' hr' h'
    obtain ⟨rfl, rfl, same⟩ := d'.unique d''
    rw [unfiltered, ← History.events_congr same, all] at added'
    exact ⟨rfl, hu, q', hq', added'⟩

/-- A choice of which the first part is silent, but for a site inside that fails, and the second
asks a table twice. Tracing is off, and the first recorder wants no sites of the library. -/
theorem recorded_events_selected_of_choice :
    let filter : Filter := .ownSites
    let s : Session Char :=
      .start ((∅ : Registry String Tracer).insert "t" (.recorder ⟨filter, #[]⟩)) none
    let s' : Session Char :=
      .start ((∅ : Registry String Tracer).insert "u" (.recorder ⟨.all, #[]⟩)) none
    let digit : Parser Char Empty := Parser.unmuted (Parser.named "digit" (.exactly '1'))
    let letter := Parser.memoized ⟨0, "m"⟩ (Parser.unmuted (Parser.named "letter" (.exactly 'a')))
    let p := Parser.choice [Parser.muted (.both (.exactly 'a') digit),
      Parser.named "word" (.both (.lookAhead letter) letter)]
    let start : Cursor Char := .ofBuffer (.ofArray 0 #['a', 'a'])
    ∃ run run' q q', ∃ es : List ScopedEvent,
      s.run nofun 20 ⟨some "t", false, none⟩ p start = some run ∧
      s'.run (Parser.unscopedRules nofun) 20 ⟨some "u", true, none⟩ p.unscoped start = some run' ∧
      run.1.isOk = true ∧ run'.1 = run.1 ∧
      run.2.1.tracers.find? "t" = some (.recorder q) ∧
      run'.2.1.tracers.find? "u" = some (.recorder q') ∧
      q.events.toList = (es.filter (·.selected filter false)).map (·.event) ∧
      q'.events.toList = es.map (·.event) := by
  intro filter s s' digit letter p start
  have returns : (s.run nofun 20 ⟨some "t", false, none⟩ p start).map (·.1.isOk) = some true := by
    decide +kernel
  have returns' : (s'.run (Parser.unscopedRules nofun) 20 ⟨some "u", true, none⟩ p.unscoped
      start).isSome := by
    decide +kernel
  obtain ⟨⟨out, t, records⟩, h, hout⟩ := Option.map_eq_some_iff.mp returns
  obtain ⟨⟨out', t', records'⟩, h'⟩ := Option.isSome_iff_exists.mp returns'
  have tables : s.store.SameTables s'.store := fun _ => rfl
  have hr' : s'.tracers.find? "u" = some (.recorder ⟨.all, #[]⟩) := Registry.find?_insert_self _ _ _
  have tracing : Context.tracing ⟨some "u", true, none⟩ = true := rfl
  obtain ⟨-, es, q, -, hq, hevents, -, all⟩ := recorded_events_selected tables rfl
    (Registry.find?_insert_self _ _ _) rfl tracing hr' rfl h
  obtain ⟨hsame, -, q', hq', hall⟩ := all _ _ _ _ h'
  exact ⟨_, _, q, q', es, h, h', hout, hsame, hq, hq', hevents, hall⟩

end Session

end Packrat
