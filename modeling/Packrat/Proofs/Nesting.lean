import Packrat.Combinator.Repetition
import Packrat.Combinator.Tokens
import Packrat.Proofs.Bounds
import Packrat.Session

/-!
# Recorded events are nested

A recorder hears the entry and the exit of every site for which somebody listens, and keeps those
whose names its filter allows. Whatever it drops, what it keeps of one run is nested like brackets:
both events of a site are kept or none, and the events between them are those of the sites that were
run inside.

* `History.events`: what a recorder keeps of a history.
* `WellNested`: events that are nested, no site before the one around it.
* `Parser.Runs.forward`: an execution visits no site before its own start.
* `Session.recorded_events_wellNested`: the events that a run adds to a recorder are nested.
-/

namespace Packrat

variable {τ ρ : Type}

/-! ## Histories that go forward -/

namespace Visit

/-- The cursor that the exit reports. -/
def stop (v : Visit τ) : Cursor τ := (v.report.of v.start v.result).1

theorem le_stop {v : Visit τ} (h : v.start.Admits v.result) :
    v.start.offset ≤ v.stop.offset := by
  obtain ⟨name, report, heard, start, result⟩ := v
  cases result with
  | error f => exact Nat.le_refl _
  | ok m =>
    have hle : start.offset ≤ m.stop.offset := h.le
    cases report <;> exact hle

end Visit

namespace History

/-- The visits of a history, outer ones first. -/
def visits : History τ → List (Visit τ)
  | .quiet => []
  | .use .. => []
  | .both before after => before.visits ++ after.visits
  | .visit v inside => v :: inside.visits

end History

/-- No visit starts before `least` or before the visit around it, and the results of all visits are
within bounds. -/
def History.Forward : Nat → History τ → Prop
  | _, .quiet => True
  | _, .use .. => True
  | least, .both before after => before.Forward least ∧ after.Forward least
  | least, .visit v inside =>
    least ≤ v.start.offset ∧ v.start.Admits v.result ∧ inside.Forward v.start.offset

theorem History.Forward.mono {least least' : Nat} {hist : History τ} (hle : least' ≤ least)
    (h : hist.Forward least) : hist.Forward least' := by
  induction hist with
  | quiet => trivial
  | use table kind => trivial
  | both before after ih₁ ih₂ => exact ⟨ih₁ h.1, ih₂ h.2⟩
  | visit v inside _ => exact ⟨Nat.le_trans hle h.1, h.2⟩

theorem Store.forward_opening (s : Store τ) (memo : Memo) (least : Nat) :
    (s.opening memo).Forward least := by
  unfold opening
  split <;> trivial

namespace Parser

/-- An execution visits no site before its own start, nor one before the site around it. -/
theorem Runs.forward {grammar : Grammar τ ρ} {ctx : Context} {p : Parser τ ρ} {c : Cursor τ}
    {s t : Store τ} {r : Result τ} {hist : History τ} (h : Runs grammar ctx p c s r t hist)
    (hc : c.offset ≤ c.buffer.size) (hs : s.Bounded) : hist.Forward c.offset := by
  induction h with
  | leaf => trivial
  | adapt _ ih => exact ih hc hs
  | andThenFail _ ih => exact ih hc hs
  | andThen first _ ih₁ ih₂ =>
    obtain ⟨hm, ht⟩ := first.bounded hc hs
    exact ⟨ih₁ hc hs, (ih₂ hm.inBounds ht).mono hm.le⟩
  | orElseFirst _ ih => exact ih hc hs
  | orElse first _ ih₁ ih₂ => exact ⟨ih₁ hc hs, ih₂ hc (first.bounded hc hs).2⟩
  | unrolled _ _ ih => exact ih hc hs
  | assignFail _ ih => exact ih hc hs
  | assign _ ih => exact ih hc hs
  | memoAtEnd _ _ ih => exact ih hc hs
  | memoHit => exact ⟨Store.forward_opening .., trivial⟩
  | memoMiss _ _ _ ih => exact ⟨Store.forward_opening .., ih hc (hs.opened _), trivial⟩
  | tally _ ih => exact ih hc hs
  | site inner ih => exact ⟨Nat.le_refl _, (inner.bounded hc hs).1, ih hc hs⟩
  | scope _ ih => exact ih hc hs

/-! ## Sites of a tree -/

/-- The sites of a tree: the name of each and what it reports. -/
def sites : Parser τ ρ → List (String × Report)
  | .leaf _ => []
  | .adapt _ p => p.sites
  | .andThen p q _ => p.sites ++ q.sites
  | .orElse p q => p.sites ++ q.sites
  | .repeated _ p => p.sites
  | .till body stop => body.sites ++ stop.sites
  | .delimited delimiter item => delimiter.sites ++ item.sites
  | .assign _ p => p.sites
  | .memo _ p => p.sites
  | .tally _ p => p.sites
  | .rule _ => []
  | .site name report p => (name, report) :: p.sites
  | .scope _ p => p.sites

/-- A site of the tree or of a rule. -/
def SiteOf (grammar : Grammar τ ρ) (p : Parser τ ρ) (v : Visit τ) : Prop :=
  (v.name, v.report) ∈ p.sites ∨ ∃ rule, (v.name, v.report) ∈ (grammar rule).sites

theorem SiteOf.of_unrolled {grammar : Grammar τ ρ} {p q : Parser τ ρ} {v : Visit τ}
    (hq : p.unrolled? grammar = some q) (h : q.SiteOf grammar v) : p.SiteOf grammar v := by
  rcases h with h | h
  · cases p with
    | repeated limit p =>
      rw [unrolled?] at hq
      split at hq <;> cases hq
      · cases h
      · exact .inl (by simpa [sites] using h)
    | till body stop =>
      cases hq
      exact .inl (by simpa [sites, or_comm, or_left_comm] using h)
    | delimited delimiter item =>
      cases hq
      exact .inl (by simpa [sites, or_comm, or_left_comm] using h)
    | rule name =>
      cases hq
      exact .inr ⟨name, h⟩
    | _ => cases hq
  · exact .inr h

/-- A larger tree has the sites of a smaller one. -/
theorem SiteOf.mono {grammar : Grammar τ ρ} {p q : Parser τ ρ} {v : Visit τ}
    (hle : q.sites ⊆ p.sites) (h : q.SiteOf grammar v) : p.SiteOf grammar v :=
  h.imp_left fun h => hle h

/-- An execution visits sites of its tree and of the rules only. -/
theorem Runs.siteOf {grammar : Grammar τ ρ} {ctx : Context} {p : Parser τ ρ} {c : Cursor τ}
    {s t : Store τ} {r : Result τ} {hist : History τ} (h : Runs grammar ctx p c s r t hist) :
    ∀ v ∈ hist.visits, p.SiteOf grammar v := by
  have quiet : ∀ (s : Store τ) (memo : Memo), (s.opening memo).visits = [] := by
    intro s memo
    unfold Store.opening
    split <;> rfl
  induction h with
  | leaf => exact nofun
  | andThenFail _ ih => exact fun v hv => (ih v hv).mono (List.subset_append_left _ _)
  | orElseFirst _ ih => exact fun v hv => (ih v hv).mono (List.subset_append_left _ _)
  | andThen _ _ ih₁ ih₂ =>
    intro v hv
    rcases List.mem_append.mp hv with hv | hv
    · exact (ih₁ v hv).mono (List.subset_append_left _ _)
    · exact (ih₂ v hv).mono (List.subset_append_right _ _)
  | orElse _ _ ih₁ ih₂ =>
    intro v hv
    rcases List.mem_append.mp hv with hv | hv
    · exact (ih₁ v hv).mono (List.subset_append_left _ _)
    · exact (ih₂ v hv).mono (List.subset_append_right _ _)
  | unrolled hq _ ih => exact fun v hv => (ih v hv).of_unrolled hq
  | memoHit =>
    intro v hv
    simp [History.visits, quiet] at hv
  | memoMiss _ _ _ ih =>
    intro v hv
    simp only [History.visits, quiet, List.nil_append, List.append_nil] at hv
    exact ih v hv
  | site _ ih =>
    intro v hv
    rcases List.mem_cons.mp hv with rfl | hv
    · exact .inl List.mem_cons_self
    · exact (ih v hv).mono (List.subset_cons_self _ _)
  | adapt _ ih => exact ih
  | assignFail _ ih => exact ih
  | assign _ ih => exact ih
  | memoAtEnd _ _ ih => exact ih
  | tally _ ih => exact ih
  | scope _ ih => exact ih

end Parser

/-! ## Events of a history -/

variable [Token τ]

namespace Visit

/-- The text that the exit reports. -/
def text (v : Visit τ) : Except String String :=
  match (v.report.of v.start v.result).2 with
  | .ok value => .ok value.spelling
  | .error f => .error f.message

/-- The exit of a visit is kept with these data: its name, where it began, and what came of it. A
failure stops where it began. A site of the library reports the span, any other site its value. -/
structure Tells (v : Visit τ) (name : String) (start stop : Nat) (result : Except String String) :
    Prop where
  name_eq : name = v.name
  start_eq : start = v.start.offset
  failed : ∀ f, v.result = .error f → stop = start ∧ result = .error f.message
  matched : ∀ m, v.result = .ok m → stop = m.stop.offset ∧
    (v.report = .span → result = .ok s!"span({start}..{stop})") ∧
    (v.report = .value → result = .ok m.value.spelling)

theorem tells (v : Visit τ) : v.Tells v.name v.start.offset v.stop.offset v.text := by
  obtain ⟨name, report, heard, start, result⟩ := v
  refine ⟨rfl, rfl, ?_, ?_⟩
  · rintro f rfl
    exact ⟨rfl, rfl⟩
  · rintro m rfl
    cases report with
    | value => exact ⟨rfl, nofun, fun _ => rfl⟩
    | span => exact ⟨rfl, fun _ => rfl, nofun⟩

end Visit

/-- The filter that allows the sites outside of the library. -/
def Filter.ownSites : Filter := ⟨[], [⟨fun name => libraryName.toList.isPrefixOf name.toList⟩]⟩

namespace History

/-- What a recorder keeps of a history. -/
def events (filter : Filter) : History τ → List TraceEvent
  | .quiet => []
  | .use .. => []
  | .both before after => before.events filter ++ after.events filter
  | .visit v inside =>
    if v.heard && filter.allows v.name then
      .enter v.name v.start.offset ::
        (inside.events filter ++ [.exit v.name v.start.offset v.stop.offset v.text])
    else inside.events filter

/-- Some visit of the history has an exit with these data. -/
def Tells (hist : History τ) (name : String) (start stop : Nat) (result : Except String String) :
    Prop :=
  ∃ v ∈ hist.visits, v.Tells name start stop result

theorem filterMap_signals (r : Recorder) (hist : History τ) :
    hist.signals.filterMap r.heard? = hist.events r.filter := by
  induction hist with
  | quiet => rfl
  | use table kind => rfl
  | both before after ih₁ ih₂ => rw [signals, List.filterMap_append, ih₁, ih₂, events]
  | visit v inside ih =>
    have hentry : r.heard? v.entry =
        if r.filter.allows v.name then some (.enter v.name v.start.offset) else none := rfl
    have hexit : r.heard? v.exit =
        if r.filter.allows v.name then
          some (.exit v.name v.start.offset v.stop.offset v.text)
        else none := rfl
    unfold signals events
    by_cases heard : v.heard = true
    · by_cases allowed : r.filter.allows v.name = true
      · simp [heard, allowed, hentry, hexit, ih]
      · simp [heard, allowed, hentry, hexit, ih]
    · simp [heard, ih]

end History

/-! ## Nested events -/

/-- Events that are nested like brackets. Each site is entered and left with one name and one start,
with the events of the sites inside of it in between; it starts at `least` or after it, stops at its
start or after it, and what its exit says satisfies `Told`. -/
inductive WellNested (Told : String → Nat → Nat → Except String String → Prop) :
    Nat → List TraceEvent → Prop where
  | nil {least} : WellNested Told least []
  | site {least name start stop result inside rest} (hstart : least ≤ start) (hstop : start ≤ stop)
      (told : Told name start stop result) (hinside : WellNested Told start inside)
      (hrest : WellNested Told least rest) :
      WellNested Told least (.enter name start :: (inside ++ .exit name start stop result :: rest))

namespace WellNested

variable {Told : String → Nat → Nat → Except String String → Prop} {least : Nat}

theorem append {es es' : List TraceEvent} (h : WellNested Told least es)
    (h' : WellNested Told least es') : WellNested Told least (es ++ es') := by
  induction h with
  | nil => exact h'
  | site hstart hstop told hinside _ _ ih =>
    have hrest := ih h'
    simpa using WellNested.site hstart hstop told hinside hrest

/-- Every name is entered as often as it is left. -/
theorem enters_eq_exits {es : List TraceEvent} (h : WellNested Told least es) (name : String) :
    (es.filter fun e => e.isEnter && e.name == name).length =
      (es.filter fun e => !e.isEnter && e.name == name).length := by
  induction h with
  | nil => rfl
  | @site least name' start stop result inside rest _ _ _ _ _ ih₁ ih₂ =>
    by_cases same : name' = name
    · subst same
      simp [ih₁, ih₂]
      omega
    · simp [same, ih₁, ih₂]

end WellNested

namespace History

theorem Forward.wellNested {Told : String → Nat → Nat → Except String String → Prop} {least : Nat}
    {hist : History τ} (h : hist.Forward least)
    (told : ∀ v ∈ hist.visits, Told v.name v.start.offset v.stop.offset v.text) (filter : Filter) :
    WellNested Told least (hist.events filter) := by
  induction hist generalizing least with
  | quiet => exact .nil
  | use table kind => exact .nil
  | both before after ih₁ ih₂ =>
    refine (ih₁ h.1 ?_).append (ih₂ h.2 ?_)
    · intro v hv
      exact told v (List.mem_append_left _ hv)
    · intro v hv
      exact told v (List.mem_append_right _ hv)
  | visit v inside ih =>
    obtain ⟨hstart, hresult, hinside⟩ := h
    have inner : WellNested Told v.start.offset (inside.events filter) :=
      ih hinside fun w hw => told w (List.mem_cons_of_mem _ hw)
    unfold events
    split
    · exact .site hstart (Visit.le_stop hresult) (told v List.mem_cons_self) inner .nil
    · -- a visit that is not kept leaves the events inside of it where they are
      exact ih (hinside.mono hstart) fun w hw => told w (List.mem_cons_of_mem _ hw)

end History

/-! ## What a run adds to a recorder -/

/-- A recorder hears all signals of a run; those of memo tables leave nothing with it. -/
theorem hearAll_recorder (limit : Option Level) (r : Recorder) (signals : List (Signal τ)) :
    (hearAll limit (some (.recorder r)) signals).1 =
      some (.recorder (signals.foldl Recorder.hear r)) := by
  induction signals generalizing r with
  | nil => rfl
  | cons signal rest ih => cases signal <;> exact ih _

theorem Recorder.enterCount_of_append {r r' : Recorder} {es : List TraceEvent}
    (h : r'.events.toList = r.events.toList ++ es) (name : String) :
    r'.enterCount name =
      r.enterCount name + (es.filter fun e => e.isEnter && e.name == name).length := by
  unfold enterCount
  rw [h, List.filter_append, List.length_append]

theorem Recorder.exitCount_of_append {r r' : Recorder} {es : List TraceEvent}
    (h : r'.events.toList = r.events.toList ++ es) (name : String) :
    r'.exitCount name =
      r.exitCount name + (es.filter fun e => !e.isEnter && e.name == name).length := by
  unfold exitCount
  rw [h, List.filter_append, List.length_append]

namespace Session

/-- A tracer becomes what the signals make of it. -/
theorem find?_notify_of_hearAll {s : Session τ} {tracer : String} {x y : Tracer}
    {signals : List (Signal τ)} (h : s.tracers.find? tracer = some x)
    (heard : (hearAll s.limit (some x) signals).1 = some y) :
    (s.notify (some tracer) signals).1.tracers.find? tracer = some y := by
  unfold notify
  simp [h, heard, setTracer]

theorem find?_notify {s : Session τ} {tracer : String} {r : Recorder}
    (h : s.tracers.find? tracer = some (.recorder r)) (signals : List (Signal τ)) :
    (s.notify (some tracer) signals).1.tracers.find? tracer =
      some (.recorder (signals.foldl Recorder.hear r)) :=
  find?_notify_of_hearAll h (hearAll_recorder s.limit r signals)

/-- The events that a run adds to a recorder, whatever was recorded before, are those that its filter
allows of what happened in the run, and they are nested. Each visit is one of a site of the tree, and
each exit tells what came of its visit. -/
theorem recorded_events_wellNested {grammar : Grammar τ ρ} {p : Parser τ ρ} {start : Cursor τ}
    {ctx : Context} {s t : Session τ} {tracer : String} {r : Recorder} (hs : s.store.Reachable)
    (hstart : start.offset ≤ start.buffer.size) (hctx : ctx.tracer = some tracer)
    (hr : s.tracers.find? tracer = some (.recorder r)) {fuel : Nat} {out : Outcome τ}
    {records : List Record} (h : s.run grammar fuel ctx p start = some (out, t, records)) :
    ∃ result hist r', p.Runs grammar ctx start s.store result t.store hist ∧
      (∀ v ∈ hist.visits, p.SiteOf grammar v) ∧
      t.tracers.find? tracer = some (.recorder r') ∧
      r'.events.toList = r.events.toList ++ hist.events r.filter ∧
      WellNested hist.Tells start.offset (hist.events r.filter) ∧
      ∀ name, ∃ n, r'.enterCount name = r.enterCount name + n ∧
        r'.exitCount name = r.exitCount name + n := by
  obtain ⟨result, signals, hrun, -, hnotify⟩ := of_run h
  obtain ⟨hist, d, rfl⟩ := Parser.runs_of_run hrun
  have nested : WellNested hist.Tells start.offset (hist.events r.filter) :=
    (d.forward hstart hs.bounded).wellNested (fun v hv => ⟨v, hv, v.tells⟩) r.filter
  have found : t.tracers.find? tracer =
      some (.recorder (hist.signals.foldl Recorder.hear r)) := by
    have heard := find?_notify (s := { s with store := t.store }) hr hist.signals
    rw [← hctx, hnotify] at heard
    exact heard
  have added : (hist.signals.foldl Recorder.hear r).events.toList =
      r.events.toList ++ hist.events r.filter := by
    rw [Recorder.toList_hearAll, History.filterMap_signals]
  refine ⟨result, hist, _, d, d.siteOf, found, added, nested, fun name => ?_⟩
  refine ⟨_, Recorder.enterCount_of_append added name, ?_⟩
  rw [nested.enters_eq_exits name]
  exact Recorder.exitCount_of_append added name

/-- A site inside of a choice, memoized, beside a parser that nobody hears, and a recorder that has
heard of an entry before. -/
theorem recorded_events_wellNested_of_choice :
    let earlier : TraceEvent := .enter "earlier" 3
    let s : Session Char :=
      .start ((∅ : Registry String Tracer).insert "t" (.recorder ⟨.all, #[earlier]⟩)) none
    let p : Parser Char Empty :=
      .choice [Parser.muted (.exactly 'b'),
        Parser.named "word" (.memoized ⟨0, "m"⟩ (.many (.exactly 'a')))]
    let start : Cursor Char := .ofBuffer (.ofArray 0 #['a', 'a'])
    ∃ out t records r', ∃ hist : History Char,
      s.run nofun 12 ⟨some "t", true, none⟩ p start = some (out, t, records) ∧
      t.tracers.find? "t" = some (.recorder r') ∧
      r'.events.toList = earlier :: hist.events .all ∧
      WellNested hist.Tells 0 (hist.events .all) := by
  intro earlier s p start
  have returns : (s.run nofun 12 ⟨some "t", true, none⟩ p start).isSome := by decide +kernel
  obtain ⟨⟨out, t, records⟩, h⟩ := Option.isSome_iff_exists.mp returns
  obtain ⟨_, hist, r', -, -, found, added, nested, -⟩ :=
    recorded_events_wellNested .empty (by decide) rfl (Registry.find?_insert_self _ _ _) h
  exact ⟨out, t, records, r', hist, h, found, added, nested⟩

end Session

end Packrat
