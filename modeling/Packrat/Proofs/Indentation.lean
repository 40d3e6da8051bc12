import Packrat.Proofs.Activations

/-!
# Lines of a transcript are indented by nesting

A transcript writes a line for each event that a recorder with its filter keeps, as far as the log
keeps records of its level. The lines of the entry and the exit of a site have one indentation, one
step deeper than that of the site around it, and after a run the transcript is as deep as before it.
Whether the log keeps the lines has no influence on the depth.

* `Laid`: events that are nested like brackets, each with a line of the indentation of its depth.
* `History.laid`: the events of a history with their lines.
* `History.writes`: what a transcript makes of a history.
* `Session.lines_follow_nesting`: what a run adds to a transcript.
-/

namespace Packrat

variable {τ ρ : Type} [Token τ]

/-! ## Events with their lines -/

namespace Visit

/-- A line about the visit: the input at its start and, behind so many spaces, the name of the site
and what there is to tell of it. -/
def line (v : Visit τ) (spaces : Nat) (told : String) : String :=
  Transcript.upcoming v.start ++ " " ++ String.ofList (List.replicate spaces ' ') ++
    Text.padRight Transcript.labelWidth v.name ++ told

/-- What the exit reports. -/
def outcome (v : Visit τ) : Except (Failure τ) (Value τ) := (v.report.of v.start v.result).2

theorem enterLine_eq (v : Visit τ) (depth : Nat) :
    Transcript.enterLine depth v.name v.start = v.line (2 * depth) s!" @{v.start.offset}" := rfl

theorem exists_exitLine_eq (v : Visit τ) (depth : Nat) :
    ∃ told, Transcript.exitLine depth v.name v.start v.stop v.outcome =
      v.line (2 * depth) (" : " ++ told) := by
  unfold Transcript.exitLine
  exact ⟨_, String.append_assoc⟩

end Visit

/-- Events that are nested like brackets, each with a line about it. The lines of the entry and of
the exit of a site are indented by two spaces for each step of the depth, and the sites inside of it
are one step deeper. -/
inductive Laid (τ : Type) [Token τ] (level : Level) : Nat → List (TraceEvent × Record) → Prop where
  | nil {depth} : Laid τ level depth []
  | site {depth told inside rest} (v : Visit τ) (hinside : Laid τ level (depth + 1) inside)
      (hrest : Laid τ level depth rest) :
      Laid τ level depth
        ((.enter v.name v.start.offset,
            ⟨level, v.line (2 * depth) s!" @{v.start.offset}"⟩) ::
          (inside ++
            (.exit v.name v.start.offset v.stop.offset v.text,
              ⟨level, v.line (2 * depth) (" : " ++ told)⟩) :: rest))

theorem Laid.append {level : Level} {depth : Nat} {xs ys : List (TraceEvent × Record)}
    (h : Laid τ level depth xs) (h' : Laid τ level depth ys) :
    Laid τ level depth (xs ++ ys) := by
  induction h with
  | nil => exact h'
  | site v hinside _ _ ih =>
    have hrest := ih h'
    simpa using Laid.site v hinside hrest

namespace History

/-- The events that a recorder keeps of a history, each with the line that a transcript of this
level writes about it if this many sites are open around the history. -/
def laid (filter : Filter) (level : Level) : Nat → History τ → List (TraceEvent × Record)
  | _, .quiet => []
  | _, .use .. => []
  | depth, .both before after => before.laid filter level depth ++ after.laid filter level depth
  | depth, .visit v inside =>
    if v.heard && filter.allows v.name then
      (.enter v.name v.start.offset, ⟨level, Transcript.enterLine depth v.name v.start⟩) ::
        (inside.laid filter level (depth + 1) ++
          [(.exit v.name v.start.offset v.stop.offset v.text,
            ⟨level, Transcript.exitLine depth v.name v.start v.stop v.outcome⟩)])
    else inside.laid filter level depth

variable {filter : Filter} {level : Level}

theorem map_fst_laid (depth : Nat) (hist : History τ) :
    (hist.laid filter level depth).map Prod.fst = hist.events filter := by
  induction hist generalizing depth with
  | quiet => rfl
  | use table kind => rfl
  | both before after ih₁ ih₂ => rw [laid, List.map_append, ih₁, ih₂, events]
  | visit v inside ih =>
    unfold laid events
    split
    · rw [List.map_cons, List.map_append, ih, List.map_singleton]
    · exact ih depth

theorem laid_laid (depth : Nat) (hist : History τ) :
    Laid τ level depth (hist.laid filter level depth) := by
  induction hist generalizing depth with
  | quiet => exact .nil
  | use table kind => exact .nil
  | both before after ih₁ ih₂ => exact (ih₁ depth).append (ih₂ depth)
  | visit v inside ih =>
    unfold laid
    split
    · obtain ⟨told, hexit⟩ := v.exists_exitLine_eq depth
      rw [v.enterLine_eq, hexit]
      exact .site v (ih (depth + 1)) .nil
    · exact ih depth

end History

/-! ## What a transcript hears -/

/-- The records that are about sites, in a log whose records are sorted by the signals that left
them. -/
def siteRecords (log : List (Signal τ × List Record)) : List Record :=
  log.flatMap fun entry => if entry.1.use?.isNone then entry.2 else []

omit [Token τ] in
theorem siteRecords_append (log log' : List (Signal τ × List Record)) :
    siteRecords (log ++ log') = siteRecords log ++ siteRecords log' := List.flatMap_append

variable {limit : Option Level} {tracer : Option Tracer}

theorem hearAll_append (signals signals' : List (Signal τ)) :
    (hearAll limit tracer (signals ++ signals')).1 =
      (hearAll limit (hearAll limit tracer signals).1 signals').1 := by
  induction signals generalizing tracer with
  | nil => rfl
  | cons signal signals ih => exact ih

theorem hearEach_append (signals signals' : List (Signal τ)) :
    hearEach limit tracer (signals ++ signals') = hearEach limit tracer signals ++
      hearEach limit (hearAll limit tracer signals).1 signals' := by
  induction signals generalizing tracer with
  | nil => rfl
  | cons signal signals ih =>
    rw [List.cons_append, hearEach, ih]
    rfl

/-- A transcript of this filter and level that hears the signals at the depth `d` comes to the depth
`d'`, and these are its lines if the log keeps its level. -/
structure Writes (limit : Option Level) (filter : Filter) (level : Level) (d : Nat)
    (signals : List (Signal τ)) (lines : List Record) (d' : Nat) : Prop where
  after : (hearAll limit (some (.transcript ⟨filter, level, d⟩)) signals).1 =
    some (.transcript ⟨filter, level, d'⟩)
  kept : siteRecords (hearEach limit (some (.transcript ⟨filter, level, d⟩)) signals) =
    if level.isWithin limit then lines else []

section

variable {filter : Filter} {level : Level} {d d' d'' : Nat} {signals signals' : List (Signal τ)}
  {lines lines' : List Record}

theorem writes_nil : Writes limit filter level d ([] : List (Signal τ)) [] d := by
  constructor
  · rfl
  · split <;> rfl

theorem Writes.append (h : Writes limit filter level d signals lines d')
    (h' : Writes limit filter level d' signals' lines' d'') :
    Writes limit filter level d (signals ++ signals') (lines ++ lines') d'' := by
  constructor
  · rw [hearAll_append, h.after, h'.after]
  · rw [hearEach_append, siteRecords_append, h.after, h.kept, h'.kept]
    split <;> rfl

/-- The records of a table are not about sites, and no transcript hears of its uses. -/
theorem writes_memo (table : Memo) (kind : MemoUse) :
    Writes limit filter level d [(.memo table kind : Signal τ)] [] d := by
  constructor
  · rfl
  · split <;> rfl

variable {name : String} {start stop : Cursor τ} {outcome : Except (Failure τ) (Value τ)}

theorem writes_enter (allowed : filter.allows name = true) :
    Writes limit filter level d [.enter name start]
      [⟨level, Transcript.enterLine d name start⟩] (d + 1) := by
  constructor <;> simp [hearAll, hearEach, hear, Tracer.hear, Transcript.hear, allowed, siteRecords,
    Signal.use?]

theorem writes_exit (allowed : filter.allows name = true) :
    Writes limit filter level (d + 1) [.exit name start stop outcome]
      [⟨level, Transcript.exitLine d name start stop outcome⟩] d := by
  constructor <;> simp [hearAll, hearEach, hear, Tracer.hear, Transcript.hear, allowed, siteRecords,
    Signal.use?]

theorem writes_enter_of_not_allowed (refused : filter.allows name = false) :
    Writes limit filter level d [.enter name start] [] d := by
  constructor <;> simp [hearAll, hearEach, hear, Tracer.hear, Transcript.hear, refused, siteRecords]

theorem writes_exit_of_not_allowed (refused : filter.allows name = false) :
    Writes limit filter level d [.exit name start stop outcome] [] d := by
  constructor <;> simp [hearAll, hearEach, hear, Tracer.hear, Transcript.hear, refused, siteRecords]

/-- A transcript writes the lines of a history, at the depths of its sites, and is as deep after it
as before. -/
theorem History.writes (hist : History τ) (d : Nat) :
    Writes limit filter level d hist.signals ((hist.laid filter level d).map Prod.snd) d := by
  induction hist generalizing d with
  | quiet => exact writes_nil
  | use table kind => exact writes_memo table kind
  | both before after ih₁ ih₂ =>
    rw [signals, laid, List.map_append]
    exact (ih₁ d).append (ih₂ d)
  | visit v inside ih =>
    unfold signals laid
    by_cases heard : v.heard = true
    · by_cases allowed : filter.allows v.name = true
      · have hentry : Writes limit filter level d [v.entry]
            [⟨level, Transcript.enterLine d v.name v.start⟩] (d + 1) := writes_enter allowed
        have hexit : Writes limit filter level (d + 1) [v.exit]
            [⟨level, Transcript.exitLine d v.name v.start v.stop v.outcome⟩] d :=
          writes_exit allowed
        have whole := (hentry.append (ih (d + 1))).append hexit
        simpa [heard, allowed] using whole
      · have refused : filter.allows v.name = false := by simpa using allowed
        have hentry : Writes limit filter level d [v.entry] [] d :=
          writes_enter_of_not_allowed refused
        have hexit : Writes limit filter level d [v.exit] [] d :=
          writes_exit_of_not_allowed refused
        have whole := (hentry.append (ih d)).append hexit
        simpa [heard, refused] using whole
    · simpa [heard] using ih d

/-- Neither the level of a transcript nor the limit of the log has an influence on the depth. -/
theorem exists_depth (filter : Filter) (d : Nat) (signals : List (Signal τ)) :
    ∃ d', ∀ limit level,
      (hearAll limit (some (.transcript ⟨filter, level, d⟩)) signals).1 =
        some (.transcript ⟨filter, level, d'⟩) := by
  induction signals generalizing d with
  | nil => exact ⟨d, fun _ _ => rfl⟩
  | cons signal signals ih =>
    have step : ∃ d', ∀ limit level,
        (hear limit (some (.transcript ⟨filter, level, d⟩)) signal).1 =
          some (.transcript ⟨filter, level, d'⟩) := by
      cases signal with
      | enter name start =>
        by_cases allowed : filter.allows name = true
        · exact ⟨d + 1, fun _ _ => by simp [hear, Tracer.hear, Transcript.hear, allowed]⟩
        · exact ⟨d, fun _ _ => by simp [hear, Tracer.hear, Transcript.hear, allowed]⟩
      | exit name start stop outcome =>
        by_cases allowed : filter.allows name = true
        · exact ⟨d - 1, fun _ _ => by simp [hear, Tracer.hear, Transcript.hear, allowed]⟩
        · exact ⟨d, fun _ _ => by simp [hear, Tracer.hear, Transcript.hear, allowed]⟩
      | memo table kind => exact ⟨d, fun _ _ => rfl⟩
    obtain ⟨d', hstep⟩ := step
    obtain ⟨d'', hrest⟩ := ih d'
    refine ⟨d'', fun limit level => ?_⟩
    show (hearAll limit (hear limit _ signal).1 signals).1 = _
    rw [hstep, hrest]

end

/-! ## What a run adds to a transcript -/

namespace Session

/-- A run leaves a transcript as deep as before, whatever fails in it. Some events happen in the run
that the filter allows: a recorder with the same filter gets these and no others. The lines that the
transcript adds to the log are one for each of them, in order and indented by the nesting, if the
limit keeps the level of the transcript, and otherwise there are none. How the depth moves meanwhile
is the same for all levels and limits. -/
theorem lines_follow_nesting {grammar : Grammar τ ρ} {p : Parser τ ρ} {start : Cursor τ}
    {ctx : Context} {s t : Session τ} {tracer : String} {tr : Transcript}
    (hctx : ctx.tracer = some tracer) (htr : s.tracers.find? tracer = some (.transcript tr))
    {fuel : Nat} {out : Outcome τ} {records : List Record}
    (h : s.run grammar fuel ctx p start = some (out, t, records)) :
    ∃ result signals entries,
      p.run grammar fuel ctx start s.store = some (result, t.store, signals) ∧
      t.tracers.find? tracer = some (.transcript tr) ∧
      (s.heard (some tracer) signals).flatMap Prod.snd = records ∧
      siteRecords (s.heard (some tracer) signals) =
        (if tr.level.isWithin s.limit then entries.map Prod.snd else []) ∧
      Laid τ tr.level tr.depth entries ∧
      (∀ s' : Session τ, ∀ r : Recorder, s'.store = s.store → r.filter = tr.filter →
        s'.tracers.find? tracer = some (.recorder r) →
        ∃ t' records' r', s'.run grammar fuel ctx p start = some (out, t', records') ∧
          t'.tracers.find? tracer = some (.recorder r') ∧
          r'.events.toList = r.events.toList ++ entries.map Prod.fst) ∧
      ∀ k, ∃ d, ∀ limit level,
        (hearAll limit (some (.transcript ⟨tr.filter, level, tr.depth⟩)) (signals.take k)).1 =
          some (.transcript ⟨tr.filter, level, d⟩) := by
  obtain ⟨result, signals, hrun, rfl, hnotify⟩ := of_run h
  obtain ⟨hist, -, rfl⟩ := Parser.runs_of_run hrun
  have lines : Writes s.limit tr.filter tr.level tr.depth hist.signals
      ((hist.laid tr.filter tr.level tr.depth).map Prod.snd) tr.depth := hist.writes tr.depth
  have heard : s.heard (some tracer) hist.signals =
      hearEach s.limit (some (.transcript tr)) hist.signals := by
    rw [Session.heard, Option.bind_some, htr]
  refine ⟨result, hist.signals, hist.laid tr.filter tr.level tr.depth, hrun, ?_, ?_, ?_,
    hist.laid_laid tr.depth, ?_, fun k => exists_depth tr.filter tr.depth _⟩
  · have found := find?_notify_of_hearAll (s := { s with store := t.store }) htr lines.after
    rw [← hctx, hnotify] at found
    exact found
  · have hrecords := records_notify { s with store := t.store } (some tracer) hist.signals
    rw [← hctx, hnotify, hctx] at hrecords
    exact hrecords.symm
  · rw [heard]
    exact lines.kept
  · intro s' r hstore hfilter hr
    have hrun' := hrun
    rw [← hstore] at hrun'
    have h' : s'.run grammar fuel ctx p start = some (.ofResult start result,
        { s' with store := t.store }.notify ctx.tracer hist.signals) := by
      rw [Session.run, hrun']
    have found := find?_notify (s := { s' with store := t.store }) hr hist.signals
    rw [← hctx] at found
    refine ⟨_, _, _, h', found, ?_⟩
    rw [Recorder.toList_hearAll, History.filterMap_signals, hfilter, History.map_fst_laid]

/-- A choice whose first part fails inside of two sites, and whose second part asks a table. The
transcript is three deep before the run, and it wants no sites of the library. -/
theorem lines_follow_nesting_of_choice :
    let tr : Transcript := ⟨.ownSites, .info, 3⟩
    let s : Session Char :=
      .start ((∅ : Registry String Tracer).insert "t" (.transcript tr)) (some .debug)
    let p : Parser Char Empty :=
      .choice [Parser.named "number" (.both (.exactly 'a') (Parser.named "digit" (.exactly '1'))),
        Parser.named "word" (.memoized ⟨0, "m"⟩ (.many (.exactly 'a')))]
    let start : Cursor Char := .ofBuffer (.ofArray 0 #['a', 'a'])
    ∃ out t records signals entries,
      s.run Empty.elim 20 ⟨some "t", true, none⟩ p start = some (out, t, records) ∧
      records.length = 7 ∧ t.tracers.find? "t" = some (.transcript tr) ∧
      siteRecords (s.heard (some "t") signals) = entries.map Prod.snd ∧
      Laid Char .info 3 entries := by
  intro tr s p start
  have returns : (s.run Empty.elim 20 ⟨some "t", true, none⟩ p start).map (·.2.2.length) =
      some 7 := by decide +kernel
  obtain ⟨⟨out, t, records⟩, h, hlength⟩ := Option.map_eq_some_iff.mp returns
  have htr : s.tracers.find? "t" = some (.transcript tr) := Registry.find?_insert_self _ _ _
  obtain ⟨-, signals, entries, -, found, -, hsites, laid, -⟩ := lines_follow_nesting rfl htr h
  have within : tr.level.isWithin s.limit = true := rfl
  rw [if_pos within] at hsites
  exact ⟨out, t, records, signals, entries, h, hlength, found, hsites, laid⟩

end Session

end Packrat
