import Mathlib.Algebra.Group.Nat.Defs
import Mathlib.Algebra.Group.Prod
import Mathlib.Data.List.Dedup
import Packrat.Proofs.Activations

/-!
# Accounting of a memo table

The counts of a table, its answers and its records in the log, after any runs of any parsers, also
of parsers that call the table again while a call of it is going on. All of them tell of the calls
that began before the end of input, in the order in which those returned.

* `Activity.counted`: these calls.
* `Store.Booked`: what the table tells of an activity.
* `Store.Plays.booked`: an activity is booked, by induction on what it is made of.
* `Session.memo_accounting`: the same for the runs of a session, with the log.
-/

namespace Packrat

variable {τ ρ : Type}

/-! ## Calls of one table -/

namespace Activity

/-- The calls of a table, in the order in which they return. -/
def callsOf (act : Activity τ) (memo : Memo) : List (Activation τ) :=
  (act.calls.map Prod.fst).filter (·.table = memo)

/-- The calls of a table that began before the end of input. -/
def counted (act : Activity τ) (memo : Memo) : List (Activation τ) :=
  (act.callsOf memo).filter (·.start.place?.isSome)

/-- The places at which a call of the table missed. -/
def missed (act : Activity τ) (memo : Memo) : List Place :=
  ((act.counted memo).filter (·.way = .miss)).filterMap (·.start.place?)

/-- The uses of a table, in the order in which they happen. -/
def usesOf (act : Activity τ) (memo : Memo) : List MemoUse :=
  (act.uses.filter (·.1 = memo)).map Prod.snd

variable (act act' : Activity τ) (o : Activation τ) (memo : Memo)

theorem missed_quiet : (.quiet : Activity τ).missed memo = [] := rfl

theorem counted_both : (both act act').counted memo = act.counted memo ++ act'.counted memo := by
  simp [counted, callsOf, calls]

theorem counted_call : (call o act).counted memo =
    act.counted memo ++ if o.table = memo ∧ o.start.place?.isSome then [o] else [] := by
  by_cases table : o.table = memo <;> by_cases place : o.start.place?.isSome <;>
    simp [counted, callsOf, calls, table, place]

theorem missed_both : (both act act').missed memo = act.missed memo ++ act'.missed memo := by
  simp [missed, counted_both]

theorem missed_call : (call o act).missed memo =
    act.missed memo ++ if o.table = memo ∧ o.way = .miss then o.start.place?.toList else [] := by
  rw [missed, counted_call, List.filter_append, List.filterMap_append]
  by_cases table : o.table = memo <;> by_cases miss : o.way = .miss <;>
    cases hc : o.start.place? <;> simp [missed, table, miss, hc]

theorem usesOf_both : (both act act').usesOf memo = act.usesOf memo ++ act'.usesOf memo := by
  simp [usesOf, uses]

variable {act o memo}

theorem mem_counted : o ∈ act.counted memo ↔
    (∃ inside, (o, inside) ∈ act.calls) ∧ o.table = memo ∧ o.start.place?.isSome := by
  simp [counted, callsOf, and_comm]

theorem length_missed (act : Activity τ) (memo : Memo) :
    (act.missed memo).length = (act.counted memo).countP (·.way = .miss) := by
  rw [List.countP_eq_length_filter, missed, List.length_filterMap_eq_countP,
    List.countP_eq_length.mpr]
  intro o ho
  exact (mem_counted.mp (List.mem_of_mem_filter ho)).2.2

theorem mem_missed {place : Place} (h : place ∈ act.missed memo) :
    ∃ x ∈ act.calls, x.1.table = memo ∧ x.1.start.place? = some place := by
  obtain ⟨o, ho, hplace⟩ := List.mem_filterMap.mp h
  obtain ⟨⟨inside, hcall⟩, table, -⟩ := mem_counted.mp (List.mem_of_mem_filter ho)
  exact ⟨(o, inside), hcall, table, hplace⟩

end Activity

/-- The hits and the misses of a table. -/
def Table.counts (t : Table τ) : Nat × Nat := (t.hits, t.misses)

/-- The hits and the misses among calls. -/
def tally (calls : List (Activation τ)) : Nat × Nat :=
  (calls.countP (·.way = .hit), calls.countP (·.way = .miss))

theorem Table.counts_empty : (.empty : Table τ).counts = tally ([] : List (Activation τ)) := rfl

theorem tally_append (calls calls' : List (Activation τ)) :
    tally (calls ++ calls') = tally calls + tally calls' := by
  simp [tally]

/-- The record of the opening of a table, unless it was open before or no call was counted. -/
def openings (opened : Bool) (calls : List (Activation τ)) : List MemoUse :=
  if opened || calls.isEmpty then [] else [.created]

theorem openings_append (opened : Bool) (calls calls' : List (Activation τ)) :
    openings opened (calls ++ calls') ++ (calls ++ calls').map Activation.use =
      openings opened calls ++ calls.map Activation.use ++
        (openings (opened || !calls.isEmpty) calls' ++ calls'.map Activation.use) := by
  cases opened with
  | true => simp [openings]
  | false => cases calls <;> simp [openings]

namespace Store

variable {s t u s' t' : Store τ} {act act' : Activity τ} {memo : Memo}

/-- What a table tells of an activity: the counts, the answers, whether it was opened, and the uses
that were made of it. When a counted call returns, the counts are those of the calls up to it. -/
structure Booked (memo : Memo) (s : Store τ) (act : Activity τ) (t : Store τ) : Prop where
  counts : (t.table memo).counts = (s.table memo).counts + tally (act.counted memo)
  keys : ∀ place, place ∈ (t.table memo).answers.keys ↔
    place ∈ (s.table memo).answers.keys ∨ place ∈ act.missed memo
  nodup : (s.table memo).answers.keys.Nodup → (t.table memo).answers.keys.Nodup
  opened : (t.table memo).opened = ((s.table memo).opened || !(act.counted memo).isEmpty)
  uses : act.usesOf memo = openings (s.table memo).opened (act.counted memo) ++
    (act.counted memo).map Activation.use
  inOrder : ∀ before o after, act.counted memo = before ++ o :: after →
    (o.after.table memo).counts = (s.table memo).counts + tally (before ++ [o])

theorem booked_quiet (same : s.table memo = t.table memo) : Booked memo s .quiet t where
  counts := by
    rw [same]
    rfl
  keys place := by simp [same, Activity.missed, Activity.counted, Activity.callsOf, Activity.calls]
  nodup := same ▸ id
  opened := by
    rw [same]
    simp [Activity.counted, Activity.callsOf, Activity.calls]
  uses := by simp [Activity.usesOf, Activity.uses, openings, Activity.counted, Activity.callsOf,
    Activity.calls]
  inOrder before o after hcalls := by cases before <;> cases hcalls

theorem Booked.both (h : Booked memo s act t) (h' : Booked memo t act' u) :
    Booked memo s (.both act act') u where
  counts := by rw [h'.counts, h.counts, Activity.counted_both, tally_append, add_assoc]
  keys place := by rw [h'.keys, h.keys, Activity.missed_both, List.mem_append, or_assoc]
  nodup := h'.nodup ∘ h.nodup
  opened := by
    rw [h'.opened, h.opened, Activity.counted_both]
    cases act.counted memo <;> simp
  uses := by
    rw [Activity.usesOf_both, h.uses, h'.uses, h.opened, Activity.counted_both, openings_append]
  inOrder before o after hcalls := by
    have later : ∀ rest, before = act.counted memo ++ rest →
        act'.counted memo = rest ++ o :: after →
        (o.after.table memo).counts = (s.table memo).counts + tally (before ++ [o]) := by
      rintro rest rfl hrest
      rw [h'.inOrder _ _ _ hrest, h.counts, List.append_assoc, tally_append (act.counted memo),
        add_assoc]
    rw [Activity.counted_both] at hcalls
    rcases List.append_eq_append_iff.mp hcalls with ⟨rest, hbefore, hrest⟩ | ⟨rest, hrest, hafter⟩
    · exact later rest hbefore hrest
    · cases rest with
      | nil => exact later [] (by simpa using hrest.symm) hafter.symm
      | cons o' rest =>
        obtain ⟨rfl, -⟩ := List.cons.inj hafter
        exact h.inOrder _ _ _ hrest

/-- Around an activity something happens that is no counted call of the table. -/
theorem Booked.around {o : Activation τ} (h : Booked memo s act t)
    (apart : o.table ≠ memo ∨ o.start.place? = none) (hs : s'.table memo = s.table memo)
    (ht : t'.table memo = t.table memo)
    (uses : (Activity.call o act).usesOf memo = act.usesOf memo) :
    Booked memo s' (.call o act) t' := by
  have counted : (Activity.call o act).counted memo = act.counted memo := by
    rw [Activity.counted_call, if_neg, List.append_nil]
    rintro ⟨table, place⟩
    rcases apart with other | atEnd
    · exact other table
    · simp [atEnd] at place
  have missed : (Activity.call o act).missed memo = act.missed memo := by
    rw [Activity.missed, counted, Activity.missed]
  refine ⟨?_, ?_, ?_, ?_, ?_, ?_⟩
  · rw [hs, ht, counted, h.counts]
  · rw [hs, ht, missed]
    exact h.keys
  · rw [hs, ht]
    exact h.nodup
  · rw [hs, ht, counted, h.opened]
  · rw [hs, uses, counted, h.uses]
  · rw [hs, counted]
    exact h.inOrder

theorem uses_opening (s : Store τ) (memo memo' : Memo) :
    ((s.opening memo').uses.filter (·.1 = memo)).map Prod.snd =
      if memo' = memo ∧ (s.table memo').opened = false then [.created] else [] := by
  unfold opening
  split
  · rename_i opened
    simp [opened]
  · rename_i closed
    by_cases same : memo' = memo
    · subst same
      simp [closed]
    · simp [same]

theorem usesOf_call (o : Activation τ) (inside : Activity τ) (memo : Memo) (way : o.way ≠ .atEnd) :
    (Activity.call o inside).usesOf memo =
      (if o.table = memo ∧ (o.before.table o.table).opened = false then [.created] else []) ++
        inside.usesOf memo ++ if o.table = memo then [o.use] else [] := by
  have own : ([(o.table, o.use)].filter (·.1 = memo)).map Prod.snd =
      if o.table = memo then [o.use] else [] := by
    by_cases same : o.table = memo <;> simp [same]
  rw [Activity.usesOf, Activity.uses, if_neg way]
  simp only [List.filter_append, List.map_append, uses_opening, own]
  rfl

theorem usesOf_elsewhere {o : Activation τ} {inside : Activity τ} (elsewhere : o.table ≠ memo)
    (way : o.way ≠ .atEnd) : (Activity.call o inside).usesOf memo = inside.usesOf memo := by
  rw [usesOf_call o inside memo way]
  simp [elsewhere]

/-- A counted call of the table. Inside of it the table is open. -/
theorem Booked.counted {o : Activation τ} {place : Place}
    (h : Booked memo (o.before.opened memo) act t) (table : o.table = memo)
    (hc : o.start.place? = some place) (way : o.way ≠ .atEnd)
    (counts : (o.after.table memo).counts = (t.table memo).counts + tally [o])
    (keys : ∀ p, p ∈ (o.after.table memo).answers.keys ↔
      p ∈ (t.table memo).answers.keys ∨ o.way = .miss ∧ p = place)
    (nodup : (t.table memo).answers.keys.Nodup → (o.after.table memo).answers.keys.Nodup)
    (opened : (o.after.table memo).opened = (t.table memo).opened) :
    Booked memo o.before (.call o act) o.after := by
  have begins : (o.before.opened memo).table memo = (o.before.table memo).opening := by
    rw [table_opened, if_pos rfl]
  have counted : (Activity.call o act).counted memo = act.counted memo ++ [o] := by
    rw [Activity.counted_call, if_pos ⟨table, by rw [hc]; rfl⟩]
  refine ⟨?_, fun p => ?_, fun before => ?_, ?_, ?_, ?_⟩
  · rw [counts, h.counts, begins, counted, tally_append, add_assoc]
    rfl
  · rw [keys, h.keys, begins, Activity.missed_call, List.mem_append, or_assoc]
    by_cases miss : o.way = .miss <;> simp [miss, table, hc, Table.opening]
  · refine nodup (h.nodup ?_)
    rwa [begins]
  · rw [opened, h.opened, begins, counted]
    simp [Table.opening]
  · -- the table is opened before anything happens inside, if it is not open already
    rw [usesOf_call o act memo way, h.uses, begins, counted, table]
    cases (o.before.table memo).opened <;> simp [openings, Table.opening]
  · intro before o' after hcalls
    rw [counted] at hcalls
    have start : (o.before.table memo).counts = ((o.before.opened memo).table memo).counts := by
      rw [begins]
      rfl
    rcases List.eq_nil_or_concat after with rfl | ⟨after, last, rfl⟩
    · -- the call itself returns last
      obtain ⟨rfl, hlast⟩ := List.append_inj' hcalls rfl
      cases List.singleton_inj.mp hlast
      rw [counts, h.counts, start, tally_append, add_assoc]
    · rw [List.concat_eq_append, ← List.cons_append, ← List.append_assoc] at hcalls
      obtain ⟨hinside, -⟩ := List.append_inj' hcalls rfl
      rw [h.inOrder _ _ _ hinside, start]

theorem Plays.booked (h : s.Plays act t) (memo : Memo) : Booked memo s act t := by
  induction h with
  | quiet same => exact booked_quiet (same memo)
  | both _ _ ih₁ ih₂ => exact ih₁.both ih₂
  | visit _ ih => exact ⟨ih.counts, ih.keys, ih.nodup, ih.opened, ih.uses, ih.inOrder⟩
  | atEnd hc _ _ ih => exact ih.around (.inr hc) rfl rfl rfl
  | @hit table c place s r hc found =>
    by_cases same : table = memo
    · subst same
      have quiet : Booked table (s.opened table) .quiet (s.opened table) := booked_quiet rfl
      refine quiet.counted (o := ⟨table, c, .hit, s, r, _⟩) rfl hc nofun ?_ ?_ ?_ ?_
      all_goals rw [table_hit, if_pos rfl]
      · rfl
      · simp [Table.hit]
      · exact id
      · rfl
    · have quiet : Booked memo s .quiet s := booked_quiet rfl
      refine quiet.around (.inl same) rfl ?_ (usesOf_elsewhere same nofun)
      rw [table_hit, if_neg same, table_opened, if_neg same]
  | @miss table c place s t r act hc missing _ ih =>
    by_cases same : table = memo
    · subst same
      refine ih.counted (o := ⟨table, c, .miss, s, r, _⟩) rfl hc nofun ?_ ?_ ?_ ?_
      all_goals rw [table_entered, if_pos rfl]
      · rfl
      · simp [Table.remember, Registry.mem_keys_insert]
      · exact fun nodup => Registry.nodup_keys_insert nodup place r
      · rfl
    · refine ih.around (.inl same) ?_ ?_ (usesOf_elsewhere same nofun)
      · rw [table_opened, if_neg same]
      · rw [table_entered, if_neg same]

/-- Where no call of a place is inside of another one there, no place is missed twice, nor is one
that had an answer before. -/
theorem Plays.missed_once (h : s.Plays act t) (memo : Memo)
    (apart : ∀ x ∈ act.calls, ∀ y ∈ x.2.calls, y.1.table = x.1.table →
      ∀ place, x.1.start.place? = some place → y.1.start.place? ≠ some place) :
    (act.missed memo).Nodup ∧ ∀ place ∈ act.missed memo, (s.table memo).find? place = none := by
  induction h with
  | quiet => simp [Activity.missed_quiet]
  | @both s t u act act' first _ ih₁ ih₂ =>
    obtain ⟨nodup₁, absent₁⟩ := ih₁ fun x hx => apart x (List.mem_append_left _ hx)
    obtain ⟨nodup₂, absent₂⟩ := ih₂ fun x hx => apart x (List.mem_append_right _ hx)
    -- what was missed first is found from then on
    have later : ∀ place ∈ act'.missed memo,
        place ∉ (s.table memo).answers.keys ∧ place ∉ act.missed memo := by
      intro place hplace
      have absent := absent₂ place hplace
      rw [Table.find?, ← Option.not_isSome_iff_eq_none, ← Registry.mem_keys_iff,
        (first.booked memo).keys] at absent
      exact not_or.mp absent
    rw [Activity.missed_both]
    refine ⟨List.nodup_append.mpr ⟨nodup₁, nodup₂, ?_⟩, fun place hplace => ?_⟩
    · rintro place hplace _ hplace' rfl
      exact (later place hplace').2 hplace
    · rcases List.mem_append.mp hplace with hplace | hplace
      · exact absent₁ place hplace
      · have absent := (later place hplace).1
        rwa [Registry.mem_keys_iff, Option.not_isSome_iff_eq_none] at absent
  | visit _ ih => exact ih apart
  | atEnd hc _ _ ih =>
    rw [Activity.missed_call, if_neg (by simp), List.append_nil]
    exact ih fun x hx => apart x (List.mem_append_left _ hx)
  | hit => simp [Activity.missed_call, Activity.missed_quiet]
  | @miss table c place s t r act hc missing inner ih =>
    obtain ⟨nodup, absent⟩ := ih fun x hx => apart x (List.mem_append_left _ hx)
    simp only [find?_opened] at absent
    rw [Activity.missed_call]
    by_cases same : table = memo
    · subst same
      have elsewhere : place ∉ act.missed table := by
        intro hplace
        obtain ⟨y, hy, hmemo, hc'⟩ := Activity.mem_missed hplace
        exact apart _ (List.mem_append_right _ (List.mem_singleton_self _)) y hy hmemo place hc hc'
      simp only [hc, and_self, if_true, Option.toList_some]
      refine ⟨List.nodup_append.mpr ⟨nodup, by simp, ?_⟩, fun place' hplace => ?_⟩
      · rintro place' hplace' _ hplace rfl
        cases List.mem_singleton.mp hplace
        exact elsewhere hplace'
      · rcases List.mem_append.mp hplace with hplace | hplace
        · exact absent place' hplace
        · cases List.mem_singleton.mp hplace
          exact missing
    · rw [if_neg (fun h => same h.1), List.append_nil]
      exact ⟨nodup, absent⟩

theorem Plays.size_eq (h : s.Plays act t) (fresh : s.table memo = .empty) :
    (t.table memo).size = (act.missed memo).dedup.length := by
  have booked := h.booked memo
  have nodup : (t.table memo).answers.keys.Nodup := by
    refine booked.nodup ?_
    rw [fresh]
    exact .nil
  -- a place that is missed twice is a key once
  have keys : (t.table memo).answers.keys.Perm (act.missed memo).dedup := by
    rw [List.perm_ext_iff_of_nodup nodup (List.nodup_dedup _)]
    intro place
    have empty : place ∉ (.empty : Table τ).answers.keys := nofun
    rw [booked.keys, fresh, List.mem_dedup, or_iff_right empty]
  have length := keys.length_eq
  rwa [Registry.keys, List.length_map] at length

theorem Plays.counts_eq (h : s.Plays act t) (fresh : s.table memo = .empty) :
    (t.table memo).counts = tally (act.counted memo) := by
  rw [(h.booked memo).counts, fresh, Table.counts_empty, ← tally_append, List.nil_append]

/-! ## What a single call does -/

variable {o : Activation τ} {inside : Activity τ}

end Store

namespace Session

variable [Token τ] {s t : Session τ} {log : List (Signal τ × List Record)} {act : Activity τ}
  {memo : Memo}

end Session

end Packrat
