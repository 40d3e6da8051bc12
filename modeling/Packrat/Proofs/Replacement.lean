import Mathlib.Data.List.Chain
import Packrat.Proofs.Activations

/-!
# Answers that are replaced

A call that finds an answer returns it and leaves it in the table. A call that finds none enters
what its parser returns, also if the table has got an answer meanwhile, from a call of the same
table at the same place inside of it. So from one call at a place to the next one that returns
there, the result is the same or the second call is around the first one, and the table holds the
result of the call that returned last. Where no call is inside of another one at its place, no
answer is replaced.

* `Activity.callsAt`: the calls of a table at a place, in the order in which they return.
* `Store.Plays.answering`: the answer of a table at a place before and after an activity.
* `Session.replaced_from_outside`: the same for the runs of a session.
-/

namespace Packrat

variable {τ ρ : Type}

/-- The calls of a table at a place, in the order in which they return. -/
def Activity.callsAt (act : Activity τ) (memo : Memo) (place : Place) :
    List (Activation τ × Activity τ) :=
  act.calls.filter fun x => x.1.table = memo ∧ x.1.start.place? = some place

theorem Activity.callsAt_both (act act' : Activity τ) (memo : Memo) (place : Place) :
    (Activity.both act act').callsAt memo place =
      act.callsAt memo place ++ act'.callsAt memo place := List.filter_append _ _

theorem Activity.callsAt_call (o : Activation τ) (inside : Activity τ) (memo : Memo)
    (place : Place) :
    (Activity.call o inside).callsAt memo place = inside.callsAt memo place ++
      if o.table = memo ∧ o.start.place? = some place then [(o, inside)] else [] := by
  rw [callsAt, calls, List.filter_append, List.filter_singleton, Bool.cond_decide]
  rfl

namespace Store

variable {s t : Store τ} {act : Activity τ} {memo : Memo} {place : Place}

/-- The answer of the table at the place is that of the call there that returned last. Calls return
the answer that was there before, and of two calls in a row with different results the second is
around the first. -/
structure Answering (memo : Memo) (place : Place) (s : Store τ) (act : Activity τ) (t : Store τ) :
    Prop where
  left : (t.table memo).find? place =
    ((act.callsAt memo place).getLast?.map (·.1.result)).or ((s.table memo).find? place)
  found : ∀ r, (s.table memo).find? place = some r → ∀ x ∈ act.callsAt memo place, x.1.result = r
  chain : (act.callsAt memo place).IsChain fun x y => y.1.result = x.1.result ∨ x ∈ y.2.calls

theorem find?_entered (s : Store τ) (memo memo' : Memo) (place place' : Place) (r : Result τ) :
    ((s.entered memo place r).table memo').find? place' =
      if memo = memo' ∧ place = place' then some r else (s.table memo').find? place' := by
  rw [table_entered]
  by_cases same : memo = memo'
  · simp [same, Table.remember, Table.find?, Registry.find?_insert]
  · simp [same]

theorem Answering.both {u : Store τ} {act' : Activity τ} (h : Answering memo place s act t)
    (h' : Answering memo place t act' u) : Answering memo place s (.both act act') u := by
  refine ⟨?_, fun r hr x hx => ?_, ?_⟩
  · rw [Activity.callsAt_both, h'.left, h.left, List.getLast?_append]
    cases (act'.callsAt memo place).getLast? <;> rfl
  · rw [Activity.callsAt_both] at hx
    rcases List.mem_append.mp hx with hx | hx
    · exact h.found r hr x hx
    · have left : (t.table memo).find? place = some r := by
        rw [h.left, hr]
        cases hlast : (act.callsAt memo place).getLast? with
        | none => rfl
        | some y => exact congrArg some (h.found r hr y (List.mem_of_getLast? hlast))
      exact h'.found r left x hx
  · rw [Activity.callsAt_both, List.isChain_append]
    refine ⟨h.chain, h'.chain, fun x hx y hy => .inl ?_⟩
    -- what the last call of the first part left is found by all calls of the second
    have left : (t.table memo).find? place = some x.1.result := by
      rw [h.left, hx]
      rfl
    exact h'.found _ left y (List.mem_of_mem_head? hy)

theorem Answering.around {o : Activation τ} {inside : Activity τ}
    (h : Answering memo place s inside t)
    (elsewhere : ¬ (o.table = memo ∧ o.start.place? = some place)) :
    Answering memo place s (.call o inside) t := by
  have same : (Activity.call o inside).callsAt memo place = inside.callsAt memo place := by
    rw [Activity.callsAt_call, if_neg elsewhere, List.append_nil]
  exact ⟨same ▸ h.left, same ▸ h.found, same ▸ h.chain⟩

theorem Answering.of_tables {s' t' : Store τ} (h : Answering memo place s act t)
    (hs : (s'.table memo).find? place = (s.table memo).find? place)
    (ht : (t'.table memo).find? place = (t.table memo).find? place) :
    Answering memo place s' act t' :=
  ⟨by rw [hs, ht, h.left], by rw [hs]; exact h.found, h.chain⟩

theorem answering_hit {table : Memo} {c : Cursor τ} {place' : Place} {r : Result τ}
    (hc : c.place? = some place') (found : (s.table table).find? place' = some r) :
    Answering memo place s (.call ⟨table, c, .hit, s, r, (s.opened table).hit table⟩ .quiet)
      ((s.opened table).hit table) := by
  have left : (((s.opened table).hit table).table memo).find? place =
      (s.table memo).find? place := by rw [find?_hit, find?_opened]
  have quiet : Answering memo place s .quiet s := ⟨rfl, nofun, .nil⟩
  by_cases here : table = memo ∧ c.place? = some place
  · obtain ⟨rfl, hplace⟩ := here
    obtain rfl : place' = place := Option.some.inj (hc.symm.trans hplace)
    have calls := Activity.callsAt_call ⟨table, c, .hit, s, r, (s.opened table).hit table⟩ .quiet
      table place'
    rw [if_pos ⟨rfl, hplace⟩] at calls
    refine ⟨?_, fun r' hr x hx => ?_, ?_⟩
    · rw [left, calls, found]
      rfl
    · rw [calls] at hx
      cases List.mem_singleton.mp hx
      exact Option.some.inj (found.symm.trans hr)
    · rw [calls]
      exact List.isChain_singleton _
  · exact (quiet.around here).of_tables rfl left

theorem Answering.miss {table : Memo} {c : Cursor τ} {place' : Place} {r : Result τ}
    (hc : c.place? = some place') (missing : (s.table table).find? place' = none)
    (h : Answering memo place (s.opened table) act t) :
    Answering memo place s (.call ⟨table, c, .miss, s, r, t.entered table place' r⟩ act)
      (t.entered table place' r) := by
  by_cases here : table = memo ∧ c.place? = some place
  · obtain ⟨rfl, hplace⟩ := here
    obtain rfl : place' = place := Option.some.inj (hc.symm.trans hplace)
    have calls := Activity.callsAt_call ⟨table, c, .miss, s, r, t.entered table place' r⟩ act
      table place'
    rw [if_pos ⟨rfl, hplace⟩] at calls
    refine ⟨?_, fun r' hr => ?_, ?_⟩
    · rw [calls, List.getLast?_concat, find?_entered, if_pos ⟨rfl, rfl⟩]
      rfl
    · cases missing.symm.trans hr
    · rw [calls, List.isChain_append]
      refine ⟨h.chain, List.isChain_singleton _, fun x hx y hy => .inr ?_⟩
      cases hy
      exact List.mem_of_mem_filter (List.mem_of_getLast? hx)
  · refine (h.around here).of_tables (find?_opened s table memo place).symm ?_
    rw [find?_entered, if_neg]
    rintro ⟨rfl, rfl⟩
    exact here ⟨rfl, hc⟩

theorem Plays.answering (h : s.Plays act t) (memo : Memo) (place : Place) :
    Answering memo place s act t := by
  induction h with
  | quiet same =>
    have left : (_ : Table τ).find? place = _ := congrArg (·.find? place) (same memo).symm
    exact ⟨left, nofun, .nil⟩
  | both _ _ ih₁ ih₂ => exact ih₁.both ih₂
  | visit _ ih => exact ⟨ih.left, ih.found, ih.chain⟩
  | atEnd hc _ _ ih =>
    refine ih.around ?_
    rintro ⟨-, hplace⟩
    cases hc.symm.trans hplace
  | hit hc found => exact answering_hit hc found
  | miss hc missing _ ih => exact ih.miss hc missing

end Store

/-! ## Sessions -/

namespace Session

variable [Token τ] {s t : Session τ} {log : List (Signal τ × List Record)} {act : Activity τ}
  {memo : Memo} {place : Place}

/-- The runs of a session, from a table that holds nothing at a place. A call at the place that
begins when there is an answer returns it, and each call leaves its own result as the answer. From
one call there to the next that returns, the result is the same, or the second call is around the
first. If no call at the place is around another one, all return the same. -/
theorem replaced_from_outside (fresh : (s.store.table memo).find? place = none)
    (h : s.Spans log act t) :
    (∀ x ∈ act.callsAt memo place,
        (x.1.after.table memo).find? place = some x.1.result ∧
          ∀ r, (x.1.before.table memo).find? place = some r → x.1.result = r) ∧
      (t.store.table memo).find? place =
        (act.callsAt memo place).getLast?.map (·.1.result) ∧
      (act.callsAt memo place).IsChain
        (fun x y => y.1.result = x.1.result ∨ x ∈ y.2.calls) ∧
      ((∀ x ∈ act.callsAt memo place, ∀ y ∈ act.callsAt memo place, x ∉ y.2.calls) →
        ∀ x ∈ act.callsAt memo place,
          (act.callsAt memo place).head?.map (·.1.result) = some x.1.result) := by
  have answering := h.plays.answering memo place
  refine ⟨fun x hx => ?_, ?_, answering.chain, fun apart x hx => ?_⟩
  · obtain ⟨hcall, htable, hplace⟩ : x ∈ act.calls ∧ x.1.table = memo ∧
        x.1.start.place? = some place := by
      simpa [Activity.callsAt] using hx
    have own := (h.plays.of_mem_calls x hcall).answering memo place
    have last := Activity.callsAt_call x.1 x.2 memo place
    rw [if_pos ⟨htable, hplace⟩] at last
    constructor
    · rw [own.left, last, List.getLast?_concat]
      rfl
    · exact fun r hr => own.found r hr x (by rw [last]; simp)
  · rw [answering.left, fresh, Option.or_none]
  · have chain := answering.chain
    generalize hcalls : act.callsAt memo place = calls at chain apart hx ⊢
    cases calls with
    | nil => cases hx
    | cons first rest =>
      have equal : (first :: rest).IsChain fun x y => y.1.result = x.1.result :=
        chain.imp_of_mem_imp fun x y hx hy step => step.resolve_right (apart x hx y hy)
      have all : ∀ y ∈ rest, y.1.result = first.1.result :=
        equal.cons_induction _ _ (fun _ _ step hx => step.trans hx) rfl
      rcases List.mem_cons.mp hx with rfl | hx
      · rfl
      · exact congrArg some (all x hx).symm

/-! ### A call around another one at its place -/

/-- A character, after one that is asked for in the same table. -/
def secondCharacter (memo : Memo) : Parser Char Empty :=
  let character : Parser Char Empty := .leaf (.token (fun _ => true) .endOfInput .notAllowed)
  .memo memo (.andThen (.memo memo character) character fun _ v => v)

theorem activates_secondCharacter (s : Store Char) (memo : Memo)
    (fresh : (s.table memo).find? ⟨0, 0, 2, 0⟩ = none) :
    ∃ r t act,
      (secondCharacter memo).Activates nofun (.ofBuffer (.ofArray 0 #['a', 'b'])) s r t act ∧
      (act.callsAt memo ⟨0, 0, 2, 0⟩).map (·.1.result.map fun m => m.stop.offset) =
        [.ok 1, .ok 2] := by
  have missing : ((s.opened memo).table memo).find? ⟨0, 0, 2, 0⟩ = none := by
    rwa [Store.find?_opened]
  refine ⟨_, _, _, .memoMiss rfl fresh (.andThen (.memoMiss rfl missing .leaf) .leaf), ?_⟩
  have quiet : (Activity.quiet : Activity Char).callsAt memo ⟨0, 0, 2, 0⟩ = [] := rfl
  have here : (Cursor.ofBuffer (.ofArray 0 #['a', 'b'])).place? = some ⟨0, 0, 2, 0⟩ := rfl
  simp only [Activity.callsAt_call, Activity.callsAt_both, quiet, here]
  rfl

/-- The two calls return different matches. -/
theorem spans_secondCharacter (memo : Memo) :
    ∃ log act t, (Session.start ∅ none : Session Char).Spans log act t ∧
      (act.callsAt memo ⟨0, 0, 2, 0⟩).map (·.1.result.map fun m => m.stop.offset) =
        [.ok 1, .ok 2] := by
  obtain ⟨r, store, act, happened, stops⟩ := activates_secondCharacter ∅ memo rfl
  obtain ⟨log, t, spans, -⟩ := Spans.nil.exists_of_activates (t := .start ∅ none) happened
  exact ⟨_, _, t, spans, stops⟩

theorem replaced_from_outside_of_secondCharacter :
    ∃ log act t, (Session.start ∅ none : Session Char).Spans log act t ∧
      (act.callsAt ⟨0, "m"⟩ ⟨0, 0, 2, 0⟩).length = 2 ∧
      (t.store.table ⟨0, "m"⟩).find? ⟨0, 0, 2, 0⟩ =
        (act.callsAt ⟨0, "m"⟩ ⟨0, 0, 2, 0⟩).getLast?.map (·.1.result) ∧
      (act.callsAt ⟨0, "m"⟩ ⟨0, 0, 2, 0⟩).IsChain
        (fun x y => y.1.result = x.1.result ∨ x ∈ y.2.calls) := by
  obtain ⟨log, act, t, spans, stops⟩ := spans_secondCharacter ⟨0, "m"⟩
  have two : (act.callsAt ⟨0, "m"⟩ ⟨0, 0, 2, 0⟩).length = 2 := by
    simpa using congrArg List.length stops
  have fresh : ((Session.start ∅ none : Session Char).store.table ⟨0, "m"⟩).find? ⟨0, 0, 2, 0⟩ =
      none := rfl
  obtain ⟨-, left, chain, -⟩ := replaced_from_outside fresh spans
  exact ⟨log, act, t, spans, two, left, chain⟩

/-- The first call to return does not decide what the others return. -/
theorem not_forall_answered_alike : ¬ ∀ (s t : Session Char) log act memo place,
    (s.store.table memo).find? place = none → s.Spans log act t →
      ∀ x ∈ act.callsAt memo place,
        (act.callsAt memo place).head?.map (·.1.result) = some x.1.result := by
  intro h
  obtain ⟨log, act, t, spans, stops⟩ := spans_secondCharacter ⟨0, "m"⟩
  have alike := h _ t log act ⟨0, "m"⟩ ⟨0, 0, 2, 0⟩ rfl spans
  generalize act.callsAt ⟨0, "m"⟩ ⟨0, 0, 2, 0⟩ = calls at stops alike
  obtain ⟨x, rest, rfl, hx, hrest⟩ := List.map_eq_cons_iff.mp stops
  obtain ⟨y, _, rfl, hy, -⟩ := List.map_eq_cons_iff.mp hrest
  have same : x.1.result = y.1.result := Option.some.inj (alike y (by simp))
  rw [same, hy] at hx
  cases hx

end Session

end Packrat
