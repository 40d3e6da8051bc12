import Mathlib.Data.List.Nodup
import Mathlib.Data.List.Perm.Basic
import Packrat.Proofs.Transparency

/-!
# The order of runs does not matter

A call that finds its answer makes no further calls, so which calls reach a table depends on what was
run before. The calls that miss do not: they are the calls that the runs make and those inside of
them, each once. From this it follows that runs in another order have the same outcomes, and leave
tables with the same answers and the same counts.

* `Ledger`: the calls that missed, the least set with the calls made that is closed under calls.
* `Ledger.perm`: the order of the calls made does not matter.
* `Store.Accounts`: the tables hold what the ledger says.
* `Job.order_independent`: runs in two orders.
-/

namespace Packrat

variable {τ ρ : Type}

/-- Two tables with the same answers under the same keys, as many of them, and the same counts. -/
structure Table.Agrees (t t' : Table τ) : Prop where
  find? : ∀ place, t.find? place = t'.find? place
  keys : ∀ place, place ∈ t.answers.keys ↔ place ∈ t'.answers.keys
  size : t.size = t'.size
  hits : t.hits = t'.hits
  misses : t.misses = t'.misses

/-! ## Ledgers -/

/-- The calls `asked` were made, also some inside of others, and those that missed are in `done`, each
once, with the calls that its parser made. Every call that was made has missed at some time, and no
others have. -/
structure Ledger (grammar : Grammar τ ρ) (body : Memo → Option (Parser τ ρ))
    (sources : Nat → Array τ) (done : List (Call τ × List (Call τ))) (asked : List (Call τ)) :
    Prop where
  cut : ∀ e ∈ done, e.1.start.buffer.CutFrom sources
  parsed : ∀ e ∈ done, ∃ p r, body e.1.table = some p ∧ p.Parses grammar e.1.start r e.2
  nodup : (done.map Prod.fst).Nodup
  closed : ∀ k ∈ asked ++ done.flatMap Prod.snd, k ∈ done.map Prod.fst
  grounded : ∀ k ∈ done.map Prod.fst, ∃ j ∈ asked,
    Relation.ReflTransGen (Parser.Inside grammar body) k j

namespace Ledger

variable {grammar : Grammar τ ρ} {body : Memo → Option (Parser τ ρ)} {sources : Nat → Array τ}
  {done done' : List (Call τ × List (Call τ))} {asked asked' : List (Call τ)}

theorem nil : Ledger grammar body sources [] [] := ⟨nofun, nofun, .nil, nofun, nofun⟩

/-- What is called inside of a call that missed has missed as well. -/
theorem mem_of_inside (h : Ledger grammar body sources done asked) {k j : Call τ}
    (hk : Relation.ReflTransGen (Parser.Inside grammar body) k j) (hj : j ∈ done.map Prod.fst) :
    k ∈ done.map Prod.fst := by
  induction hk using Relation.ReflTransGen.head_induction_on with
  | refl => exact hj
  | head step _ ih =>
    obtain ⟨e, he, rfl⟩ := List.mem_map.mp ih
    obtain ⟨p, r, hbody, hparse⟩ := h.parsed e he
    obtain ⟨p', r', ks, hbody', hparse', hmem⟩ := step
    cases hbody.symm.trans hbody'
    obtain ⟨-, rfl⟩ := hparse.unique hparse'
    exact h.closed _ (List.mem_append_right _ (List.mem_flatMap.mpr ⟨e, he, hmem⟩))

/-- The calls that missed are those that were made, and those inside of them. -/
theorem mem_keys_iff (h : Ledger grammar body sources done asked) {k : Call τ} :
    k ∈ done.map Prod.fst ↔
      ∃ j ∈ asked, Relation.ReflTransGen (Parser.Inside grammar body) k j := by
  constructor
  · exact h.grounded k
  · rintro ⟨j, hj, hk⟩
    exact h.mem_of_inside hk (h.closed j (List.mem_append_left _ hj))

/-- One more call that missed before. -/
theorem ask (h : Ledger grammar body sources done asked) {k : Call τ}
    (hk : k ∈ done.map Prod.fst) : Ledger grammar body sources done (asked ++ [k]) := by
  refine ⟨h.cut, h.parsed, h.nodup, ?_, ?_⟩
  · intro j hj
    simp only [List.append_assoc, List.mem_append, List.mem_singleton] at hj
    rcases hj with hj | rfl | hj
    · exact h.closed j (List.mem_append_left _ hj)
    · exact hk
    · exact h.closed j (List.mem_append_right _ hj)
  · intro i hi
    obtain ⟨j, hj, hij⟩ := h.grounded i hi
    exact ⟨j, List.mem_append_left _ hj, hij⟩

/-- A call that misses for the first time, when the calls of its parser have been made. -/
theorem enter {k : Call τ} {ks : List (Call τ)}
    (h : Ledger grammar body sources done (asked ++ ks)) (hk : k ∉ done.map Prod.fst)
    (hcut : k.start.buffer.CutFrom sources) {p : Parser τ ρ} {r : Result τ}
    (hbody : body k.table = some p) (hparse : p.Parses grammar k.start r ks) :
    Ledger grammar body sources (done ++ [(k, ks)]) (asked ++ [k]) := by
  have hkeys : (done ++ [(k, ks)]).map Prod.fst = done.map Prod.fst ++ [k] := by simp
  refine ⟨?_, ?_, ?_, ?_, ?_⟩
  · intro e he
    rcases List.mem_append.mp he with he | he
    · exact h.cut e he
    · cases List.mem_singleton.mp he
      exact hcut
  · intro e he
    rcases List.mem_append.mp he with he | he
    · exact h.parsed e he
    · cases List.mem_singleton.mp he
      exact ⟨p, r, hbody, hparse⟩
  · rw [hkeys]
    have fresh : ∀ j ∈ done.map Prod.fst, j ≠ k := fun j hj same => hk (same ▸ hj)
    simpa [List.nodup_append, h.nodup] using fresh
  · intro j hj
    have hclosed := h.closed j
    rw [hkeys]
    simp only [List.flatMap_append, List.flatMap_singleton, List.mem_append,
      List.mem_singleton] at hj hclosed ⊢
    tauto
  · intro i hi
    rw [hkeys] at hi
    rcases List.mem_append.mp hi with hi | hi
    · obtain ⟨j, hj, hij⟩ := h.grounded i hi
      rcases List.mem_append.mp hj with hj | hj
      · exact ⟨j, List.mem_append_left _ hj, hij⟩
      · -- what is inside of a call of the parser is inside of the call that misses
        have hjk : Parser.Inside grammar body j k := ⟨p, r, ks, hbody, hparse, hj⟩
        exact ⟨k, List.mem_append_right _ (List.mem_singleton_self k), hij.tail hjk⟩
    · exact ⟨i, List.mem_append_right _ hi, .refl⟩

theorem keys_perm (h : Ledger grammar body sources done asked)
    (h' : Ledger grammar body sources done' asked') (hperm : asked.Perm asked') :
    (done.map Prod.fst).Perm (done'.map Prod.fst) := by
  rw [List.perm_ext_iff_of_nodup h.nodup h'.nodup]
  intro k
  rw [h.mem_keys_iff, h'.mem_keys_iff]
  simp only [hperm.mem_iff]

theorem subset (h : Ledger grammar body sources done asked)
    (h' : Ledger grammar body sources done' asked') (hperm : asked.Perm asked') :
    done ⊆ done' := by
  rintro ⟨k, ks⟩ he
  have hkey : k ∈ done'.map Prod.fst := (h.keys_perm h' hperm).subset (List.mem_map_of_mem he)
  obtain ⟨⟨_, ks'⟩, he', rfl⟩ := List.mem_map.mp hkey
  obtain ⟨p, r, hbody, hparse⟩ := h.parsed _ he
  obtain ⟨p', r', hbody', hparse'⟩ := h'.parsed _ he'
  cases hbody.symm.trans hbody'
  have hks : ks = ks' := (hparse.unique hparse').2
  rw [hks]
  exact he'

/-- The calls that missed, and the calls made in them, are the same in any order of the calls. -/
theorem perm (h : Ledger grammar body sources done asked)
    (h' : Ledger grammar body sources done' asked') (hperm : asked.Perm asked') :
    done.Perm done' := by
  have hnodup : done.Nodup := .of_map Prod.fst h.nodup
  have hnodup' : done'.Nodup := .of_map Prod.fst h'.nodup
  rw [List.perm_ext_iff_of_nodup hnodup hnodup']
  intro e
  constructor
  · exact fun he => h.subset h' hperm he
  · exact fun he => h'.subset h hperm.symm he

end Ledger

/-! ## What a use of a table changes -/

namespace Store

section

variable (s : Store τ) (memo memo' : Memo) (place place' : Place) (r : Result τ)

theorem answers_hit : ((s.hit memo).table memo').answers = (s.table memo').answers := by
  rw [table_hit]
  split <;> rfl

theorem hits_hit :
    ((s.hit memo).table memo').hits = (s.table memo').hits + if memo = memo' then 1 else 0 := by
  rw [table_hit]
  split <;> rfl

theorem misses_hit : ((s.hit memo).table memo').misses = (s.table memo').misses := by
  rw [table_hit]
  split <;> rfl

theorem isSome_find?_entered :
    (((s.entered memo place r).table memo').find? place').isSome ↔
      memo = memo' ∧ place = place' ∨ ((s.table memo').find? place').isSome := by
  rw [table_entered]
  by_cases same : memo = memo'
  · rw [if_pos same, Table.remember, Table.find?, Registry.find?_insert]
    by_cases here : place = place'
    · simp [same, here]
    · simp [here, Table.find?]
  · simp [same]

theorem hits_entered : ((s.entered memo place r).table memo').hits = (s.table memo').hits := by
  rw [table_entered]
  split <;> rfl

theorem misses_entered :
    ((s.entered memo place r).table memo').misses =
      (s.table memo').misses + if memo = memo' then 1 else 0 := by
  rw [table_entered]
  split <;> rfl

variable {s memo place}

theorem size_entered (absent : (s.table memo).find? place = none) :
    ((s.entered memo place r).table memo').size =
      (s.table memo').size + if memo = memo' then 1 else 0 := by
  rw [table_entered]
  by_cases same : memo = memo'
  · subst same
    rw [if_pos rfl, if_pos rfl, Table.remember, Table.size, Registry.size_insert_of_none absent,
      Table.size]
  · rw [if_neg same, if_neg same, Nat.add_zero]

end

/-! ## Accounts of the tables -/

/-- The tables hold what the ledger says: an answer for every call that missed and for no other, as
many misses as there are such calls, and as many uses as calls were made. -/
structure Accounts (grammar : Grammar τ ρ) (body : Memo → Option (Parser τ ρ))
    (sources : Nat → Array τ) (s : Store τ) (done : List (Call τ × List (Call τ)))
    (asked : List (Call τ)) : Prop where
  ledger : Ledger grammar body sources done asked
  faithful : s.Faithful grammar body sources
  held : ∀ memo place, ((s.table memo).find? place).isSome ↔
    ∃ e ∈ done, e.1.table = memo ∧ e.1.start.place? = some place
  size : ∀ memo, (s.table memo).size = done.countP (·.1.table = memo)
  misses : ∀ memo, (s.table memo).misses = done.countP (·.1.table = memo)
  uses : ∀ memo, (s.table memo).hits + (s.table memo).misses =
    (asked ++ done.flatMap Prod.snd).countP (·.table = memo)

variable {grammar : Grammar τ ρ} {body : Memo → Option (Parser τ ρ)} {sources : Nat → Array τ}
  {s t : Store τ} {done done' : List (Call τ × List (Call τ))} {asked asked' : List (Call τ)}

theorem accounts_of_fresh (fresh : ∀ memo, s.table memo = .empty) :
    s.Accounts grammar body sources [] [] where
  ledger := .nil
  faithful := allAnswers_of_fresh fun memo place => by
    rw [fresh]
    rfl
  held memo place := by
    rw [fresh]
    simp [Table.find?, Table.empty]
  size memo := by
    rw [fresh]
    rfl
  misses memo := by
    rw [fresh]
    rfl
  uses memo := by
    rw [fresh]
    rfl

/-- Only answers and counts matter to the accounts. -/
theorem Accounts.of_tables (h : s.Accounts grammar body sources done asked)
    (answers : ∀ memo, (t.table memo).answers = (s.table memo).answers)
    (hits : ∀ memo, (t.table memo).hits = (s.table memo).hits)
    (misses : ∀ memo, (t.table memo).misses = (s.table memo).misses) :
    t.Accounts grammar body sources done asked where
  ledger := h.ledger
  faithful := h.faithful.of_tables fun memo place => by simp only [Table.find?, answers]
  held memo place := by simpa only [Table.find?, answers] using h.held memo place
  size memo := by simpa only [Table.size, answers] using h.size memo
  misses memo := by rw [misses, h.misses]
  uses memo := by rw [hits, misses, h.uses]

theorem Accounts.opened (h : s.Accounts grammar body sources done asked) (memo : Memo) :
    (s.opened memo).Accounts grammar body sources done asked := by
  refine h.of_tables ?_ ?_ ?_
  all_goals
    intro memo'
    rw [table_opened]
    split <;> rfl

/-- A call has missed exactly if its table holds an answer at its place. -/
theorem Accounts.mem_iff_isSome (h : s.Accounts grammar body sources done asked) {memo : Memo}
    {c : Cursor τ} (hc : c.buffer.CutFrom sources) {place : Place}
    (hplace : c.place? = some place) :
    ⟨memo, c⟩ ∈ done.map Prod.fst ↔ ((s.table memo).find? place).isSome := by
  rw [h.held]
  constructor
  · intro hmem
    obtain ⟨e, he, hkey⟩ := List.mem_map.mp hmem
    exact ⟨e, he, by rw [hkey], by rw [hkey, hplace]⟩
  · rintro ⟨⟨⟨memo', d⟩, ks⟩, he, hmemo, hd⟩
    have hcut : d.buffer.CutFrom sources := h.ledger.cut _ he
    have same : d = c := Cursor.eq_of_place hcut hc hd hplace
    subst hmemo same
    exact List.mem_map.mpr ⟨_, he, rfl⟩

theorem Accounts.hit (h : s.Accounts grammar body sources done asked) {memo : Memo} {c : Cursor τ}
    (hc : c.buffer.CutFrom sources) {place : Place} (hplace : c.place? = some place)
    (found : ((s.table memo).find? place).isSome) :
    (s.hit memo).Accounts grammar body sources done (asked ++ [⟨memo, c⟩]) where
  ledger := h.ledger.ask ((h.mem_iff_isSome hc hplace).mpr found)
  faithful := h.faithful.hit memo
  held memo' place' := by simpa only [Table.find?, answers_hit] using h.held memo' place'
  size memo' := by simpa only [Table.size, answers_hit] using h.size memo'
  misses memo' := by rw [misses_hit, h.misses]
  uses memo' := by
    have huses := h.uses memo'
    rw [hits_hit, misses_hit]
    simp only [List.countP_append, List.countP_singleton, decide_eq_true_eq] at huses ⊢
    omega

/-- A call that misses is entered when the calls inside of it have been made. It is not one of them,
since no call is made inside of itself, and so it is entered for the first time. -/
theorem Accounts.miss (rules : ∀ name, (grammar name).Uniform body)
    (h : s.Accounts grammar body sources done asked) {memo : Memo} {p : Parser τ ρ} {c : Cursor τ}
    {r : Result τ} {ks : List (Call τ)} (hbody : body memo = some p) (hp : p.Uniform body)
    (hc : c.buffer.CutFrom sources) {place : Place} (hplace : c.place? = some place)
    (missing : (s.table memo).find? place = none) (hparse : p.Parses grammar c r ks)
    (h' : t.Accounts grammar body sources done' (asked ++ ks)) :
    (t.entered memo place r).Accounts grammar body sources (done' ++ [(⟨memo, c⟩, ks)])
      (asked ++ [⟨memo, c⟩]) := by
  have first : (⟨memo, c⟩ : Call τ) ∉ done'.map Prod.fst := by
    intro hmem
    obtain ⟨j, hj, hinside⟩ := h'.ledger.grounded _ hmem
    rcases List.mem_append.mp hj with hj | hj
    · have before := h.ledger.mem_keys_iff.mpr ⟨j, hj, hinside⟩
      rw [h.mem_iff_isSome hc hplace, missing] at before
      cases before
    · exact hparse.not_inside rules hbody hp j hj hinside
  have absent : (t.table memo).find? place = none := by
    rw [h'.mem_iff_isSome hc hplace] at first
    simpa using first
  refine ⟨h'.ledger.enter first hc hbody hparse, h'.faithful.entered hbody hc hplace hparse,
    ?_, ?_, ?_, ?_⟩
  · intro memo' place'
    rw [isSome_find?_entered, h'.held]
    simp [or_and_right, exists_or, hplace, or_comm]
  · intro memo'
    rw [size_entered memo' r absent, h'.size, List.countP_append, List.countP_singleton]
    simp
  · intro memo'
    rw [misses_entered, h'.misses, List.countP_append, List.countP_singleton]
    simp
  · intro memo'
    have huses := h'.uses memo'
    rw [hits_entered, misses_entered]
    simp only [List.flatMap_append, List.flatMap_singleton, List.countP_append,
      List.countP_singleton, decide_eq_true_eq] at huses ⊢
    omega

/-- Each use of a table keeps accounts of the tables. -/
theorem accounts_kept (rules : ∀ name, (grammar name).Uniform body) :
    Parser.Kept grammar body sources fun s asked =>
      ∃ done, s.Accounts grammar body sources done asked where
  setSlot := by
    rintro s ks slot v ⟨done, h⟩
    exact ⟨done, h.of_tables (fun _ => rfl) (fun _ => rfl) fun _ => rfl⟩
  raise := by
    rintro s ks counter ⟨done, h⟩
    exact ⟨done, h.of_tables (fun _ => rfl) (fun _ => rfl) fun _ => rfl⟩
  opened := by
    rintro s ks memo ⟨done, h⟩
    exact ⟨done, h.opened memo⟩
  hit := by
    rintro s ks table p c place r ⟨done, h⟩ hbody hc hplace found
    have isSome : ((s.table table).find? place).isSome := by simp [found]
    exact ⟨h.faithful _ _ _ found _ hbody _ hc hplace, done, h.hit hc hplace isSome⟩
  miss := by
    rintro s t ks table p c place r ks' ⟨_, h⟩ hbody hp hc hplace missing hparse ⟨done', h'⟩
    exact ⟨_, h.miss rules hbody hp hc hplace missing hparse h'⟩

/-! ## Tables after the same calls -/

theorem Accounts.find?_of_perm (h : s.Accounts grammar body sources done asked)
    (h' : t.Accounts grammar body sources done' asked') (hperm : asked.Perm asked') {memo : Memo}
    {place : Place} {r : Result τ} (found : (s.table memo).find? place = some r) :
    (t.table memo).find? place = some r := by
  obtain ⟨e, he, rfl, hplace⟩ := (h.held memo place).mp (by simp [found])
  obtain ⟨p, _, hbody, -⟩ := h.ledger.parsed e he
  have hcut : e.1.start.buffer.CutFrom sources := h.ledger.cut e he
  have he' : e ∈ done' := h.ledger.subset h'.ledger hperm he
  obtain ⟨r', found'⟩ := Option.isSome_iff_exists.mp ((h'.held _ _).mpr ⟨e, he', rfl, hplace⟩)
  -- both answers are what the parser of the table returns there
  obtain ⟨_, hr⟩ := h.faithful _ _ _ found _ hbody e.1.start hcut hplace
  obtain ⟨_, hr'⟩ := h'.faithful _ _ _ found' _ hbody e.1.start hcut hplace
  rw [found', (hr.unique hr').1]

/-- After the same calls in any order, the tables agree. -/
theorem Accounts.agrees (h : s.Accounts grammar body sources done asked)
    (h' : t.Accounts grammar body sources done' asked') (hperm : asked.Perm asked') (memo : Memo) :
    (s.table memo).Agrees (t.table memo) := by
  have hdone : done.Perm done' := h.ledger.perm h'.ledger hperm
  have hfind : ∀ place, (s.table memo).find? place = (t.table memo).find? place := by
    intro place
    apply Option.ext
    intro r
    exact ⟨h.find?_of_perm h' hperm, h'.find?_of_perm h hperm.symm⟩
  have hmisses : (s.table memo).misses = (t.table memo).misses := by
    rw [h.misses, h'.misses, hdone.countP_eq]
  have huses : (s.table memo).hits + (s.table memo).misses =
      (t.table memo).hits + (t.table memo).misses := by
    rw [h.uses, h'.uses, (hperm.append (hdone.flatMap_right _)).countP_eq]
  refine ⟨hfind, ?_, ?_, by omega, hmisses⟩
  · intro place
    have hplace := hfind place
    rw [Table.find?, Table.find?] at hplace
    rw [Registry.mem_keys_iff, Registry.mem_keys_iff, hplace]
  · rw [h.size, h'.size, hdone.countP_eq]

end Store

/-! ## Runs in another order -/

namespace Job

variable {grammar : Grammar τ ρ} {body : Memo → Option (Parser τ ρ)} {sources : Nat → Array τ}
  {jobs jobs' : List (Job τ ρ)} {results results' : List (Result τ)}
  {asked asked' : List (Call τ)}

theorem ParseAll.unique (h : ParseAll grammar jobs results asked)
    (h' : ParseAll grammar jobs results' asked') : results = results' ∧ asked = asked' := by
  induction h generalizing results' asked' with
  | nil =>
    cases h'
    exact ⟨rfl, rfl⟩
  | cons first _ ih =>
    cases h' with
    | cons first' rest' =>
      obtain ⟨rfl, rfl⟩ := first.unique first'
      obtain ⟨rfl, rfl⟩ := ih rest'
      exact ⟨rfl, rfl⟩

/-- Jobs in another order return the same and make the same calls, in another order. -/
theorem ParseAll.perm (hperm : jobs.Perm jobs') (h : ParseAll grammar jobs results asked) :
    ∃ results' asked', ParseAll grammar jobs' results' asked' ∧
      (jobs.zip results).Perm (jobs'.zip results') ∧ asked.Perm asked' := by
  induction hperm generalizing results asked with
  | nil =>
    cases h
    exact ⟨[], [], .nil, .nil, .nil⟩
  | cons job _ ih =>
    cases h with
    | cons first rest =>
      obtain ⟨results', asked', h', hzip, hasked⟩ := ih rest
      exact ⟨_, _, .cons first h', hzip.cons _, hasked.append_left _⟩
  | swap job job' jobs =>
    cases h with
    | cons first rest =>
      cases rest with
      | @cons _ _ _ _ ks asked second rest =>
        refine ⟨_, _, .cons second (.cons first rest), .swap _ _ _, ?_⟩
        rw [← List.append_assoc, ← List.append_assoc]
        exact List.perm_append_comm.append_right asked
  | trans _ _ ih₁ ih₂ =>
    obtain ⟨results₁, asked₁, h₁, hzip₁, hasked₁⟩ := ih₁ h
    obtain ⟨results₂, asked₂, h₂, hzip₂, hasked₂⟩ := ih₂ h₁
    exact ⟨results₂, asked₂, h₂, hzip₁.trans hzip₂, hasked₁.trans hasked₂⟩

theorem runAll_below {fuel fuel' : Nat} (hle : fuel ≤ fuel') (jobs : List (Job τ ρ)) :
    (runAll grammar fuel jobs).Below (runAll grammar fuel' jobs) := by
  induction jobs with
  | nil => exact Run.below_refl _
  | cons job jobs ih =>
    rw [runAll_cons, runAll_cons]
    refine (Parser.run_below grammar hle job.ctx job.parser job.start).bind fun r => ?_
    exact ih.bind fun rs => Run.below_refl _

/-- Jobs that have results without state can be run from faithful tables. -/
theorem ParseAll.exists_runAll (rules : ∀ name, (grammar name).Uniform body)
    (h : ParseAll grammar jobs results asked) (fits : ∀ job ∈ jobs, job.Fits body sources)
    {s : Store τ} (hs : s.Faithful grammar body sources) :
    ∃ fuel, (runAll grammar fuel jobs s).isSome := by
  induction h generalizing s with
  | nil => exact ⟨0, rfl⟩
  | @cons job jobs r results ks asked first _ ih =>
    obtain ⟨hjob, fits⟩ := List.forall_mem_cons.mp fits
    obtain ⟨t, _, d⟩ := first.exists_runs rules hjob.uniform hjob.cut job.ctx hs
    obtain ⟨_, _, ht⟩ := d.kept Store.faithful_kept rules hjob.uniform hjob.cut [] hs
    obtain ⟨n₁, hrun₁⟩ := d.exists_run
    obtain ⟨n₂, hrun₂⟩ := ih fits ht
    obtain ⟨out, hrun₂⟩ := Option.isSome_iff_exists.mp hrun₂
    have h₁ : job.run grammar (max n₁ n₂) s = _ :=
      Parser.run_below grammar (Nat.le_max_left n₁ n₂) _ _ _ _ _ hrun₁
    have h₂ := runAll_below (Nat.le_max_right n₁ n₂) jobs _ _ hrun₂
    refine ⟨max n₁ n₂, ?_⟩
    rw [runAll_cons, Run.bind_apply h₁, Run.bind_apply h₂]
    rfl

/-- Several runs that share memo tables which are empty at first, each table wrapped around one
parser everywhere, and the same runs in another order: if the first all return, so do the second,
each with the same outcome, and in the end the tables agree. -/
theorem order_independent (rules : ∀ name, (grammar name).Uniform body)
    (fits : ∀ job ∈ jobs, job.Fits body sources) (hperm : jobs.Perm jobs') {s s' t : Store τ}
    (fresh : ∀ memo, s.table memo = .empty) (fresh' : ∀ memo, s'.table memo = .empty) {fuel : Nat}
    {signals : List (Signal τ)}
    (h : runAll grammar fuel jobs s = some (results, t, signals)) :
    (∃ fuel', (runAll grammar fuel' jobs' s').isSome) ∧
      ∀ fuel' results' t' signals',
        runAll grammar fuel' jobs' s' = some (results', t', signals') →
        (jobs.zip results).Perm (jobs'.zip results') ∧
          ∀ memo, (t.table memo).Agrees (t'.table memo) := by
  have kept : Parser.Kept grammar body sources fun s asked =>
      ∃ done, s.Accounts grammar body sources done asked := Store.accounts_kept rules
  have fits' : ∀ job ∈ jobs', job.Fits body sources :=
    fun job hjob => fits job (hperm.mem_iff.mpr hjob)
  obtain ⟨asked, hall, done, accounts⟩ :=
    parseAll_of_runAll kept rules fits h [] ⟨[], Store.accounts_of_fresh fresh⟩
  obtain ⟨results₁, asked₁, hall₁, hzip, hasked⟩ := hall.perm hperm
  constructor
  · have faithful : s'.Faithful grammar body sources := (Store.accounts_of_fresh fresh').faithful
    exact hall₁.exists_runAll rules fits' faithful
  · intro fuel' results' t' signals' h'
    obtain ⟨asked', hall', done', accounts'⟩ :=
      parseAll_of_runAll kept rules fits' h' [] ⟨[], Store.accounts_of_fresh fresh'⟩
    obtain ⟨rfl, rfl⟩ := hall₁.unique hall'
    exact ⟨hzip, accounts.agrees accounts' hasked⟩

/-- The letters of two buffers, from the last run to the first. -/
theorem order_independent_of_letters :
    ∃ results t signals results' t' signals',
      runAll letterRule 20 letterJobs ∅ = some (results, t, signals) ∧
      runAll letterRule 20 letterJobs.reverse ∅ = some (results', t', signals') ∧
      (letterJobs.zip results).Perm (letterJobs.reverse.zip results') ∧
      (t.table letterTable).Agrees (t'.table letterTable) := by
  have returns : (runAll letterRule 20 letterJobs ∅).isSome := by decide +kernel
  have returns' : (runAll letterRule 20 letterJobs.reverse ∅).isSome := by decide +kernel
  obtain ⟨⟨results, t, signals⟩, h⟩ := Option.isSome_iff_exists.mp returns
  obtain ⟨⟨results', t', signals'⟩, h'⟩ := Option.isSome_iff_exists.mp returns'
  have fresh : ∀ memo, (∅ : Store Char).table memo = .empty := fun _ => rfl
  obtain ⟨-, agree⟩ := order_independent letterRule_uniform letterJobs_fit
    letterJobs.reverse_perm.symm fresh fresh h
  obtain ⟨hzip, tables⟩ := agree _ _ _ _ h'
  exact ⟨results, t, signals, results', t', signals', h, h', hzip, tables letterTable⟩

end Job

end Packrat
