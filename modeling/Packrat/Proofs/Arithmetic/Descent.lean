import Packrat.Proofs.Accounting
import Packrat.Proofs.Arithmetic.Calls

/-!
# Rules inside of rules

A rule that is called inside of another one begins further on, or stands below it. So no rule is
called at a place where it is still going on, and a memo table misses at most once at each place.
Without tables a rule may begin at one place again and again, but not inside of itself either.

* `Descends`: activities in which each rule has a lower level than those around it.
* `Lowers`: the rules inside of a parser have lower levels.
* `sinks_call`: the rules inside of a rule have lower levels.
* `Query.misses_bounded`: the tables after calls of the rules on one buffer.
-/

namespace Packrat.Arithmetic

open Packrat.Parser

/-! ## Levels of rules -/

/-- The level of a rule at a cursor. It falls with what is left, and at one place with the
height. -/
def levelAt (r : Rule) (c : Cursor Char) : Nat := levels r c.remaining.length

theorem Rule.height_le (r : Rule) : r.height ≤ 5 := by
  cases r <;> decide

theorem levelAt_lt_of_height {q r : Rule} {c d : Cursor Char} (hheight : q.height < r.height)
    (hlength : d.remaining.length ≤ c.remaining.length) : levelAt q d < levelAt r c := by
  simp only [levelAt, levels]
  omega

theorem levelAt_lt_of_length {q r : Rule} {c d : Cursor Char}
    (hlength : d.remaining.length < c.remaining.length) : levelAt q d < levelAt r c := by
  have hheight := q.height_le
  simp only [levelAt, levels]
  omega

/-- What happens on the buffer is made of rules below the level, and what happens inside of a rule
of rules below its own. A rule goes on in a visit of its site, in which its table is called if it
has one. -/
inductive Descends (base? : Option Nat) (b : Buffer Char) : Nat → Activity Char → Prop where
  | quiet {n} : Descends base? b n .quiet
  | both {n act act'} (first : Descends base? b n act) (second : Descends base? b n act') :
      Descends base? b n (.both act act')
  | site {n name c act} (other : ∀ r : Rule, r.tag ≠ name) (inside : Descends base? b n act) :
      Descends base? b n (.visit name c act)
  | plain {n r c act} (hbase : base? = none) (here : c.buffer = b) (lower : levelAt r c < n)
      (inside : Descends base? b (levelAt r c) act) : Descends base? b n (.visit r.tag c act)
  | memoized {n r c base o act} (hbase : base? = some base) (table : o.table = r.table base)
      (start : o.start = c) (here : c.buffer = b) (lower : levelAt r c < n)
      (inside : Descends base? b (levelAt r c) act) :
      Descends base? b n (.visit r.tag c (.call o act))

variable {base? : Option Nat} {base : Nat} {b : Buffer Char} {m n : Nat} {act : Activity Char}

theorem Descends.mono (h : Descends base? b n act) (hle : n ≤ m) : Descends base? b m act := by
  induction h with
  | quiet => exact .quiet
  | both _ _ ih₁ ih₂ => exact .both (ih₁ hle) (ih₂ hle)
  | site other _ ih => exact .site other (ih hle)
  | plain hbase here lower inside _ => exact .plain hbase here (by omega) inside
  | memoized hbase table start here lower inside _ =>
    exact .memoized hbase table start here (by omega) inside

theorem Rule.all_index (r : Rule) : Rule.all[r.index]? = some r := by
  cases r <;> rfl

theorem Rule.table_injective : Function.Injective (Rule.table base) := by
  intro r q h
  have hindex : r.index = q.index := Nat.add_left_cancel (Memo.mk.inj h).1
  have same := q.all_index
  rw [← hindex, r.all_index] at same
  exact Option.some.inj same

theorem Rule.mem_all (r : Rule) : r ∈ Rule.all := List.mem_of_getElem? r.all_index

theorem Rule.tag_injective : Function.Injective Rule.tag := by
  have injective : ∀ q ∈ Rule.all, ∀ r ∈ Rule.all, q.tag = r.tag → q = r := by decide
  exact fun q r => injective q q.mem_all r r.mem_all

/-- Each call is one of a rule below the level, and descends itself. -/
theorem Descends.of_mem_calls (h : Descends (some base) b n act) : ∀ x ∈ act.calls,
    ∃ r : Rule, x.1.table = r.table base ∧ x.1.start.buffer = b ∧ levelAt r x.1.start < n ∧
      Descends (some base) b (levelAt r x.1.start) x.2 := by
  induction h with
  | quiet => exact nofun
  | both _ _ ih₁ ih₂ =>
    intro x hx
    exact (List.mem_append.mp hx).elim (ih₁ x) (ih₂ x)
  | site _ _ ih => exact ih
  | plain hbase => cases hbase
  | @memoized n r _ _ o act hbase table start here lower inside ih =>
    cases hbase
    subst start
    intro x hx
    rcases List.mem_append.mp hx with hx | hx
    · -- inside of the call the rules are below its own, which is below the level
      obtain ⟨q, hq, buffer, deeper, rest⟩ := ih x hx
      exact ⟨q, hq, buffer, by omega, rest⟩
    · cases List.mem_singleton.mp hx
      exact ⟨r, table, here, lower, inside⟩

/-- No table is called at a cursor inside of a call at this cursor. -/
theorem Descends.apart (h : Descends (some base) b n act) : ∀ x ∈ act.calls, ∀ y ∈ x.2.calls,
    y.1.table = x.1.table → y.1.start ≠ x.1.start := by
  intro x hx y hy table start
  obtain ⟨r, hr, -, -, inside⟩ := h.of_mem_calls x hx
  obtain ⟨q, hq, -, lower, -⟩ := inside.of_mem_calls y hy
  obtain rfl : q = r := Rule.table_injective (hq.symm.trans (table.trans hr))
  rw [start] at lower
  exact Nat.lt_irrefl _ lower

/-! ## Parsers without rules -/

theorem tag_ne_of_head (r : Rule) {name : String} (h : name.toList.head? = some 'c') :
    r.tag ≠ name := by
  rintro rfl
  cases r <;> cases h

/-- No rule occurs in the parser, and no site of it is named like one. -/
def Ruleless : Parser Char Rule → Prop
  | .leaf _ => True
  | .adapt _ p => Ruleless p
  | .andThen p q _ => Ruleless p ∧ Ruleless q
  | .orElse p q => Ruleless p ∧ Ruleless q
  | .repeated _ p => Ruleless p
  | .till p q => Ruleless p ∧ Ruleless q
  | .delimited p q => Ruleless p ∧ Ruleless q
  | .assign _ p => Ruleless p
  | .memo _ _ => False
  | .tally _ p => Ruleless p
  | .rule _ => False
  | .site name _ p => (∀ r : Rule, r.tag ≠ name) ∧ Ruleless p
  | .scope _ p => Ruleless p

namespace Ruleless

variable {grammar : Grammar Char Rule} {p q : Parser Char Rule}

theorem uniform {body : Memo → Option (Parser Char Rule)} (hp : Ruleless p) : p.Uniform body := by
  induction p with
  | leaf => trivial
  | andThen _ _ _ ih₁ ih₂ => exact ⟨ih₁ hp.1, ih₂ hp.2⟩
  | orElse _ _ ih₁ ih₂ => exact ⟨ih₁ hp.1, ih₂ hp.2⟩
  | till _ _ ih₁ ih₂ => exact ⟨ih₁ hp.1, ih₂ hp.2⟩
  | delimited _ _ ih₁ ih₂ => exact ⟨ih₁ hp.1, ih₂ hp.2⟩
  | memo => exact hp.elim
  | rule => exact hp.elim
  | site _ _ _ ih => exact ih hp.2
  | adapt _ _ ih | repeated _ _ ih | assign _ _ ih | tally _ _ ih | scope _ _ ih => exact ih hp

theorem unrolled (hp : Ruleless p) (hq : p.unrolled? grammar = some q) : Ruleless q := by
  cases p with
  | repeated limit p =>
    rw [unrolled?] at hq
    split at hq <;> cases hq
    · trivial
    · exact ⟨⟨hp, hp⟩, trivial⟩
  | till p q =>
    cases hq
    exact ⟨hp.2, hp.1, hp⟩
  | delimited p q =>
    cases hq
    exact ⟨⟨hp.1, hp.2, hp⟩, trivial⟩
  | rule => exact hp.elim
  | _ => cases hq

theorem descends {c : Cursor Char} {s t : Store Char} {r : Result Char}
    (h : p.Activates grammar c s r t act) (hp : Ruleless p) : Descends base? b n act := by
  induction h with
  | leaf => exact .quiet
  | andThenFail _ ih | orElseFirst _ ih => exact ih hp.1
  | andThen _ _ ih₁ ih₂ | orElse _ _ ih₁ ih₂ => exact .both (ih₁ hp.1) (ih₂ hp.2)
  | unrolled hq _ ih => exact ih (hp.unrolled hq)
  | memoAtEnd | memoHit | memoMiss => exact hp.elim
  | assign _ ih => exact .both (ih hp) .quiet
  | tally _ ih => exact .both .quiet (ih hp)
  | site _ ih => exact .site hp.1 (ih hp.2)
  | adapt _ ih | assignFail _ ih | scope _ ih => exact ih hp

theorem builtIn (name : String) (hp : Ruleless p) : Ruleless (builtIn name p) :=
  ⟨fun r => tag_ne_of_head r (by simp [libraryName]), hp⟩

theorem exactly (a : Char) : Ruleless (exactly a) := .builtIn _ trivial

theorem charIn (allowed : String) : Ruleless (charIn allowed) := .builtIn _ trivial

end Ruleless

theorem ruleless_blanks : Ruleless blanks := by
  have loop : Ruleless (many (satisfying CharClass.space.contains)) :=
    .builtIn _ (Ruleless.builtIn _ trivial)
  exact ⟨fun r => tag_ne_of_head r rfl, .builtIn _ loop⟩

theorem ruleless_run1 : Ruleless (run1 .digit) := by
  have digit : Ruleless (satisfying CharClass.digit.contains) := .builtIn _ trivial
  have loop : Ruleless (many1 (satisfying CharClass.digit.contains)) := .builtIn _ ⟨digit, digit⟩
  exact ⟨fun r => tag_ne_of_head r rfl, .builtIn _ loop⟩

/-! ## Rules inside of parsers -/

/-- Whatever the parser does at the cursor, from faithful tables, the rules inside of it are below
the level. It returns what it gives without state, and leaves faithful tables. -/
def Lowers (base? : Option Nat) (sources : Nat → Array Char) (n : Nat) (p : Parser Char Rule)
    (c : Cursor Char) : Prop :=
  c.buffer.CutFrom sources → ∀ {s r t act}, s.Faithful (rules base?) (tableBody base?) sources →
    p.Activates (rules base?) c s r t act →
      p.Gives (rules base?) c r ∧ Descends base? c.buffer n act ∧
        t.Faithful (rules base?) (tableBody base?) sources

theorem lowers_of_ruleless {sources : Nat → Array Char} {p : Parser Char Rule} {c : Cursor Char}
    (hp : Ruleless p) : Lowers base? sources n p c := by
  intro hc s r t act hs h
  obtain ⟨_, d, -⟩ := h.exists_runs .plain
  obtain ⟨ks, hr, ht⟩ := d.kept Store.faithful_kept (uniform_rules base?) hp.uniform hc [] hs
  exact ⟨⟨ks, hr⟩, Ruleless.descends h hp, ht⟩

namespace Lowers

variable {sources : Nat → Array Char} {p q s : Parser Char Rule} {c : Cursor Char}

theorem mono (h : Lowers base? sources n p c) (hle : n ≤ m) : Lowers base? sources m p c := by
  intro hc s r t act hs hact
  obtain ⟨hr, hd, ht⟩ := h hc hs hact
  exact ⟨hr, hd.mono hle, ht⟩

theorem adapt (a : Adapter Char) (h : Lowers base? sources n p c) :
    Lowers base? sources n (.adapt a p) c := by
  intro hc s r t act hs hact
  cases hact with
  | adapt inner =>
    obtain ⟨hr, hd, ht⟩ := h hc hs inner
    exact ⟨gives_adapt.mpr ⟨_, hr, rfl⟩, hd, ht⟩
  | unrolled hq _ => cases hq

theorem andThen {combine : Value Char → Value Char → Value Char} (hp : Lowers base? sources n p c)
    (hq : ∀ m, p.Gives (rules base?) c (.ok m) → Lowers base? sources n q m.stop) :
    Lowers base? sources n (.andThen p q combine) c := by
  intro hc s r t act hs hact
  cases hact with
  | andThenFail first =>
    obtain ⟨⟨ks, hr⟩, hd, ht⟩ := hp hc hs first
    exact ⟨⟨ks, .andThenFail hr⟩, hd, ht⟩
  | andThen first second =>
    obtain ⟨⟨ks, hm⟩, hd, ht⟩ := hp hc hs first
    have hbuffer := hm.buffer_stop _ rfl
    obtain ⟨⟨ks', hr⟩, hd', hu⟩ := hq _ ⟨ks, hm⟩ (hbuffer ▸ hc) ht second
    exact ⟨⟨_, .andThen hm hr⟩, .both hd (hbuffer ▸ hd'), hu⟩
  | unrolled hq _ => cases hq

theorem orElse (hp : Lowers base? sources n p c) (hq : Lowers base? sources n q c) :
    Lowers base? sources n (.orElse p q) c := by
  intro hc s r t act hs hact
  cases hact with
  | orElseFirst first =>
    obtain ⟨⟨ks, hr⟩, hd, ht⟩ := hp hc hs first
    exact ⟨⟨ks, .orElseFirst hr⟩, hd, ht⟩
  | orElse first second =>
    obtain ⟨⟨ks, hf⟩, hd, ht⟩ := hp hc hs first
    obtain ⟨⟨ks', hr⟩, hd', hu⟩ := hq hc ht second
    exact ⟨⟨_, .orElse hf hr⟩, .both hd hd', hu⟩
  | unrolled hq _ => cases hq

theorem builtIn (name : String) (h : Lowers base? sources n p c) :
    Lowers base? sources n (builtIn name p) c := by
  intro hc s r t act hs hact
  cases hact with
  | site inner =>
    obtain ⟨hr, hd, ht⟩ := h hc hs inner
    have other : ∀ r : Rule, r.tag ≠ libraryName ++ "::" ++ name :=
      fun r => tag_ne_of_head r (by simp [libraryName])
    exact ⟨gives_site.mpr hr, .site other hd, ht⟩
  | unrolled hq _ => cases hq

theorem choice (hp : Lowers base? sources n p c) (hq : Lowers base? sources n q c) :
    Lowers base? sources n (.choice (p, q)) c :=
  ((hp.orElse hq).adapt _).builtIn _

theorem afterBlanks (h : Lowers base? sources n p c.pastBlanks) :
    Lowers base? sources n (skipThen blanks p) c := by
  refine (lowers_of_ruleless ruleless_blanks).andThen fun m hm => ?_
  cases hm.unique ok_blanks
  exact h

theorem keepRight_blanks (h : Lowers base? sources n p c.pastBlanks) :
    Lowers base? sources n (.keepRight blanks p) c :=
  h.afterBlanks.builtIn _

/-- Three parts, each where the one before it stops. -/
theorem phrase (hp : Lowers base? sources n p c.pastBlanks)
    (hq : ∀ m, p.Gives (rules base?) c.pastBlanks (.ok m) →
      Lowers base? sources n q m.stop.pastBlanks)
    (hs : ∀ m m', p.Gives (rules base?) c.pastBlanks (.ok m) →
      q.Gives (rules base?) m.stop.pastBlanks (.ok m') →
      Lowers base? sources n s m'.stop.pastBlanks) :
    Lowers base? sources n (.phrase (p, q, s)) c := by
  refine hp.afterBlanks.andThen fun m hm => ?_
  have first := ok_afterBlanks.mp hm
  refine (hq m first).afterBlanks.andThen fun m' hm' => ?_
  have second := ok_afterBlanks.mp hm'
  exact (hs m m' first second).afterBlanks.andThen fun _ _ => lowers_of_ruleless trivial

theorem enclosedBy {opening closing : Char}
    (hp : c.pastBlanks.remaining.head? = some opening →
      Lowers base? sources n p c.pastBlanks.advance.pastBlanks) :
    Lowers base? sources n (.enclosedBy opening closing p) c := by
  have sign : ∀ (a : Char) (d : Cursor Char),
      Lowers base? sources n (.keepRight blanks (.exactly a)) d :=
    fun a d => (lowers_of_ruleless (.exactly a)).keepRight_blanks
  refine Lowers.builtIn _ (Lowers.andThen (Lowers.andThen (sign opening c) ?_) fun _ _ => sign _ _)
  rintro ⟨d, v⟩ hd
  obtain ⟨hhead, rfl, -⟩ := ok_exactly.mp (ok_keepRight_blanks.mp hd)
  exact (hp hhead).keepRight_blanks

theorem binary (hp : Lowers base? sources n p c.pastBlanks)
    (hq : ∀ e v, p.Gives (rules base?) c.pastBlanks (.ok ⟨e, v⟩) →
      Lowers base? sources n q e.pastBlanks)
    (hs : ∀ e v e' v', p.Gives (rules base?) c.pastBlanks (.ok ⟨e, v⟩) →
      q.Gives (rules base?) e.pastBlanks (.ok ⟨e', v'⟩) →
      Lowers base? sources n s e'.pastBlanks) :
    Lowers base? sources n (binary p q s) c := by
  refine Lowers.adapt _ (phrase (hp.builtIn _) ?_ ?_)
  · exact fun m hm => (hq _ _ (gives_site.mp hm)).builtIn _
  · exact fun m m' hm hm' => (hs _ _ _ _ (gives_site.mp hm) (gives_site.mp hm')).builtIn _

end Lowers

/-! ## Rules inside of rules -/

section

variable {sources : Nat → Array Char} {c : Cursor Char} {r : Rule}

/-- The rule, where it is called, has the level that bounds what is inside of it. -/
def Sinks (base? : Option Nat) (sources : Nat → Array Char) (r : Rule) (c : Cursor Char) : Prop :=
  Lowers base? sources (levelAt r c + 1) r.call c

theorem sinks_of_body (h : Lowers base? sources (levelAt r c) (body r) c) :
    Sinks base? sources r c := by
  intro hc s out t act hs hact
  have lower : levelAt r c < levelAt r c + 1 := Nat.lt_succ_self _
  cases hact with
  | unrolled hq inner =>
    cases hq
    cases inner with
    | unrolled hq _ => cases hq
    | site inner =>
      cases base? with
      | none =>
        obtain ⟨hr, hd, ht⟩ := h hc hs inner
        exact ⟨gives_call.mpr hr, .plain rfl rfl lower hd, ht⟩
      | some base =>
        have hbody := tableBody_table base r
        cases inner with
        | unrolled hq _ => cases hq
        | memoAtEnd hplace inner =>
          obtain ⟨hr, hd, ht⟩ := h hc hs inner
          exact ⟨gives_call.mpr hr, .memoized rfl rfl rfl rfl lower hd, ht⟩
        | memoHit hplace found =>
          -- a faithful table answers with what the rule gives, and nothing happens inside
          have hr := hs _ _ _ found _ hbody c hc hplace
          exact ⟨gives_call.mpr hr, .memoized rfl rfl rfl rfl lower .quiet, (hs.opened _).hit _⟩
        | memoMiss hplace missing inner =>
          obtain ⟨⟨ks, hr⟩, hd, ht⟩ := h hc (hs.opened _) inner
          exact ⟨gives_call.mpr ⟨ks, hr⟩, .memoized rfl rfl rfl rfl lower hd,
            Store.Faithful.entered ht hbody hc hplace hr⟩

theorem sinks_number (c : Cursor Char) : Sinks base? sources .number c :=
  sinks_of_body (lowers_of_ruleless (.builtIn _ ruleless_run1))

theorem sinks_choice {q s : Rule} (hr : body r = .choice (q.call, s.call))
    (hq : q.height < r.height) (hs : s.height < r.height) (first : Sinks base? sources q c)
    (second : Sinks base? sources s c) : Sinks base? sources r c := by
  apply sinks_of_body
  rw [hr]
  have left := first.mono (levelAt_lt_of_height hq (Nat.le_refl _))
  have right := second.mono (levelAt_lt_of_height hs (Nat.le_refl _))
  exact left.choice right

theorem sinks_parens
    (ih : ∀ e : Cursor Char, e.remaining.length < c.remaining.length →
      Sinks base? sources .expression e) : Sinks base? sources .parens c := by
  apply sinks_of_body
  refine Lowers.enclosedBy fun hopening => ?_
  have shorter := length_behind_sign hopening
  exact (ih _ shorter).mono (levelAt_lt_of_length shorter)

namespace Level

variable {operand operator : Rule} {signs : List Char} (hr : Level r operand operator signs)
include hr

theorem sinks_operator (c : Cursor Char) : Sinks base? sources operator c := by
  apply sinks_of_body
  rw [hr.body_operator]
  exact lowers_of_ruleless (.charIn _)

/-- An operation stands above its operand and its operator, and its right side begins behind a
sign. -/
theorem sinks
    (hoperand : ∀ e : Cursor Char, e.remaining.length ≤ c.remaining.length →
      Sinks base? sources operand e)
    (ih : ∀ e : Cursor Char, e.remaining.length < c.remaining.length → Sinks base? sources r e) :
    Sinks base? sources r c := by
  have operandBelow : operand.height < r.height := by
    rw [hr.height_eq]
    exact Nat.lt_succ_self _
  have operatorBelow : operator.height < r.height := by
    rw [hr.height_eq, hr.height_operator]
    exact Nat.succ_pos _
  have operands : ∀ e : Cursor Char, e.remaining.length ≤ c.remaining.length →
      Lowers base? sources (levelAt r c) operand.call e :=
    fun e he => (hoperand e he).mono (levelAt_lt_of_height operandBelow he)
  have left : ∀ e v, operand.call.Gives (rules base?) c.pastBlanks (.ok ⟨e, v⟩) →
      e.remaining.length ≤ c.remaining.length := fun e v hlhs =>
    Nat.le_trans (le_of_gives hr.operand_mem_treeRules hlhs).2 (length_pastBlanks_le c)
  apply sinks_of_body
  rw [hr.body_eq]
  refine (Lowers.binary (operands _ (length_pastBlanks_le c)) ?_ ?_).choice
    (operands c (Nat.le_refl _))
  · intro e v hlhs
    have skipped := Nat.le_trans (length_pastBlanks_le e) (left e v hlhs)
    exact (hr.sinks_operator _).mono (levelAt_lt_of_height operatorBelow skipped)
  · intro e v e' v' hlhs hsign
    obtain ⟨op, -, hhead, rfl, -⟩ := hr.ok_operator.mp hsign
    have shorter := Nat.lt_of_lt_of_le (length_behind_sign hhead) (left e v hlhs)
    exact (ih _ shorter).mono (levelAt_lt_of_length shorter)

end Level

/-- The levels of the rules inside of a rule fall, with tables and without. -/
theorem sinks_call (base? : Option Nat) (sources : Nat → Array Char) (r : Rule) (c : Cursor Char) :
    Sinks base? sources r c := by
  have tree : ∀ r ∈ treeRules, ∀ c, Sinks base? sources r c :=
    rule_induction sinks_number (fun _ => sinks_parens)
      (fun _ number parens => sinks_choice rfl (by decide) (by decide) number parens)
      (fun hr _ => hr.sinks)
      (fun _ parens sum => sinks_choice rfl (by decide) (by decide) parens sum)
  cases r with
  | sumOperator => exact Level.sum.sinks_operator c
  | productOperator => exact Level.product.sinks_operator c
  | _ => exact tree _ (by decide) c

end

/-! ## Calls on one buffer -/

/-- A buffer by itself is cut from some source. -/
theorem exists_cutFrom (b : Buffer Char) : ∃ sources, b.CutFrom sources := by
  refine ⟨fun _ => Array.replicate b.first default ++ b.tokens, ?_⟩
  rw [Buffer.CutFrom, Array.extract_append]
  simp [Buffer.size]

theorem levelAt_lt (r : Rule) (c : Cursor Char) : levelAt r c < 128 * (c.buffer.size + 2) := by
  have hlength : c.remaining.length ≤ c.buffer.size := by
    rw [Cursor.length_remaining]
    exact Nat.sub_le _ _
  have hheight := r.height_le
  simp only [levelAt, levels]
  omega

/-- A table misses at no more places than the buffer has characters. -/
theorem Descends.length_missed_le (h : Descends (some base) b n act) (memo : Memo)
    (nodup : (act.missed memo).Nodup) : (act.missed memo).length ≤ b.size := by
  have places : act.missed memo ⊆
      (List.range b.size).map fun i => ⟨b.source, b.first, b.size, i⟩ := by
    intro place hplace
    obtain ⟨x, hx, -, hc⟩ := Activity.mem_missed hplace
    obtain ⟨r, -, rfl, -, -⟩ := h.of_mem_calls x hx
    obtain ⟨hlt, rfl⟩ := Cursor.place?_eq_some.mp hc
    exact List.mem_map.mpr ⟨_, List.mem_range.mpr hlt, rfl⟩
  have length := (List.subperm_of_subset nodup places).length_le
  rwa [List.length_map, List.length_range] at length

namespace Query

variable {sources : Nat → Array Char} {queries : List Query} {s t : Store Char}
  {results : List (Result Char)}

theorem descends (cut : b.CutFrom sources) (same : ∀ q ∈ queries, q.start.buffer = b)
    (hs : s.Faithful (rules base?) (tableBody base?) sources)
    (h : Job.ActivateAll (rules base?) (queries.map job) s results t act) :
    Descends base? b (128 * (b.size + 2)) act := by
  induction queries generalizing s results act with
  | nil =>
    cases h
    exact .quiet
  | cons q queries ih =>
    obtain ⟨rfl, same⟩ := List.forall_mem_cons.mp same
    cases h with
    | cons first rest =>
      obtain ⟨-, hd, ht⟩ := sinks_call base? sources q.rule q.start cut hs first
      exact .both (hd.mono (levelAt_lt q.rule q.start)) (ih same ht rest)

/-- Calls of the rules of one grammar with tables, which are empty at first, in any order and at any
cursors of one buffer: they all return, and each table holds an answer for each of its misses, which
are no more than the buffer has characters. Each table misses at most once at each place, and no
rule is called at a cursor at which it is still going on. -/
theorem misses_bounded (same : ∀ q ∈ queries, q.start.buffer = b)
    (fresh : ∀ r : Rule, s.table (r.table base) = .empty) :
    (∃ fuel, (runAll (some base) fuel queries s).isSome) ∧
      ∀ fuel results t signals,
        runAll (some base) fuel queries s = some (results, t, signals) →
        (∀ r : Rule, (t.table (r.table base)).misses = (t.table (r.table base)).size ∧
          (t.table (r.table base)).size ≤ b.size) ∧
        ∃ act, Job.ActivateAll (rules (some base)) (queries.map job) s results t act ∧
          act.uses = signals.filterMap Signal.use? ∧
          (∀ r : Rule, (act.missed (r.table base)).Nodup) ∧
          ∀ x ∈ act.calls, ∀ y ∈ x.2.calls,
            y.1.table = x.1.table → y.1.start ≠ x.1.start := by
  obtain ⟨sources, cut⟩ := exists_cutFrom b
  have unused : Unused (some base) s := by
    intro _ hbase r place
    cases hbase
    rw [fresh]
    rfl
  refine ⟨exists_runAll (fun q hq => same q hq ▸ cut) unused, ?_⟩
  intro fuel results t signals h
  obtain ⟨act, happened, uses⟩ := Job.exists_activateAll h
  have descends := Query.descends cut same (faithful_of_unused unused) happened
  have plays := happened.plays
  have apart := descends.apart
  have once : ∀ r : Rule, (act.missed (r.table base)).Nodup := by
    intro r
    refine (plays.missed_once (r.table base) fun x hx y hy table place hx' hy' => ?_).1
    obtain ⟨_, -, hbuffer, -, inside⟩ := descends.of_mem_calls x hx
    obtain ⟨_, -, hbuffer', -, -⟩ := inside.of_mem_calls y hy
    -- all calls are on the one buffer, so those at one place are at one cursor
    have cut' : y.1.start.buffer.CutFrom sources := hbuffer' ▸ cut
    exact apart x hx y hy table (Cursor.eq_of_place cut' (hbuffer ▸ cut) hy' hx')
  refine ⟨fun r => ?_, act, happened, uses, once, apart⟩
  have size := plays.size_eq (fresh r)
  have misses := congrArg Prod.snd (plays.counts_eq (fresh r))
  change (t.table (r.table base)).misses = _ at misses
  rw [(once r).dedup] at size
  rw [size, misses]
  exact ⟨(Activity.length_missed act _).symm, descends.length_missed_le _ (once r)⟩

/-! ### Three calls on one text -/

/-- An expression, a product inside of it, and the sum that the expression is. -/
def queriesOnOneText : List Query :=
  let start := startOf "(2) + 3*4"
  [⟨.plain, .expression, start⟩, ⟨.plain, .product, { start with offset := 5 }⟩,
    ⟨.plain, .sum, start⟩]

theorem misses_bounded_of_one_text :
    ∃ results t signals, runAll (some 0) 300 queriesOnOneText ∅ = some (results, t, signals) ∧
      (t.table (Rule.term.table 0)).hits = 4 ∧ (t.table (Rule.term.table 0)).misses = 4 ∧
      ∀ r : Rule, (t.table (r.table 0)).misses = (t.table (r.table 0)).size ∧
        (t.table (r.table 0)).size ≤ 9 := by
  have returns : ((runAll (some 0) 300 queriesOnOneText ∅).map fun out =>
      (out.2.1.table (Rule.term.table 0)).counts) = some (4, 4) := by
    decide +kernel
  obtain ⟨⟨results, t, signals⟩, h, counts⟩ := Option.map_eq_some_iff.mp returns
  have same : ∀ q ∈ queriesOnOneText, q.start.buffer = (startOf "(2) + 3*4").buffer := by
    simp [queriesOnOneText]
  have bounded := (misses_bounded same (fun _ => rfl)).2 _ _ _ _ h
  exact ⟨results, t, signals, h, congrArg Prod.fst counts, congrArg Prod.snd counts, bounded.1⟩

end Query

end Packrat.Arithmetic
