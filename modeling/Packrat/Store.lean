import Packrat.Signal

/-!
# Stores

The state that runs of parsers share: memo tables, the slots that parsers fill, and counters of how
often a parser was run.

* `Store.consult`: asks a memo table for the answer at a place.
* `Store.enter`: enters an answer into a memo table.
-/

namespace Packrat

/-- Memo tables, slots and counters, each under its name. -/
structure Store (τ : Type) where
  tables : Registry Memo (Table τ)
  slots : Registry String (Value τ)
  counters : Registry String Nat

namespace Store

variable {τ : Type}

/-- The store in which nothing happened yet. -/
def empty : Store τ := ⟨∅, ∅, ∅⟩

instance : EmptyCollection (Store τ) := ⟨empty⟩
instance : Inhabited (Store τ) := ⟨empty⟩

/-- The memo table of that name. -/
def table (s : Store τ) (memo : Memo) : Table τ := (s.tables.find? memo).getD .empty

/-- The store with another table under that name. -/
def setTable (s : Store τ) (memo : Memo) (t : Table τ) : Store τ :=
  { s with tables := s.tables.insert memo t }

/-- What a slot holds, if it was ever filled. -/
def slot? (s : Store τ) (name : String) : Option (Value τ) := s.slots.find? name

/-- The store with a slot filled. -/
def setSlot (s : Store τ) (name : String) (v : Value τ) : Store τ :=
  { s with slots := s.slots.insert name v }

/-- How often a counter was raised. -/
def counter (s : Store τ) (name : String) : Nat := (s.counters.find? name).getD 0

/-- The store with a counter raised by one. -/
def raise (s : Store τ) (name : String) : Store τ :=
  { s with counters := s.counters.insert name (s.counter name + 1) }

/-- Opens a memo table on its first use. -/
def openTable (s : Store τ) (memo : Memo) : Store τ × List (Signal τ) :=
  if (s.table memo).opened then (s, [])
  else (s.setTable memo (s.table memo).opening, [.memo memo .created])

/-- Asks a memo table for the answer at a place, and counts a hit if there is one. -/
def consult (s : Store τ) (memo : Memo) (place : Place) :
    Option (Result τ) × Store τ × List (Signal τ) :=
  let (s, created) := s.openTable memo
  match (s.table memo).find? place with
  | some answer =>
    (some answer, s.setTable memo (s.table memo).hit, created ++ [.memo memo (.hit place.offset)])
  | none => (none, s, created)

/-- Enters an answer into a memo table, and counts a miss. -/
def enter (s : Store τ) (memo : Memo) (place : Place) (answer : Result τ) :
    Store τ × List (Signal τ) :=
  (s.setTable memo ((s.table memo).remember place answer), [.memo memo (.miss place.offset)])

@[simp] theorem table_setTable (s : Store τ) (memo memo' : Memo) (t : Table τ) :
    (s.setTable memo t).table memo' = if memo = memo' then t else s.table memo' := by
  simp only [table, setTable, Registry.find?_insert]
  split <;> rfl

@[simp] theorem table_setSlot (s : Store τ) (name : String) (v : Value τ) (memo : Memo) :
    (s.setSlot name v).table memo = s.table memo := rfl

@[simp] theorem table_raise (s : Store τ) (name : String) (memo : Memo) :
    (s.raise name).table memo = s.table memo := rfl

@[simp] theorem slot?_setTable (s : Store τ) (memo : Memo) (t : Table τ) (name : String) :
    (s.setTable memo t).slot? name = s.slot? name := rfl

@[simp] theorem slot?_raise (s : Store τ) (name name' : String) :
    (s.raise name).slot? name' = s.slot? name' := rfl

@[simp] theorem slot?_setSlot (s : Store τ) (name name' : String) (v : Value τ) :
    (s.setSlot name v).slot? name' = if name = name' then some v else s.slot? name' :=
  Registry.find?_insert s.slots name name' v

@[simp] theorem counter_raise (s : Store τ) (name name' : String) :
    (s.raise name).counter name' = s.counter name' + if name = name' then 1 else 0 := by
  by_cases same : name = name'
  · subst same
    simp [counter, raise]
  · simp [counter, raise, Registry.find?_insert_of_ne _ same, same]

end Store

end Packrat
