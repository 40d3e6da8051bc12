/-!
# Registries

Finite maps that keep their keys in the order in which they were first entered.

* `find?_insert`: a look-up after an insertion.
* `keys_insert`: an insertion keeps the keys and their order, and enters a new key last.
* `mem_keys_iff`: the keys are those under which a look-up finds something.
-/

namespace Packrat

/-- A finite map from `κ` to `α`, as the list of its entries. -/
structure Registry (κ α : Type) where
  entries : List (κ × α)
deriving Repr, DecidableEq

namespace Registry

variable {κ α : Type}

/-- The registry without entries. -/
def empty : Registry κ α := ⟨[]⟩

instance : EmptyCollection (Registry κ α) := ⟨empty⟩
instance : Inhabited (Registry κ α) := ⟨empty⟩

/-- The number of entries. -/
def size (r : Registry κ α) : Nat := r.entries.length

/-- The keys, in the order in which they were first entered. -/
def keys (r : Registry κ α) : List κ := r.entries.map Prod.fst

variable [DecidableEq κ]

/-- The entry of `k` in a list of entries. -/
def findIn? (k : κ) : List (κ × α) → Option α
  | [] => none
  | (k', a) :: rest => if k' = k then some a else findIn? k rest

/-- What is entered under `k`. -/
def find? (r : Registry κ α) (k : κ) : Option α := findIn? k r.entries

/-- Enters `a` under `k` in a list of entries: in place of the entry of `k`, else at the end. -/
def insertIn (k : κ) (a : α) : List (κ × α) → List (κ × α)
  | [] => [(k, a)]
  | (k', a') :: rest => if k' = k then (k, a) :: rest else (k', a') :: insertIn k a rest

/-- Enters `a` under `k`. -/
def insert (r : Registry κ α) (k : κ) (a : α) : Registry κ α := ⟨insertIn k a r.entries⟩

@[simp] theorem find?_empty (k : κ) : (∅ : Registry κ α).find? k = none := rfl

theorem findIn?_insertIn (k k' : κ) (a : α) (entries : List (κ × α)) :
    findIn? k' (insertIn k a entries) = if k = k' then some a else findIn? k' entries := by
  induction entries with
  | nil => rfl
  | cons e rest ih =>
    obtain ⟨k₀, a₀⟩ := e
    by_cases here : k₀ = k
    · subst here
      simp only [insertIn, findIn?, if_true]
      split <;> rfl
    · simp only [insertIn, findIn?, here, if_false, ih]
      by_cases same : k = k'
      · subst same
        simp [here]
      · simp [same]

/-- A look-up finds what was entered last under its key. -/
theorem find?_insert (r : Registry κ α) (k k' : κ) (a : α) :
    (r.insert k a).find? k' = if k = k' then some a else r.find? k' :=
  findIn?_insertIn k k' a r.entries

@[simp] theorem find?_insert_self (r : Registry κ α) (k : κ) (a : α) :
    (r.insert k a).find? k = some a := by simp [find?_insert]

theorem find?_insert_of_ne (r : Registry κ α) {k k' : κ} (h : k ≠ k') (a : α) :
    (r.insert k a).find? k' = r.find? k' := by simp [find?_insert, h]

theorem keysOf_insertIn (k : κ) (a : α) (entries : List (κ × α)) :
    (insertIn k a entries).map Prod.fst =
      if k ∈ entries.map Prod.fst then entries.map Prod.fst else entries.map Prod.fst ++ [k] := by
  induction entries with
  | nil => rfl
  | cons e rest ih =>
    obtain ⟨k₀, a₀⟩ := e
    by_cases here : k₀ = k
    · subst here
      simp [insertIn]
    · have : k ≠ k₀ := fun h => here h.symm
      simp only [insertIn, here, if_false, List.map_cons, ih, List.mem_cons, this, false_or]
      split <;> simp

/-- An insertion keeps the keys and their order, and enters a new key last. -/
theorem keys_insert (r : Registry κ α) (k : κ) (a : α) :
    (r.insert k a).keys = if k ∈ r.keys then r.keys else r.keys ++ [k] :=
  keysOf_insertIn k a r.entries

theorem mem_keysOf_iff (k : κ) (entries : List (κ × α)) :
    k ∈ entries.map Prod.fst ↔ (findIn? k entries).isSome := by
  induction entries with
  | nil => simp [findIn?]
  | cons e rest ih =>
    obtain ⟨k₀, a₀⟩ := e
    by_cases here : k₀ = k
    · simp [findIn?, here]
    · have : k ≠ k₀ := fun h => here h.symm
      simp only [List.map_cons, List.mem_cons, this, false_or, ih, findIn?, here, if_false]

/-- The keys are those under which something is entered. -/
theorem mem_keys_iff {r : Registry κ α} {k : κ} : k ∈ r.keys ↔ (r.find? k).isSome :=
  mem_keysOf_iff k r.entries

theorem mem_keys_insert {r : Registry κ α} {k k' : κ} {a : α} :
    k' ∈ (r.insert k a).keys ↔ k' ∈ r.keys ∨ k' = k := by
  rw [keys_insert]
  split
  · rename_i known
    exact ⟨.inl, fun h => h.elim id fun same => same ▸ known⟩
  · simp

/-- No key is entered twice. -/
theorem nodup_keys_insert {r : Registry κ α} (h : r.keys.Nodup) (k : κ) (a : α) :
    (r.insert k a).keys.Nodup := by
  rw [keys_insert]
  split
  · exact h
  · rename_i absent
    rw [List.nodup_append]
    refine ⟨h, by simp, fun k' hk' k'' hk'' same => absent ?_⟩
    cases List.mem_singleton.mp hk''
    exact same ▸ hk'

theorem size_insert_of_none {r : Registry κ α} {k : κ} (h : r.find? k = none) (a : α) :
    (r.insert k a).size = r.size + 1 := by
  have hk : k ∉ r.keys := by simp [mem_keys_iff, h]
  have hkeys := congrArg List.length (r.keys_insert k a)
  rw [if_neg hk] at hkeys
  simpa [keys, size] using hkeys

end Registry

end Packrat
