import Packrat.Run

/-!
# More fuel changes no outcome

Fuel bounds the depth of a run and has no other effect. A run that has an outcome has the same one
with more fuel, so whether a parser returns, and what, does not depend on the fuel it was given.

* `Run.Below`: every outcome of one computation is an outcome of another. It passes through binds.
* `Parser.run_below`: a run lies below the run with more fuel.
* `Parser.run_unique`: two runs that have outcomes have one outcome.
* `Parser.repeated_matches`, `Parser.delimited_matches`: loops that always match.
-/

namespace Packrat

variable {τ ρ α β : Type}

/-! ## Computations one after another -/

namespace Run

@[simp] theorem pure_apply (a : α) (s : Store τ) :
    (Pure.pure a : Run τ α) s = some (a, s, []) := rfl

theorem emit_apply (signal : Signal τ) (s : Store τ) : emit signal s = some ((), s, [signal]) := rfl

theorem modify_apply (f : Store τ → Store τ) (s : Store τ) : modify f s = some ((), f s, []) := rfl

theorem enter_apply (memo : Memo) (place : Place) (answer : Result τ) (s : Store τ) :
    enter memo place answer s = some ((), s.enter memo place answer) := rfl

theorem bind_apply {x : Run τ α} {s t : Store τ} {a : α} {before : List (Signal τ)}
    (hx : x s = some (a, t, before)) (f : α → Run τ β) :
    (x >>= f) s = (f a t).map fun out => (out.1, out.2.1, before ++ out.2.2) := by
  change Run.bind x f s = _
  cases hf : f a t <;> simp [Run.bind, hx, hf]

/-- The outcome of a bind comes from an outcome of its first part. -/
theorem of_bind {x : Run τ α} {f : α → Run τ β} {s u : Store τ} {b : β}
    {signals : List (Signal τ)} (h : (x >>= f) s = some (b, u, signals)) :
    ∃ a t before after, x s = some (a, t, before) ∧ f a t = some (b, u, after) ∧
      signals = before ++ after := by
  cases hx : x s with
  | none =>
    change Run.bind x f s = _ at h
    simp [Run.bind, hx] at h
  | some out =>
    obtain ⟨a, t, before⟩ := out
    rw [bind_apply hx, Option.map_eq_some_iff] at h
    obtain ⟨⟨b', u', after⟩, hf, he⟩ := h
    cases he
    exact ⟨a, t, before, after, rfl, hf, rfl⟩

theorem id_map_run (x : Run τ α) : id <$> x = x := by
  funext s
  change Run.bind x (fun a => Run.pure (id a)) s = x s
  cases hx : x s <;> simp [Run.bind, Run.pure, hx]

theorem pure_bind_run (a : α) (f : α → Run τ β) : Pure.pure a >>= f = f a := by
  funext s
  rw [bind_apply (pure_apply a s)]
  cases f a s <;> rfl

theorem bind_assoc_run {γ : Type} (x : Run τ α) (f : α → Run τ β) (g : β → Run τ γ) :
    x >>= f >>= g = x >>= fun a => f a >>= g := by
  funext s
  change Run.bind (Run.bind x f) g s = Run.bind x (fun a => Run.bind (f a) g) s
  cases hx : x s with
  | none => simp [Run.bind, hx]
  | some out =>
    cases hf : f out.1 out.2.1 with
    | none => simp [Run.bind, hx, hf]
    | some out' => cases hg : g out'.1 out'.2.1 <;> simp [Run.bind, hx, hf, hg]

instance : LawfulMonad (Run τ) := .mk' (Run τ) id_map_run pure_bind_run bind_assoc_run

/-! ## Postconditions and comparison -/

/-- Every result of `x` satisfies `P`. -/
def Always (x : Run τ α) (P : α → Prop) : Prop :=
  ∀ s a t signals, x s = some (a, t, signals) → P a

theorem always_pure {P : α → Prop} {a : α} (h : P a) : (Pure.pure a : Run τ α).Always P := by
  intro s b t signals he
  cases he
  exact h

theorem Always.bind {x : Run τ α} {f : α → Run τ β} {Q : α → Prop} {P : β → Prop}
    (hx : x.Always Q) (hf : ∀ a, Q a → (f a).Always P) : (x >>= f).Always P := by
  intro s b u signals h
  obtain ⟨a, t, before, after, hxs, hfa, -⟩ := of_bind h
  exact hf a (hx _ _ _ _ hxs) _ _ _ _ hfa

theorem always_true (x : Run τ α) : x.Always fun _ => True := fun _ _ _ _ _ => trivial

/-- Every outcome of `x` is one of `y`. -/
def Below (x y : Run τ α) : Prop := ∀ s out, x s = some out → y s = some out

theorem below_refl (x : Run τ α) : Below x x := fun _ _ h => h

theorem Below.trans {x y z : Run τ α} (hxy : Below x y) (hyz : Below y z) : Below x z :=
  fun s out h => hyz s out (hxy s out h)

/-- The continuations need only be compared at results that the first part can have. -/
theorem Below.bind_of {x y : Run τ α} {f g : α → Run τ β} {P : α → Prop} (hx : Below x y)
    (hP : x.Always P) (hf : ∀ a, P a → Below (f a) (g a)) : Below (x >>= f) (y >>= g) := by
  rintro s ⟨b, u, signals⟩ h
  obtain ⟨a, t, before, after, hxs, hfa, rfl⟩ := of_bind h
  rw [bind_apply (hx s _ hxs), hf a (hP _ _ _ _ hxs) t _ hfa]
  rfl

theorem Below.bind {x y : Run τ α} {f g : α → Run τ β} (hx : Below x y)
    (hf : ∀ a, Below (f a) (g a)) : Below (x >>= f) (y >>= g) :=
  hx.bind_of (always_true x) fun a _ => hf a

end Run

/-! ## Fuel -/

namespace Parser

theorem run_below_succ (grammar : Grammar τ ρ) (fuel : Nat) (ctx : Context) (p : Parser τ ρ)
    (c : Cursor τ) : (run grammar fuel ctx p c).Below (run grammar (fuel + 1) ctx p c) := by
  induction fuel generalizing ctx p c with
  | zero =>
    intro s out h
    cases h
  | succ fuel ih =>
    cases p with
    | leaf l => exact Run.below_refl _
    | adapt a p => exact (ih ctx p c).bind fun _ => Run.below_refl _
    | andThen p q combine =>
      refine (ih ctx p c).bind fun r => ?_
      cases r with
      | error f => exact Run.below_refl _
      | ok m => exact (ih ctx q m.stop).bind fun _ => Run.below_refl _
    | orElse p q =>
      refine (ih ctx p c).bind fun r => ?_
      cases r with
      | error f => exact ih ctx q c
      | ok m => exact Run.below_refl _
    | repeated limit p =>
      rw [run, run]
      split
      · exact Run.below_refl _
      · refine (ih ctx p c).bind fun r => ?_
        cases r with
        | error f => exact Run.below_refl _
        | ok m => exact (ih ctx _ m.stop).bind fun _ => Run.below_refl _
    | till body stop =>
      refine (ih ctx stop c).bind fun r => ?_
      cases r with
      | ok m => exact Run.below_refl _
      | error f =>
        refine (ih ctx body c).bind fun r => ?_
        cases r with
        | error f => exact Run.below_refl _
        | ok m => exact (ih ctx _ m.stop).bind fun _ => Run.below_refl _
    | delimited delimiter item =>
      refine (ih ctx delimiter c).bind fun r => ?_
      cases r with
      | error f => exact Run.below_refl _
      | ok m =>
        refine (ih ctx item m.stop).bind fun r => ?_
        cases r with
        | error f => exact Run.below_refl _
        | ok m => exact (ih ctx _ m.stop).bind fun _ => Run.below_refl _
    | assign slot p => exact (ih ctx p c).bind fun _ => Run.below_refl _
    | memo table p =>
      rw [run, run]
      split
      · exact ih ctx p c
      · refine (Run.below_refl _).bind fun found => ?_
        cases found with
        | some answer => exact Run.below_refl _
        | none => exact (ih ctx p c).bind fun _ => Run.below_refl _
    | tally counter p => exact (Run.below_refl _).bind fun _ => ih ctx p c
    | rule name => exact ih ctx (grammar name) c
    | site name report p =>
      rw [run, run]
      split
      · exact (Run.below_refl _).bind fun _ => (ih ctx p c).bind fun _ => Run.below_refl _
      · exact ih ctx p c
    | scope on p => exact ih (ctx.inScope on) p c

/-- A run has all outcomes that it has with less fuel. -/
theorem run_below (grammar : Grammar τ ρ) {fuel fuel' : Nat} (hle : fuel ≤ fuel') (ctx : Context)
    (p : Parser τ ρ) (c : Cursor τ) :
    (run grammar fuel ctx p c).Below (run grammar fuel' ctx p c) := by
  induction hle with
  | refl => exact Run.below_refl _
  | step _ ih => exact ih.trans (run_below_succ grammar _ ctx p c)

/-- Two amounts of fuel that are both enough give one outcome. -/
theorem run_unique {grammar : Grammar τ ρ} {fuel fuel' : Nat} {ctx : Context} {p : Parser τ ρ}
    {c : Cursor τ} {s : Store τ} {out out' : Result τ × Store τ × List (Signal τ)}
    (h : run grammar fuel ctx p c s = some out) (h' : run grammar fuel' ctx p c s = some out') :
    out = out' := by
  have first := run_below grammar (Nat.le_max_left fuel fuel') ctx p c s out h
  have second := run_below grammar (Nat.le_max_right fuel fuel') ctx p c s out' h'
  exact Option.some.inj (first.symm.trans second)

/-! ## The run of a node -/

section Nodes

variable (grammar : Grammar τ ρ) (fuel : Nat) (ctx : Context) (c : Cursor τ)

theorem run_adapt (a : Adapter τ) (p : Parser τ ρ) :
    run grammar (fuel + 1) ctx (.adapt a p) c =
      run grammar fuel ctx p c >>= fun r => pure (a.apply c r) := rfl

theorem run_andThen (p q : Parser τ ρ) (combine : Value τ → Value τ → Value τ) :
    run grammar (fuel + 1) ctx (.andThen p q combine) c =
      run grammar fuel ctx p c >>= fun
        | .error f => pure (.error f)
        | .ok first => run grammar fuel ctx q first.stop >>= fun r =>
          pure (r.map fun second => ⟨second.stop, combine first.value second.value⟩) := by
  refine bind_congr fun r => ?_
  cases r with
  | error f => rfl
  | ok first =>
    refine bind_congr fun r => ?_
    cases r <;> rfl

theorem run_orElse (p q : Parser τ ρ) :
    run grammar (fuel + 1) ctx (.orElse p q) c =
      run grammar fuel ctx p c >>= fun
        | .error _ => run grammar fuel ctx q c
        | .ok m => pure (.ok m) := rfl

theorem run_repeated (limit : Option Nat) (p : Parser τ ρ) :
    run grammar (fuel + 1) ctx (.repeated limit p) c =
      if limit = some 0 then pure (.ok ⟨c, .list []⟩)
      else run grammar fuel ctx p c >>= fun
        | .error _ => pure (.ok ⟨c, .list []⟩)
        | .ok first =>
          run grammar fuel ctx (.repeated (limit.map (· - 1)) p) first.stop >>= fun r =>
            pure (r.map fun rest => ⟨rest.stop, first.value.cons rest.value⟩) := by
  rw [run]
  split
  · rfl
  · refine bind_congr fun r => ?_
    cases r with
    | error f => rfl
    | ok first =>
      refine bind_congr fun r => ?_
      cases r <;> rfl

theorem run_till (body stop : Parser τ ρ) :
    run grammar (fuel + 1) ctx (.till body stop) c =
      run grammar fuel ctx stop c >>= fun
        | .ok last => pure (.ok ⟨last.stop, .pair (.list []) last.value⟩)
        | .error _ => run grammar fuel ctx body c >>= fun
          | .error f => pure (.error f)
          | .ok first => run grammar fuel ctx (.till body stop) first.stop >>= fun r =>
            pure (r.map fun rest => ⟨rest.stop, first.value.consLeft rest.value⟩) := by
  refine bind_congr fun r => ?_
  cases r with
  | ok last => rfl
  | error f =>
    refine bind_congr fun r => ?_
    cases r with
    | error f => rfl
    | ok first =>
      refine bind_congr fun r => ?_
      cases r <;> rfl

theorem run_delimited (delimiter item : Parser τ ρ) :
    run grammar (fuel + 1) ctx (.delimited delimiter item) c =
      run grammar fuel ctx delimiter c >>= fun
        | .error _ => pure (.ok ⟨c, .list []⟩)
        | .ok between => run grammar fuel ctx item between.stop >>= fun
          | .error _ => pure (.ok ⟨c, .list []⟩)
          | .ok first => run grammar fuel ctx (.delimited delimiter item) first.stop >>= fun r =>
            pure (r.map fun rest => ⟨rest.stop, first.value.cons rest.value⟩) := by
  refine bind_congr fun r => ?_
  cases r with
  | error f => rfl
  | ok between =>
    refine bind_congr fun r => ?_
    cases r with
    | error f => rfl
    | ok first =>
      refine bind_congr fun r => ?_
      cases r <;> rfl

end Nodes

/-! ## Loops that always match -/

theorem repeated_matches (grammar : Grammar τ ρ) (fuel : Nat) (ctx : Context) (limit : Option Nat)
    (p : Parser τ ρ) (c : Cursor τ) :
    (run grammar fuel ctx (.repeated limit p) c).Always fun r => ∃ m, r = .ok m := by
  induction fuel generalizing limit c with
  | zero =>
    intro s r t signals h
    cases h
  | succ fuel ih =>
    rw [run]
    split
    · exact Run.always_pure ⟨_, rfl⟩
    · refine (Run.always_true _).bind fun r _ => ?_
      cases r with
      | error f => exact Run.always_pure ⟨_, rfl⟩
      | ok m =>
        refine (ih _ m.stop).bind fun r hr => ?_
        obtain ⟨m', rfl⟩ := hr
        exact Run.always_pure ⟨_, rfl⟩

theorem delimited_matches (grammar : Grammar τ ρ) (fuel : Nat) (ctx : Context)
    (delimiter item : Parser τ ρ) (c : Cursor τ) :
    (run grammar fuel ctx (.delimited delimiter item) c).Always fun r => ∃ m, r = .ok m := by
  induction fuel generalizing c with
  | zero =>
    intro s r t signals h
    cases h
  | succ fuel ih =>
    rw [run]
    refine (Run.always_true _).bind fun r _ => ?_
    cases r with
    | error f => exact Run.always_pure ⟨_, rfl⟩
    | ok m =>
      refine (Run.always_true _).bind fun r _ => ?_
      cases r with
      | error f => exact Run.always_pure ⟨_, rfl⟩
      | ok m =>
        refine (ih m.stop).bind fun r hr => ?_
        obtain ⟨m', rfl⟩ := hr
        exact Run.always_pure ⟨_, rfl⟩

end Parser

end Packrat
