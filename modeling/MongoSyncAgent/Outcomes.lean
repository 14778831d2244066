import Mathlib.Order.Defs.Unbundled
import Mathlib.Tactic.Basic

/-!
Programs that may fail and keep their state when they do, and what is ensured of how they end.

A postcondition speaks of both ways to end, with a value or with an error, and of the state
that is left: a handler goes on from the state at which the error was raised.
-/

namespace MongoSyncAgent.Outcomes

variable {ε σ α β : Type}

abbrev Prog (ε σ α : Type) := ExceptT ε (StateM σ) α

/-- The result and the state that is left. -/
def exec (m : Prog ε σ α) (s : σ) : Except ε α × σ := (ExceptT.run m).run s

/-! ### Running -/

@[simp] lemma exec_pure (a : α) (s : σ) : exec (pure a : Prog ε σ α) s = (.ok a, s) := rfl

@[simp] lemma exec_throw (e : ε) (s : σ) : exec (throw e : Prog ε σ α) s = (.error e, s) := rfl

@[simp] lemma exec_get (s : σ) : exec (get : Prog ε σ σ) s = (.ok s, s) := rfl

/-- What follows runs where the first part ended with a value. -/
theorem exec_bind (m : Prog ε σ α) (f : α → Prog ε σ β) (s : σ) :
    exec (m >>= f) s = match exec m s with
      | (.ok a, s') => exec (f a) s'
      | (.error e, s') => (.error e, s') := by
  unfold exec
  simp only [ExceptT.run_bind, StateT.run_bind]
  rcases h : (ExceptT.run m).run s with ⟨r, s'⟩
  cases r <;> rfl

/-- A first part that ends with a value, and what follows. -/
lemma exec_bind_ok {m : Prog ε σ α} {f : α → Prog ε σ β} {a : α} {s s' : σ}
    (h : exec m s = (.ok a, s')) : exec (m >>= f) s = exec (f a) s' := by
  rw [exec_bind, h]

/-- A program that ended with a value went through its first part. -/
lemma ok_of_bind {m : Prog ε σ α} {f : α → Prog ε σ β} {b : β} {s s' : σ}
    (h : exec (m >>= f) s = (.ok b, s')) :
    ∃ a s₁, exec m s = (.ok a, s₁) ∧ exec (f a) s₁ = (.ok b, s') := by
  rw [exec_bind] at h
  generalize exec m s = end_ at h
  rcases end_ with ⟨e | a, s₁⟩
  · cases h
  · exact ⟨a, s₁, rfl, h⟩

/-- The handler runs from the state at which the error was raised. -/
theorem exec_tryCatch (m : Prog ε σ α) (handler : ε → Prog ε σ α) (s : σ) :
    exec (tryCatch m handler) s = match exec m s with
      | (.ok a, s') => (.ok a, s')
      | (.error e, s') => exec (handler e) s' := by
  unfold exec
  rw [ExceptT.run_tryCatch, StateT.run_bind]
  rcases h : (ExceptT.run m).run s with ⟨r, s'⟩
  cases r <;> rfl

/-- Run from `s`, the program ends as `Q` says. -/
def Ensures (m : Prog ε σ α) (s : σ) (Q : Except ε α → σ → Prop) : Prop :=
  Q (exec m s).1 (exec m s).2

lemma Ensures.mono {m : Prog ε σ α} {s : σ} {Q Q' : Except ε α → σ → Prop} (h : Ensures m s Q)
    (hQ : ∀ r s', Q r s' → Q' r s') : Ensures m s Q' :=
  hQ _ _ h

lemma Ensures.and {m : Prog ε σ α} {s : σ} {Q Q' : Except ε α → σ → Prop} (h : Ensures m s Q)
    (h' : Ensures m s Q') : Ensures m s fun r s' => Q r s' ∧ Q' r s' :=
  ⟨h, h'⟩

/-- What is asked of a value, and what of an error. -/
abbrev Asks (V : α → Prop) (E : ε → Prop) : Except ε α → Prop
  | .ok a => V a
  | .error e => E e

/-! ### The rules -/

@[simp] lemma ensures_pure {a : α} {s : σ} {Q : Except ε α → σ → Prop} :
    Ensures (pure a) s Q ↔ Q (.ok a) s := Iff.rfl

@[simp] lemma ensures_throw {e : ε} {s : σ} {Q : Except ε α → σ → Prop} :
    Ensures (throw e) s Q ↔ Q (.error e) s := Iff.rfl

lemma ensures_get {s : σ} {Q : Except ε σ → σ → Prop} :
    Ensures get s Q ↔ Q (.ok s) s := Iff.rfl

theorem ensures_bind {m : Prog ε σ α} {f : α → Prog ε σ β} {s : σ}
    {Q : Except ε β → σ → Prop} :
    Ensures (m >>= f) s Q ↔ Ensures m s fun r s' =>
      match r with
      | .ok a => Ensures (f a) s' Q
      | .error e => Q (.error e) s' := by
  unfold Ensures
  rw [exec_bind]
  rcases exec m s with ⟨_ | _, s'⟩ <;> rfl

theorem ensures_tryCatch {m : Prog ε σ α} {handler : ε → Prog ε σ α} {s : σ}
    {Q : Except ε α → σ → Prop} :
    Ensures (tryCatch m handler) s Q ↔ Ensures m s fun r s' =>
      match r with
      | .ok a => Q (.ok a) s'
      | .error e => Ensures (handler e) s' Q := by
  unfold Ensures
  rw [exec_tryCatch]
  rcases exec m s with ⟨_ | _, s'⟩ <;> rfl

/-- A part that ends one of several ways, and what follows in each of them. -/
lemma Ensures.bind {m : Prog ε σ α} {f : α → Prog ε σ β} {s : σ} {P : Except ε α → σ → Prop}
    {Q : Except ε β → σ → Prop} (hm : Ensures m s P)
    (herr : ∀ e s', P (.error e) s' → Q (.error e) s')
    (hok : ∀ a s', P (.ok a) s' → Ensures (f a) s' Q) : Ensures (m >>= f) s Q := by
  rw [ensures_bind]
  refine hm.mono fun r s' hr => ?_
  cases r with
  | ok a => exact hok a s' hr
  | error e => exact herr e s' hr

/-- A part of which it does not matter how it ends. -/
lemma Ensures.skip {m : Prog ε σ α} {f : α → Prog ε σ β} {s : σ} {Q : Except ε β → σ → Prop}
    (herr : ∀ e s', Q (.error e) s') (hok : ∀ a s', Ensures (f a) s' Q) : Ensures (m >>= f) s Q :=
  Ensures.bind (P := fun _ _ => True) trivial (fun e s' _ => herr e s') fun a s' _ => hok a s'

/-! ### What a program does to its state -/

/-- However it ends, it has moved its state along `R`. -/
def Within (R : σ → σ → Prop) (m : Prog ε σ α) : Prop := ∀ s, Ensures m s fun _ s' => R s s'

section Within

variable {R : σ → σ → Prop}

lemma within_pure [Std.Refl R] (a : α) : Within R (pure a : Prog ε σ α) := fun s => Std.Refl.refl s

lemma within_throw [Std.Refl R] (e : ε) : Within R (throw e : Prog ε σ α) :=
  fun s => Std.Refl.refl s

lemma within_get [Std.Refl R] : Within R (get : Prog ε σ σ) := fun s => Std.Refl.refl s

lemma Within.bind [IsTrans σ R] {m : Prog ε σ α} {f : α → Prog ε σ β} (hm : Within R m)
    (hf : ∀ a, Within R (f a)) : Within R (m >>= f) := by
  intro s
  refine Ensures.bind (hm s) (fun _ _ h => h) fun a s' h => ?_
  exact (hf a s').mono fun _ _ h' => IsTrans.trans _ _ _ h h'

lemma Within.tryCatch [IsTrans σ R] {m : Prog ε σ α} {handler : ε → Prog ε σ α} (hm : Within R m)
    (hh : ∀ e, Within R (handler e)) : Within R (tryCatch m handler) := by
  intro s
  rw [ensures_tryCatch]
  refine (hm s).mono fun r s' h => ?_
  cases r with
  | ok a => exact h
  | error e => exact (hh e s').mono fun _ _ h' => IsTrans.trans _ _ _ h h'

lemma Within.ite {p : Prop} [Decidable p] {m m' : Prog ε σ α} (h : Within R m)
    (h' : Within R m') : Within R (if p then m else m') := by
  split
  · exact h
  · exact h'

end Within

/-- What `f` sees of the state is as before. -/
abbrev Keeps (f : σ → β) (m : Prog ε σ α) : Prop := Within (fun s s' => f s' = f s) m

instance reflKeeps (f : σ → β) : Std.Refl fun s s' => f s' = f s := ⟨fun _ => rfl⟩

instance transKeeps (f : σ → β) : IsTrans σ fun s s' => f s' = f s := ⟨fun _ _ _ h h' => h'.trans h⟩

end MongoSyncAgent.Outcomes
