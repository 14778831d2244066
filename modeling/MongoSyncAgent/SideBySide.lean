import MongoSyncAgent.Outcomes

/-!
Two programs that run side by side, each from its own state.

They are in step when both end with a value or both with an error, in a way that a postcondition
relates. A program is in step with itself from two states if what it does depends only on what
the states have in common.
-/

namespace MongoSyncAgent.SideBySide

open MongoSyncAgent.Outcomes

variable {ε σ α β γ δ : Type}

/-- What is asked of two ends that are both values, and of two that are both errors. -/
def Ends (V : α → β → σ → σ → Prop) (E : ε → ε → σ → σ → Prop) :
    Except ε α × σ → Except ε β × σ → Prop
  | (.ok a, s), (.ok b, t) => V a b s t
  | (.error e, s), (.error e', t) => E e e' s t
  | _, _ => False

/-- Run from `s` and from `t`, the programs end in step. -/
def InStep (m : Prog ε σ α) (m' : Prog ε σ β) (s t : σ) (V : α → β → σ → σ → Prop)
    (E : ε → ε → σ → σ → Prop) : Prop :=
  Ends V E (exec m s) (exec m' t)

variable {m : Prog ε σ α} {m' : Prog ε σ β} {s t : σ} {V V' : α → β → σ → σ → Prop}
  {E E' : ε → ε → σ → σ → Prop}

lemma InStep.mono (h : InStep m m' s t V E) (hV : ∀ a b s' t', V a b s' t' → V' a b s' t')
    (hE : ∀ e e' s' t', E e e' s' t' → E' e e' s' t') : InStep m m' s t V' E' := by
  unfold InStep at h ⊢
  generalize exec m s = x at h ⊢
  generalize exec m' t = y at h ⊢
  rcases x with ⟨_ | a, s'⟩ <;> rcases y with ⟨_ | b, t'⟩
  · exact hE _ _ _ _ h
  · exact h
  · exact h
  · exact hV _ _ _ _ h

/-! ### The rules -/

lemma inStep_pure {a : α} {b : β} (h : V a b s t) : InStep (pure a) (pure b) s t V E := h

lemma inStep_throw {e e' : ε} (h : E e e' s t) :
    InStep (throw e : Prog ε σ α) (throw e' : Prog ε σ β) s t V E := h

/-- Each program goes on with its own state. -/
lemma inStep_get {f : σ → Prog ε σ α} {f' : σ → Prog ε σ β}
    (h : InStep (f s) (f' t) s t V E) : InStep (get >>= f) (get >>= f') s t V E := h

theorem InStep.bind {f : α → Prog ε σ γ} {f' : β → Prog ε σ δ} {W : γ → δ → σ → σ → Prop}
    (hm : InStep m m' s t V E) (hok : ∀ a b s' t', V a b s' t' → InStep (f a) (f' b) s' t' W E')
    (herr : ∀ e e' s' t', E e e' s' t' → E' e e' s' t') :
    InStep (m >>= f) (m' >>= f') s t W E' := by
  unfold InStep at hm ⊢
  rw [exec_bind, exec_bind]
  generalize exec m s = x at hm ⊢
  generalize exec m' t = y at hm ⊢
  rcases x with ⟨_ | a, s'⟩ <;> rcases y with ⟨_ | b, t'⟩
  · exact herr _ _ _ _ hm
  · exact hm.elim
  · exact hm.elim
  · exact hok _ _ _ _ hm

theorem InStep.tryCatch {handler : ε → Prog ε σ α} {handler' : ε → Prog ε σ β}
    (hm : InStep m m' s t V E) (hok : ∀ a b s' t', V a b s' t' → V' a b s' t')
    (herr : ∀ e e' s' t', E e e' s' t' → InStep (handler e) (handler' e') s' t' V' E') :
    InStep (tryCatch m handler) (tryCatch m' handler') s t V' E' := by
  unfold InStep at hm ⊢
  rw [exec_tryCatch, exec_tryCatch]
  generalize exec m s = x at hm ⊢
  generalize exec m' t = y at hm ⊢
  rcases x with ⟨_ | a, s'⟩ <;> rcases y with ⟨_ | b, t'⟩
  · exact herr _ _ _ _ hm
  · exact hm.elim
  · exact hm.elim
  · exact hok _ _ _ _ hm

/-- The second program takes a part of its own. -/
lemma InStep.right {x : Prog ε σ γ} {f : γ → Prog ε σ β} {P : γ → σ → Prop}
    (hx : Ensures x t fun r t' => ∃ c, r = .ok c ∧ P c t')
    (h : ∀ c t', P c t' → InStep m (f c) s t' V E) : InStep m (x >>= f) s t V E := by
  unfold InStep at h ⊢
  rw [exec_bind]
  unfold Ensures at hx
  generalize exec x t = y at hx ⊢
  obtain ⟨r, t'⟩ := y
  obtain ⟨c, hr, hp⟩ := hx
  simp only at hr
  subst hr
  exact h c t' hp

/-- What each of them ensures on its own. -/
lemma InStep.and_ensures {P : Except ε α → σ → Prop} {P' : Except ε β → σ → Prop}
    (h : InStep m m' s t V E) (hm : Ensures m s P) (hm' : Ensures m' t P') :
    InStep m m' s t (fun a b s' t' => V a b s' t' ∧ P (.ok a) s' ∧ P' (.ok b) t')
      fun e e' s' t' => E e e' s' t' ∧ P (.error e) s' ∧ P' (.error e') t' := by
  unfold InStep Ensures at *
  generalize exec m s = x at h hm ⊢
  generalize exec m' t = y at h hm' ⊢
  rcases x with ⟨_ | a, s'⟩ <;> rcases y with ⟨_ | b, t'⟩
  · exact ⟨h, hm, hm'⟩
  · exact h.elim
  · exact h.elim
  · exact ⟨h, hm, hm'⟩

/-- Programs that end in step by what each of them ensures. -/
lemma inStep_of_ensures {P : Except ε α → σ → Prop} {P' : Except ε β → σ → Prop}
    (hm : Ensures m s P) (hm' : Ensures m' t P')
    (h : ∀ r r' s' t', P r s' → P' r' t' → Ends V E (r, s') (r', t')) : InStep m m' s t V E :=
  h _ _ _ _ hm hm'

/-- In step without an error, both end with values. -/
lemma InStep.values (h : InStep m m' s t V fun _ _ _ _ => False) : ∃ a b s' t',
    exec m s = (.ok a, s') ∧ exec m' t = (.ok b, t') ∧ V a b s' t' := by
  unfold InStep at h
  generalize exec m s = x at h ⊢
  generalize exec m' t = y at h ⊢
  rcases x with ⟨_ | a, s'⟩ <;> rcases y with ⟨_ | b, t'⟩
  · exact h.elim
  · exact h.elim
  · exact h.elim
  · exact ⟨a, b, s', t', rfl, rfl, h⟩

/-! ### Programs that do the same -/

/-- Both end with one value, or both with one error. -/
def Same (m m' : Prog ε σ α) (s t : σ) (Q : α → σ → σ → Prop) (R : ε → σ → σ → Prop) : Prop :=
  InStep m m' s t (fun a b s t => a = b ∧ Q a s t) fun e e' s t => e = e' ∧ R e s t

section Same

variable {m m' : Prog ε σ α} {Q Q' : α → σ → σ → Prop} {R R' : ε → σ → σ → Prop}

lemma same_pure {a : α} (h : Q a s t) : Same (pure a) (pure a) s t Q R := ⟨rfl, h⟩

lemma same_throw {e : ε} (h : R e s t) : Same (throw e : Prog ε σ α) (throw e) s t Q R := ⟨rfl, h⟩

lemma Same.mono (h : Same m m' s t Q R) (hQ : ∀ a s' t', Q a s' t' → Q' a s' t')
    (hR : ∀ e s' t', R e s' t' → R' e s' t') : Same m m' s t Q' R' :=
  InStep.mono h (fun a _ s' t' ⟨hab, hq⟩ => ⟨hab, hQ a s' t' hq⟩)
    fun e _ s' t' ⟨he, hr⟩ => ⟨he, hR e s' t' hr⟩

theorem Same.bind {f f' : α → Prog ε σ γ} {P : γ → σ → σ → Prop} (hm : Same m m' s t Q R)
    (hok : ∀ a s' t', Q a s' t' → Same (f a) (f' a) s' t' P R) :
    Same (m >>= f) (m' >>= f') s t P R := by
  refine InStep.bind hm ?_ fun _ _ _ _ h => h
  rintro a b s' t' ⟨rfl, hq⟩
  exact hok a s' t' hq

theorem Same.tryCatch {handler handler' : ε → Prog ε σ α} (hm : Same m m' s t Q R)
    (hok : ∀ a s' t', Q a s' t' → Q' a s' t')
    (herr : ∀ e s' t', R e s' t' → Same (handler e) (handler' e) s' t' Q' R') :
    Same (tryCatch m handler) (tryCatch m' handler') s t Q' R' := by
  refine InStep.tryCatch hm (fun a _ s' t' ⟨hab, hq⟩ => ⟨hab, hok a s' t' hq⟩) ?_
  rintro e e' s' t' ⟨rfl, hr⟩
  exact herr e s' t' hr

/-- The ends of two programs that do the same. -/
lemma Same.ends (h : Same m m' s t Q R) :
    (exec m s).1 = (exec m' t).1 ∧
      (∀ a, (exec m s).1 = .ok a → Q a (exec m s).2 (exec m' t).2) ∧
      ∀ e, (exec m s).1 = .error e → R e (exec m s).2 (exec m' t).2 := by
  unfold Same InStep at h
  generalize exec m s = x at h ⊢
  generalize exec m' t = y at h ⊢
  rcases x with ⟨_ | a, s'⟩ <;> rcases y with ⟨_ | b, t'⟩
  · obtain ⟨rfl, hr⟩ := h
    refine ⟨rfl, fun _ ha => (by cases ha), fun e he => ?_⟩
    obtain rfl := Except.error.inj he
    exact hr
  · exact h.elim
  · exact h.elim
  · obtain ⟨rfl, hq⟩ := h
    refine ⟨rfl, fun a ha => ?_, fun _ he => (by cases he)⟩
    obtain rfl := Except.ok.inj ha
    exact hq

end Same

end MongoSyncAgent.SideBySide
