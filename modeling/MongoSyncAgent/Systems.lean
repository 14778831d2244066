import Mathlib.Logic.Relation
import Mathlib.Tactic.Basic

/-!
Labelled transition systems: the states that runs reach, invariants of them, and the
passage of invariants along a simulation.

A run is never a list here. What holds in every state of every run is what holds
initially and is kept by a step, so the reachable states are all that is needed.
-/

namespace MongoSyncAgent.Systems

variable {σ τ ε δ : Type*}

/-- A system of states `σ` that moves by events `ε`. -/
structure System (σ ε : Type*) where
  init : σ → Prop
  step : σ → ε → σ → Prop

namespace System

inductive Reachable (S : System σ ε) : σ → Prop
  | init {s} : S.init s → Reachable S s
  | step {s e s'} : Reachable S s → S.step s e s' → Reachable S s'

/-- **Invariants.** What holds initially and is kept by every step taken in a reachable
state holds in every reachable state. -/
theorem Reachable.invariant {S : System σ ε} {P : σ → Prop} (h0 : ∀ s, S.init s → P s)
    (hstep : ∀ s e s', S.Reachable s → P s → S.step s e s' → P s') {s : σ}
    (h : S.Reachable s) : P s := by
  induction h with
  | init h => exact h0 _ h
  | step hr hs ih => exact hstep _ _ _ hr ih hs

/-- The runs of `S` all of whose steps meet the condition `ok`, which reads the state
before the step and the event. -/
def restrict (S : System σ ε) (ok : σ → ε → Prop) : System σ ε where
  init := S.init
  step s e s' := ok s e ∧ S.step s e s'

lemma Reachable.of_restrict {S : System σ ε} {ok : σ → ε → Prop} {s : σ}
    (h : (S.restrict ok).Reachable s) : S.Reachable s := by
  induction h with
  | init h => exact .init h
  | step _ hs ih => exact .step ih hs.2

/-- A weaker condition admits more runs. -/
lemma Reachable.restrict_mono {S : System σ ε} {ok ok' : σ → ε → Prop}
    (hle : ∀ s e, ok s e → ok' s e) {s : σ} (h : (S.restrict ok).Reachable s) :
    (S.restrict ok').Reachable s := by
  induction h with
  | init h => exact .init h
  | step _ hs ih => exact .step ih ⟨hle _ _ hs.1, hs.2⟩

/-- `R` relates every state of `S` to a state of `T` that can follow it: a step of `S` is
matched by one step of `T` or by none. -/
structure Simulation (S : System σ ε) (T : System τ δ) (R : σ → τ → Prop) : Prop where
  init : ∀ s, S.init s → ∃ t, T.init t ∧ R s t
  step : ∀ s e s' t, S.Reachable s → R s t → S.step s e s' →
    ∃ t', (t' = t ∨ ∃ d, T.step t d t') ∧ R s' t'

/-- **Refinement.** What `S` reaches is related to something `T` reaches. -/
theorem Simulation.reachable {S : System σ ε} {T : System τ δ} {R : σ → τ → Prop}
    (hR : Simulation S T R) {s : σ} (h : S.Reachable s) : ∃ t, T.Reachable t ∧ R s t := by
  induction h with
  | init h =>
    obtain ⟨t, ht, hst⟩ := hR.init _ h
    exact ⟨t, .init ht, hst⟩
  | step hr hs ih =>
    obtain ⟨t, ht, hst⟩ := ih
    obtain ⟨t', hmove, hst'⟩ := hR.step _ _ _ _ hr hst hs
    rcases hmove with rfl | ⟨d, hd⟩
    · exact ⟨_, ht, hst'⟩
    · exact ⟨t', .step ht hd, hst'⟩

end System

end MongoSyncAgent.Systems
