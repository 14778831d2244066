import MongoSyncAgent.Systems
import Mathlib.Data.Nat.Notation

/-!
Protocols: effects that are made one after another, each of which is permitted only in some
states.

A journal keeps to a protocol if every effect of it is permitted where it is made. Whatever
interrupts the one who makes it leaves a prefix, and a prefix keeps to the protocol too. So what
the protocol guarantees of its states holds at every moment of every journal that keeps to it.
-/

namespace MongoSyncAgent.Protocols

open MongoSyncAgent.Systems

structure Protocol (σ ε : Type*) where
  init : σ → Prop
  apply : σ → ε → σ
  permits : σ → ε → Prop

namespace Protocol

variable {σ ε : Type*} (P : Protocol σ ε)

/-- The system of those who make one permitted effect after another. -/
def system : System σ ε where
  init := P.init
  step s e s' := P.permits s e ∧ s' = P.apply s e

/-- The state that a journal leaves. -/
def run (s : σ) (j : List ε) : σ := j.foldl P.apply s

/-- Every effect of the journal is permitted where it is made. -/
def Keeps : σ → List ε → Prop
  | _, [] => True
  | s, e :: j => P.permits s e ∧ Keeps (P.apply s e) j

variable {P} {s : σ} {e : ε} {j k : List ε}

@[simp] lemma run_nil : P.run s [] = s := rfl

@[simp] lemma run_cons : P.run s (e :: j) = P.run (P.apply s e) j := rfl

lemma run_append : P.run s (j ++ k) = P.run (P.run s j) k := List.foldl_append

@[simp] lemma keeps_nil : P.Keeps s [] := trivial

@[simp] lemma keeps_cons : P.Keeps s (e :: j) ↔ P.permits s e ∧ P.Keeps (P.apply s e) j := Iff.rfl

lemma keeps_append : P.Keeps s (j ++ k) ↔ P.Keeps s j ∧ P.Keeps (P.run s j) k := by
  induction j generalizing s with
  | nil => simp
  | cons e j ih => rw [List.cons_append, keeps_cons, keeps_cons, run_cons, ih, and_assoc]

/-- What is cut off at any point has kept to the protocol. -/
lemma Keeps.take (h : P.Keeps s j) (n : ℕ) : P.Keeps s (j.take n) := by
  rw [← List.take_append_drop n j] at h
  exact (keeps_append.mp h).1

/-- Effects that are always permitted. -/
lemma keeps_of_forall (h : ∀ e ∈ j, ∀ s, P.permits s e) : P.Keeps s j := by
  induction j generalizing s with
  | nil => exact keeps_nil
  | cons e j ih =>
    exact ⟨h e List.mem_cons_self s, ih fun e he => h e (List.mem_cons_of_mem _ he)⟩

/-- **Journals are runs**: one that keeps to the protocol leads from a reachable state to a
reachable state. -/
theorem Keeps.reachable (h : P.system.Reachable s) (hj : P.Keeps s j) :
    P.system.Reachable (P.run s j) := by
  induction j generalizing s with
  | nil => exact h
  | cons e j ih => exact ih (h.step ⟨hj.1, rfl⟩) hj.2

/-- **Whole histories**: a system each of whose steps makes a journal that keeps to the protocol
reaches only what the protocol reaches. -/
theorem reachable_of_journals {τ δ : Type*} {S : System τ δ} (abs : τ → σ)
    (h0 : ∀ t, S.init t → P.init (abs t))
    (hstep : ∀ t d t', S.step t d t' → ∃ j, P.Keeps (abs t) j ∧ abs t' = P.run (abs t) j) {t : τ}
    (h : S.Reachable t) : P.system.Reachable (abs t) := by
  induction h with
  | init h => exact .init (h0 _ h)
  | step hr hs ih =>
    obtain ⟨j, hj, hrun⟩ := hstep _ _ _ hs
    rw [hrun]
    exact hj.reachable ih

/-- **Invariants** need only be kept by permitted effects. -/
theorem reachable_invariant {I : σ → Prop} (h0 : ∀ s, P.init s → I s)
    (hstep : ∀ s e, I s → P.permits s e → I (P.apply s e)) (h : P.system.Reachable s) : I s :=
  h.invariant h0 fun s e s' _ hI ⟨hpermits, happly⟩ => by
    subst happly
    exact hstep s e hI hpermits

end Protocol

end MongoSyncAgent.Protocols
