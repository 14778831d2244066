import Mathlib.Data.List.Basic
import Mathlib.Tactic.Basic

/-!
Streaming transducers: machines that read symbols one at a time, write some output at each,
and write what is left when the input ends.

The law the rest rests on is that a machine that is back in its idle state, where nothing is
pending, has forgotten what it read: its output on the rest of the input is the output on the
rest alone.
-/

namespace MongoSyncAgent.Streaming

structure Transducer (σ α β : Type*) where
  idle : σ
  step : σ → α → σ × List β
  /-- What is written when the input ends in a state. -/
  flush : σ → List β
  flush_idle : flush idle = []

namespace Transducer

variable {σ α β : Type*} (T : Transducer σ α β)

/-- The state after reading `w` from `s`. -/
def state (s : σ) (w : List α) : σ := w.foldl (fun s a => (T.step s a).1) s

/-- The output from `s` on `w`, the flush at the end included. -/
def runFrom : σ → List α → List β
  | s, [] => T.flush s
  | s, a :: w => (T.step s a).2 ++ runFrom (T.step s a).1 w

def run (w : List α) : List β := T.runFrom T.idle w

@[simp] lemma state_nil (s : σ) : T.state s [] = s := rfl
@[simp] lemma state_cons (s : σ) (a : α) (w : List α) :
    T.state s (a :: w) = T.state (T.step s a).1 w := rfl
lemma state_append (s : σ) (u v : List α) :
    T.state s (u ++ v) = T.state (T.state s u) v := by
  simp [state, List.foldl_append]

@[simp] lemma run_nil : T.run [] = [] := T.flush_idle

/-- The output before the flush. -/
def emitted : σ → List α → List β
  | _, [] => []
  | s, a :: w => (T.step s a).2 ++ emitted (T.step s a).1 w

lemma runFrom_append (s : σ) (u v : List α) :
    T.runFrom s (u ++ v) = T.emitted s u ++ T.runFrom (T.state s u) v := by
  induction u generalizing s with
  | nil => simp [emitted]
  | cons a u ih => simp [runFrom, emitted, ih]

lemma runFrom_eq (s : σ) (u : List α) :
    T.runFrom s u = T.emitted s u ++ T.flush (T.state s u) := by
  simpa [runFrom] using T.runFrom_append s u []

lemma emitted_append (s : σ) (u v : List α) :
    T.emitted s (u ++ v) = T.emitted s u ++ T.emitted (T.state s u) v := by
  induction u generalizing s with
  | nil => simp [emitted]
  | cons a u ih => simp [emitted, ih]

/-- **Cutting at an idle point.** A machine that is idle after `u` treats `u` and what
follows as two inputs. -/
theorem run_append {u : List α} (h : T.state T.idle u = T.idle) (v : List α) :
    T.run (u ++ v) = T.run u ++ T.run v := by
  simp [run, T.runFrom_append, T.runFrom_eq T.idle u, h, T.flush_idle]

end Transducer

end MongoSyncAgent.Streaming
