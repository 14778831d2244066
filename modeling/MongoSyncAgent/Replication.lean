import MongoSyncAgent.Systems
import Mathlib.Data.Set.Insert

/-!
Replication in rounds, as sets.

A source is written to while rounds copy it. Each round copies what a region of values asks for,
and leaves the region for the next round behind. As long as writes fall into the region, a round
only has to copy what is in it for everything to be copied; after that the region may be any.
-/

namespace MongoSyncAgent.Replication

open MongoSyncAgent.Systems

variable {α : Type*}

structure Replica (α : Type*) where
  source : Set α
  delivered : Set α
  /-- What the next round will ask for. -/
  ahead : Set α

inductive Move (α : Type*)
  /-- A value is written, in place of others. -/
  | write (x : α) (old : Set α)
  | remove (gone : Set α)
  | round (sent next : Set α)

inductive Moves : Replica α → Move α → Replica α → Prop
  | write {r : Replica α} {x old} (hx : x ∈ r.ahead) :
    Moves r (.write x old) { r with source := insert x (r.source \ old) }
  | remove {r : Replica α} {gone} :
    Moves r (.remove gone) { r with source := r.source \ gone }
  /-- The region moves on only after all of the old one has been sent. -/
  | round {r : Replica α} {sent next} (h : next = r.ahead ∨ r.source ∩ r.ahead ⊆ sent) :
    Moves r (.round sent next) { r with delivered := r.delivered ∪ sent, ahead := next }

def replication : System (Replica α) (Move α) where
  init r := r.source ⊆ r.delivered ∪ r.ahead
  step := Moves

/-- **Nothing is forgotten**: what is not delivered is still ahead. -/
theorem covered {r : Replica α} (h : replication.Reachable r) :
    r.source ⊆ r.delivered ∪ r.ahead := by
  refine h.invariant (fun _ h => h) fun r e r' _ hinv hstep => ?_
  cases hstep with
  | write hx =>
    rintro y (rfl | hy)
    · exact .inr hx
    · exact hinv hy.1
  | remove => exact fun y hy => hinv hy.1
  | round h =>
    intro y hy
    rcases hinv hy with hd | ha
    · exact .inl (.inl hd)
    · rcases h with rfl | hall
      · exact .inr ha
      · exact .inl (.inr (hall ⟨hy, ha⟩))

/-- **A round that sends all that is ahead delivers the source.** -/
theorem delivered_of_round {r : Replica α} (h : replication.Reachable r) {sent : Set α}
    (hall : r.source ∩ r.ahead ⊆ sent) : r.source ⊆ r.delivered ∪ sent := by
  intro y hy
  rcases covered h hy with hd | ha
  · exact .inl hd
  · exact .inr (hall ⟨hy, ha⟩)

end MongoSyncAgent.Replication
