import MongoSyncAgent.Systems
import Mathlib.Data.Set.Function
import Mathlib.Logic.Function.Basic

/-!
A log of what several readers have read of one source, from which the source can be rebuilt.

Each reader goes by a region of its own of what it will read next, and the regions know nothing
of each other. The values of the source differ in their keys, and of the values of one key the log
counts the last. As long as a value falls into all regions when it is written, the log has the
current value of every key that some region has left behind.
-/

namespace MongoSyncAgent.Mirrors

open MongoSyncAgent.Systems

variable {α κ ν : Type*} (key : α → κ)

structure Mirror (α ν : Type*) where
  source : Set α
  /-- What was read, each time by one of the readers. -/
  log : List (Set α)
  /-- What each reader will ask for next. -/
  ahead : ν → Set α

/-- Of the values of its key, this one was read last. -/
def Newest (log : List (Set α)) (x : α) : Prop :=
  ∃ before sent after, log = before ++ sent :: after ∧ x ∈ sent ∧
    (∀ y ∈ sent, key y = key x → y = x) ∧ ∀ s ∈ after, ∀ y ∈ s, key y ≠ key x

inductive Move (α ν : Type*)
  | write (x : α) (old : Set α)
  | remove (gone : Set α)
  | read (n : ν) (sent next : Set α)
  | skip (n : ν) (next : Set α)

/-- A value is written in place of those of its key. A reader that has read leaves its region
behind only if it has read all of it. -/
inductive Moves [DecidableEq ν] : Mirror α ν → Move α ν → Mirror α ν → Prop
  | write {m : Mirror α ν} {x old} (hahead : ∀ n, x ∈ m.ahead n)
    (hold : ∀ y ∈ m.source, key y = key x → y ∈ old) :
    Moves m (.write x old) { m with source := insert x (m.source \ old) }
  | remove {m : Mirror α ν} {gone} :
    Moves m (.remove gone) { m with source := m.source \ gone }
  | read {m : Mirror α ν} {n sent next} (hsent : sent ⊆ m.source)
    (hnext : next = m.ahead n ∨ m.source ∩ m.ahead n ⊆ sent) :
    Moves m (.read n sent next)
      { m with log := m.log ++ [sent], ahead := Function.update m.ahead n next }
  /-- Nothing was there to read. -/
  | skip {m : Mirror α ν} {n next} (hnext : next = m.ahead n ∨ m.source ∩ m.ahead n = ∅) :
    Moves m (.skip n next) { m with ahead := Function.update m.ahead n next }

def mirroring [DecidableEq ν] : System (Mirror α ν) (Move α ν) where
  init m := Set.InjOn key m.source ∧ ∀ n, m.source ⊆ m.ahead n
  step := Moves key

variable {key} {log : List (Set α)} {x : α}

/-! ### The log -/

/-- A value that was just read is the newest, if all that was read differs in its keys. -/
lemma newest_snoc {sent : Set α} (hinj : Set.InjOn key sent) (hx : x ∈ sent) :
    Newest key (log ++ [sent]) x :=
  ⟨log, sent, [], rfl, hx, fun _ hy hkey => hinj hy hx hkey, by simp⟩

/-- It stays the newest until its key is read again. -/
lemma Newest.snoc {sent : Set α} (h : Newest key log x) (hnone : ∀ y ∈ sent, key y ≠ key x) :
    Newest key (log ++ [sent]) x := by
  obtain ⟨before, s, after, rfl, hx, hone, hafter⟩ := h
  refine ⟨before, s, after ++ [sent], by simp, hx, hone, fun s' hs' => ?_⟩
  rcases List.mem_append.mp hs' with hs' | hs'
  · exact hafter s' hs'
  · rw [List.mem_singleton.mp hs']
    exact hnone

/-- What is read is in the source, so reading its key again reads the value itself. -/
lemma Newest.read {source sent : Set α} (hinj : Set.InjOn key source) (hx : x ∈ source)
    (hsent : sent ⊆ source) (h : Newest key log x) : Newest key (log ++ [sent]) x := by
  by_cases hmem : x ∈ sent
  · exact newest_snoc (hinj.mono hsent) hmem
  · exact h.snoc fun y hy hkey => hmem (hinj (hsent hy) hx hkey ▸ hy)

/-! ### Runs -/

variable {m : Mirror α ν}

/-- What the log is good for: each value is the newest of its key, or all readers have it ahead. -/
structure MirrorInv (key : α → κ) (m : Mirror α ν) : Prop where
  keys : Set.InjOn key m.source
  covered : ∀ x ∈ m.source, (∀ n, x ∈ m.ahead n) ∨ Newest key m.log x

lemma mirrorInv_write {old : Set α} (h : MirrorInv key m) (hahead : ∀ n, x ∈ m.ahead n)
    (hold : ∀ y ∈ m.source, key y = key x → y ∈ old) :
    MirrorInv key { m with source := insert x (m.source \ old) } := by
  constructor
  · rintro a (rfl | ha) b (rfl | hb) hkey
    · rfl
    · exact absurd (hold b hb.1 hkey.symm) hb.2
    · exact absurd (hold a ha.1 hkey) ha.2
    · exact h.keys ha.1 hb.1 hkey
  · rintro a (rfl | ha)
    · exact .inl hahead
    · exact h.covered a ha.1

variable [DecidableEq ν]

/-- A region is left behind only for values that are the newest. -/
lemma covered_update {n : ν} {next : Set α} {log' : List (Set α)}
    (h : ∀ x ∈ m.source, (∀ n, x ∈ m.ahead n) ∨ Newest key m.log x)
    (hlog : ∀ x ∈ m.source, Newest key m.log x → Newest key log' x)
    (hnext : next = m.ahead n ∨ ∀ x ∈ m.source, x ∈ m.ahead n → Newest key log' x) :
    ∀ x ∈ m.source, (∀ k, x ∈ Function.update m.ahead n next k) ∨ Newest key log' x := by
  intro x hx
  rcases h x hx with hall | hnew
  · rcases hnext with rfl | hread
    · rw [Function.update_eq_self]
      exact .inl hall
    · exact .inr (hread x hx (hall n))
  · exact .inr (hlog x hx hnew)

theorem mirrorInv (h : (mirroring key).Reachable m) : MirrorInv key m := by
  refine h.invariant (fun m hm => ⟨hm.1, fun x hx => .inl fun n => hm.2 n hx⟩)
    fun m e m' _ hinv hstep => ?_
  cases hstep with
  | write hahead hold => exact mirrorInv_write hinv hahead hold
  | remove =>
    exact ⟨hinv.keys.mono Set.sdiff_subset, fun x hx => hinv.covered x hx.1⟩
  | read hsent hnext =>
    refine ⟨hinv.keys, covered_update hinv.covered (fun x hx hnew => ?_) (hnext.imp id ?_)⟩
    · exact hnew.read hinv.keys hx hsent
    · intro hall x hx ha
      exact newest_snoc (hinv.keys.mono hsent) (hall ⟨hx, ha⟩)
  | skip hnext =>
    refine ⟨hinv.keys, covered_update hinv.covered (fun x _ hnew => hnew) (hnext.imp id ?_)⟩
    intro hnone x hx ha
    exact absurd (show x ∈ m.source ∩ m.ahead _ from ⟨hx, ha⟩) (by rw [hnone]; exact id)

/-- **A reader that has read its region** leaves a log in which every value of the source is the
newest of its key, whatever the other readers have read. -/
theorem newest_of_read {n : ν} {sent : Set α} (h : (mirroring key).Reachable m)
    (hsent : sent ⊆ m.source) (hall : m.source ∩ m.ahead n ⊆ sent) (hx : x ∈ m.source) :
    Newest key (m.log ++ [sent]) x := by
  have hinv := mirrorInv h
  rcases hinv.covered x hx with ha | hnew
  · exact newest_snoc (hinv.keys.mono hsent) (hall ⟨hx, ha n⟩)
  · exact hnew.read hinv.keys hx hsent

/-- The same, where the region has nothing to read. -/
theorem newest_of_skip {n : ν} (h : (mirroring key).Reachable m)
    (hnone : m.source ∩ m.ahead n = ∅) (hx : x ∈ m.source) : Newest key m.log x := by
  refine ((mirrorInv h).covered x hx).resolve_left fun ha => ?_
  have hmem : x ∈ m.source ∩ m.ahead n := ⟨hx, ha n⟩
  rw [hnone] at hmem
  exact hmem

end MongoSyncAgent.Mirrors
