import MongoSyncAgent.Timestamps
import Mathlib.Data.List.AList

/-!
The state store: the watermarks of the collections and the offsets of the log files.
-/

namespace MongoSyncAgent.State

open MongoSyncAgent.Timestamps

structure Watermark where
  kind : String
  value : String
  updatedAt : Datetime
  runId : String
  deriving DecidableEq

structure FileOffset where
  fingerprint : String
  lastPath : String
  offset : ℕ
  fileSizeAtRead : ℕ
  /-- The datetime the stored text parses to; `none` where it does not parse. -/
  updatedAt : Option Datetime
  deriving DecidableEq

/-- The offsets of one source, by their key. -/
abbrev Offsets := AList fun _ : String => FileOffset

structure StateStore where
  watermarks : String → Option Watermark
  fileOffsets : String → Offsets

namespace StateStore

def empty : StateStore := ⟨fun _ => none, fun _ => ∅⟩

def setWatermark (s : StateStore) (namespace_ : String) (wm : Watermark) : StateStore :=
  { s with watermarks := fun n => if n = namespace_ then some wm else s.watermarks n }

/-- The upserts of one batch, in order; each gets the time of the batch. -/
def upserts (offsets : List FileOffset) (updatedAt : Datetime) (os : Offsets) : Offsets :=
  offsets.foldl (fun os fo => os.insert fo.fingerprint { fo with updatedAt := some updatedAt }) os

def setOffsets (s : StateStore) (source : String) (offsets : List FileOffset)
    (updatedAt : Datetime) : StateStore :=
  { s with fileOffsets := fun n =>
      if n = source then upserts offsets updatedAt (s.fileOffsets n) else s.fileOffsets n }

def deleteOffset (s : StateStore) (source fingerprint : String) : StateStore :=
  { s with fileOffsets := fun n =>
      if n = source then (s.fileOffsets n).erase fingerprint else s.fileOffsets n }

end StateStore

/-- The last record of a batch with a key. -/
def lastFor (offsets : List FileOffset) (key : String) : Option FileOffset :=
  offsets.reverse.find? fun fo => fo.fingerprint == key

lemma lastFor_some {offsets : List FileOffset} {key : String} {fo : FileOffset}
    (h : lastFor offsets key = some fo) : fo ∈ offsets ∧ fo.fingerprint = key :=
  ⟨by simpa using List.mem_of_find?_eq_some h, by simpa using List.find?_some h⟩

lemma lastFor_none {offsets : List FileOffset} {key : String} (h : lastFor offsets key = none) :
    ∀ fo ∈ offsets, fo.fingerprint ≠ key := by
  simpa [lastFor] using h

/-- A key of a batch gets the last record of the batch that has it. -/
lemma lookup_upserts (offsets : List FileOffset) (updatedAt : Datetime) (os : Offsets)
    (key : String) : (StateStore.upserts offsets updatedAt os).lookup key =
      ((lastFor offsets key).map fun fo => { fo with updatedAt := some updatedAt }).or
        (os.lookup key) := by
  induction offsets generalizing os with
  | nil => rfl
  | cons fo offsets ih =>
    have hlast : lastFor (fo :: offsets) key =
        (lastFor offsets key).or (if fo.fingerprint = key then some fo else none) := by
      by_cases h : fo.fingerprint = key <;> simp [lastFor, h]
    rw [StateStore.upserts, List.foldl_cons, ← StateStore.upserts, ih, hlast]
    rcases lastFor offsets key with _ | fo'
    · by_cases h : fo.fingerprint = key
      · subst h; simp
      · simp [h, AList.lookup_insert_ne (Ne.symm h)]
    · simp

/-- What a batch leaves under a key: a record of the batch, or what was there. -/
lemma upserts_cases {offsets : List FileOffset} {updatedAt : Datetime} {os : Offsets}
    {key : String} {fo : FileOffset}
    (h : (StateStore.upserts offsets updatedAt os).lookup key = some fo) :
    (∃ fo' ∈ offsets, fo'.fingerprint = key ∧ fo = { fo' with updatedAt := some updatedAt }) ∨
      (∀ fo' ∈ offsets, fo'.fingerprint ≠ key) ∧ os.lookup key = some fo := by
  rw [lookup_upserts] at h
  rcases hf : lastFor offsets key with _ | fo'
  · rw [hf] at h
    exact .inr ⟨lastFor_none hf, h⟩
  · rw [hf] at h
    obtain ⟨hmem, hkey⟩ := lastFor_some hf
    exact .inl ⟨fo', hmem, hkey, (Option.some.inj h).symm⟩

/-- A record of a batch with a key of its own is what the batch leaves under the key. -/
lemma upserts_mem {offsets : List FileOffset} {updatedAt : Datetime} {os : Offsets}
    {fo : FileOffset} (hfo : fo ∈ offsets)
    (huniq : ∀ fo' ∈ offsets, fo'.fingerprint = fo.fingerprint → fo' = fo) :
    (StateStore.upserts offsets updatedAt os).lookup fo.fingerprint =
      some { fo with updatedAt := some updatedAt } := by
  rw [lookup_upserts]
  rcases hf : lastFor offsets fo.fingerprint with _ | fo'
  · exact absurd rfl (lastFor_none hf fo hfo)
  · obtain ⟨hmem, hkey⟩ := lastFor_some hf
    rw [huniq fo' hmem hkey]
    rfl

end MongoSyncAgent.State
