import MongoSyncAgent.Invocations
import MongoSyncAgent.Protocols

/-!
The ledger of an agent: its state store, and what it has uploaded.

What lasts of a program is its journal. The agent never reads the bucket, so a program keeps to a
protocol of ledgers if its journal does after any uploads.
-/

namespace MongoSyncAgent.Ledgers

open MongoSyncAgent.Config MongoSyncAgent.State MongoSyncAgent.Runtime MongoSyncAgent.Outcomes
open MongoSyncAgent.Protocols MongoSyncAgent.Protocols.Protocol MongoSyncAgent.Invocations

/-- The effect is on the record of the key. -/
def Touches (source key : String) : Effect → Prop
  | .setOffsets name offsets _ => name = source ∧ key ∈ offsets.map (·.fingerprint)
  | .deleteOffset name key' => name = source ∧ key' = key
  | _ => False

/-- **A record after an effect** is one that the effect commits, or it was there and is left. -/
lemma lookup_after {s : StateStore} {e : Effect} {source key : String} {fo : FileOffset}
    (h : ((apply s e).fileOffsets source).lookup key = some fo) :
    (∃ offsets t, e = .setOffsets source offsets t ∧
      ∃ fo' ∈ offsets, fo'.fingerprint = key ∧ fo = { fo' with updatedAt := some t }) ∨
      (s.fileOffsets source).lookup key = some fo ∧ ¬ Touches source key e := by
  cases e with
  | put => exact .inr ⟨h, id⟩
  | setWatermark => exact .inr ⟨h, id⟩
  | setOffsets name offsets t =>
    change (if source = name then StateStore.upserts offsets t (s.fileOffsets source)
      else s.fileOffsets source).lookup key = some fo at h
    split_ifs at h with hname
    · subst hname
      rcases upserts_cases h with ⟨fo', hmem, hkey, hfo⟩ | ⟨hnone, hold⟩
      · exact .inl ⟨offsets, t, rfl, fo', hmem, hkey, hfo⟩
      · refine .inr ⟨hold, fun htouches => ?_⟩
        obtain ⟨fo', hmem, hkey⟩ := List.mem_map.mp htouches.2
        exact hnone fo' hmem hkey
    · exact .inr ⟨h, fun htouches => hname htouches.1.symm⟩
  | deleteOffset name key' =>
    change (if source = name then (s.fileOffsets source).erase key'
      else s.fileOffsets source).lookup key = some fo at h
    split_ifs at h with hname
    · by_cases hkey : key = key'
      · rw [hkey, AList.lookup_erase] at h
        cases h
      · rw [AList.lookup_erase_ne hkey] at h
        exact .inr ⟨h, fun htouches => hkey htouches.2.symm⟩
    · exact .inr ⟨h, fun htouches => hname htouches.1.symm⟩

structure Ledger where
  store : StateStore
  /-- All uploads, in their order. Of those under one key the bucket has the last. -/
  uploads : List Put

def Ledger.after (s : Ledger) (e : Effect) : Ledger := ⟨apply s.store e, s.uploads ++ puts [e]⟩

/-- The protocol by what it starts from, and what it permits. -/
def ledgers (init : Ledger → Prop) (permits : Ledger → Effect → Prop) :
    Protocol Ledger Effect := ⟨init, Ledger.after, permits⟩

variable {init : Ledger → Prop} {permits : Ledger → Effect → Prop}

lemma run_ledgers (s : Ledger) (j : List Effect) :
    (ledgers init permits).run s j = ⟨replay s.store j, s.uploads ++ puts j⟩ := by
  induction j generalizing s with
  | nil => simp [puts]
  | cons e j ih =>
    have hputs : puts (e :: j) = puts [e] ++ puts j := List.filterMap_append (l := [e])
    rw [run_cons, ih, hputs, ← List.append_assoc]
    rfl

/-- Whatever was uploaded before, a program has made a journal that keeps to the protocol. -/
def Keeping (init : Ledger → Prop) (permits : Ledger → Effect → Prop) (w w' : World) : Prop :=
  ∃ j, Wrote w w' j ∧ ∀ uploads, (ledgers init permits).Keeps ⟨w.store, uploads⟩ j

instance reflKeeping : Std.Refl (Keeping init permits) :=
  ⟨fun _ => ⟨[], .nil, fun _ => keeps_nil⟩⟩

instance transKeeping : IsTrans World (Keeping init permits) where
  trans w₁ w₂ w₃ := by
    rintro ⟨j, hj, hkeeps⟩ ⟨k, hk, hkeeps'⟩
    refine ⟨j ++ k, hj.trans hk, fun uploads => keeps_append.mpr ⟨hkeeps uploads, ?_⟩⟩
    rw [run_ledgers, ← hj.store]
    exact hkeeps' _

lemma keeping_quiet {w w' : World} (h : Wrote w w' []) : Keeping init permits w w' :=
  ⟨[], h, fun _ => keeps_nil⟩

/-- Effects that are permitted whatever there is. -/
lemma keeping_of_forall {w w' : World} {j : List Effect} (hw : Wrote w w' j)
    (h : ∀ e ∈ j, ∀ s, permits s e) : Keeping init permits w w' :=
  ⟨j, hw, fun _ => keeps_of_forall h⟩

/-- **An invocation** keeps to the protocol that its run keeps to, wherever it ends. -/
lemma journal_keeps {lib : Libs} {i : Invocation}
    (h : Within (OnWorld (Keeping init permits))
      (RunCycle.runCycle i.env lib i.ctx i.agent i.out i.only i.collection)) (s : Ledger) :
    (ledgers init permits).Keeps s (i.journal lib s.store) := by
  obtain ⟨j, hj, hkeeps⟩ := h (.start (World.start s.store) i.spoolDir)
  rw [Invocation.journal_of_wrote hj]
  exact (hkeeps s.uploads).take i.lifetime

end MongoSyncAgent.Ledgers
