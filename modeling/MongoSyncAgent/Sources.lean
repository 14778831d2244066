import MongoSyncAgent.Runtime
import MongoSyncAgent.Lines
import Mathlib.Data.List.Nodup
import Mathlib.Data.List.Sort

/-!
Discovering the files of a log source, and where to go on reading in each of them.

A file of at least `fpPrefix` bytes is known by the digest of its first bytes, whatever its
path; a smaller one by its path.
-/

namespace MongoSyncAgent.Sources

open MongoSyncAgent.Py MongoSyncAgent.Codecs MongoSyncAgent.Config MongoSyncAgent.State
open MongoSyncAgent.Runtime MongoSyncAgent.Timestamps MongoSyncAgent.Outcomes

variable (lib : Libs) (env : Env)

/-- `FP_PREFIX`. -/
def fpPrefix : ℕ := 4096

structure TailPlan where
  path : Path
  fingerprint : Option HexDigest
  startOffset : ℕ
  deriving DecidableEq

/-- `_provisional_key`. -/
def provisionalKey (path : Path) : String := "path:" ++ path

/-- The key of a plan in the state store. -/
def TailPlan.key (plan : TailPlan) : String :=
  match plan.fingerprint with
  | some fp => fp.val
  | none => provisionalKey plan.path

/-- `fingerprint`; the outer `none` is an `OSError`. -/
def fingerprint (path : Path) : Option (Option HexDigest) := do
  let st ← env.file (.prefixSize path) path
  if st.data.length < fpPrefix then return none
  let f ← env.file (.readPrefix path) path
  return some (lib.sha256 (f.data.take fpPrefix))

/-- The regular files that the glob matches, with their times. -/
def entries (source : LogSourceConfig) : List (ℤ × Path) :=
  (env.glob source.pathGlob (env.fs (.glob source.name))).filterMap fun path => do
    let st ← env.file (.stat path) path
    if st.regular then some (st.mtime, path) else none

/-- The order of `entries.sort(key=lambda e: (e[0], e[1]))`. -/
def older (a b : ℤ × Path) : Prop := a.1 < b.1 ∨ a.1 = b.1 ∧ ¬ b.2 < a.2

instance (a b : ℤ × Path) : Decidable (older a b) := by unfold older; exact inferInstance

/-- The offset to resume from: `0` where the file is smaller than the stored offset. -/
def resume (existing : FileOffset) (size : ℕ) : ℕ :=
  if size < existing.offset then 0 else existing.offset

/-- The body of the loop of `discover`; `none` where the file is skipped this poll. -/
def planFor (stateOffsets : Offsets) (path : Path) : Option TailPlan := do
  let fp ← fingerprint lib env path
  match fp with
  | some digest =>
    match stateOffsets.lookup digest.val with
    | some existing =>
      let st ← env.file (.size path) path
      return ⟨path, some digest, resume existing st.data.length⟩
    | none => return ⟨path, some digest, 0⟩
  | none =>
    match stateOffsets.lookup (provisionalKey path) with
    | some existing =>
      let st ← env.file (.size path) path
      return ⟨path, none, resume existing st.data.length⟩
    | none => return ⟨path, none, 0⟩

def discover (source : LogSourceConfig) (stateOffsets : Offsets) : List TailPlan :=
  ((entries env source).insertionSort older).filterMap fun e => planFor lib env stateOffsets e.2

/-! ### Forgetting stale offsets -/

/-- `timedelta(days=n)`, in microseconds. -/
def days (n : ℤ) : Except Exc ℤ :=
  if -999999999 ≤ n ∧ n ≤ 999999999 then .ok (n * dayMicros)
  else raise .overflowError "days must have magnitude <= 999999999"

/-- Whether `gc_offsets` deletes a record. -/
def isStale (current : List String) (cutoff : Datetime) (key : String) (fo : FileOffset) : Bool :=
  if current.contains key then false
  else
    match fo.updatedAt with
    | none => false
    | some updated =>
      -- a naive time is taken for UTC, which its instant already says
      updated.instant < cutoff.instant

/-- The loop of `gc_offsets`, over the records of the source. -/
def gcLoop (source : String) (current : List String) (cutoff : Datetime) :
    List (String × FileOffset) → M ℕ
  | [] => return 0
  | (key, fo) :: rest =>
    if isStale current cutoff key fo then do
      call env (.deleteOffset source key)
      emit (.deleteOffset source key)
      return (← gcLoop source current cutoff rest) + 1
    else gcLoop source current cutoff rest

def gcOffsets (source : String) (current : List String) (gcDays : ℤ) : M ℕ := do
  let delta ← lift (days gcDays)
  let cutoff ← lift ((env.clock (.gcNow source)).sub delta)
  call env (.gcOffsets source)
  let w ← get
  gcLoop env source current cutoff
    ((w.store.fileOffsets source).entries.map fun e => (e.1, e.2))

/-- Deletions of records of the source that are not current. -/
def Deletions (source : String) (current : List String) (j : List Effect) : Prop :=
  ∀ e ∈ j, ∃ key, e = .deleteOffset source key ∧ key ∉ current

variable {lib env} {w : World}

lemma gcLoop_ensures {source : String} {current : List String} {cutoff : Datetime}
    (items : List (String × FileOffset)) :
    Ensures (gcLoop env source current cutoff items) w fun _ w' =>
      ∃ j, Wrote w w' j ∧ Deletions source current j := by
  induction items generalizing w with
  | nil => exact ⟨[], .nil, by simp [Deletions]⟩
  | cons item rest ih =>
    obtain ⟨key, fo⟩ := item
    unfold gcLoop
    by_cases hs : isStale current cutoff key fo
    · rw [if_pos hs, ensures_bind]
      refine ensures_call (fun e => ⟨[], .nil, by simp [Deletions]⟩) fun _ => ?_
      rw [ensures_bind]
      refine ensures_emit ?_
      have hkey : key ∉ current := by
        intro hmem
        simp [isStale, hmem] at hs
      refine Ensures.bind ih ?_ ?_ <;>
      · rintro a w' ⟨j, hj, hdel⟩
        refine ⟨.deleteOffset source key :: j, hj.cons, fun e he => ?_⟩
        rcases List.mem_cons.mp he with rfl | he
        · exact ⟨key, rfl, hkey⟩
        · exact hdel e he
    · rw [if_neg hs]
      exact ih

/-- **Garbage collection** deletes only records that no current key has. -/
theorem gcOffsets_ensures (source : String) (current : List String) (gcDays : ℤ) :
    Ensures (gcOffsets env source current gcDays) w fun _ w' =>
      ∃ j, Wrote w w' j ∧ Deletions source current j := by
  have hnil : ∃ j, Wrote w w j ∧ Deletions source current j := ⟨[], .nil, by simp [Deletions]⟩
  unfold gcOffsets
  rw [ensures_bind]
  refine ensures_lift ?_
  rcases days gcDays with e | delta
  · exact hnil
  simp only [ensures_bind]
  refine ensures_lift ?_
  rcases (env.clock (.gcNow source)).sub delta with e | cutoff
  · exact hnil
  refine ensures_call (fun e => hnil) fun _ => ?_
  simp only [ensures_get]
  exact gcLoop_ensures _

/-! ### Plans of a poll that finds the files as they are -/

/-- All calls of the run find the same files, and the glob lists each of them once. -/
structure Sees (env : Env) (source : LogSourceConfig) (fs : FS) : Prop where
  fs_eq : ∀ c, env.fs c = fs
  glob_perm : (env.glob source.pathGlob fs).Perm fs.keys

/-- The fingerprint of a file's content. -/
def fingerprintOf (lib : Libs) (data : Bytes) : Option HexDigest :=
  if data.length < fpPrefix then none else some (lib.sha256 (data.take fpPrefix))

/-- The key that `discover` uses for a file. -/
def keyOf (lib : Libs) (path : Path) (data : Bytes) : String :=
  match fingerprintOf lib data with
  | some fp => fp.val
  | none => provisionalKey path

/-- Where a poll goes on in a file, by what is stored under its key. -/
def startOf (offsets : Offsets) (key : String) (size : ℕ) : ℕ :=
  ((offsets.lookup key).map fun fo => resume fo size).getD 0

/-- The plan for a file. -/
def planOf (lib : Libs) (offsets : Offsets) (path : Path) (data : Bytes) : TailPlan :=
  ⟨path, fingerprintOf lib data, startOf offsets (keyOf lib path data) data.length⟩

/-! ### Keys -/

lemma provisionalKey_inj {p q : Path} (h : provisionalKey p = provisionalKey q) : p = q := by
  have := congrArg String.toList h
  simpa [provisionalKey, String.toList_inj] using this

/-- No digest is a path key: `p` is not a hex digit. -/
lemma provisionalKey_ne_digest (p : Path) (d : HexDigest) : provisionalKey p ≠ d.val := by
  intro h
  have hp : 'p' ∈ d.val.toList := by
    rw [← h]
    simp [provisionalKey]
  have := d.prop 'p' hp
  revert this
  decide

lemma keyOf_small {p : Path} {data : Bytes} (h : data.length < fpPrefix) :
    keyOf lib p data = provisionalKey p := by
  simp [keyOf, fingerprintOf, h]

lemma keyOf_large {p : Path} {data : Bytes} (h : fpPrefix ≤ data.length) :
    keyOf lib p data = (lib.sha256 (data.take fpPrefix)).val := by
  simp [keyOf, fingerprintOf, Nat.not_lt.mpr h]

lemma fingerprintOf_large {data : Bytes} (h : fpPrefix ≤ data.length) :
    fingerprintOf lib data = some (lib.sha256 (data.take fpPrefix)) := if_neg (Nat.not_lt.mpr h)

lemma fingerprintOf_some {data : Bytes} {d : HexDigest} (h : fingerprintOf lib data = some d) :
    fpPrefix ≤ data.length ∧ d = lib.sha256 (data.take fpPrefix) := by
  unfold fingerprintOf at h
  split_ifs at h with hlt
  exact ⟨Nat.not_lt.mp hlt, (Option.some.inj h).symm⟩

lemma keyOf_digest {p : Path} {data : Bytes} {d : HexDigest}
    (h : fingerprintOf lib data = some d) : keyOf lib p data = d.val := by
  rw [keyOf, h]

/-! ### The plans that a poll makes -/

variable {source : LogSourceConfig} {fs : FS} {offsets : Offsets}

lemma Sees.file (h : Sees env source fs) (c : Call) (p : Path) :
    env.file c p = if env.osError c then none else fs.lookup p := by
  rw [Env.file, h.fs_eq]

lemma Sees.file_some (h : Sees env source fs) {c : Call} {p : Path} {node : Node}
    (hf : env.file c p = some node) : fs.lookup p = some node := by
  rw [h.file] at hf
  split at hf
  · cases hf
  · exact hf

lemma planFor_some (h : Sees env source fs) {p : Path} {plan : TailPlan}
    (hp : planFor lib env offsets p = some plan) :
    ∃ node, fs.lookup p = some node ∧ plan = planOf lib offsets p node.data := by
  unfold planFor fingerprint at hp
  simp only [Option.bind_eq_bind, Option.bind_eq_some_iff] at hp
  obtain ⟨fp, ⟨st, hst, hfp⟩, hp⟩ := hp
  have hnode := h.file_some hst
  refine ⟨st, hnode, ?_⟩
  have hfp' : fp = fingerprintOf lib st.data := by
    unfold fingerprintOf
    split_ifs at hfp ⊢ with hlt
    · exact (Option.some.inj hfp).symm
    · obtain ⟨f, hf, hfp⟩ := Option.bind_eq_some_iff.mp hfp
      obtain rfl := Option.some.inj (hnode.symm.trans (h.file_some hf))
      exact (Option.some.inj hfp).symm
  have hsize : ∀ node, env.file (.size p) p = some node → node = st := fun node hn =>
    Option.some.inj ((h.file_some hn).symm.trans hnode)
  unfold planOf startOf keyOf
  rw [← hfp']
  cases fp with
  | some digest =>
    simp only at hp ⊢
    rcases ho : offsets.lookup digest.val with _ | existing
    · simp only [ho] at hp
      simpa using (Option.some.inj hp).symm
    · simp only [ho] at hp
      obtain ⟨node, hn, hp⟩ := Option.bind_eq_some_iff.mp hp
      rw [hsize node hn] at hp
      simpa using (Option.some.inj hp).symm
  | none =>
    simp only at hp ⊢
    rcases ho : offsets.lookup (provisionalKey p) with _ | existing
    · simp only [ho] at hp
      simpa using (Option.some.inj hp).symm
    · simp only [ho] at hp
      obtain ⟨node, hn, hp⟩ := Option.bind_eq_some_iff.mp hp
      rw [hsize node hn] at hp
      simpa using (Option.some.inj hp).symm

/-- **Every plan** is the plan of a file that is there. -/
theorem mem_discover (h : Sees env source fs) {plan : TailPlan}
    (hp : plan ∈ discover lib env source offsets) :
    ∃ node, fs.lookup plan.path = some node ∧ plan = planOf lib offsets plan.path node.data := by
  obtain ⟨e, -, he⟩ := List.mem_filterMap.mp hp
  obtain ⟨node, hn, hplan⟩ := planFor_some h he
  have hpath : plan.path = e.2 := by rw [hplan]; rfl
  exact ⟨node, by rw [hpath]; exact hn, by rw [hpath]; exact hplan⟩

lemma planFor_path {p : Path} {plan : TailPlan} (h : planFor lib env offsets p = some plan) :
    plan.path = p := by
  unfold planFor at h
  obtain ⟨fp, -, h⟩ := Option.bind_eq_some_iff.mp h
  rcases fp with _ | digest <;> simp only at h
  · rcases ho : offsets.lookup (provisionalKey p) with _ | existing <;> simp only [ho] at h
    · exact (Option.some.inj h) ▸ rfl
    · obtain ⟨_, -, h⟩ := Option.bind_eq_some_iff.mp h
      exact (Option.some.inj h) ▸ rfl
  · rcases ho : offsets.lookup digest.val with _ | existing <;> simp only [ho] at h
    · exact (Option.some.inj h) ▸ rfl
    · obtain ⟨_, -, h⟩ := Option.bind_eq_some_iff.mp h
      exact (Option.some.inj h) ▸ rfl

lemma filterMap_map_sublist {α β γ : Type} {f : α → Option β} {g : β → γ} {k : α → γ}
    (h : ∀ a b, f a = some b → g b = k a) (l : List α) :
    ((l.filterMap f).map g).Sublist (l.map k) := by
  induction l with
  | nil => simp
  | cons a l ih =>
    rcases hf : f a with _ | b
    · rw [List.filterMap_cons_none hf, List.map_cons]
      exact ih.cons _
    · rw [List.filterMap_cons_some hf, List.map_cons, List.map_cons, h a b hf]
      exact ih.cons_cons _

/-- No file gets two plans. -/
lemma discover_nodup (h : Sees env source fs) :
    ((discover lib env source offsets).map (·.path)).Nodup := by
  have hglob : (env.glob source.pathGlob (env.fs (.glob source.name))).Nodup := by
    rw [h.fs_eq]
    exact h.glob_perm.nodup_iff.mpr fs.keys_nodup
  have hentries : ((entries env source).map Prod.snd).Nodup := by
    have hsub := filterMap_map_sublist (g := Prod.snd) (k := id)
      (f := fun path => do
        let st ← env.file (.stat path) path
        if st.regular then some (st.mtime, path) else none)
      (fun p e he => by
        obtain ⟨st, -, he⟩ := Option.bind_eq_some_iff.mp he
        split_ifs at he
        exact (Option.some.inj he) ▸ rfl)
      (env.glob source.pathGlob (env.fs (.glob source.name)))
    rw [List.map_id] at hsub
    exact hsub.nodup hglob
  have hsorted : (((entries env source).insertionSort older).map Prod.snd).Nodup :=
    ((List.perm_insertionSort older _).map Prod.snd).nodup_iff.mpr hentries
  exact (filterMap_map_sublist (fun e plan hp => planFor_path hp) _).nodup hsorted

/-- **No file is left out**, where no file operation fails. -/
theorem discover_complete (h : Sees env source fs) (hos : ∀ c, env.osError c = false) {p : Path}
    {node : Node} (hn : fs.lookup p = some node) (hreg : node.regular) :
    planOf lib offsets p node.data ∈ discover lib env source offsets := by
  have hfile : ∀ c, env.file c p = some node := fun c => by
    rw [h.file, hos]
    simpa using hn
  have hentry : (node.mtime, p) ∈ entries env source := by
    refine List.mem_filterMap.mpr ⟨p, ?_, ?_⟩
    · rw [h.fs_eq]
      exact h.glob_perm.mem_iff.mpr (AList.lookup_isSome.mp (by rw [hn]; rfl))
    · simp [hfile, hreg]
  refine List.mem_filterMap.mpr ⟨(node.mtime, p), (List.mem_insertionSort older).mpr hentry, ?_⟩
  have hfp : fingerprint lib env p = some (fingerprintOf lib node.data) := by
    unfold fingerprint fingerprintOf
    simp only [hfile, Option.bind_eq_bind, Option.bind_some]
    split_ifs <;> rfl
  unfold planFor planOf startOf keyOf
  simp only [hfp, Option.bind_eq_bind, Option.bind_some]
  rcases fingerprintOf lib node.data with _ | digest <;> simp only
  · rcases offsets.lookup (provisionalKey p) with _ | existing <;> simp [hfile]
  · rcases offsets.lookup digest.val with _ | existing <;> simp [hfile]

end MongoSyncAgent.Sources
