import MongoSyncAgent.Ship
import MongoSyncAgent.Systems
import MongoSyncAgent.Windows

/-!
Runs of one log source over files that are appended to and rotated.

Which file stands at a path is kept beside the files, as the number a file got when it was
created; the agent never sees it. So is what each upload and each commit was made of.
-/

namespace MongoSyncAgent.LogRuns

open MongoSyncAgent.Config MongoSyncAgent.State MongoSyncAgent.Runtime MongoSyncAgent.Outcomes
open MongoSyncAgent.Sources MongoSyncAgent.Sinks MongoSyncAgent.Ship MongoSyncAgent.Systems
open MongoSyncAgent.Codecs MongoSyncAgent.Keys MongoSyncAgent.Lines MongoSyncAgent.Records
open MongoSyncAgent.Drain MongoSyncAgent.Windows

/-- What an upload was made of. -/
structure Shipment where
  env : Env
  ctx : RunContext
  parts : List Part
  /-- The files that stood at the paths. -/
  ident : Path → ℕ

structure LogState where
  fs : FS
  ident : Path → ℕ
  /-- The number of files there have been. -/
  created : ℕ
  store : StateStore
  bucket : List Put
  shipped : List Shipment
  committed : List Shipment

inductive LogEvent
  | append (p : Path) (bs : Bytes) (mtime : ℤ)
  /-- The file at `p` is renamed to `q`, and a new one created at `p`. -/
  | rotate (p q : Path) (mtime : ℤ)
  | ship (env : Env) (ctx : RunContext) (gcDays : ℤ)
  | gc (env : Env) (current : List String) (gcDays : ℤ)

/-- Files of at least `fpPrefix` bytes differ in their first `fpPrefix` bytes. -/
def DistinctPrefixes (fs : FS) : Prop :=
  ∀ p q m n, fs.lookup p = some m → fs.lookup q = some n → fpPrefix ≤ m.data.length →
    fpPrefix ≤ n.data.length → m.data.take fpPrefix = n.data.take fpPrefix → p = q

def isCommit : Effect → Bool
  | .setOffsets .. => true
  | _ => false

variable (lib : Libs) (source : LogSourceConfig) (u : S3Uploader)

/-- The object of an upload. -/
def Shipment.put (sh : Shipment) : Put :=
  ⟨logsKey u.pre source.name sh.ctx.runDt, .ndjson (recordsOf sh.env source sh.ctx sh.parts)⟩

/-- What a run collects. -/
def collected (env : Env) (store : StateStore) : List Part :=
  match drainPlans lib env source (discover lib env source (store.fileOffsets source.name)) with
  | .ok parts => parts
  | .error _ => []

/-- What is left of a run of the source. -/
def shipRun (env : Env) (ctx : RunContext) (gcDays : ℤ) (store : StateStore) : World :=
  (exec (shipSource lib env source u ctx gcDays) (World.start store)).2

namespace LogState

def shipment (s : LogState) (env : Env) (ctx : RunContext) : Shipment :=
  ⟨env, ctx, collected lib source env s.store, s.ident⟩

/-- The state after a run of the source. -/
def ship (s : LogState) (env : Env) (ctx : RunContext) (gcDays : ℤ) : LogState :=
  let w := shipRun lib source u env ctx gcDays s.store
  { s with
    store := w.store
    bucket := s.bucket ++ puts w.journal
    shipped := s.shipped ++ if puts w.journal = [] then [] else [s.shipment lib source env ctx]
    committed := s.committed ++
      if w.journal.any isCommit then [s.shipment lib source env ctx] else [] }

def append (s : LogState) (p : Path) (node : Node) (bs : Bytes) (mtime : ℤ) : LogState :=
  { s with fs := s.fs.insert p { node with data := node.data ++ bs, mtime } }

def rotate (s : LogState) (p q : Path) (node : Node) (mtime : ℤ) : LogState :=
  { s with
    fs := (s.fs.insert q node).insert p ⟨[], mtime, true⟩
    ident := fun x => if x = p then s.created else if x = q then s.ident p else s.ident x
    created := s.created + 1 }

def gc (s : LogState) (env : Env) (current : List String) (gcDays : ℤ) : LogState :=
  { s with store :=
      (exec (gcOffsets env source.name current gcDays) (World.start s.store)).2.store }

end LogState

inductive LogStep : LogState → LogEvent → LogState → Prop
  | append {s p bs mtime node} (hp : s.fs.lookup p = some node)
    (hd : DistinctPrefixes (s.append p node bs mtime).fs) :
    LogStep s (.append p bs mtime) (s.append p node bs mtime)
  | rotate {s p q mtime node} (hp : s.fs.lookup p = some node) (hq : s.fs.lookup q = none) :
    LogStep s (.rotate p q mtime) (s.rotate p q node mtime)
  | ship {s env ctx gcDays} (hs : Sees env source s.fs) :
    LogStep s (.ship env ctx gcDays) (s.ship lib source u env ctx gcDays)
  | gc {s env current gcDays} : LogStep s (.gc env current gcDays) (s.gc source env current gcDays)

/-- A log source from the time when nothing is stored of it, over any files. -/
structure LogInit (s : LogState) : Prop where
  distinct : DistinctPrefixes s.fs
  ident_inj : ∀ p q, s.fs.lookup p ≠ none → s.fs.lookup q ≠ none → s.ident p = s.ident q → p = q
  ident_lt : ∀ p, s.fs.lookup p ≠ none → s.ident p < s.created
  offsets : s.store.fileOffsets source.name = ∅
  bucket : s.bucket = []
  shipped : s.shipped = []
  committed : s.committed = []

def logRuns : System LogState LogEvent where
  init := LogInit source
  step := LogStep lib source u

/-! ### What a run of the source does to the state -/

/-- The state after a run, by what was collected. -/
inductive Shipped (s : LogState) (sh : Shipment) : LogState → Prop
  | nothing : Shipped s sh s
  | uploaded : Shipped s sh
      { s with bucket := s.bucket ++ [sh.put source u], shipped := s.shipped ++ [sh] }
  | committed {deletes} (hdel : Deletions source.name (currentKeys sh.parts) deletes) :
    Shipped s sh
      { s with
        bucket := s.bucket ++ [sh.put source u], shipped := s.shipped ++ [sh]
        committed := s.committed ++ [sh]
        store := replay (s.store.setOffsets source.name (offsetsToCommit sh.env sh.parts)
          (sh.env.clock (.setOffsets source.name))) deletes }

variable {lib source u}

/-! ### Files -/

lemma append_lookup {s : LogState} {p q : Path} {node m : Node} (bs : Bytes) (mtime : ℤ)
    (hp : s.fs.lookup p = some node) (hm : s.fs.lookup q = some m) :
    ∃ m', (s.append p node bs mtime).fs.lookup q = some m' ∧ m.data <+: m'.data ∧
      m'.regular = m.regular := by
  by_cases hq : q = p
  · subst hq
    obtain rfl := Option.some.inj (hp.symm.trans hm)
    exact ⟨_, AList.lookup_insert _, List.prefix_append _ _, rfl⟩
  · exact ⟨m, by rw [LogState.append, AList.lookup_insert_ne hq, hm], List.prefix_rfl, rfl⟩

lemma append_lookup_rev {s : LogState} {p q : Path} {node m : Node} {bs : Bytes} {mtime : ℤ}
    (hp : s.fs.lookup p = some node) (hm : (s.append p node bs mtime).fs.lookup q = some m) :
    ∃ m', s.fs.lookup q = some m' ∧ m'.data <+: m.data ∧ m.regular = m'.regular := by
  by_cases hq : q = p
  · subst hq
    rw [LogState.append, AList.lookup_insert] at hm
    obtain rfl := Option.some.inj hm
    exact ⟨node, hp, List.prefix_append _ _, rfl⟩
  · rw [LogState.append, AList.lookup_insert_ne hq] at hm
    exact ⟨m, hm, List.prefix_rfl, rfl⟩

lemma rotate_lookup (s : LogState) (p q x : Path) (node : Node) (mtime : ℤ) :
    (s.rotate p q node mtime).fs.lookup x =
      if x = p then some ⟨[], mtime, true⟩ else if x = q then some node else s.fs.lookup x := by
  split_ifs with hp hq
  · subst hp
    exact AList.lookup_insert _
  · subst hq
    rw [LogState.rotate, AList.lookup_insert_ne hp, AList.lookup_insert]
  · rw [LogState.rotate, AList.lookup_insert_ne hp, AList.lookup_insert_ne hq]

/-- After a rotation every file but the new one is a file from before, by the same content. -/
lemma rotate_lookup_rev {s : LogState} {p q x : Path} {node m : Node} {mtime : ℤ}
    (hp : s.fs.lookup p = some node) (h : (s.rotate p q node mtime).fs.lookup x = some m) :
    x = p ∧ m.data = [] ∨
      x ≠ p ∧ s.fs.lookup (if x = q then p else x) = some m := by
  rw [rotate_lookup] at h
  by_cases h1 : x = p
  · rw [if_pos h1] at h
    exact .inl ⟨h1, (Option.some.inj h) ▸ rfl⟩
  rw [if_neg h1] at h
  refine .inr ⟨h1, ?_⟩
  by_cases h2 : x = q
  · rw [if_pos h2] at h ⊢
    rw [hp, Option.some.inj h]
  · rwa [if_neg h2] at h ⊢

lemma distinct_rotate {s : LogState} {p q : Path} {node : Node} {mtime : ℤ}
    (hd : DistinctPrefixes s.fs) (hp : s.fs.lookup p = some node) :
    DistinctPrefixes (s.rotate p q node mtime).fs := by
  intro x y m n hm hn hml hnl heq
  have hnew : ∀ z k, (s.rotate p q node mtime).fs.lookup z = some k → fpPrefix ≤ k.data.length →
      z ≠ p ∧ s.fs.lookup (if z = q then p else z) = some k := by
    intro z k hk hl
    rcases rotate_lookup_rev hp hk with ⟨-, hnil⟩ | h
    · rw [hnil] at hl
      exact absurd hl (by decide)
    · exact h
  obtain ⟨hx, hx'⟩ := hnew x m hm hml
  obtain ⟨hy, hy'⟩ := hnew y n hn hnl
  have hxy := hd _ _ m n hx' hy' hml hnl heq
  by_cases h1 : x = q <;> by_cases h2 : y = q
  · rw [h1, h2]
  · rw [if_pos h1, if_neg h2] at hxy
    exact absurd hxy.symm hy
  · rw [if_neg h1, if_pos h2] at hxy
    exact absurd hxy hx
  · rwa [if_neg h1, if_neg h2] at hxy

/-! ### Keys and their files -/

/-- The file at `p` is the one that a key stands for. -/
def Owns (lib : Libs) (key : String) (p : Path) (node : Node) : Prop :=
  key = provisionalKey p ∨
    fpPrefix ≤ node.data.length ∧ key = (lib.sha256 (node.data.take fpPrefix)).val

lemma owns_keyOf (p : Path) (node : Node) : Owns lib (keyOf lib p node.data) p node := by
  rcases Nat.lt_or_ge node.data.length fpPrefix with h | h
  · exact .inl (keyOf_small h)
  · exact .inr ⟨h, keyOf_large h⟩

/-- **A key has one file.** The file that owns the key which `discover` uses for a file is that
file. -/
theorem owner_unique (hsha : Function.Injective lib.sha256) {fs : FS} (hd : DistinctPrefixes fs)
    {p q : Path} {m n : Node} (hm : fs.lookup p = some m) (hn : fs.lookup q = some n)
    (h : Owns lib (keyOf lib q n.data) p m) : p = q := by
  rcases Nat.lt_or_ge n.data.length fpPrefix with hlt | hge
  · rw [keyOf_small hlt] at h
    rcases h with h | ⟨-, h⟩
    · exact (provisionalKey_inj h).symm
    · exact absurd h (provisionalKey_ne_digest _ _)
  · rw [keyOf_large hge] at h
    rcases h with h | ⟨hm', h⟩
    · exact absurd h.symm (provisionalKey_ne_digest _ _)
    · exact hd p q m n hm hn hm' hge (hsha (Subtype.val_injective h)).symm

lemma Owns.grow {key : String} {p : Path} {node node' : Node} (hpre : node.data <+: node'.data)
    (h : Owns lib key p node) : Owns lib key p node' := by
  rcases h with h | ⟨h1, h2⟩
  · exact .inl h
  · exact .inr ⟨h1.trans hpre.length_le, by rw [h2, take_mono hpre h1]⟩

lemma keyOf_inj (hsha : Function.Injective lib.sha256) {fs : FS} (hd : DistinctPrefixes fs)
    {p q : Path} {m n : Node} (hm : fs.lookup p = some m) (hn : fs.lookup q = some n)
    (h : keyOf lib p m.data = keyOf lib q n.data) : p = q :=
  owner_unique hsha hd hm hn (h ▸ owns_keyOf p m)

/-! ### The outcomes of a run -/

lemma deletions_puts {src : String} {current : List String} {j : List Effect}
    (h : Deletions src current j) : puts j = [] ∧ j.any isCommit = false := by
  induction j with
  | nil => exact ⟨rfl, rfl⟩
  | cons e j ih =>
    obtain ⟨key, rfl, -⟩ := h e List.mem_cons_self
    obtain ⟨h1, h2⟩ := ih fun e he => h e (List.mem_cons_of_mem _ he)
    exact ⟨by simpa [puts] using h1, by simpa [isCommit] using h2⟩

lemma ship_eq {s : LogState} {env : Env} {ctx : RunContext} {gcDays : ℤ} {j : List Effect}
    (h : Wrote (World.start s.store) (shipRun lib source u env ctx gcDays s.store) j) :
    s.ship lib source u env ctx gcDays =
      { s with
        store := replay s.store j
        bucket := s.bucket ++ puts j
        shipped := s.shipped ++ if puts j = [] then [] else [s.shipment lib source env ctx]
        committed := s.committed ++
          if j.any isCommit then [s.shipment lib source env ctx] else [] } := by
  have hstore : (shipRun lib source u env ctx gcDays s.store).store = replay s.store j := h.store
  have hjournal : (shipRun lib source u env ctx gcDays s.store).journal = j := h.2
  simp only [LogState.ship, hstore, hjournal]

/-- **A run of the source**, by its outcome. -/
theorem ship_cases (s : LogState) (env : Env) (ctx : RunContext) (gcDays : ℤ) :
    s.ship lib source u env ctx gcDays = s ∨
      drainPlans lib env source (discover lib env source (s.store.fileOffsets source.name)) =
        .ok (s.shipment lib source env ctx).parts ∧
      Shipped source u s (s.shipment lib source env ctx)
        (s.ship lib source u env ctx gcDays) := by
  have hend : Wrote _ _ _ ∨ _ :=
    @shipSource_ensures lib env source (World.start s.store) u ctx gcDays
  rcases hend with h | ⟨parts, j, hparts, hj, hship⟩
  · exact .inl (by rw [ship_eq h]; simp [puts])
  have hcol : (s.shipment lib source env ctx).parts = parts := by
    show collected lib source env s.store = parts
    unfold collected
    rw [show s.store = (World.start s.store).store from rfl, hparts]
  subst hcol
  refine .inr ⟨hparts, ?_⟩
  rw [ship_eq hj]
  cases hship with
  | nothing => simpa [puts] using (Shipped.nothing : Shipped source u s _ s)
  | uploaded hne hdry =>
    have hputs : ∀ a, puts [Effect.put a] = [a] := fun _ => rfl
    simp only [hputs, replay_cons, replay_nil, apply, List.any_cons, List.any_nil, isCommit,
      Bool.or_false, List.cons_ne_nil, if_false, Bool.false_eq_true, List.append_nil]
    exact .uploaded
  | @committed deletes hne hdry hdel =>
    obtain ⟨h1, h2⟩ := deletions_puts hdel
    have hputs : ∀ a b c d, puts (Effect.put a :: Effect.setOffsets b c d :: deletes) = [a] :=
      fun a b c d => by simpa [puts] using h1
    simp only [hputs, replay_cons, apply, List.any_cons, isCommit, Bool.false_or, Bool.true_or,
      if_true, List.cons_ne_nil, if_false]
    exact .committed hdel

/-- What is uploaded: an object for each shipment, the committed ones among them. -/
structure Stocked (source : LogSourceConfig) (u : S3Uploader) (s : LogState) : Prop where
  bucket : s.bucket = s.shipped.map (Shipment.put source u)
  committed : s.committed.Sublist s.shipped

theorem stocked {s : LogState} (h : (logRuns lib source u).Reachable s) : Stocked source u s := by
  refine h.invariant (fun s hs => ?_) fun s e s' _ ih hstep => ?_
  · exact ⟨by rw [hs.bucket, hs.shipped]; rfl, by rw [hs.committed]; exact List.nil_sublist _⟩
  obtain ⟨hbucket, hsub⟩ := ih
  cases hstep with
  | append => exact ⟨hbucket, hsub⟩
  | rotate => exact ⟨hbucket, hsub⟩
  | gc => exact ⟨hbucket, hsub⟩
  | @ship env ctx gcDays hs =>
    rcases ship_cases (u := u) s env ctx gcDays with heq | ⟨-, hship⟩
    · rw [heq]
      exact ⟨hbucket, hsub⟩
    generalize s.ship lib source u env ctx gcDays = s' at hship
    cases hship with
    | nothing => exact ⟨hbucket, hsub⟩
    | uploaded => exact ⟨by simp [hbucket], hsub.trans (List.sublist_append_left _ _)⟩
    | committed => exact ⟨by simp [hbucket], hsub.append (List.Sublist.refl _)⟩

/-! ### The offsets that a run leaves -/

lemma lookup_deletions {src : String} {current : List String} {j : List Effect}
    (h : Deletions src current j) (st : StateStore) :
    (∀ key fo, ((replay st j).fileOffsets src).lookup key = some fo →
      (st.fileOffsets src).lookup key = some fo) ∧
    ∀ key ∈ current, ((replay st j).fileOffsets src).lookup key =
      (st.fileOffsets src).lookup key := by
  induction j generalizing st with
  | nil => exact ⟨fun _ _ h => h, fun _ _ => rfl⟩
  | cons e j ih =>
    obtain ⟨k, rfl, hk⟩ := h e List.mem_cons_self
    obtain ⟨h1, h2⟩ := ih (fun e he => h e (List.mem_cons_of_mem _ he)) (st.deleteOffset src k)
    have herase : (st.deleteOffset src k).fileOffsets src = (st.fileOffsets src).erase k :=
      if_pos rfl
    refine ⟨fun key fo hfo => ?_, fun key hkey => ?_⟩
    · have hlookup := h1 key fo hfo
      rw [herase] at hlookup
      by_cases hkk : key = k
      · rw [hkk, AList.lookup_erase] at hlookup
        cases hlookup
      · rwa [AList.lookup_erase_ne hkk] at hlookup
    · have hne : key ≠ k := fun h => hk (h ▸ hkey)
      rw [replay_cons, apply, h2 key hkey, herase, AList.lookup_erase_ne hne]

lemma setOffsets_offsets (st : StateStore) (offsets : List FileOffset) (t) :
    (st.setOffsets source.name offsets t).fileOffsets source.name =
      StateStore.upserts offsets t (st.fileOffsets source.name) := if_pos rfl

/-- A record after a commit is the end of a part of the commit, or one that was there and whose
key no part has. -/
lemma committed_lookup {st : StateStore} {sh : Shipment} {deletes : List Effect} {t}
    (hdel : Deletions source.name (currentKeys sh.parts) deletes) {key : String} {fo : FileOffset}
    (h : ((replay (st.setOffsets source.name (offsetsToCommit sh.env sh.parts) t)
      deletes).fileOffsets source.name).lookup key = some fo) :
    (∃ part ∈ sh.parts, part.plan.key = key ∧ fo.offset = part.endOffset) ∨
      (∀ part ∈ sh.parts, part.plan.key ≠ key) ∧
        (st.fileOffsets source.name).lookup key = some fo := by
  have hset := (lookup_deletions hdel _).1 key fo h
  rw [setOffsets_offsets] at hset
  rcases upserts_cases hset with ⟨fo', hfo', hkey, rfl⟩ | ⟨hnone, hold⟩
  · obtain ⟨⟨k, plan, offset⟩, hitem, rfl⟩ := List.mem_map.mp hfo'
    obtain ⟨part, hpart, heq⟩ := List.mem_map.mp (Py.mem_dictOf hitem)
    obtain ⟨rfl, rfl, rfl⟩ := by simpa using heq
    exact .inl ⟨part, hpart, hkey, rfl⟩
  · refine .inr ⟨fun part hpart hkey => ?_, hold⟩
    have hmem : part.plan.key ∈ (newOffsets sh.parts).map Prod.fst := by
      refine Py.dictOf_keys (List.mem_map.mpr ⟨_, List.mem_map_of_mem hpart, rfl⟩)
    obtain ⟨item, hitem, hk⟩ := List.mem_map.mp hmem
    exact hnone _ (List.mem_map_of_mem hitem) (hk.trans hkey)

lemma gc_lookup {s : LogState} {env : Env} {current : List String} {gcDays : ℤ} {key : String}
    {fo : FileOffset}
    (h : ((s.gc source env current gcDays).store.fileOffsets source.name).lookup key = some fo) :
    (s.store.fileOffsets source.name).lookup key = some fo := by
  obtain ⟨j, hj, hdel⟩ := @gcOffsets_ensures env (World.start s.store) source.name current
    gcDays
  have hstore : (s.gc source env current gcDays).store = replay s.store j := hj.store
  rw [hstore] at h
  exact (lookup_deletions hdel _).1 key fo h

/-! ### The parts of a run -/

lemma drainPlans_ok {env : Env} {plans : List TailPlan} {parts : List Part}
    (h : drainPlans lib env source plans = .ok parts) :
    parts.map (·.plan) = plans ∧
      ∀ part ∈ parts, drainPlan lib env source part.plan = .ok part.chunks := by
  induction plans generalizing parts with
  | nil =>
    obtain rfl := Except.ok.inj h
    simp
  | cons plan plans ih =>
    obtain ⟨chunks, hchunks, h⟩ := Py.bind_ok h
    obtain ⟨rest, hrest, h⟩ := Py.bind_ok h
    obtain rfl := Except.ok.inj h
    obtain ⟨h1, h2⟩ := ih hrest
    refine ⟨by simp [h1], fun part hpart => ?_⟩
    rcases List.mem_cons.mp hpart with rfl | hpart
    · exact hchunks
    · exact h2 part hpart

lemma records_lines (env : Env) (source : LogSourceConfig) (ctx : RunContext) (part : Part) :
    (part.records env source ctx).map (·.line) = part.chunks.flatMap (·.lines) := by
  rw [Part.records, List.map_flatMap]
  congr 1
  funext chunk
  rw [chunkRecords, List.map_map]
  exact List.map_id _

/-- A record carries its source, the host of the run and the path of its part. -/
lemma mem_records {env : Env} {ctx : RunContext} {part : Part} {r : LogRecord}
    (h : r ∈ part.records env source ctx) : r.source = source.name ∧ r.host = ctx.host ∧
      r.file = pathName part.plan.path ∧ ∃ c, r.shippedAt = env.clock c := by
  obtain ⟨chunk, -, hr⟩ := List.mem_flatMap.mp h
  obtain ⟨line, -, rfl⟩ := List.mem_map.mp hr
  exact ⟨rfl, rfl, rfl, _, rfl⟩

/-- A part of a run: the plan of a file that is there, and what draining the file gave. -/
structure PartOf (lib : Libs) (source : LogSourceConfig) (env : Env) (fs : FS)
    (offsets : Offsets) (part : Part) (node : Node) : Prop where
  lookup : fs.lookup part.plan.path = some node
  plan : part.plan = planOf lib offsets part.plan.path node.data
  drained : drainPlan lib env source part.plan = .ok part.chunks

variable {env : Env} {fs : FS} {offsets : Offsets} {part : Part} {node : Node}

lemma partOf_mem (hs : Sees env source fs) {parts : List Part}
    (h : drainPlans lib env source (discover lib env source offsets) = .ok parts)
    (hpart : part ∈ parts) : ∃ node, PartOf lib source env fs offsets part node := by
  obtain ⟨hplans, hdrain⟩ := drainPlans_ok h
  have hmem : part.plan ∈ discover lib env source offsets := by
    rw [← hplans]
    exact List.mem_map_of_mem hpart
  obtain ⟨node, hn, hplan⟩ := mem_discover hs hmem
  exact ⟨node, hn, hplan, hdrain part hpart⟩

namespace PartOf

lemma key (h : PartOf lib source env fs offsets part node) :
    part.plan.key = keyOf lib part.plan.path node.data := by
  rw [h.plan]
  rfl

lemma start (h : PartOf lib source env fs offsets part node) :
    part.plan.startOffset =
      startOf offsets (keyOf lib part.plan.path node.data) node.data.length := by
  rw [h.plan]
  rfl

lemma static (h : PartOf lib source env fs offsets part node) (hs : Sees env source fs) :
    Static (fun o => (env.file (.tail part.plan.path o) part.plan.path).map (·.data))
      node.data := by
  intro o
  simp only [hs.file, h.lookup]
  cases env.osError (.tail part.plan.path o) <;> simp

/-- In every encoding the chunks of a part end at boundaries of the file, one after the other. -/
lemma ends (h : PartOf lib source env fs offsets part node) (hs : Sees env source fs)
    (hb : Boundary source.encoding node.data part.plan.startOffset) :
    part.plan.startOffset ≤ part.endOffset ∧
      Boundary source.encoding node.data part.endOffset := by
  obtain ⟨hpw, hall⟩ := drainFile_ends (h.static hs) hb h.drained
  unfold Part.endOffset
  generalize part.plan.startOffset = start at hb hpw
  generalize part.chunks = chunks at hpw hall
  induction chunks generalizing start with
  | nil => exact ⟨le_rfl, hb⟩
  | cons c chunks ih =>
    rw [List.map_cons, List.pairwise_cons] at hpw
    have hc := hall c List.mem_cons_self
    obtain ⟨h1, h2⟩ := ih c.newOffset hc.2 hpw.2 fun c' hc' => hall c' (List.mem_cons_of_mem _ hc')
    exact ⟨(hpw.1 c.newOffset List.mem_cons_self).le.trans h1, h2⟩

lemma reading (h : PartOf lib source env fs offsets part node) (hs : Sees env source fs)
    (hsup : Supported source.encoding)
    (hb : Boundary source.encoding node.data part.plan.startOffset) :
    Reading source.encoding source.maxBytesPerPoll node.data
      (fun o => (env.file (.tail part.plan.path o) part.plan.path).map (·.data))
      part.plan.startOffset part.chunks :=
  drainFile_reading hsup (h.static hs) hb h.drained

/-- **A part is a chunked reading** of its file from the start of the plan to the end offset. -/
theorem chunked (h : PartOf lib source env fs offsets part node) (hs : Sees env source fs)
    (hsup : Supported source.encoding)
    (hb : Boundary source.encoding node.data part.plan.startOffset) :
    Chunked (framing hsup) node.data part.plan.startOffset
      (part.chunks.map fun c => (c.lines, c.newOffset)) part.endOffset := by
  obtain ⟨e, he⟩ := (h.reading hs hsup hb).chunked hsup
  have hend : part.endOffset = e := by
    rw [← he.foldl_end, List.foldl_map]
    rfl
  rw [hend]
  exact he

/-- **The records of a part** are the non-blank lines of the bytes it read. -/
theorem lines (h : PartOf lib source env fs offsets part node) (hs : Sees env source fs)
    (hsup : Supported source.encoding)
    (hb : Boundary source.encoding node.data part.plan.startOffset) (ctx : RunContext) :
    (part.records env source ctx).map (·.line) =
      linesBetween source.encoding node.data part.plan.startOffset part.endOffset := by
  have hitems := (h.chunked hs hsup hb).items hb
  rw [List.flatMap_map] at hitems
  rw [records_lines, hitems, linesBetween, between, framing_items]

/-- Wherever a part starts: what it ends at, and the lines it has. -/
lemma swept (h : PartOf lib source env fs offsets part node) (hs : Sees env source fs)
    (hsup : Supported source.encoding) (ha : Aligned source.encoding part.plan.startOffset) :
    Swept source.encoding node.data part.plan.startOffset part.chunks part.endOffset :=
  drainLoop_swept hsup (h.static hs) ha h.drained

end PartOf

/-! ### A host on which nothing fails -/

lemma calmEnv_sees (fs : FS) (now : Timestamps.Datetime) : Sees (calmEnv fs now) source fs :=
  ⟨fun _ => rfl, List.Perm.refl _⟩

def sampleSource : LogSourceConfig := { name := "web", pathGlob := "*.log" }

/-- A state with one file, and nothing stored or uploaded. -/
def oneFile (p : Path) (data : Bytes) : LogState where
  fs := (∅ : FS).insert p ⟨data, 0, true⟩
  ident _ := 0
  created := 1
  store := StateStore.empty
  bucket := []
  shipped := []
  committed := []

lemma oneFile_lookup {p q : Path} {data : Bytes} {node : Node}
    (h : (oneFile p data).fs.lookup q = some node) : q = p ∧ node = ⟨data, 0, true⟩ := by
  by_cases hq : q = p
  · subst hq
    rw [oneFile, AList.lookup_insert] at h
    exact ⟨rfl, (Option.some.inj h).symm⟩
  · rw [oneFile, AList.lookup_insert_ne hq] at h
    cases h

lemma oneFile_init (p : Path) (data : Bytes) : LogInit source (oneFile p data) := by
  have hpath : ∀ q, (oneFile p data).fs.lookup q ≠ none → q = p := by
    intro q hq
    obtain ⟨node, hnode⟩ := Option.ne_none_iff_exists'.mp hq
    exact (oneFile_lookup hnode).1
  refine ⟨fun q r m n hm hn _ _ _ => ?_, fun q r hq hr _ => ?_, fun _ _ => ?_, rfl, rfl, rfl, rfl⟩
  · rw [(oneFile_lookup hm).1, (oneFile_lookup hn).1]
  · rw [hpath q hq, hpath r hr]
  · exact Nat.zero_lt_one

end MongoSyncAgent.LogRuns
