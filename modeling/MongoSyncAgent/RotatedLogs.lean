import MongoSyncAgent.LogRuns

/-!
Rotation by renaming, where every file has a fingerprint when it is polled: the committed polls
ship every line exactly once.

A content is known by its fingerprint from the first poll on. The invariant ties the lines that
were shipped under a fingerprint to the offset that is stored under it, and says that
fingerprints which were ever used belong to a file; a file that has only now grown to
`fpPrefix` bytes therefore has a fresh one.
-/

namespace MongoSyncAgent.RotatedLogs

open MongoSyncAgent.Config MongoSyncAgent.State MongoSyncAgent.Runtime MongoSyncAgent.Sources
open MongoSyncAgent.Ship MongoSyncAgent.Sinks MongoSyncAgent.LogRuns MongoSyncAgent.Systems
open MongoSyncAgent.Lines MongoSyncAgent.Records MongoSyncAgent.Codecs MongoSyncAgent.Windows

/-- The lines of the records that a part is shipped as, for the content with a fingerprint. -/
def partLines (source : LogSourceConfig) (sh : Shipment) (d : HexDigest) (part : Part) :
    List String :=
  if part.plan.fingerprint = some d then (part.records sh.env source sh.ctx).map (·.line) else []

/-- The lines that some polls shipped for the content with a fingerprint, in poll order. -/
def linesFor (source : LogSourceConfig) (polls : List Shipment) (d : HexDigest) : List String :=
  polls.flatMap fun sh => sh.parts.flatMap (partLines source sh d)

/-- The offset stored under a fingerprint; `0` where there is none. -/
def offsetAt (source : LogSourceConfig) (s : LogState) (d : HexDigest) : ℕ :=
  (((s.store.fileOffsets source.name).lookup d.val).map (·.offset)).getD 0

/-- Polls find each matched file with at least `fpPrefix` bytes and can read it. -/
def largeAtPolls (s : LogState) : LogEvent → Prop
  | .ship env _ _ => (∀ c, env.osError c = false) ∧
      ∀ p node, s.fs.lookup p = some node → node.regular ∧ fpPrefix ≤ node.data.length
  | .gc .. => False
  | _ => True

def rotatedLogs (lib : Libs) (source : LogSourceConfig) (u : S3Uploader) :
    System LogState LogEvent :=
  (logRuns lib source u).restrict largeAtPolls

variable {lib : Libs} {source : LogSourceConfig} {u : S3Uploader}

structure CommitInv (lib : Libs) (source : LogSourceConfig) (s : LogState) : Prop where
  distinct : DistinctPrefixes s.fs
  /-- A fingerprint that was ever used is that of a file. -/
  owned : ∀ d : HexDigest, (s.store.fileOffsets source.name).lookup d.val ≠ none ∨
      linesFor source s.committed d ≠ [] →
    ∃ p node, s.fs.lookup p = some node ∧ fingerprintOf lib node.data = some d
  boundary : ∀ p node d, s.fs.lookup p = some node → fingerprintOf lib node.data = some d →
    Boundary source.encoding node.data (offsetAt source s d)
  lines : ∀ p node d, s.fs.lookup p = some node → fingerprintOf lib node.data = some d →
    linesFor source s.committed d =
      nonBlankLines source.encoding (node.data.take (offsetAt source s d))

/-! ### Files that grow and move -/

lemma fingerprint_unique (hsha : Function.Injective lib.sha256) {fs : FS}
    (hd : DistinctPrefixes fs) {p q : Path} {m n : Node} {d : HexDigest}
    (hm : fs.lookup p = some m) (hn : fs.lookup q = some n)
    (hdm : fingerprintOf lib m.data = some d) (hdn : fingerprintOf lib n.data = some d) :
    p = q := by
  obtain ⟨hml, h1⟩ := fingerprintOf_some hdm
  obtain ⟨hnl, h2⟩ := fingerprintOf_some hdn
  exact hd p q m n hm hn hml hnl (hsha (h1.symm.trans h2))

lemma fingerprintOf_mono {data data' : Bytes} {d : HexDigest} (h : data <+: data')
    (hd : fingerprintOf lib data = some d) : fingerprintOf lib data' = some d := by
  obtain ⟨hl, rfl⟩ := fingerprintOf_some hd
  rw [fingerprintOf_large (hl.trans h.length_le), take_mono h hl]

/-- What holds for a used fingerprint goes on holding when its file grows. -/
lemma commitInv_append (hsha : Function.Injective lib.sha256) {s : LogState} {p : Path}
    {node : Node} {bs : Bytes} {mtime : ℤ} (h : CommitInv lib source s)
    (hp : s.fs.lookup p = some node) (hd : DistinctPrefixes (s.append p node bs mtime).fs) :
    CommitInv lib source (s.append p node bs mtime) := by
  have hold : ∀ q m d, (s.append p node bs mtime).fs.lookup q = some m →
      fingerprintOf lib m.data = some d →
      (∃ m', s.fs.lookup q = some m' ∧ m'.data <+: m.data ∧
        fingerprintOf lib m'.data = some d) ∨
      offsetAt source s d = 0 ∧ linesFor source s.committed d = [] := by
    intro q m d hm hdm
    by_cases hused : (s.store.fileOffsets source.name).lookup d.val ≠ none ∨
        linesFor source s.committed d ≠ []
    · obtain ⟨q', m', hm', hdm'⟩ := h.owned d hused
      obtain ⟨m'', hm'', hpre, -⟩ := append_lookup bs mtime hp hm'
      obtain rfl := fingerprint_unique hsha hd hm'' hm (fingerprintOf_mono hpre hdm') hdm
      obtain rfl := Option.some.inj (hm''.symm.trans hm)
      exact .inl ⟨m', hm', hpre, hdm'⟩
    · rw [not_or, not_not, not_not] at hused
      exact .inr ⟨by simp [offsetAt, hused.1], hused.2⟩
  refine ⟨hd, fun d hused => ?_, fun q m d hm hdm => ?_, fun q m d hm hdm => ?_⟩
  · obtain ⟨q, m, hm, hdm⟩ := h.owned d hused
    obtain ⟨m', hm', hpre, -⟩ := append_lookup bs mtime hp hm
    exact ⟨q, m', hm', fingerprintOf_mono hpre hdm⟩
  · show Boundary source.encoding m.data (offsetAt source s d)
    rcases hold q m d hm hdm with ⟨m', hm', hpre, hdm'⟩ | ⟨h0, -⟩
    · exact cutAt_mono _ hpre (h.boundary q m' d hm' hdm')
    · rw [h0]
      exact cutAt_zero _ _
  · show linesFor source s.committed d =
      nonBlankLines source.encoding (m.data.take (offsetAt source s d))
    rcases hold q m d hm hdm with ⟨m', hm', hpre, hdm'⟩ | ⟨h0, hnil⟩
    · rw [take_mono hpre (h.boundary q m' d hm' hdm').1]
      exact h.lines q m' d hm' hdm'
    · simp [h0, hnil]

lemma commitInv_rotate {s : LogState} {p q : Path} {node : Node} {mtime : ℤ}
    (h : CommitInv lib source s) (hp : s.fs.lookup p = some node)
    (hq : s.fs.lookup q = none) : CommitInv lib source (s.rotate p q node mtime) := by
  have hqp : q ≠ p := by
    rintro rfl
    rw [hp] at hq
    cases hq
  have hold : ∀ x m d, (s.rotate p q node mtime).fs.lookup x = some m →
      fingerprintOf lib m.data = some d → ∃ y, s.fs.lookup y = some m := by
    intro x m d hm hdm
    rcases rotate_lookup_rev hp hm with ⟨-, hnil⟩ | ⟨-, hy⟩
    · have hl := (fingerprintOf_some hdm).1
      rw [hnil] at hl
      exact absurd hl (by decide)
    · exact ⟨_, hy⟩
  refine ⟨distinct_rotate h.distinct hp, fun d hused => ?_, fun x m d hm hdm => ?_,
    fun x m d hm hdm => ?_⟩
  · obtain ⟨x, m, hm, hdm⟩ := h.owned d hused
    by_cases hx : x = p
    · subst hx
      refine ⟨q, m, ?_, hdm⟩
      rw [rotate_lookup, if_neg hqp, if_pos rfl, ← hp, hm]
    · refine ⟨x, m, ?_, hdm⟩
      have hxq : x ≠ q := by
        rintro rfl
        rw [hq] at hm
        cases hm
      rw [rotate_lookup, if_neg hx, if_neg hxq, hm]
  · obtain ⟨y, hy⟩ := hold x m d hm hdm
    exact h.boundary y m d hy hdm
  · obtain ⟨y, hy⟩ := hold x m d hm hdm
    exact h.lines y m d hy hdm

/-! ### A poll -/

lemma flatMap_of_unique {α β γ : Type} {f : α → List β} {k : α → γ} {l : List α} {a : α}
    (h : (l.map k).Nodup) (ha : a ∈ l) (hf : ∀ b ∈ l, k b ≠ k a → f b = []) :
    l.flatMap f = f a := by
  induction l with
  | nil => cases ha
  | cons x l ih =>
    rw [List.map_cons, List.nodup_cons] at h
    rw [List.flatMap_cons]
    rcases List.mem_cons.mp ha with rfl | ha
    · have hrest : l.flatMap f = [] := by
        refine List.flatMap_eq_nil_iff.mpr fun b hb => hf b (List.mem_cons_of_mem _ hb) ?_
        intro heq
        exact h.1 (heq ▸ List.mem_map_of_mem hb)
      rw [hrest, List.append_nil]
    · have hx : f x = [] := by
        refine hf x List.mem_cons_self fun heq => h.1 ?_
        rw [heq]
        exact List.mem_map_of_mem ha
      rw [hx, List.nil_append]
      exact ih h.2 ha fun b hb => hf b (List.mem_cons_of_mem _ hb)

section Poll

variable {s : LogState} {env : Env} {ctx : RunContext} {sh : Shipment}

/-- What a poll that reads all files makes of them. -/
structure Poll (lib : Libs) (source : LogSourceConfig) (s : LogState) (env : Env)
    (parts : List Part) : Prop where
  sees : Sees env source s.fs
  os : ∀ c, env.osError c = false
  large : ∀ p node, s.fs.lookup p = some node → node.regular ∧ fpPrefix ≤ node.data.length
  drained : drainPlans lib env source (discover lib env source (s.store.fileOffsets source.name)) =
    .ok parts

variable {parts : List Part}

lemma Poll.part (h : Poll lib source s env parts) {part : Part} (hpart : part ∈ parts) :
    ∃ node, PartOf lib source env s.fs (s.store.fileOffsets source.name) part node :=
  partOf_mem h.sees h.drained hpart

/-- Each file has its part. -/
lemma Poll.part_of_file (h : Poll lib source s env parts) {p : Path} {node : Node}
    (hn : s.fs.lookup p = some node) : ∃ part ∈ parts, part.plan.path = p := by
  have hplan : planOf lib (s.store.fileOffsets source.name) p node.data ∈ _ :=
    discover_complete h.sees h.os hn (h.large p node hn).1
  rw [← (drainPlans_ok h.drained).1] at hplan
  obtain ⟨part, hpart, heq⟩ := List.mem_map.mp hplan
  exact ⟨part, hpart, by rw [heq]; rfl⟩

lemma Poll.paths_nodup (h : Poll lib source s env parts) :
    (parts.map (·.plan.path)).Nodup := by
  have : ((discover lib env source (s.store.fileOffsets source.name)).map (·.path)).Nodup :=
    discover_nodup h.sees
  rw [← (drainPlans_ok h.drained).1, List.map_map] at this
  exact this

lemma Poll.fingerprint (h : Poll lib source s env parts) {part : Part} {node : Node}
    (hp : PartOf lib source env s.fs (s.store.fileOffsets source.name) part node) :
    part.plan.fingerprint = some (lib.sha256 (node.data.take fpPrefix)) := by
  rw [hp.plan, planOf]
  exact fingerprintOf_large (h.large _ _ hp.lookup).2

/-- A part with a fingerprint has it as its key. -/
lemma key_of_fingerprint {plan : TailPlan} {d : HexDigest} (h : plan.fingerprint = some d) :
    plan.key = d.val := by
  rw [TailPlan.key, h]

/-- The parts of a poll have keys of their own. -/
lemma Poll.key_inj (hsha : Function.Injective lib.sha256) (hd : DistinctPrefixes s.fs)
    (h : Poll lib source s env parts) {a b : Part} (ha : a ∈ parts) (hb : b ∈ parts)
    (hk : a.plan.key = b.plan.key) : a.plan.path = b.plan.path := by
  obtain ⟨m, hm⟩ := h.part ha
  obtain ⟨n, hn⟩ := h.part hb
  rw [hm.key, hn.key] at hk
  exact keyOf_inj hsha hd hm.lookup hn.lookup hk

lemma Poll.newOffsets_eq (hsha : Function.Injective lib.sha256) (hd : DistinctPrefixes s.fs)
    (h : Poll lib source s env parts) :
    newOffsets parts = parts.map fun part => (part.plan.key, part.plan, part.endOffset) := by
  refine Py.dictOf_nodup ?_
  rw [List.map_map]
  have hpaths := h.paths_nodup
  refine (List.nodup_map_iff_inj_on (List.Nodup.of_map _ hpaths)).mpr fun a ha b hb hk => ?_
  exact List.inj_on_of_nodup_map hpaths ha hb (h.key_inj hsha hd ha hb hk)

def partRecord (env : Env) (part : Part) : FileOffset :=
  offsetRecord env (part.plan.key, part.plan, part.endOffset)

/-- The commit of a poll leaves the end of each part under its fingerprint. -/
lemma Poll.committed_offset (hsha : Function.Injective lib.sha256) (hd : DistinctPrefixes s.fs)
    (h : Poll lib source s env parts) {part : Part} (hpart : part ∈ parts) {deletes} {t}
    (hdel : Deletions source.name (currentKeys parts) deletes) :
    (((replay (s.store.setOffsets source.name (offsetsToCommit env parts) t)
      deletes).fileOffsets source.name).lookup part.plan.key).map (·.offset) =
        some part.endOffset := by
  have hcur : part.plan.key ∈ currentKeys parts := List.mem_map_of_mem hpart
  have hmem : partRecord env part ∈ parts.map (partRecord env) := List.mem_map_of_mem hpart
  have huniq : ∀ fo ∈ parts.map (partRecord env), fo.fingerprint =
      (partRecord env part).fingerprint → fo = partRecord env part := by
    intro fo hfo hkey
    obtain ⟨b, hb, rfl⟩ := List.mem_map.mp hfo
    rw [List.inj_on_of_nodup_map h.paths_nodup hb hpart (h.key_inj hsha hd hb hpart hkey)]
  have hup : (StateStore.upserts (parts.map (partRecord env)) t
      (s.store.fileOffsets source.name)).lookup part.plan.key = some _ := upserts_mem hmem huniq
  rw [(lookup_deletions hdel _).2 _ hcur, setOffsets_offsets, offsetsToCommit,
    h.newOffsets_eq hsha hd, List.map_map]
  exact (congrArg (Option.map (·.offset)) hup)

end Poll

section Run

variable {s : LogState} {env : Env} {ctx : RunContext} {gcDays : ℤ} {parts : List Part}

/-- A plan starts at the offset that is stored under its fingerprint. -/
lemma CommitInv.start (hinv : CommitInv lib source s) {part : Part} {node : Node} {d : HexDigest}
    (hp : PartOf lib source env s.fs (s.store.fileOffsets source.name) part node)
    (hd : fingerprintOf lib node.data = some d) :
    part.plan.startOffset = offsetAt source s d := by
  have hb := hinv.boundary _ _ d hp.lookup hd
  rw [hp.start, keyOf_digest hd, startOf, offsetAt]
  rw [offsetAt] at hb
  rcases ho : (s.store.fileOffsets source.name).lookup d.val with _ | fo
  · rfl
  · rw [ho] at hb
    have hle := hb.1
    simp only [Option.map_some, Option.getD_some] at hle ⊢
    exact if_neg (by omega)

/-- What a poll that commits leaves. -/
structure PollCommitted (source : LogSourceConfig) (s : LogState) (sh : Shipment)
    (s' : LogState) : Prop where
  fs : s'.fs = s.fs
  committed : s'.committed = s.committed ++ [sh]
  store : ∃ deletes t, Deletions source.name (currentKeys sh.parts) deletes ∧
    s'.store = replay (s.store.setOffsets source.name (offsetsToCommit sh.env sh.parts) t) deletes

variable {sh : Shipment} {s' : LogState}

lemma PollCommitted.lines (h : PollCommitted source s sh s') (d : HexDigest) :
    linesFor source s'.committed d = linesFor source s.committed d ++
      sh.parts.flatMap (partLines source sh d) := by
  simp [linesFor, h.committed]

/-- A file has its part, and afterwards the end of that is stored for it. -/
lemma PollCommitted.part (hsha : Function.Injective lib.sha256) (hd : DistinctPrefixes s.fs)
    (hpoll : Poll lib source s sh.env sh.parts) (h : PollCommitted source s sh s') {p : Path}
    {node : Node} {d : HexDigest} (hn : s.fs.lookup p = some node)
    (hdn : fingerprintOf lib node.data = some d) :
    ∃ part ∈ sh.parts, PartOf lib source sh.env s.fs (s.store.fileOffsets source.name) part node ∧
      part.plan.fingerprint = some d ∧ offsetAt source s' d = part.endOffset := by
  obtain ⟨part, hpart, rfl⟩ := hpoll.part_of_file hn
  obtain ⟨m, hm⟩ := hpoll.part hpart
  obtain rfl := Option.some.inj (hm.lookup.symm.trans hn)
  have hfp : part.plan.fingerprint = some d := by rw [hm.plan]; exact hdn
  refine ⟨part, hpart, hm, hfp, ?_⟩
  obtain ⟨deletes, t, hdel, hstore⟩ := h.store
  have hoff := hpoll.committed_offset hsha hd hpart hdel (t := t)
  rw [key_of_fingerprint hfp, ← hstore] at hoff
  rw [offsetAt, hoff]
  rfl

/-- A part is that of a file with its fingerprint. -/
lemma Poll.owned (h : Poll lib source s env parts) {part : Part} (hpart : part ∈ parts)
    {d : HexDigest} (hfp : part.plan.fingerprint = some d) :
    ∃ p node, s.fs.lookup p = some node ∧ fingerprintOf lib node.data = some d := by
  obtain ⟨m, hm⟩ := h.part hpart
  rw [hm.plan] at hfp
  exact ⟨_, m, hm.lookup, hfp⟩

/-- A fingerprint that is in use after a poll is that of a file. -/
lemma PollCommitted.owned (hinv : CommitInv lib source s)
    (hpoll : Poll lib source s sh.env sh.parts) (h : PollCommitted source s sh s') {d : HexDigest}
    (hused : (s'.store.fileOffsets source.name).lookup d.val ≠ none ∨
      linesFor source s'.committed d ≠ []) :
    ∃ p node, s.fs.lookup p = some node ∧ fingerprintOf lib node.data = some d := by
  rcases hused with hused | hused
  · obtain ⟨fo, hfo⟩ := Option.ne_none_iff_exists'.mp hused
    obtain ⟨deletes, t, hdel, hstore⟩ := h.store
    rw [hstore] at hfo
    rcases committed_lookup hdel hfo with ⟨part, hmem, hkey, -⟩ | ⟨-, hold⟩
    · obtain ⟨m, hm⟩ := hpoll.part hmem
      have hfp := hpoll.fingerprint hm
      rw [key_of_fingerprint hfp] at hkey
      rw [Subtype.val_injective hkey] at hfp
      exact hpoll.owned hmem hfp
    · exact hinv.owned d (.inl (by rw [hold]; exact Option.some_ne_none _))
  · rw [h.lines] at hused
    by_cases hold : linesFor source s.committed d = []
    · rw [hold, List.nil_append] at hused
      obtain ⟨part, hmem, hne⟩ : ∃ part ∈ sh.parts, partLines source sh d part ≠ [] := by
        by_contra hnone
        refine hused (List.flatMap_eq_nil_iff.mpr fun b hb => ?_)
        exact by_contra fun hne => hnone ⟨b, hb, hne⟩
      refine hpoll.owned hmem ?_
      by_contra hfp
      exact hne (if_neg hfp)
    · exact hinv.owned d (.inr hold)

/-- Of all parts of a poll only that of the file counts. -/
lemma Poll.partLines_eq (hsha : Function.Injective lib.sha256) (hd : DistinctPrefixes s.fs)
    (h : Poll lib source s sh.env sh.parts) {part : Part} (hpart : part ∈ sh.parts)
    {d : HexDigest} (hfp : part.plan.fingerprint = some d) :
    sh.parts.flatMap (partLines source sh d) =
      (part.records sh.env source sh.ctx).map (·.line) := by
  rw [flatMap_of_unique h.paths_nodup hpart, partLines, if_pos hfp]
  intro b hb hpath
  refine if_neg fun hfpb => hpath ?_
  refine h.key_inj hsha hd hb hpart ?_
  rw [key_of_fingerprint hfp, key_of_fingerprint hfpb]

/-- **A poll** ships what lies between the stored offset and the one it commits. -/
lemma commitInv_committed (hsup : Supported source.encoding)
    (hsha : Function.Injective lib.sha256) (hinv : CommitInv lib source s)
    (hpoll : Poll lib source s sh.env sh.parts) (h : PollCommitted source s sh s') :
    CommitInv lib source s' ∧ ∀ d, offsetAt source s d ≤ offsetAt source s' d := by
  have hboundary : ∀ p node d, s.fs.lookup p = some node → fingerprintOf lib node.data = some d →
      offsetAt source s d ≤ offsetAt source s' d ∧
        Boundary source.encoding node.data (offsetAt source s' d) := by
    intro p node d hn hd
    obtain ⟨part, hpart, hm, hfp, hoff⟩ := h.part hsha hinv.distinct hpoll hn hd
    have hb := hinv.boundary p node d hn hd
    rw [← hinv.start hm hd] at hb ⊢
    rw [hoff]
    exact hm.ends hpoll.sees hb
  refine ⟨⟨by rw [h.fs]; exact hinv.distinct, ?_, ?_, ?_⟩, fun d => ?_⟩
  · rw [h.fs]
    exact fun d hused => h.owned hinv hpoll hused
  · rw [h.fs]
    exact fun p node d hn hd => (hboundary p node d hn hd).2
  · rw [h.fs]
    intro p node d hn hd
    obtain ⟨part, hpart, hm, hfp, hoff⟩ := h.part hsha hinv.distinct hpoll hn hd
    have hb := hinv.boundary p node d hn hd
    have hstart := hinv.start hm hd
    rw [← hstart] at hb
    rw [h.lines, hinv.lines p node d hn hd, hpoll.partLines_eq hsha hinv.distinct hpart hfp,
      hoff, hm.lines hpoll.sees hsup hb, ← hstart, ← lines_take hsup hb (hm.ends hpoll.sees hb).1]
  · by_cases hused : (s.store.fileOffsets source.name).lookup d.val ≠ none
    · obtain ⟨p, node, hn, hd⟩ := hinv.owned d (.inl hused)
      exact (hboundary p node d hn hd).1
    · rw [not_not] at hused
      simp [offsetAt, hused]

lemma commitInv_ship (hsup : Supported source.encoding) (hsha : Function.Injective lib.sha256)
    (hinv : CommitInv lib source s) (hs : Sees env source s.fs)
    (hok : largeAtPolls s (.ship env ctx gcDays)) :
    CommitInv lib source (s.ship lib source u env ctx gcDays) ∧
      ∀ d, offsetAt source s d ≤ offsetAt source (s.ship lib source u env ctx gcDays) d := by
  rcases ship_cases (u := u) s env ctx gcDays with heq | ⟨hparts, hship⟩
  · rw [heq]
    exact ⟨hinv, fun d => le_rfl⟩
  have hpoll : Poll lib source s (s.shipment lib source env ctx).env
      (s.shipment lib source env ctx).parts := ⟨hs, hok.1, hok.2, hparts⟩
  generalize s.ship lib source u env ctx gcDays = s' at hship
  cases hship with
  | nothing => exact ⟨hinv, fun d => le_rfl⟩
  | uploaded => exact ⟨⟨hinv.distinct, hinv.owned, hinv.boundary, hinv.lines⟩, fun d => le_rfl⟩
  | committed hdel =>
    exact commitInv_committed hsup hsha hinv hpoll ⟨rfl, rfl, _, _, hdel, rfl⟩

lemma commitInv_step (hsup : Supported source.encoding) (hsha : Function.Injective lib.sha256)
    {e : LogEvent} {s' : LogState} (hinv : CommitInv lib source s)
    (hstep : (rotatedLogs lib source u).step s e s') :
    CommitInv lib source s' ∧ ∀ d, offsetAt source s d ≤ offsetAt source s' d := by
  obtain ⟨hok, hstep⟩ := hstep
  cases hstep with
  | append hp hd => exact ⟨commitInv_append hsha hinv hp hd, fun d => le_rfl⟩
  | rotate hp hq => exact ⟨commitInv_rotate hinv hp hq, fun d => le_rfl⟩
  | ship hs => exact commitInv_ship hsup hsha hinv hs hok
  | gc => exact hok.elim

theorem commitInv (hsup : Supported source.encoding) (hsha : Function.Injective lib.sha256)
    (h : (rotatedLogs lib source u).Reachable s) : CommitInv lib source s := by
  refine h.invariant (fun s hs => ?_) fun s e s' _ hinv hstep =>
    (commitInv_step hsup hsha hinv hstep).1
  have hnone : ∀ d : HexDigest, (s.store.fileOffsets source.name).lookup d.val = none := by
    intro d
    rw [hs.offsets]
    rfl
  have hzero : ∀ d, offsetAt source s d = 0 := fun d => by simp [offsetAt, hnone]
  have hnil : ∀ d, linesFor source s.committed d = [] := fun d => by simp [linesFor, hs.committed]
  refine ⟨hs.distinct, fun d hused => ?_, fun p node d _ _ => ?_, fun p node d _ _ => ?_⟩
  · simp [hnone, hnil] at hused
  · rw [hzero]
    exact cutAt_zero _ _
  · simp [hzero, hnil]

/-- **Renaming ships every line exactly once.** In every state, the bucket holds the objects of the
polls that uploaded, the committed ones among them; the lines of the records that the committed
polls shipped for a content are its complete non-blank lines up to the stored offset, each once
and in order; and no step lowers a stored offset. -/
theorem rotation_exactly_once (hsup : Supported source.encoding)
    (hsha : Function.Injective lib.sha256) (h : (rotatedLogs lib source u).Reachable s) :
    (s.bucket = s.shipped.map (Shipment.put source u) ∧ s.committed.Sublist s.shipped) ∧
    (∀ p node d, s.fs.lookup p = some node → fingerprintOf lib node.data = some d →
      Boundary source.encoding node.data (offsetAt source s d) ∧
      linesFor source s.committed d =
        nonBlankLines source.encoding (node.data.take (offsetAt source s d))) ∧
    ∀ e s', (rotatedLogs lib source u).step s e s' →
      ∀ d, offsetAt source s d ≤ offsetAt source s' d := by
  have hinv := commitInv hsup hsha h
  have hstocked := stocked h.of_restrict
  exact ⟨⟨hstocked.bucket, hstocked.committed⟩,
    fun p node d hn hd => ⟨hinv.boundary p node d hn hd, hinv.lines p node d hn hd⟩,
    fun e s' hstep => (commitInv_step hsup hsha hinv hstep).2⟩

end Run

/-! ### A large file that is polled and renamed, and polled again beside a new one -/

/-- A line of 4096 bytes. -/
def largeLine (b : UInt8) : Bytes := List.replicate 4096 b ++ [0x0A]

lemma largeLine_length (b : UInt8) : fpPrefix ≤ (largeLine b).length := by
  rw [largeLine, List.length_append, List.length_replicate]
  exact Nat.le_add_right _ _

def sampleRotated : LogState :=
  ((oneFile "a.log" (largeLine 0x61)).ship plainLibs sampleSource sampleUploader
    (calmEnv (oneFile "a.log" (largeLine 0x61)).fs sampleNow) sampleCtx 14).rotate "a.log" "a.0.log"
      ⟨largeLine 0x61, 0, true⟩ 1

/-- The new file is written. -/
def sampleWritten : LogState :=
  sampleRotated.append "a.log" ⟨[], 1, true⟩ (largeLine 0x62) 2

def sampleRepolled : LogState :=
  sampleWritten.ship plainLibs sampleSource sampleUploader (calmEnv sampleWritten.fs sampleNow)
    sampleCtx 14

lemma sampleWritten_lookup (p : Path) : sampleWritten.fs.lookup p =
    if p = "a.log" then some ⟨largeLine 0x62, 2, true⟩
    else if p = "a.0.log" then some ⟨largeLine 0x61, 0, true⟩ else none := by
  by_cases hp : p = "a.log"
  · rw [if_pos hp, hp]
    exact AList.lookup_insert _
  rw [if_neg hp, sampleWritten, LogState.append, AList.lookup_insert_ne hp, sampleRotated,
    rotate_lookup, if_neg hp]
  split_ifs with hq
  · rfl
  · exact AList.lookup_insert_ne hp

lemma sampleRepolled_reachable :
    (rotatedLogs plainLibs sampleSource sampleUploader).Reachable sampleRepolled := by
  have hlarge : ∀ p node, sampleWritten.fs.lookup p = some node →
      node.regular ∧ fpPrefix ≤ node.data.length := by
    intro p node hn
    rw [sampleWritten_lookup] at hn
    split_ifs at hn
    · obtain rfl := Option.some.inj hn
      exact ⟨rfl, largeLine_length _⟩
    · obtain rfl := Option.some.inj hn
      exact ⟨rfl, largeLine_length _⟩
  have hdistinct : DistinctPrefixes sampleWritten.fs := by
    have hne : (largeLine 0x61).take fpPrefix ≠ (largeLine 0x62).take fpPrefix := by
      decide +kernel
    intro p q m n hm hn _ _ heq
    rw [sampleWritten_lookup] at hm hn
    split_ifs at hm hn with hp hq hq hp hq hq
    · rw [hp, hq]
    · obtain rfl := Option.some.inj hm
      obtain rfl := Option.some.inj hn
      exact absurd heq.symm hne
    · obtain rfl := Option.some.inj hm
      obtain rfl := Option.some.inj hn
      exact absurd heq hne
    · rw [hp, hq]
  have hpolled : (rotatedLogs plainLibs sampleSource sampleUploader).Reachable sampleRotated := by
    refine .step (.step (.init (oneFile_init "a.log" (largeLine 0x61)))
      ⟨?_, .ship (calmEnv_sees _ _)⟩) ⟨?_, .rotate (q := "a.0.log") (p := "a.log") rfl rfl⟩
    · refine ⟨fun _ => rfl, fun p node hn => ?_⟩
      obtain ⟨-, rfl⟩ := oneFile_lookup hn
      exact ⟨rfl, largeLine_length _⟩
    · trivial
  have hwritten : (rotatedLogs plainLibs sampleSource sampleUploader).Reachable sampleWritten := by
    have hnew : sampleRotated.fs.lookup "a.log" = some ⟨[], 1, true⟩ := rotate_lookup _ _ _ _ _ _
    have hgrows : largeAtPolls sampleRotated (.append "a.log" (largeLine 0x62) 2) := trivial
    exact .step hpolled ⟨hgrows, .append hnew hdistinct⟩
  have hok : largeAtPolls sampleWritten (.ship (calmEnv sampleWritten.fs sampleNow) sampleCtx 14) :=
    ⟨fun _ => rfl, hlarge⟩
  exact .step hwritten ⟨hok, .ship (calmEnv_sees _ _)⟩

/-- The lines of both files, up to the stored offsets. -/
theorem rotation_exactly_once_sample : ∃ old new,
    fingerprintOf plainLibs (largeLine 0x61) = some old ∧
    fingerprintOf plainLibs (largeLine 0x62) = some new ∧
    linesFor sampleSource sampleRepolled.committed old = nonBlankLines "utf-8"
      ((largeLine 0x61).take (offsetAt sampleSource sampleRepolled old)) ∧
    linesFor sampleSource sampleRepolled.committed new = nonBlankLines "utf-8"
      ((largeLine 0x62).take (offsetAt sampleSource sampleRepolled new)) := by
  have hboth := (rotation_exactly_once (by decide) hexBytes_injective
    sampleRepolled_reachable).2.1
  have hold : sampleRepolled.fs.lookup "a.0.log" = some ⟨largeLine 0x61, 0, true⟩ :=
    sampleWritten_lookup "a.0.log"
  have hnew : sampleRepolled.fs.lookup "a.log" = some ⟨largeLine 0x62, 2, true⟩ :=
    sampleWritten_lookup "a.log"
  have hfirst : fingerprintOf plainLibs (largeLine 0x61) = some _ :=
    fingerprintOf_large (largeLine_length _)
  have hsecond : fingerprintOf plainLibs (largeLine 0x62) = some _ :=
    fingerprintOf_large (largeLine_length _)
  exact ⟨_, _, hfirst, hsecond, (hboth _ _ _ hold hfirst).2, (hboth _ _ _ hnew hsecond).2⟩

end MongoSyncAgent.RotatedLogs
