import MongoSyncAgent.LogRuns

/-!
Resume offsets and the files they were measured on, over files of any size that grow and are
rotated.

An offset under a fingerprint stays with its content. An offset under a path stays with the path:
when a small file is rotated away, the next small file at its path inherits it. As long as no
poll meets a small file in that situation, every offset that a poll resumes from was measured on
the file it is applied to.
-/

namespace MongoSyncAgent.ProvisionalOffsets

open MongoSyncAgent.Config MongoSyncAgent.State MongoSyncAgent.Runtime MongoSyncAgent.Sources
open MongoSyncAgent.Ship MongoSyncAgent.Sinks MongoSyncAgent.LogRuns MongoSyncAgent.Systems
open MongoSyncAgent.Lines MongoSyncAgent.Records MongoSyncAgent.Codecs

/-- The first `n` bytes of the file `i` were read by committed polls. -/
def ReadUpTo (polls : List Shipment) (i n : ℕ) : Prop :=
  ∀ k < n, ∃ sh ∈ polls, ∃ part ∈ sh.parts, sh.ident part.plan.path = i ∧
    part.plan.startOffset ≤ k ∧ k < part.endOffset

/-- The file that a poll had under a key. -/
def Shipment.fileUnder (sh : Shipment) (key : String) : Option ℕ :=
  (sh.parts.find? fun part => part.plan.key = key).map fun part => sh.ident part.plan.path

/-- The file that the last committed poll with a key had under it. -/
def measuredOn (polls : List Shipment) (key : String) : Option ℕ :=
  polls.reverse.findSome? fun sh => Shipment.fileUnder sh key

/-- No small file stands at a path whose provisional offset the agent would apply to it although
it was measured on another file. -/
def NoneStale (source : LogSourceConfig) (s : LogState) : Prop :=
  ∀ p node fo, s.fs.lookup p = some node → node.data.length < fpPrefix →
    (s.store.fileOffsets source.name).lookup (provisionalKey p) = some fo →
    0 < fo.offset → fo.offset ≤ node.data.length →
    measuredOn s.committed (provisionalKey p) = some (s.ident p)

/-- At polls, no provisional offset is stale. -/
def freshAtPolls (source : LogSourceConfig) (s : LogState) : LogEvent → Prop
  | .ship .. => NoneStale source s
  | _ => True

variable {lib : Libs} {source : LogSourceConfig} {u : S3Uploader}

/-! ### Files by their number -/

structure IdentOk (s : LogState) : Prop where
  inj : ∀ p q, s.fs.lookup p ≠ none → s.fs.lookup q ≠ none → s.ident p = s.ident q → p = q
  lt : ∀ p, s.fs.lookup p ≠ none → s.ident p < s.created

/-- The file `i` is there, as this node. -/
def FileOf (s : LogState) (i : ℕ) (node : Node) : Prop :=
  ∃ p, s.fs.lookup p = some node ∧ s.ident p = i

lemma FileOf.at {s : LogState} {p : Path} {m n : Node} (h : IdentOk s)
    (hf : FileOf s (s.ident p) m) (hn : s.fs.lookup p = some n) : m = n := by
  obtain ⟨q, hq, hi⟩ := hf
  have hqp := h.inj q p (by rw [hq]; simp) (by rw [hn]; simp) hi
  subst hqp
  exact Option.some.inj (hq.symm.trans hn)

section Moves

variable {s : LogState} {p q : Path} {node : Node} {bs : Bytes} {mtime : ℤ}

lemma append_ne_none (hp : s.fs.lookup p = some node) {x : Path}
    (h : (s.append p node bs mtime).fs.lookup x ≠ none) : s.fs.lookup x ≠ none := by
  obtain ⟨m, hm⟩ := Option.ne_none_iff_exists'.mp h
  obtain ⟨m', hm', -⟩ := append_lookup_rev hp hm
  rw [hm']
  simp

lemma identOk_append (h : IdentOk s) (hp : s.fs.lookup p = some node) :
    IdentOk (s.append p node bs mtime) :=
  ⟨fun x y hx hy hi => h.inj x y (append_ne_none hp hx) (append_ne_none hp hy) hi,
    fun x hx => h.lt x (append_ne_none hp hx)⟩

lemma fileOf_append (hp : s.fs.lookup p = some node) {i : ℕ} {m : Node} (h : FileOf s i m) :
    ∃ m', FileOf (s.append p node bs mtime) i m' ∧ m.data <+: m'.data := by
  obtain ⟨x, hx, hi⟩ := h
  obtain ⟨m', hm', hpre, -⟩ := append_lookup bs mtime hp hx
  exact ⟨m', ⟨x, hm', hi⟩, hpre⟩

/-- After a rotation a path holds the new file, or a file from before under its old number. -/
lemma rotate_ident (hp : s.fs.lookup p = some node) {x : Path}
    (hx : (s.rotate p q node mtime).fs.lookup x ≠ none) :
    x = p ∧ (s.rotate p q node mtime).ident x = s.created ∨
      x ≠ p ∧ s.fs.lookup (if x = q then p else x) ≠ none ∧
        (s.rotate p q node mtime).ident x = s.ident (if x = q then p else x) := by
  obtain ⟨m, hm⟩ := Option.ne_none_iff_exists'.mp hx
  rcases rotate_lookup_rev hp hm with ⟨rfl, -⟩ | ⟨hne, hold⟩
  · exact .inl ⟨rfl, if_pos rfl⟩
  · refine .inr ⟨hne, by rw [hold]; simp, ?_⟩
    show (if x = p then s.created else if x = q then s.ident p else s.ident x) = _
    rw [if_neg hne]
    split_ifs <;> rfl

lemma identOk_rotate (h : IdentOk s) (hp : s.fs.lookup p = some node) :
    IdentOk (s.rotate p q node mtime) := by
  refine ⟨fun x y hx hy hi => ?_, fun x hx => ?_⟩
  · rcases rotate_ident hp hx with ⟨hxp, hxi⟩ | ⟨hxp, hxl, hxi⟩ <;>
      rcases rotate_ident hp hy with ⟨hyp, hyi⟩ | ⟨hyp, hyl, hyi⟩ <;> rw [hxi, hyi] at hi
    · rw [hxp, hyp]
    · have := h.lt _ hyl
      omega
    · have := h.lt _ hxl
      omega
    · have hxy := h.inj _ _ hxl hyl hi
      by_cases h1 : x = q <;> by_cases h2 : y = q
      · rw [h1, h2]
      · rw [if_pos h1, if_neg h2] at hxy
        exact absurd hxy.symm hyp
      · rw [if_neg h1, if_pos h2] at hxy
        exact absurd hxy hxp
      · rwa [if_neg h1, if_neg h2] at hxy
  · show _ < s.created + 1
    rcases rotate_ident hp hx with ⟨-, hxi⟩ | ⟨-, hxl, hxi⟩
    · omega
    · have := h.lt _ hxl
      omega

lemma fileOf_rotate (hp : s.fs.lookup p = some node) (hq : s.fs.lookup q = none) {i : ℕ}
    {m : Node} (h : FileOf s i m) : FileOf (s.rotate p q node mtime) i m := by
  obtain ⟨x, hx, rfl⟩ := h
  have hqp : q ≠ p := by
    rintro rfl
    rw [hp] at hq
    cases hq
  by_cases hxp : x = p
  · subst hxp
    refine ⟨q, ?_, ?_⟩
    · rw [rotate_lookup, if_neg hqp, if_pos rfl, ← hp, hx]
    · show (if q = x then s.created else if q = q then s.ident x else s.ident q) = _
      rw [if_neg hqp, if_pos rfl]
  · have hxq : x ≠ q := by
      rintro rfl
      rw [hq] at hx
      cases hx
    refine ⟨x, ?_, ?_⟩
    · rw [rotate_lookup, if_neg hxp, if_neg hxq, hx]
    · show (if x = p then s.created else if x = q then s.ident p else s.ident x) = _
      rw [if_neg hxp, if_neg hxq]

end Moves

/-! ### The invariant -/

/-- What holds of a stored offset: the file it was measured on is there, the offset is a
boundary of it, and committed polls read all that is before. -/
def Measured (lib : Libs) (source : LogSourceConfig) (s : LogState) (key : String)
    (offset : ℕ) : Prop :=
  ∃ i node, measuredOn s.committed key = some i ∧ FileOf s i node ∧
    Boundary source.encoding node.data offset ∧ ReadUpTo s.committed i offset ∧
    ∀ d : HexDigest, key = d.val → fingerprintOf lib node.data = some d

structure OffsetInv (lib : Libs) (source : LogSourceConfig) (s : LogState) : Prop where
  distinct : DistinctPrefixes s.fs
  ident : IdentOk s
  offsets : ∀ key fo, (s.store.fileOffsets source.name).lookup key = some fo →
    Measured lib source s key fo.offset

lemma ReadUpTo.zero (polls : List Shipment) (i : ℕ) : ReadUpTo polls i 0 :=
  fun k hk => absurd hk (Nat.not_lt_zero k)

lemma ReadUpTo.append {polls : List Shipment} {i n : ℕ} (h : ReadUpTo polls i n)
    (more : List Shipment) : ReadUpTo (polls ++ more) i n := by
  intro k hk
  obtain ⟨sh, hsh, hrest⟩ := h k hk
  exact ⟨sh, List.mem_append_left _ hsh, hrest⟩

section Poll

variable {s : LogState} {env : Env} {p : Path} {node : Node}

/-- **A plan** resumes where committed polls of the same file left off. -/
lemma plan_measured (hsha : Function.Injective lib.sha256) (h : OffsetInv lib source s)
    (hfresh : NoneStale source s) (hn : s.fs.lookup p = some node) :
    Boundary source.encoding node.data
        (startOf (s.store.fileOffsets source.name) (keyOf lib p node.data) node.data.length) ∧
      ReadUpTo s.committed (s.ident p)
        (startOf (s.store.fileOffsets source.name) (keyOf lib p node.data)
          node.data.length) := by
  unfold startOf
  rcases ho : (s.store.fileOffsets source.name).lookup (keyOf lib p node.data) with _ | fo
  · exact ⟨cutAt_zero _ _, .zero _ _⟩
  by_cases hlt : node.data.length < fo.offset
  · simp only [resume, if_pos hlt, Option.map_some, Option.getD_some]
    exact ⟨cutAt_zero _ _, .zero _ _⟩
  simp only [resume, if_neg hlt, Option.map_some, Option.getD_some]
  obtain ⟨i, m, hi, hfile, hb, hread, hdigest⟩ := h.offsets _ fo ho
  rcases Nat.lt_or_ge node.data.length fpPrefix with hsmall | hlarge
  · rcases Nat.eq_zero_or_pos fo.offset with h0 | hpos
    · rw [h0]
      exact ⟨cutAt_zero _ _, .zero _ _⟩
    rw [keyOf_small hsmall] at ho hi
    rw [hfresh p node fo hn hsmall ho hpos (Nat.not_lt.mp hlt)] at hi
    obtain rfl := Option.some.inj hi
    obtain rfl := hfile.at h.ident hn
    exact ⟨hb, hread⟩
  · -- a fingerprint belongs to one file
    have hd := hdigest _ (keyOf_large hlarge)
    obtain ⟨q, hq, rfl⟩ := hfile
    have hml := (fingerprintOf_some hd).1
    have hsame := hsha (fingerprintOf_some hd).2
    obtain rfl := h.distinct q p m node hq hn hml hlarge hsame.symm
    obtain rfl := Option.some.inj (hq.symm.trans hn)
    exact ⟨hb, hread⟩

lemma measuredOn_append (polls : List Shipment) (sh : Shipment) (key : String) :
    measuredOn (polls ++ [sh]) key = (Shipment.fileUnder sh key).or (measuredOn polls key) := by
  unfold measuredOn
  rw [List.reverse_append, List.reverse_singleton, List.singleton_append, List.findSome?_cons]
  cases Shipment.fileUnder sh key <;> rfl

lemma fileUnder_none {sh : Shipment} {key : String} (h : ∀ part ∈ sh.parts, part.plan.key ≠ key) :
    Shipment.fileUnder sh key = none := by
  simpa [Shipment.fileUnder] using h

/-- The file under a key, when all parts with the key are of one path. -/
lemma fileUnder_mem {sh : Shipment} {part : Part} (hp : part ∈ sh.parts)
    (h : ∀ b ∈ sh.parts, b.plan.key = part.plan.key → b.plan.path = part.plan.path) :
    Shipment.fileUnder sh part.plan.key = some (sh.ident part.plan.path) := by
  obtain ⟨b, hb⟩ : ∃ b, sh.parts.find? (fun x => x.plan.key = part.plan.key) = some b := by
    rw [← Option.isSome_iff_exists, List.find?_isSome]
    exact ⟨part, hp, by simp⟩
  have hkey : b.plan.key = part.plan.key := by simpa using List.find?_some hb
  rw [Shipment.fileUnder, hb, Option.map_some, h b (List.mem_of_find?_eq_some hb) hkey]

lemma offsetInv_committed (hsha : Function.Injective lib.sha256) (h : OffsetInv lib source s)
    (hfresh : NoneStale source s) {sh : Shipment} (hident : sh.ident = s.ident)
    (hs : Sees sh.env source s.fs)
    (hparts : drainPlans lib sh.env source
      (discover lib sh.env source (s.store.fileOffsets source.name)) = .ok sh.parts)
    {deletes} {t} (hdel : Deletions source.name (currentKeys sh.parts) deletes) {s' : LogState}
    (hfs : s'.fs = s.fs) (hid : s'.ident = s.ident) (hcr : s'.created = s.created)
    (hcommitted : s'.committed = s.committed ++ [sh])
    (hstore : s'.store = replay (s.store.setOffsets source.name
      (offsetsToCommit sh.env sh.parts) t) deletes) : OffsetInv lib source s' := by
  have hfile : ∀ i m, FileOf s i m → FileOf s' i m := by
    rintro i m ⟨x, hx, hi⟩
    exact ⟨x, by rw [hfs, hx], by rw [hid, hi]⟩
  refine ⟨by rw [hfs]; exact h.distinct, ⟨?_, ?_⟩, fun key fo hfo => ?_⟩
  · rw [hfs, hid]
    exact h.ident.inj
  · rw [hfs, hid, hcr]
    exact h.ident.lt
  rw [hstore] at hfo
  rcases committed_lookup hdel hfo with ⟨part, hpart, rfl, hoff⟩ | ⟨hnew, hold⟩
  · obtain ⟨node, hn⟩ := partOf_mem hs hparts hpart
    obtain ⟨hb, hread⟩ := plan_measured hsha h hfresh hn.lookup
    rw [← hn.start] at hb hread
    obtain ⟨hle, hend⟩ := hn.ends hs hb
    refine ⟨s.ident part.plan.path, node, ?_, hfile _ _ ⟨_, hn.lookup, rfl⟩, ?_, ?_, ?_⟩
    · -- whichever part of the poll has the key, it is that of the file
      rw [hcommitted, measuredOn_append, fileUnder_mem hpart, Option.some_or, hident]
      intro b hb hkey
      obtain ⟨m, hm⟩ := partOf_mem hs hparts hb
      rw [hm.key, hn.key] at hkey
      exact keyOf_inj hsha h.distinct hm.lookup hn.lookup hkey
    · rw [hoff]
      exact hend
    · rw [hoff, hcommitted]
      intro k hk
      rcases Nat.lt_or_ge k part.plan.startOffset with hlt | hge
      · exact hread.append [sh] k hlt
      · exact ⟨sh, by simp, part, hpart, by rw [hident], hge, hk⟩
    · intro d hd
      rw [hn.key] at hd
      rcases Nat.lt_or_ge node.data.length fpPrefix with hsmall | hlarge
      · rw [keyOf_small hsmall] at hd
        exact absurd hd (provisionalKey_ne_digest _ _)
      · rw [keyOf_large hlarge] at hd
        rw [fingerprintOf_large hlarge, Subtype.val_injective hd]
  · obtain ⟨i, node, hi, hf, hb, hread, hdigest⟩ := h.offsets key fo hold
    refine ⟨i, node, ?_, hfile _ _ hf, hb, ?_, hdigest⟩
    · rw [hcommitted, measuredOn_append, fileUnder_none hnew, Option.none_or, hi]
    · rw [hcommitted]
      exact hread.append [sh]

end Poll

lemma offsetInv_step (hsha : Function.Injective lib.sha256) {s s' : LogState} {e : LogEvent}
    (h : OffsetInv lib source s)
    (hstep : ((logRuns lib source u).restrict (freshAtPolls source)).step s e s') :
    OffsetInv lib source s' := by
  obtain ⟨hok, hstep⟩ := hstep
  cases hstep with
  | append hp hd =>
    refine ⟨hd, identOk_append h.ident hp, fun key fo hfo => ?_⟩
    obtain ⟨i, node, hi, hf, hb, hread, hdigest⟩ := h.offsets key fo hfo
    obtain ⟨m', hf', hpre⟩ := fileOf_append hp hf
    refine ⟨i, m', hi, hf', cutAt_mono _ hpre hb, hread, fun d hd' => ?_⟩
    obtain ⟨hl, rfl⟩ := fingerprintOf_some (hdigest d hd')
    rw [fingerprintOf_large (hl.trans hpre.length_le), take_mono hpre hl]
  | rotate hp hq =>
    refine ⟨distinct_rotate h.distinct hp, identOk_rotate h.ident hp, fun key fo hfo => ?_⟩
    obtain ⟨i, node, hi, hf, hrest⟩ := h.offsets key fo hfo
    exact ⟨i, node, hi, fileOf_rotate hp hq hf, hrest⟩
  | @ship env ctx gcDays hs =>
    rcases ship_cases (u := u) s env ctx gcDays with heq | ⟨hparts, hship⟩
    · rwa [heq]
    generalize hsh : s.shipment lib source env ctx = sh at hparts hship
    have hident : sh.ident = s.ident := by rw [← hsh]; rfl
    have henv : sh.env = env := by rw [← hsh]; rfl
    generalize s.ship lib source u env ctx gcDays = s' at hship
    cases hship with
    | nothing => exact h
    | uploaded => exact ⟨h.distinct, ⟨h.ident.inj, h.ident.lt⟩, h.offsets⟩
    | committed hdel =>
      exact offsetInv_committed hsha h hok hident (by rw [henv]; exact hs)
        (by rw [henv]; exact hparts) hdel rfl rfl rfl rfl rfl
  | gc => exact ⟨h.distinct, ⟨h.ident.inj, h.ident.lt⟩, fun key fo hfo =>
      h.offsets key fo (gc_lookup hfo)⟩

theorem offsetInv (hsha : Function.Injective lib.sha256) {s : LogState}
    (h : ((logRuns lib source u).restrict (freshAtPolls source)).Reachable s) :
    OffsetInv lib source s := by
  refine h.invariant (fun s hs => ?_) fun s e s' _ hinv hstep => offsetInv_step hsha hinv hstep
  refine ⟨hs.distinct, ⟨hs.ident_inj, hs.ident_lt⟩, fun key fo hfo => ?_⟩
  rw [hs.offsets] at hfo
  cases hfo

/-- A plan applies its offset to the content it was measured on: committed polls of the same file
read all the bytes before it, and it is a boundary of the file. -/
def Faithful (source : LogSourceConfig) (s : LogState) (plan : TailPlan) : Prop :=
  ∃ node, s.fs.lookup plan.path = some node ∧
    Boundary source.encoding node.data plan.startOffset ∧
    ReadUpTo s.committed (s.ident plan.path) plan.startOffset

/-- **Resume offsets are applied to what they were measured on**, in every run in which no poll
meets a stale provisional offset. -/
theorem resume_offset_measured (hsha : Function.Injective lib.sha256) {s : LogState}
    (h : ((logRuns lib source u).restrict (freshAtPolls source)).Reachable s)
    (hfresh : NoneStale source s) {env : Env} (hs : Sees env source s.fs) {plan : TailPlan}
    (hp : plan ∈ discover lib env source (s.store.fileOffsets source.name)) :
    Faithful source s plan := by
  obtain ⟨node, hn, hplan⟩ := mem_discover hs hp
  obtain ⟨hb, hread⟩ := plan_measured hsha (offsetInv hsha h) hfresh hn
  rw [hplan]
  exact ⟨node, hn, hb, hread⟩

/-! ### A small file that is polled, and then renamed -/

def smallBytes : Bytes := "abcdef\n".toUTF8.toList

/-- The file was polled once. -/
def samplePolled : LogState :=
  (oneFile "a.log" smallBytes).ship plainLibs sampleSource sampleUploader
    (calmEnv (oneFile "a.log" smallBytes).fs sampleNow) sampleCtx 14

lemma samplePolled_plan :
    ⟨"a.log", none, 7⟩ ∈ discover plainLibs (calmEnv samplePolled.fs sampleNow) sampleSource
      (samplePolled.store.fileOffsets sampleSource.name) := by
  decide +kernel

lemma samplePolled_fresh : NoneStale sampleSource samplePolled := by
  intro p node fo hn _ _ _ _
  have hfile : (oneFile "a.log" smallBytes).fs.lookup p = some node := hn
  obtain ⟨rfl, -⟩ := oneFile_lookup hfile
  decide +kernel

theorem resume_offset_measured_sample : Faithful sampleSource samplePolled ⟨"a.log", none, 7⟩ := by
  have hreach : ((logRuns plainLibs sampleSource sampleUploader).restrict
      (freshAtPolls sampleSource)).Reachable samplePolled := by
    refine .step (.init (oneFile_init "a.log" smallBytes)) ⟨?_, .ship (calmEnv_sees _ _)⟩
    intro p node fo _ _ hfo
    rw [show (oneFile "a.log" smallBytes).store.fileOffsets sampleSource.name = ∅ from rfl] at hfo
    cases hfo
  exact resume_offset_measured hexBytes_injective hreach samplePolled_fresh (calmEnv_sees _ _)
    samplePolled_plan

/-- It was renamed, and the new file at its path has grown beyond the old offset. -/
def sampleRegrown : LogState :=
  let renamed := samplePolled.rotate "a.log" "a.0.log" ⟨smallBytes, 0, true⟩ 1
  renamed.append "a.log" ⟨[], 1, true⟩ "uvwxyz12\n".toUTF8.toList 2

lemma sampleRegrown_reachable :
    (logRuns plainLibs sampleSource sampleUploader).Reachable sampleRegrown := by
  refine .step (.step (.step (.init (oneFile_init "a.log" smallBytes))
    (.ship (calmEnv_sees _ _))) (.rotate (q := "a.0.log") (p := "a.log") rfl rfl))
    (.append (p := "a.log") rfl ?_)
  have hsmall : ∀ e ∈ sampleRegrown.fs.entries, e.2.data.length < fpPrefix := by decide +kernel
  intro p q m n hm _ hml _ _
  exact absurd (hsmall _ (AList.mem_lookup_iff.mp hm)) (Nat.not_lt.mpr hml)

/-- The new file is resumed at the offset of the old one: in the middle of its first line, of
which the rest is then shipped as a line. -/
theorem resume_offset_stale :
    Function.Injective plainLibs.sha256 ∧
      (logRuns plainLibs sampleSource sampleUploader).Reachable sampleRegrown ∧
      Sees (calmEnv sampleRegrown.fs sampleNow) sampleSource sampleRegrown.fs ∧
      ⟨"a.log", none, 7⟩ ∈ discover plainLibs (calmEnv sampleRegrown.fs sampleNow) sampleSource
        (sampleRegrown.store.fileOffsets sampleSource.name) ∧
      ¬ Faithful sampleSource sampleRegrown ⟨"a.log", none, 7⟩ ∧
      (Drain.drainFile plainLibs.codecs (fun _ => some "uvwxyz12\n".toUTF8.toList) 7 "utf-8"
        sampleSource.maxBytesPerPoll).toOption.map (·.map (·.lines)) = some [["2"]] := by
  refine ⟨hexBytes_injective, sampleRegrown_reachable, calmEnv_sees _ _, by decide +kernel, ?_,
    by decide +kernel⟩
  rintro ⟨node, hn, hb, -⟩
  have hnode : sampleRegrown.fs.lookup "a.log" = some _ := AList.lookup_insert _
  obtain rfl := Option.some.inj (hnode.symm.trans hn)
  exact absurd hb (by decide +kernel)

end MongoSyncAgent.ProvisionalOffsets
