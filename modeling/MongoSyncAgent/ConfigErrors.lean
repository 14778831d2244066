import MongoSyncAgent.LoadConfig

/-!
How a document fails to load.

A field of a table that is missing or of the wrong type is a `ConfigError`. But only the entries
of the arrays are checked to be tables; of a section that is none, Python asks for a key, and what
it raises then is its own: a `TypeError`, or an `AttributeError` where the section has got as far
as its array. A section is looked at only when those before it are well formed.
-/

namespace MongoSyncAgent.ConfigErrors

open MongoSyncAgent.Py MongoSyncAgent.Config MongoSyncAgent.LoadConfig

variable {α β : Type} {raw : Toml} {t : Table} {key fieldName : String}

/-! ### Outcomes -/

/-- A computation that returns or raises a `ConfigError`. -/
def OnlyConfigError (x : Except Exc α) : Prop := ∀ e, x = .error e → e.cls = .configError

def Succeeds (x : Except Exc α) : Prop := ∃ a, x = .ok a

@[simp] lemma only_ok (a : α) : OnlyConfigError (.ok a) := fun e h => by cases h

@[simp] lemma only_pure (a : α) : OnlyConfigError (pure a : Except Exc α) := only_ok a

@[simp] lemma only_configError (text : String) :
    OnlyConfigError (configError text : Except Exc α) := fun e h => by
  rw [← Except.error.inj h]

lemma not_only {e : Exc} (h : e.cls ≠ .configError) :
    ¬ OnlyConfigError (.error e : Except Exc α) := fun hall => h (hall e rfl)

/-- In sequence, each part counts only if those before it succeed. -/
lemma only_bind {x : Except Exc α} {f : α → Except Exc β} :
    OnlyConfigError (x >>= f) ↔ OnlyConfigError x ∧ ∀ a, x = .ok a → OnlyConfigError (f a) := by
  cases x with
  | error e =>
    refine ⟨fun h => ⟨fun e' he => ?_, fun a ha => by cases ha⟩, fun h e' he => ?_⟩
    · obtain rfl := Except.error.inj he
      exact h e rfl
    · obtain rfl := Except.error.inj he
      exact h.1 e rfl
  | ok a =>
    refine ⟨fun h => ⟨only_ok a, fun b hb => ?_⟩, fun h => h.2 a rfl⟩
    obtain rfl := Except.ok.inj hb
    exact h

lemma succeeds_bind {x : Except Exc α} {f : α → Except Exc β} :
    Succeeds (x >>= f) ↔ ∃ a, x = .ok a ∧ Succeeds (f a) := by
  cases x with
  | error e => exact ⟨fun ⟨b, hb⟩ => (by cases hb), fun ⟨a, ha, _⟩ => by cases ha⟩
  | ok a => exact ⟨fun h => ⟨a, rfl, h⟩, fun ⟨b, hb, h⟩ => by rwa [Except.ok.inj hb]⟩

/-- What follows without the value counts if there is one. -/
lemma forall_ok_iff {x : Except Exc α} {p : Prop} : (∀ a, x = .ok a → p) ↔ (Succeeds x → p) :=
  ⟨fun h ⟨a, ha⟩ => h a ha, fun h a ha => h ⟨a, ha⟩⟩

lemma exists_ok_iff {x : Except Exc α} {p : Prop} : (∃ a, x = .ok a ∧ p) ↔ Succeeds x ∧ p :=
  exists_and_right

@[simp] lemma succeeds_ok (a : α) : Succeeds (.ok a : Except Exc α) := ⟨a, rfl⟩

@[simp] lemma succeeds_pure (a : α) : Succeeds (pure a : Except Exc α) := ⟨a, rfl⟩

@[simp] lemma not_succeeds_configError (text : String) :
    ¬ Succeeds (configError text : Except Exc α) := fun ⟨a, h⟩ => by cases h

/-! ### What a section must be -/

/-- A non-empty string. -/
def Required (t : Table) (key : String) : Prop := ∃ s, t.lookup key = some (.str s) ∧ s ≠ ""

/-- Left out, or of the type. -/
def Typed (type : FieldType α) (t : Table) (key : String) : Prop :=
  ∀ v, t.lookup key = some v → (type.cast v).isSome

/-- Left out, or an array of tables of which each is as it must be. -/
def TablesOf (ok : Table → Prop) (t : Table) (key : String) : Prop :=
  ∀ v, t.lookup key = some v →
    ∃ entries, v = .array entries ∧ ∀ entry ∈ entries, ∃ t', entry = .table t' ∧ ok t'

structure AgentTable (t : Table) : Prop where
  stateDb : Required t "state_db"
  spoolDir : Required t "spool_dir"
  logDir : Typed strType t "log_dir"
  logLevel : Typed strType t "log_level"
  hostId : Typed strType t "host_id"

structure CollectionTable (t : Table) : Prop where
  name : Required t "name"
  mode : ∃ m, t.lookup "mode" = some (.str m) ∧ (validModes.lookup m).isSome
  watermarkField : Typed strType t "watermark_field"
  field_of_mutable : t.lookup "mode" = some (.str "mutable") → Required t "watermark_field"
  overlapSeconds : Typed intType t "overlap_seconds"
  batchSize : Typed intType t "batch_size"
  initialWatermark : Typed strType t "initial_watermark"
  allowGridfsChunks : Typed boolType t "allow_gridfs_chunks"
  chunks : ∀ name, t.lookup "name" = some (.str name) → isChunks name →
    t.lookup "allow_gridfs_chunks" = some (.bool true)

structure MongoTable (t : Table) : Prop where
  database : Required t "database"
  uri : Typed strType t "uri"
  host : Typed strType t "host"
  port : Typed intType t "port"
  username : Typed strType t "username"
  password : Typed strType t "password"
  authSource : Typed strType t "auth_source"
  tls : Typed boolType t "tls"
  tlsCaFile : Typed strType t "tls_ca_file"
  serverSelectionTimeoutMs : Typed intType t "server_selection_timeout_ms"
  collections : TablesOf CollectionTable t "collections"

structure S3Table (t : Table) : Prop where
  bucket : Required t "bucket"
  region : Typed strType t "region"
  pre : Typed strType t "prefix"

structure SourceTable (t : Table) : Prop where
  name : Required t "name"
  pathGlob : Required t "path_glob"
  encoding : Typed strType t "encoding"
  maxBytesPerPoll : Typed intType t "max_bytes_per_poll"

structure LogsTable (t : Table) : Prop where
  enabled : Typed boolType t "enabled"
  gcDays : Typed intType t "gc_days"
  sources : TablesOf SourceTable t "sources"

structure HostmetricsTable (t : Table) : Prop where
  enabled : Typed boolType t "enabled"
  disks : ∀ v, t.lookup "disks" = some v →
    ∃ items, v = .array items ∧ ∀ item ∈ items, ∃ s, item = .str s

/-- A module that is turned off need not be described. -/
def MongoSection : Option Toml → Prop
  | none => True
  | some (.table t) => t.lookup "enabled" = some (.bool false) ∨
      (t.lookup "enabled" = none ∨ t.lookup "enabled" = some (.bool true)) ∧ MongoTable t
  | some _ => False

def TableWith (ok : Table → Prop) (raw : Toml) : Prop := ∃ t, raw = .table t ∧ ok t

/-! ### Fields of a table -/

lemma require_ok_iff {s : String} :
    require (.table t) key fieldName = .ok s ↔ t.lookup key = some (.str s) ∧ s ≠ "" := by
  rcases h : t.lookup key with _ | v
  · simp [require, Toml.contains, h, configError, raise]
  cases v with
  | str s' =>
    by_cases hs : s' = ""
    · subst hs
      simp [require, Toml.contains, Toml.item, h, strType, configError, raise]
    · have hok : require (.table t) key fieldName = .ok s' := require_table h hs
      rw [hok]
      refine ⟨fun heq => ?_, fun heq => ?_⟩
      · obtain rfl := Except.ok.inj heq
        exact ⟨rfl, hs⟩
      · obtain rfl := Toml.str.inj (Option.some.inj heq.1)
        rfl
  | int | bool | other | array | table =>
    simp [require, Toml.contains, Toml.item, h, strType, configError, raise]

lemma require_succeeds : Succeeds (require (.table t) key fieldName) ↔ Required t key :=
  exists_congr fun _ => require_ok_iff

lemma only_require_table : OnlyConfigError (require (.table t) key fieldName) := by
  rcases h : t.lookup key with _ | v
  · simp [require, Toml.contains, h]
  · simp only [require, Toml.contains, Toml.item, h, ok_bind]
    split_ifs
    · exact only_configError _
    · rcases strType.cast v with _ | s
      · exact only_configError _
      · simp only
        split_ifs
        · exact only_configError _
        · exact only_pure _

lemma optional_ok_iff {type : FieldType α} {default a : α} :
    optional type (.table t) key fieldName default = .ok a ↔
      t.lookup key = none ∧ a = default ∨ ∃ v, t.lookup key = some v ∧ type.cast v = some a := by
  rcases h : t.lookup key with _ | v
  · rw [optional_none h]
    simp [eq_comm]
  rcases hv : type.cast v with _ | b
  · simp [LoadConfig.optional, Toml.contains, Toml.item, h, hv, configError, raise]
  · rw [optional_table h hv]
    simp [hv]

lemma only_optional_table {type : FieldType α} {default : α} :
    OnlyConfigError (optional type (.table t) key fieldName default) := by
  rcases h : t.lookup key with _ | v
  · rw [optional_none h]; exact only_ok _
  rcases hv : type.cast v with _ | b
  · simp [LoadConfig.optional, Toml.contains, Toml.item, h, hv]
  · rw [optional_table h hv]; exact only_ok _

lemma optional_succeeds {type : FieldType α} {default : α} :
    Succeeds (optional type (.table t) key fieldName default) ↔ Typed type t key := by
  simp only [Succeeds, optional_ok_iff, Typed]
  rcases h : t.lookup key with _ | v
  · simp
  · simp [Option.isSome_iff_exists]

lemma optionalStr_succeeds :
    Succeeds (optionalStr (.table t) key fieldName) ↔ Typed strType t key := by
  rw [optionalStr, optional_succeeds]
  simp [Typed]

lemma optionalStr_ok_iff {s : Option String} :
    optionalStr (.table t) key fieldName = .ok s ↔ t.lookup key = s.map Toml.str := by
  rw [optionalStr, optional_ok_iff]
  rcases h : t.lookup key with _ | v
  · cases s <;> simp
  · cases v <;> cases s <;> simp [strType, eq_comm]

/-- What a field of a type gives, whatever it is called in the error. -/
lemma Typed.value {type : FieldType α} (h : Typed type t key) (default : α) :
    ∃ a, ∀ fieldName, optional type (.table t) key fieldName default = .ok a := by
  obtain ⟨a, ha⟩ : Succeeds (optional type (.table t) key "" default) :=
    optional_succeeds.mpr h
  exact ⟨a, fun _ => optional_ok_iff.mpr (optional_ok_iff.mp ha)⟩

lemma Typed.text (h : Typed strType t key) :
    ∃ s : Option String, t.lookup key = s.map Toml.str := by
  obtain ⟨s, hs⟩ : Succeeds (optionalStr (.table t) key "") := optionalStr_succeeds.mpr h
  exact ⟨s, optionalStr_ok_iff.mp hs⟩

lemma only_optionalStr_table : OnlyConfigError (optionalStr (.table t) key fieldName) :=
  only_optional_table

/-! ### Arrays of tables -/

section Arrays

variable {parse : Toml → ℕ → Except Exc α}

lemma only_parseEach (h : ∀ entry idx, OnlyConfigError (parse entry idx)) (idx : ℕ)
    (entries : List Toml) : OnlyConfigError (parseEach parse idx entries) := by
  induction entries generalizing idx with
  | nil => exact only_ok _
  | cons entry entries ih =>
    exact only_bind.mpr ⟨h entry idx, fun a _ => only_bind.mpr ⟨ih _, fun _ _ => only_pure _⟩⟩

lemma only_parseArray_table (h : ∀ entry idx, OnlyConfigError (parse entry idx)) :
    OnlyConfigError (parseArray parse (.table t) key fieldName) := by
  rw [parseArray, Toml.get, ok_bind]
  split
  · exact only_parseEach h 0 _
  · exact only_configError _

lemma parseEach_succeeds {ok : Toml → Prop} (h : ∀ entry idx, Succeeds (parse entry idx) ↔ ok entry)
    (idx : ℕ) (entries : List Toml) :
    Succeeds (parseEach parse idx entries) ↔ ∀ entry ∈ entries, ok entry := by
  induction entries generalizing idx with
  | nil => simp [parseEach]
  | cons entry entries ih =>
    rw [List.forall_mem_cons, ← h entry idx, ← ih (idx + 1), parseEach, succeeds_bind]
    constructor
    · rintro ⟨a, ha, hrest⟩
      obtain ⟨rest, hrest, -⟩ := succeeds_bind.mp hrest
      exact ⟨⟨a, ha⟩, ⟨rest, hrest⟩⟩
    · rintro ⟨⟨a, ha⟩, ⟨rest, hrest⟩⟩
      exact ⟨a, ha, succeeds_bind.mpr ⟨rest, hrest, succeeds_pure _⟩⟩

lemma parseArray_succeeds {ok : Table → Prop}
    (h : ∀ entry idx, Succeeds (parse entry idx) ↔ TableWith ok entry) :
    Succeeds (parseArray parse (.table t) key fieldName) ↔ TablesOf ok t key := by
  rw [parseArray, Toml.get, ok_bind, TablesOf]
  rcases hv : t.lookup key with _ | v
  · simp [parseEach]
  cases v with
  | array entries =>
    rw [Option.getD_some]
    simp only [parseEach_succeeds h, Option.some.injEq, forall_eq', Toml.array.injEq,
      exists_eq_left']
    rfl
  | str | int | bool | other | table => simp

end Arrays

/-! ### Entries -/

lemma isTable_cases (raw : Toml) : (∃ t, raw = .table t) ∧ isTable raw = true ∨
    (∀ t, raw ≠ .table t) ∧ isTable raw = false := by
  cases raw with
  | table t => exact .inl ⟨⟨t, rfl⟩, rfl⟩
  | str | int | bool | other | array => exact .inr ⟨fun t h => (by cases h), rfl⟩

/-- An entry that must be a table, before its fields are read. -/
lemma only_entry {body : Except Exc α} {text : String}
    (h : ∀ t, raw = .table t → OnlyConfigError body) :
    OnlyConfigError (if !isTable raw then configError text else body) := by
  rcases isTable_cases raw with ⟨⟨t, ht⟩, htable⟩ | ⟨-, htable⟩
  · rw [htable, if_neg (by simp)]
    exact h t ht
  · simp [htable]

lemma succeeds_entry {ok : Table → Prop} {body : Except Exc α} {text : String}
    (h : ∀ t, raw = .table t → (Succeeds body ↔ ok t)) :
    Succeeds (if !isTable raw then configError text else body) ↔ TableWith ok raw := by
  rcases isTable_cases raw with ⟨⟨t, ht⟩, htable⟩ | ⟨hno, htable⟩
  · rw [htable, if_neg (by simp), h t ht]
    refine ⟨fun hok => ⟨t, ht, hok⟩, ?_⟩
    rintro ⟨t', ht', hok⟩
    rwa [Toml.table.inj (ht.symm.trans ht')]
  · simp only [htable, Bool.not_false, if_true, not_succeeds_configError, false_iff]
    rintro ⟨t, rfl, -⟩
    exact hno t rfl

lemma only_parseCollection (raw : Toml) (idx : ℕ) : OnlyConfigError (parseCollection raw idx) := by
  refine only_entry fun t ht => ?_
  subst ht
  refine only_bind.mpr ⟨only_require_table, fun name _ => ?_⟩
  refine only_bind.mpr ⟨only_require_table, fun modeName _ => ?_⟩
  split
  · exact only_configError _
  refine only_bind.mpr ⟨only_optionalStr_table, fun field _ => ?_⟩
  split_ifs
  · refine only_bind.mpr ⟨only_optional_table, fun overlap _ => ?_⟩
    refine only_bind.mpr ⟨only_optional_table, fun batch _ => ?_⟩
    refine only_bind.mpr ⟨only_optionalStr_table, fun initial _ => ?_⟩
    refine only_bind.mpr ⟨only_optional_table, fun allow _ => ?_⟩
    split_ifs
    · exact only_configError _
    · exact only_pure _
  · exact only_configError _

lemma only_parseLogSource (raw : Toml) (idx : ℕ) : OnlyConfigError (parseLogSource raw idx) := by
  refine only_entry fun t ht => ?_
  subst ht
  refine only_bind.mpr ⟨only_require_table, fun name _ => ?_⟩
  refine only_bind.mpr ⟨only_require_table, fun pathGlob _ => ?_⟩
  refine only_bind.mpr ⟨only_optional_table, fun encoding _ => ?_⟩
  exact only_bind.mpr ⟨only_optional_table, fun maxBytes _ => only_pure _⟩

lemma mode_mutable {m : String} : validModes.lookup m = some .mutable ↔ m = "mutable" := by
  unfold validModes
  simp only [List.lookup_cons, List.lookup_nil]
  by_cases h1 : m = "append_only"
  · subst h1; decide
  by_cases h2 : m = "mutable"
  · subst h2; decide
  by_cases h3 : m = "full_refresh"
  · subst h3; decide
  rw [beq_false_of_ne h1, beq_false_of_ne h2, beq_false_of_ne h3]
  simp [h2]

lemma boolType_cast {v : Toml} {b : Bool} : boolType.cast v = some b ↔ v = .bool b := by
  cases v <;> simp [boolType]

lemma parseCollection_succeeds (raw : Toml) (idx : ℕ) :
    Succeeds (parseCollection raw idx) ↔ TableWith CollectionTable raw := by
  refine succeeds_entry fun t ht => ?_
  subst ht
  constructor
  · intro h
    obtain ⟨name, hname, h⟩ := succeeds_bind.mp h
    obtain ⟨modeName, hmode, h⟩ := succeeds_bind.mp h
    rw [require_ok_iff] at hname hmode
    rcases hvalid : validModes.lookup modeName with _ | mode
    · rw [hvalid] at h
      exact absurd h (not_succeeds_configError _)
    rw [hvalid] at h
    obtain ⟨field, hfield, h⟩ := succeeds_bind.mp h
    split_ifs at h with hneeds
    swap
    · exact absurd h (not_succeeds_configError _)
    obtain ⟨overlap, hoverlap, h⟩ := succeeds_bind.mp h
    obtain ⟨batch, hbatch, h⟩ := succeeds_bind.mp h
    obtain ⟨initial, hinitial, h⟩ := succeeds_bind.mp h
    obtain ⟨allow, hallow, h⟩ := succeeds_bind.mp h
    split_ifs at h with hchunks
    · exact absurd h (not_succeeds_configError _)
    exact
      { name := ⟨name, hname⟩
        mode := ⟨modeName, hmode.1, by rw [hvalid]; rfl⟩
        watermarkField := optionalStr_succeeds.mp ⟨field, hfield⟩
        field_of_mutable := fun hm => by
          rw [hmode.1] at hm
          obtain rfl := Toml.str.inj (Option.some.inj hm)
          have hne := hneeds (Option.some.inj (hvalid.symm.trans (mode_mutable.mpr rfl)))
          rw [optionalStr_ok_iff] at hfield
          cases field with
          | none => exact absurd rfl hne
          | some f => exact ⟨f, hfield, hne⟩
        overlapSeconds := optional_succeeds.mp ⟨overlap, hoverlap⟩
        batchSize := optional_succeeds.mp ⟨batch, hbatch⟩
        initialWatermark := optionalStr_succeeds.mp ⟨initial, hinitial⟩
        allowGridfsChunks := optional_succeeds.mp ⟨allow, hallow⟩
        chunks := fun n hn hc => by
          rw [hname.1] at hn
          obtain rfl := Toml.str.inj (Option.some.inj hn)
          obtain rfl : allow = true := by simpa [hc] using hchunks
          rcases optional_ok_iff.mp hallow with ⟨-, hfalse⟩ | ⟨v, hv, hcast⟩
          · cases hfalse
          · rw [hv, boolType_cast.mp hcast] }
  · intro h
    obtain ⟨name, hname⟩ := h.name
    obtain ⟨m, hm, hvalid⟩ := h.mode
    obtain ⟨mode, hmode⟩ := Option.isSome_iff_exists.mp hvalid
    have hne : m ≠ "" := by rintro rfl; cases hmode
    obtain ⟨field, hfield⟩ := h.watermarkField.text
    obtain ⟨overlap, hoverlap⟩ := h.overlapSeconds.value 30
    obtain ⟨batch, hbatch⟩ := h.batchSize.value 1000
    obtain ⟨initial, hinitial⟩ := h.initialWatermark.text
    obtain ⟨allow, hallow⟩ := h.allowGridfsChunks.value false
    have hneeds : mode = .mutable → field.getD "" ≠ "" := by
      rintro rfl
      rw [mode_mutable.mp hmode] at hm
      obtain ⟨f, hf, hfne⟩ := h.field_of_mutable hm
      rw [hfield] at hf
      cases field with
      | none => cases hf
      | some g => rw [Toml.str.inj (Option.some.inj hf)]; exact hfne
    have hchunks : ¬ (isChunks name && !allow) = true := by
      intro hc
      obtain ⟨hc, hnot⟩ := Bool.and_eq_true_iff.mp hc
      rcases optional_ok_iff.mp (hallow "") with ⟨hnone, -⟩ | ⟨v, hv, hcast⟩
      · rw [h.chunks name hname.1 hc] at hnone
        cases hnone
      · rw [h.chunks name hname.1 hc] at hv
        obtain rfl := Option.some.inj hv
        obtain rfl := Option.some.inj hcast
        cases hnot
    refine succeeds_bind.mpr ⟨name, require_ok_iff.mpr hname, ?_⟩
    refine succeeds_bind.mpr ⟨m, require_ok_iff.mpr ⟨hm, hne⟩, ?_⟩
    rw [hmode]
    refine succeeds_bind.mpr ⟨field, optionalStr_ok_iff.mpr hfield, ?_⟩
    rw [dif_pos hneeds]
    refine succeeds_bind.mpr ⟨overlap, hoverlap _, succeeds_bind.mpr ⟨batch, hbatch _, ?_⟩⟩
    refine succeeds_bind.mpr ⟨initial, optionalStr_ok_iff.mpr hinitial, ?_⟩
    refine succeeds_bind.mpr ⟨allow, hallow _, ?_⟩
    rw [if_neg hchunks]
    exact succeeds_pure _

lemma parseLogSource_succeeds (raw : Toml) (idx : ℕ) :
    Succeeds (parseLogSource raw idx) ↔ TableWith SourceTable raw := by
  refine succeeds_entry fun t ht => ?_
  subst ht
  constructor
  · intro h
    obtain ⟨name, hname, h⟩ := succeeds_bind.mp h
    obtain ⟨pathGlob, hglob, h⟩ := succeeds_bind.mp h
    obtain ⟨encoding, hencoding, h⟩ := succeeds_bind.mp h
    obtain ⟨maxBytes, hmax, -⟩ := succeeds_bind.mp h
    exact ⟨⟨name, require_ok_iff.mp hname⟩, ⟨pathGlob, require_ok_iff.mp hglob⟩,
      optional_succeeds.mp ⟨encoding, hencoding⟩, optional_succeeds.mp ⟨maxBytes, hmax⟩⟩
  · intro h
    obtain ⟨name, hname⟩ := h.name
    obtain ⟨pathGlob, hglob⟩ := h.pathGlob
    obtain ⟨encoding, hencoding⟩ := h.encoding.value "utf-8"
    obtain ⟨maxBytes, hmax⟩ := h.maxBytesPerPoll.value 8388608
    refine succeeds_bind.mpr ⟨name, require_ok_iff.mpr hname, ?_⟩
    refine succeeds_bind.mpr ⟨pathGlob, require_ok_iff.mpr hglob, ?_⟩
    refine succeeds_bind.mpr ⟨encoding, hencoding _, ?_⟩
    exact succeeds_bind.mpr ⟨maxBytes, hmax _, succeeds_pure _⟩

/-! ### Sections -/

/-- Asking a value for a key raises an exception of Python's own: a value that has no keys does
not say whether it has one, and an array or a string in which the key stands does not give it. -/
def Trips (key : String) : Toml → Prop
  | .table _ => False
  | .array items => Toml.str key ∈ items
  | .str s => key.toList <:+: s.toList
  | _ => True

/-- A value that is no table, asked whether it has a key and then for the key. -/
lemma trips_cases (key : String) (hno : isTable raw = false) :
    ¬ Trips key raw ∧ raw.contains key = .ok false ∨
      Trips key raw ∧ ((∃ text, raw.contains key = .error ⟨.typeError, text⟩) ∨
        raw.contains key = .ok true ∧ ∃ text, raw.item key = .error ⟨.typeError, text⟩) := by
  cases raw with
  | table => cases hno
  | int | bool | other => exact .inr ⟨trivial, .inl ⟨_, rfl⟩⟩
  | str s =>
    by_cases h : key.toList <:+: s.toList
    · exact .inr ⟨h, .inr ⟨congrArg Except.ok (decide_eq_true h), _, rfl⟩⟩
    · exact .inl ⟨h, congrArg Except.ok (decide_eq_false h)⟩
  | array items =>
    by_cases h : Toml.str key ∈ items
    · refine .inr ⟨h, .inr ⟨congrArg Except.ok (List.any_eq_true.mpr ⟨_, h, ?_⟩), _, rfl⟩⟩
      exact decide_eq_true rfl
    · refine .inl ⟨h, congrArg Except.ok (List.any_eq_false.mpr fun x hx hkey => ?_)⟩
      cases x with
      | str s => exact h (of_decide_eq_true hkey ▸ hx)
      | int | bool | other | array | table => cases hkey

lemma require_noTable (hno : isTable raw = false) :
    ¬ Trips key raw ∧ require raw key fieldName =
        configError ("missing required field '" ++ fieldName ++ "'") ∨
      Trips key raw ∧ ∃ text, require raw key fieldName = .error ⟨.typeError, text⟩ := by
  rcases trips_cases key hno with ⟨h, hin⟩ | ⟨h, ⟨text, hin⟩ | ⟨hin, text, hitem⟩⟩
  · exact .inl ⟨h, by rw [require, hin]; rfl⟩
  · exact .inr ⟨h, text, by rw [require, hin]; rfl⟩
  · exact .inr ⟨h, text, by rw [require, hin, hitem]; rfl⟩

lemma optional_noTable (type : FieldType α) {default : α} (hno : isTable raw = false) :
    ¬ Trips key raw ∧ optional type raw key fieldName default = .ok default ∨
      Trips key raw ∧
        ∃ text, optional type raw key fieldName default = .error ⟨.typeError, text⟩ := by
  rcases trips_cases key hno with ⟨h, hin⟩ | ⟨h, ⟨text, hin⟩ | ⟨hin, text, hitem⟩⟩
  · exact .inl ⟨h, by rw [LoadConfig.optional, hin]; rfl⟩
  · exact .inr ⟨h, text, by rw [LoadConfig.optional, hin]; rfl⟩
  · exact .inr ⟨h, text, by rw [LoadConfig.optional, hin, hitem]; rfl⟩

lemma only_require_iff :
    OnlyConfigError (require raw key fieldName) ↔ ¬ Trips key raw := by
  rcases isTable_cases raw with ⟨⟨t, rfl⟩, -⟩ | ⟨-, hno⟩
  · exact iff_of_true only_require_table not_false
  rcases require_noTable hno with ⟨h, heq⟩ | ⟨h, text, heq⟩
  · rw [heq]; exact iff_of_true (only_configError _) h
  · rw [heq]; exact iff_of_false (not_only (by simp)) (not_not.mpr h)

lemma only_optional_iff {type : FieldType α} {default : α} :
    OnlyConfigError (optional type raw key fieldName default) ↔ ¬ Trips key raw := by
  rcases isTable_cases raw with ⟨⟨t, rfl⟩, -⟩ | ⟨-, hno⟩
  · exact iff_of_true only_optional_table not_false
  rcases optional_noTable _ hno with ⟨h, heq⟩ | ⟨h, text, heq⟩
  · rw [heq]; exact iff_of_true (only_ok _) h
  · rw [heq]; exact iff_of_false (not_only (by simp)) (not_not.mpr h)

/-- Only a table gives a required field. -/
lemma require_fails (hno : isTable raw = false) {s : String} :
    require raw key fieldName ≠ .ok s := by
  intro h
  rcases require_noTable hno with ⟨-, heq⟩ | ⟨-, text, heq⟩
  · rw [heq] at h; cases h
  · rw [heq] at h; cases h

/-- What is no table gives an optional field its default. -/
lemma optional_default {type : FieldType α} {default a : α} (hno : isTable raw = false)
    (h : optional type raw key fieldName default = .ok a) : a = default := by
  rcases optional_noTable _ hno with ⟨-, heq⟩ | ⟨-, text, heq⟩
  · rw [heq] at h; exact (Except.ok.inj h).symm
  · rw [heq] at h; cases h

lemma only_parseMongo_iff (mongo : Option Toml) : OnlyConfigError (parseMongo mongo) ↔
    ∀ v, mongo = some v → ¬ Trips "enabled" v ∧ ¬ Trips "database" v := by
  rcases mongo with _ | raw
  · exact iff_of_true (only_ok _) fun v h => by cases h
  simp only [Option.some.injEq, forall_eq', parseMongo, only_bind, only_optional_iff]
  rcases isTable_cases raw with ⟨⟨t, rfl⟩, -⟩ | ⟨-, hno⟩
  · refine iff_of_true ⟨not_false, fun enabled _ => ?_⟩ ⟨not_false, not_false⟩
    split_ifs
    · exact only_pure _
    refine only_bind.mpr ⟨only_require_table, fun database _ => ?_⟩
    refine only_bind.mpr ⟨only_optionalStr_table, fun uri _ => ?_⟩
    refine only_bind.mpr ⟨only_optional_table, fun host _ => ?_⟩
    refine only_bind.mpr ⟨only_optional_table, fun port _ => ?_⟩
    refine only_bind.mpr ⟨only_optionalStr_table, fun username _ => ?_⟩
    refine only_bind.mpr ⟨only_optionalStr_table, fun password _ => ?_⟩
    refine only_bind.mpr ⟨only_optional_table, fun authSource _ => ?_⟩
    refine only_bind.mpr ⟨only_optional_table, fun tls _ => ?_⟩
    refine only_bind.mpr ⟨only_optionalStr_table, fun tlsCaFile _ => ?_⟩
    refine only_bind.mpr ⟨only_optional_table, fun timeout _ => ?_⟩
    exact only_bind.mpr ⟨only_parseArray_table only_parseCollection, fun _ _ => only_pure _⟩
  · -- a value that does not have the key `enabled` is asked for `database`
    refine and_congr_right fun henabled => ?_
    constructor
    · intro h
      rcases optional_noTable boolType hno with ⟨-, heq⟩ | ⟨htrips, -⟩
      · have hdatabase := h true heq
        rw [if_neg (by simp), only_bind, only_require_iff] at hdatabase
        exact hdatabase.1
      · exact absurd htrips henabled
    · intro hdatabase enabled hopt
      obtain rfl := optional_default hno hopt
      rw [if_neg (by simp)]
      exact only_bind.mpr
        ⟨only_require_iff.mpr hdatabase, fun s hs => absurd hs (require_fails hno)⟩

lemma parseMongo_succeeds (mongo : Option Toml) :
    Succeeds (parseMongo mongo) ↔ MongoSection mongo := by
  rcases mongo with _ | raw
  · exact iff_of_true (succeeds_ok _) trivial
  simp only [parseMongo, succeeds_bind]
  rcases isTable_cases raw with ⟨⟨t, rfl⟩, -⟩ | ⟨hnone, hno⟩
  swap
  · refine iff_of_false ?_ ?_
    · rintro ⟨enabled, hopt, h⟩
      obtain rfl := optional_default hno hopt
      rw [if_neg (by simp)] at h
      obtain ⟨s, hs, -⟩ := succeeds_bind.mp h
      exact require_fails hno hs
    · cases raw with
      | table t => exact absurd rfl (hnone t)
      | str | int | bool | other | array => exact id
  show _ ↔ t.lookup "enabled" = some (.bool false) ∨
    (t.lookup "enabled" = none ∨ t.lookup "enabled" = some (.bool true)) ∧ MongoTable t
  constructor
  · rintro ⟨enabled, hopt, h⟩
    rw [optional_ok_iff] at hopt
    cases enabled with
    | false =>
      rcases hopt with ⟨-, htrue⟩ | ⟨v, hv, hcast⟩
      · cases htrue
      · exact .inl (by rw [hv, boolType_cast.mp hcast])
    | true =>
      refine .inr ⟨?_, ?_⟩
      · rcases hopt with ⟨hnone, -⟩ | ⟨v, hv, hcast⟩
        · exact .inl hnone
        · exact .inr (by rw [hv, boolType_cast.mp hcast])
      rw [if_neg (by simp)] at h
      obtain ⟨database, hdatabase, h⟩ := succeeds_bind.mp h
      obtain ⟨uri, huri, h⟩ := succeeds_bind.mp h
      obtain ⟨host, hhost, h⟩ := succeeds_bind.mp h
      obtain ⟨port, hport, h⟩ := succeeds_bind.mp h
      obtain ⟨username, husername, h⟩ := succeeds_bind.mp h
      obtain ⟨password, hpassword, h⟩ := succeeds_bind.mp h
      obtain ⟨authSource, hauth, h⟩ := succeeds_bind.mp h
      obtain ⟨tls, htls, h⟩ := succeeds_bind.mp h
      obtain ⟨tlsCaFile, hca, h⟩ := succeeds_bind.mp h
      obtain ⟨timeout, htimeout, h⟩ := succeeds_bind.mp h
      obtain ⟨collections, hcollections, -⟩ := succeeds_bind.mp h
      exact
        { database := ⟨database, require_ok_iff.mp hdatabase⟩
          uri := optionalStr_succeeds.mp ⟨uri, huri⟩
          host := optional_succeeds.mp ⟨host, hhost⟩
          port := optional_succeeds.mp ⟨port, hport⟩
          username := optionalStr_succeeds.mp ⟨username, husername⟩
          password := optionalStr_succeeds.mp ⟨password, hpassword⟩
          authSource := optional_succeeds.mp ⟨authSource, hauth⟩
          tls := optional_succeeds.mp ⟨tls, htls⟩
          tlsCaFile := optionalStr_succeeds.mp ⟨tlsCaFile, hca⟩
          serverSelectionTimeoutMs := optional_succeeds.mp ⟨timeout, htimeout⟩
          collections := (parseArray_succeeds parseCollection_succeeds).mp
            ⟨collections, hcollections⟩ }
  · rintro (hfalse | ⟨hon, h⟩)
    · exact ⟨false, optional_ok_iff.mpr (.inr ⟨_, hfalse, rfl⟩), succeeds_pure _⟩
    refine ⟨true, optional_ok_iff.mpr (hon.imp (fun hnone => ⟨hnone, rfl⟩)
      fun htrue => ⟨_, htrue, rfl⟩), ?_⟩
    rw [if_neg (by simp)]
    obtain ⟨database, hdatabase⟩ := h.database
    obtain ⟨uri, huri⟩ := h.uri.text
    obtain ⟨host, hhost⟩ := h.host.value "localhost"
    obtain ⟨port, hport⟩ := h.port.value 27017
    obtain ⟨username, husername⟩ := h.username.text
    obtain ⟨password, hpassword⟩ := h.password.text
    obtain ⟨authSource, hauth⟩ := h.authSource.value "admin"
    obtain ⟨tls, htls⟩ := h.tls.value false
    obtain ⟨tlsCaFile, hca⟩ := h.tlsCaFile.text
    obtain ⟨timeout, htimeout⟩ := h.serverSelectionTimeoutMs.value 5000
    refine succeeds_bind.mpr ⟨database, require_ok_iff.mpr hdatabase, ?_⟩
    refine succeeds_bind.mpr ⟨uri, optionalStr_ok_iff.mpr huri, ?_⟩
    refine succeeds_bind.mpr ⟨host, hhost _, succeeds_bind.mpr ⟨port, hport _, ?_⟩⟩
    refine succeeds_bind.mpr ⟨username, optionalStr_ok_iff.mpr husername, ?_⟩
    refine succeeds_bind.mpr ⟨password, optionalStr_ok_iff.mpr hpassword, ?_⟩
    refine succeeds_bind.mpr ⟨authSource, hauth _, succeeds_bind.mpr ⟨tls, htls _, ?_⟩⟩
    refine succeeds_bind.mpr ⟨tlsCaFile, optionalStr_ok_iff.mpr hca, ?_⟩
    refine succeeds_bind.mpr ⟨timeout, htimeout _, ?_⟩
    obtain ⟨collections, hcollections⟩ :=
      (parseArray_succeeds parseCollection_succeeds).mpr h.collections
    exact succeeds_bind.mpr ⟨collections, hcollections, succeeds_pure _⟩

lemma only_parseS3_iff (s3 : Option Toml) : OnlyConfigError (parseS3 s3) ↔
    ∀ v, s3 = some v → ¬ Trips "bucket" v := by
  rcases s3 with _ | raw
  · exact iff_of_true (only_configError _) fun v h => by cases h
  simp only [Option.some.injEq, forall_eq', parseS3, only_bind, only_require_iff]
  rcases isTable_cases raw with ⟨⟨t, rfl⟩, -⟩ | ⟨-, hno⟩
  · refine iff_of_true ⟨not_false, fun bucket _ => ?_⟩ not_false
    exact ⟨only_optional_table, fun _ _ => ⟨only_optional_table, fun _ _ => only_pure _⟩⟩
  · exact ⟨fun h => h.1, fun h => ⟨h, fun s hs => absurd hs (require_fails hno)⟩⟩

lemma parseS3_succeeds (s3 : Option Toml) :
    Succeeds (parseS3 s3) ↔ ∃ v, s3 = some v ∧ TableWith S3Table v := by
  rcases s3 with _ | raw
  · simp [parseS3]
  simp only [parseS3, succeeds_bind, Option.some.injEq, exists_eq_left']
  constructor
  · rintro ⟨bucket, hbucket, region, hregion, pre, hpre, -⟩
    rcases isTable_cases raw with ⟨⟨t, rfl⟩, -⟩ | ⟨-, hno⟩
    · exact ⟨t, rfl, ⟨bucket, require_ok_iff.mp hbucket⟩, optional_succeeds.mp ⟨region, hregion⟩,
        optional_succeeds.mp ⟨pre, hpre⟩⟩
    · exact absurd hbucket (require_fails hno)
  · rintro ⟨t, rfl, h⟩
    obtain ⟨bucket, hbucket⟩ := h.bucket
    obtain ⟨region, hregion⟩ := h.region.value "us-east-1"
    obtain ⟨pre, hpre⟩ := h.pre.value ""
    exact ⟨bucket, require_ok_iff.mpr hbucket, region, hregion _, pre, hpre _, succeeds_pure _⟩

/-- Whatever is no table has no `get`. -/
lemma get_raises (hno : isTable raw = false) (key : String) :
    ∃ text, raw.get key = .error ⟨.attributeError, text⟩ := by
  cases raw with
  | table => cases hno
  | str | int | bool | other | array => exact ⟨_, rfl⟩

/-- An optional field, and after it something that is no `ConfigError`. -/
lemma not_only_optional {type : FieldType α} {default : α} {f : α → Except Exc β}
    (hno : isTable raw = false) (hf : ∀ a, ¬ OnlyConfigError (f a)) :
    ¬ OnlyConfigError (optional type raw key fieldName default >>= f) := by
  rw [only_bind, only_optional_iff]
  rintro ⟨htrips, h⟩
  rcases optional_noTable _ hno with ⟨-, heq⟩ | ⟨h', -⟩
  · exact hf default (h default heq)
  · exact htrips h'

lemma only_parseLogs_iff (logs : Option Toml) : OnlyConfigError (parseLogs logs) ↔
    ∀ v, logs = some v → isTable v := by
  rcases logs with _ | raw
  · exact iff_of_true (only_ok _) fun v h => by cases h
  simp only [Option.some.injEq, forall_eq', parseLogs]
  rcases isTable_cases raw with ⟨⟨t, rfl⟩, htable⟩ | ⟨-, hno⟩
  · refine iff_of_true ?_ htable
    refine only_bind.mpr ⟨only_optional_table, fun enabled _ => ?_⟩
    refine only_bind.mpr ⟨only_optional_table, fun gcDays _ => ?_⟩
    exact only_bind.mpr ⟨only_parseArray_table only_parseLogSource, fun _ _ => only_pure _⟩
  · refine iff_of_false ?_ (by simp [hno])
    refine not_only_optional hno fun enabled => not_only_optional hno fun gcDays h => ?_
    obtain ⟨text, hget⟩ := get_raises hno "sources"
    have harray := (only_bind.mp h).1
    rw [parseArray, hget] at harray
    exact not_only (by simp) harray

lemma parseLogs_succeeds (logs : Option Toml) :
    Succeeds (parseLogs logs) ↔ ∀ v, logs = some v → TableWith LogsTable v := by
  rcases logs with _ | raw
  · exact iff_of_true (succeeds_ok _) fun v h => by cases h
  simp only [parseLogs, succeeds_bind, Option.some.injEq, forall_eq']
  constructor
  · rintro ⟨enabled, henabled, gcDays, hgc, sources, hsources, -⟩
    rcases isTable_cases raw with ⟨⟨t, rfl⟩, -⟩ | ⟨-, hno⟩
    · exact ⟨t, rfl, optional_succeeds.mp ⟨enabled, henabled⟩, optional_succeeds.mp ⟨gcDays, hgc⟩,
        (parseArray_succeeds parseLogSource_succeeds).mp ⟨sources, hsources⟩⟩
    · obtain ⟨text, hget⟩ := get_raises hno "sources"
      rw [parseArray, hget] at hsources
      cases hsources
  · rintro ⟨t, rfl, h⟩
    obtain ⟨enabled, henabled⟩ := h.enabled.value true
    obtain ⟨gcDays, hgc⟩ := h.gcDays.value 14
    obtain ⟨sources, hsources⟩ := (parseArray_succeeds parseLogSource_succeeds).mpr h.sources
    exact ⟨enabled, henabled _, gcDays, hgc _, sources, hsources, succeeds_pure _⟩

lemma only_parseHostmetrics_iff (hostmetrics : Option Toml) :
    OnlyConfigError (parseHostmetrics hostmetrics) ↔
      ∀ v, hostmetrics = some v → isTable v := by
  rcases hostmetrics with _ | raw
  · exact iff_of_true (only_ok _) fun v h => by cases h
  simp only [Option.some.injEq, forall_eq', parseHostmetrics]
  rcases isTable_cases raw with ⟨⟨t, rfl⟩, htable⟩ | ⟨-, hno⟩
  · refine iff_of_true ?_ htable
    refine only_bind.mpr ⟨only_optional_table, fun enabled _ => ?_⟩
    rw [Toml.get, ok_bind]
    split
    · split
      · exact only_pure _
      · exact only_configError _
    · exact only_configError _
  · refine iff_of_false (not_only_optional hno fun enabled h => ?_) (by simp [hno])
    obtain ⟨text, hget⟩ := get_raises hno "disks"
    rw [hget] at h
    exact not_only (by simp) h

lemma mapM_str (items : List Toml) :
    (items.mapM strType.cast).isSome ↔ ∀ item ∈ items, ∃ s, item = .str s := by
  induction items with
  | nil => simp
  | cons item items ih =>
    rw [List.forall_mem_cons, ← ih, List.mapM_cons]
    cases item with
    | str s => cases items.mapM strType.cast <;> simp [strType]
    | int | bool | other | array | table => simp [strType]

lemma parseHostmetrics_succeeds (hostmetrics : Option Toml) :
    Succeeds (parseHostmetrics hostmetrics) ↔
      ∀ v, hostmetrics = some v → TableWith HostmetricsTable v := by
  rcases hostmetrics with _ | raw
  · exact iff_of_true (succeeds_ok _) fun v h => by cases h
  simp only [parseHostmetrics, succeeds_bind, Option.some.injEq, forall_eq']
  rcases isTable_cases raw with ⟨⟨t, rfl⟩, -⟩ | ⟨hnone, hno⟩
  swap
  · refine iff_of_false ?_ fun ⟨t, ht, _⟩ => hnone t ht
    rintro ⟨enabled, -, disks, hdisks, -⟩
    obtain ⟨text, hget⟩ := get_raises hno "disks"
    rw [hget] at hdisks
    cases hdisks
  constructor
  · rintro ⟨enabled, henabled, disks, hdisks, h⟩
    obtain rfl := Except.ok.inj hdisks
    refine ⟨t, rfl, optional_succeeds.mp ⟨enabled, henabled⟩, fun v hv => ?_⟩
    rw [hv, Option.getD_some] at h
    cases v with
    | array items =>
      refine ⟨items, rfl, (mapM_str items).mp ?_⟩
      rcases hm : items.mapM strType.cast with _ | names
      · simp only [hm] at h
        exact absurd h (not_succeeds_configError _)
      · rfl
    | str | int | bool | other | table => exact absurd h (not_succeeds_configError _)
  · rintro ⟨t', ht', h⟩
    obtain rfl := Toml.table.inj ht'
    obtain ⟨enabled, henabled⟩ := h.enabled.value true
    refine ⟨enabled, henabled _, _, rfl, ?_⟩
    rcases hv : t.lookup "disks" with _ | v
    · exact succeeds_pure _
    obtain ⟨items, rfl, hall⟩ := h.disks v hv
    obtain ⟨names, hm⟩ := Option.isSome_iff_exists.mp ((mapM_str items).mpr hall)
    rw [Option.getD_some]
    simp only [hm]
    exact succeeds_pure _

/-! ### Documents -/

variable {doc : Table}

def ReachesMongo (doc : Table) : Prop := ∃ v, doc.lookup "agent" = some v ∧ TableWith AgentTable v

lemma reachesMongo_table (h : doc.lookup "agent" = some (.table t)) :
    ReachesMongo doc ↔ AgentTable t := by
  simp [ReachesMongo, TableWith, h]

def ReachesS3 (doc : Table) : Prop := ReachesMongo doc ∧ MongoSection (doc.lookup "mongo")

def ReachesLogs (doc : Table) : Prop :=
  ReachesS3 doc ∧ ∃ v, doc.lookup "s3" = some v ∧ TableWith S3Table v

def ReachesHostmetrics (doc : Table) : Prop :=
  ReachesLogs doc ∧ ∀ v, doc.lookup "logs" = some v → TableWith LogsTable v

/-- No section that is reached is one that Python trips over. -/
structure TripsNowhere (doc : Table) : Prop where
  agent : ∀ v, doc.lookup "agent" = some v → ¬ Trips "state_db" v
  mongo : ReachesMongo doc →
    ∀ v, doc.lookup "mongo" = some v → ¬ Trips "enabled" v ∧ ¬ Trips "database" v
  s3 : ReachesS3 doc → ∀ v, doc.lookup "s3" = some v → ¬ Trips "bucket" v
  logs : ReachesLogs doc → ∀ v, doc.lookup "logs" = some v → isTable v
  hostmetrics : ReachesHostmetrics doc → ∀ v, doc.lookup "hostmetrics" = some v → isTable v

lemma only_iff {x : Except Exc α} :
    (∃ a, x = .ok a) ∨ (∃ text, x = .error ⟨.configError, text⟩) ↔ OnlyConfigError x := by
  rcases x with ⟨cls, text⟩ | a
  · constructor
    · rintro (⟨a, ha⟩ | ⟨text', h⟩)
      · cases ha
      · rw [h]; exact only_configError text'
    · intro h
      obtain rfl : cls = .configError := h _ rfl
      exact .inr ⟨text, rfl⟩
  · exact ⟨fun _ => only_ok a, fun _ => .inl ⟨a, rfl⟩⟩

/-- **What loads**: a document in which every section is well formed. -/
theorem loads_iff (defaultLogDir path : String) (doc : Table) :
    (∃ a, loadConfig defaultLogDir path (.ok doc) = .ok a) ↔ ReachesHostmetrics doc ∧
      ∀ v, doc.lookup "hostmetrics" = some v → TableWith HostmetricsTable v := by
  change Succeeds _ ↔ _
  rcases hagent : doc.lookup "agent" with _ | agent
  · simp only [loadConfig, hagent]
    refine iff_of_false (not_succeeds_configError _) ?_
    rintro ⟨⟨⟨⟨⟨v, hv, -⟩, -⟩, -⟩, -⟩, -⟩
    rw [hagent] at hv
    cases hv
  rcases isTable_cases agent with ⟨⟨t, rfl⟩, -⟩ | ⟨hnone, hno⟩
  · have hreach := reachesMongo_table hagent
    simp only [loadConfig, hagent, succeeds_bind, succeeds_pure, and_true, exists_ok_iff,
      require_succeeds, optional_succeeds, optionalStr_succeeds, parseMongo_succeeds,
      parseS3_succeeds, parseLogs_succeeds, ReachesHostmetrics, ReachesLogs, ReachesS3, hreach]
    rw [← parseHostmetrics_succeeds]
    constructor
    · rintro ⟨hstate, hspool, hdir, hlevel, hhost, hmongo, hs3, hlogs, hmetrics⟩
      exact ⟨⟨⟨⟨⟨hstate, hspool, hdir, hlevel, hhost⟩, hmongo⟩, hs3⟩, hlogs⟩, hmetrics⟩
    · rintro ⟨⟨⟨⟨ha, hmongo⟩, hs3⟩, hlogs⟩, hmetrics⟩
      exact ⟨ha.stateDb, ha.spoolDir, ha.logDir, ha.logLevel, ha.hostId, hmongo, hs3, hlogs,
        hmetrics⟩
  · simp only [loadConfig, hagent, succeeds_bind]
    refine iff_of_false ?_ ?_
    · rintro ⟨s, hs, -⟩
      exact require_fails hno hs
    · rintro ⟨⟨⟨⟨⟨v, hv, t, rfl, -⟩, -⟩, -⟩, -⟩, -⟩
      rw [hagent] at hv
      exact hnone t (Option.some.inj hv)

/-- **When `load_config` fails only with a `ConfigError`.** -/
theorem only_config_errors_iff (defaultLogDir path : String) (doc : Table) :
    (∃ a, loadConfig defaultLogDir path (.ok doc) = .ok a) ∨
      (∃ text, loadConfig defaultLogDir path (.ok doc) = .error ⟨.configError, text⟩) ↔
    TripsNowhere doc := by
  rw [only_iff]
  rcases hagent : doc.lookup "agent" with _ | agent
  · have hno : ¬ ReachesMongo doc := by
      rintro ⟨v, hv, -⟩
      rw [hagent] at hv
      cases hv
    simp only [loadConfig, hagent]
    refine iff_of_true (only_configError _) ⟨fun v hv => ?_, fun h => absurd h hno,
      fun h => absurd h.1 hno, fun h => absurd h.1.1 hno, fun h => absurd h.1.1.1 hno⟩
    rw [hagent] at hv
    cases hv
  rcases isTable_cases agent with ⟨⟨t, rfl⟩, -⟩ | ⟨hnone, hno⟩
  · have hreach := reachesMongo_table hagent
    simp only [loadConfig, hagent, only_bind, only_require_table, only_optional_table,
      only_optionalStr_table, true_and, only_pure, and_true, implies_true,
      forall_ok_iff, require_succeeds, optional_succeeds, optionalStr_succeeds,
      only_parseMongo_iff, parseMongo_succeeds, only_parseS3_iff, parseS3_succeeds,
      only_parseLogs_iff, parseLogs_succeeds, only_parseHostmetrics_iff]
    constructor
    · intro h
      have hstart := fun ha : AgentTable t =>
        h ha.stateDb ha.spoolDir ha.logDir ha.logLevel ha.hostId
      have hs3 := fun hr : ReachesS3 doc => (hstart (hreach.mp hr.1)).2 hr.2
      have hlogs := fun hr : ReachesLogs doc => (hs3 hr.1).2 hr.2
      refine ⟨fun v hv => ?_, fun hr => (hstart (hreach.mp hr)).1, fun hr => (hs3 hr).1,
        fun hr => (hlogs hr).1, fun hr => (hlogs hr.1).2 hr.2⟩
      rw [hagent] at hv
      obtain rfl := Option.some.inj hv
      exact not_false
    · intro hn hstate hspool hdir hlevel hhost
      have hmongo : ReachesMongo doc := hreach.mpr ⟨hstate, hspool, hdir, hlevel, hhost⟩
      refine ⟨hn.mongo hmongo, fun hm => ?_⟩
      have hs3 : ReachesS3 doc := ⟨hmongo, hm⟩
      refine ⟨hn.s3 hs3, fun hs => ?_⟩
      have hlogs : ReachesLogs doc := ⟨hs3, hs⟩
      exact ⟨hn.logs hlogs, fun hl => hn.hostmetrics ⟨hlogs, hl⟩⟩
  · have hstop : ¬ ReachesMongo doc := by
      rintro ⟨v, hv, t, rfl, -⟩
      rw [hagent] at hv
      exact hnone t (Option.some.inj hv)
    simp only [loadConfig, hagent, only_bind, only_require_iff]
    constructor
    · rintro ⟨h, -⟩
      refine ⟨fun v hv => ?_, fun h => absurd h hstop, fun h => absurd h.1 hstop,
        fun h => absurd h.1.1 hstop, fun h => absurd h.1.1.1 hstop⟩
      rw [hagent] at hv
      rwa [← Option.some.inj hv]
    · intro h
      exact ⟨h.agent _ hagent, fun s hs => absurd hs (require_fails hno)⟩

/-- The line `agent = 3`, where a section is expected. -/
theorem scalar_section_raises :
    ¬ ∀ doc : Table, (∃ a, loadConfig "/var/log" "agent.toml" (.ok doc) = .ok a) ∨
      ∃ text, loadConfig "/var/log" "agent.toml" (.ok doc) = .error ⟨.configError, text⟩ := by
  intro h
  rcases h [("agent", .int 3)] with ⟨a, ha⟩ | ⟨text, htext⟩
  · cases ha
  · cases htext

end MongoSyncAgent.ConfigErrors
