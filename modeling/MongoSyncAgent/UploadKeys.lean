import MongoSyncAgent.Keys

/-!
What a key says about the upload under it.

The names stand in the key as they are and may hold the separators. From the left a key is still
read up to the first `/` after the name of the builder, which ends the database; from the right
the date, the time and the extension have one length. What lies between is the name.
-/

namespace MongoSyncAgent.UploadKeys

open MongoSyncAgent.Numerals MongoSyncAgent.Calendar MongoSyncAgent.Timestamps
open MongoSyncAgent.Keys

/-- A name of a database: no path separator. -/
structure DbName where
  name : String
  noSlash : '/' ∉ name.toList
  deriving DecidableEq

/-- An upload, by the builder of its key and the names that go into it. -/
inductive Upload
  | mongo (db : DbName) (coll : String)
  | logs (source : String)
  | hostmetrics
  deriving DecidableEq

def Upload.key (pre : String) (runDt : Datetime) : Upload → String
  | .mongo db coll => mongoKey pre db.name coll runDt
  | .logs source => logsKey pre source runDt
  | .hostmetrics => hostmetricsKey pre runDt

/-! ### The run time -/

lemma padded_append_inj {w m n : ℕ} {u v : List Char} (hm : m < 10 ^ w) (hn : n < 10 ^ w)
    (h : padded w m ++ u = padded w n ++ v) : m = n ∧ u = v := by
  obtain ⟨hpad, htail⟩ := List.append_inj h (by simp [padded])
  refine ⟨?_, htail⟩
  have hnum := numeral_padded hm
  rw [hpad, numeral_padded hn] at hnum
  exact (Option.some.inj hnum).symm

/-- **The time in a key** is the second of the run. -/
lemma runTs_injective {s t : Datetime} (h : runTs s = runTs t) :
    s.wall / 1000000 = t.wall / 1000000 := by
  have bounds : ∀ d : Datetime, d.date.year < 10 ^ 4 ∧ d.date.month < 10 ^ 2 ∧
      d.date.day < 10 ^ 2 ∧ d.hour < 10 ^ 2 ∧ d.minute < 10 ^ 2 ∧ d.second < 10 ^ 2 := by
    intro d
    have hyear := d.date_year_le
    have hmonth := d.date.month_le.2
    have hday := day_le d.date
    have hhour : d.hour < 24 := Nat.mod_lt _ (by omega)
    have hminute : d.minute < 60 := Nat.mod_lt _ (by omega)
    have hsecond : d.second < 60 := Nat.mod_lt _ (by omega)
    refine ⟨?_, ?_, ?_, ?_, ?_, ?_⟩ <;> omega
  obtain ⟨hy, hm, hd, hh, hmi, hs⟩ := bounds s
  obtain ⟨hy', hm', hd', hh', hmi', hs'⟩ := bounds t
  have hchars := String.ofList_injective h
  obtain ⟨hyear, hchars⟩ := padded_append_inj hy hy' hchars
  obtain ⟨hmonth, hchars⟩ := padded_append_inj hm hm' hchars
  obtain ⟨hday, hchars⟩ := padded_append_inj hd hd' hchars
  obtain ⟨hhour, hchars⟩ := padded_append_inj hh hh' (List.cons.inj hchars).2
  obtain ⟨hminute, hchars⟩ := padded_append_inj hmi hmi' hchars
  obtain ⟨hsecond, -⟩ := padded_append_inj hs hs' hchars
  have hdate : s.date = t.date := Date.ext hyear hmonth hday
  have hws := s.wall_eq
  have hwt := t.wall_eq
  rw [hdate, hhour, hminute, hsecond, dayMicros] at hws
  rw [dayMicros] at hwt
  have hus : s.microsecond < 1000000 := Nat.mod_lt _ (by omega)
  have hus' : t.microsecond < 1000000 := Nat.mod_lt _ (by omega)
  omega

/-- What every key ends in: the date partition and the file. -/
def stamp (ext : String) (runDt : Datetime) : String :=
  "/dt=" ++ dtPartition runDt ++ "/part-" ++ runTs runDt ++ ext

lemma length_dtPartition (d : Datetime) : (dtPartition d).toList.length = 10 := by
  simp [dtPartition, padded]

lemma length_runTs (d : Datetime) : (runTs d).toList.length = 16 := by simp [runTs, padded]

lemma stamp_injective {ext : String} {s t : Datetime} (h : stamp ext s = stamp ext t) :
    s.wall / 1000000 = t.wall / 1000000 := by
  have hts := congrArg String.toList ((String.append_left_inj _).mp h)
  simp only [String.toList_append] at hts
  obtain ⟨-, hts⟩ := List.append_inj' hts (by rw [length_runTs, length_runTs])
  exact runTs_injective (String.toList_inj.mp hts)

/-- A name before a stamp is read from the right. -/
lemma name_stamp_injective {ext a b : String} {s t : Datetime}
    (h : a ++ stamp ext s = b ++ stamp ext t) : a = b ∧ s.wall / 1000000 = t.wall / 1000000 := by
  have hlist := congrArg String.toList h
  rw [String.toList_append, String.toList_append] at hlist
  obtain ⟨hname, hstamp⟩ := List.append_inj' hlist
    (by simp [stamp, length_dtPartition, length_runTs])
  exact ⟨String.toList_inj.mp hname, stamp_injective (String.toList_inj.mp hstamp)⟩

/-- A name without a separator before one is read from the left. -/
lemma segment_injective {sep : Char} {a b u v : List Char} (ha : sep ∉ a) (hb : sep ∉ b)
    (h : a ++ sep :: u = b ++ sep :: v) : a = b ∧ u = v := by
  induction a generalizing b with
  | nil =>
    rcases b with _ | ⟨c, b⟩
    · exact ⟨rfl, (List.cons.inj h).2⟩
    · exact absurd (List.cons.inj h).1 fun heq => hb (by simp [← heq])
  | cons c a ih =>
    rcases b with _ | ⟨d, b⟩
    · exact absurd (List.cons.inj h).1 fun heq => ha (by simp [heq])
    · obtain ⟨rfl, htail⟩ := List.cons.inj h
      obtain ⟨rfl, huv⟩ := ih (fun hmem => ha (List.mem_cons_of_mem _ hmem))
        (fun hmem => hb (List.mem_cons_of_mem _ hmem)) htail
      exact ⟨rfl, huv⟩

/-! ### Keys -/

/-- A key without its prefix. -/
def Upload.body (runDt : Datetime) : Upload → String
  | .mongo db coll => "mongo/" ++ (db.name ++ "/" ++ (coll ++ stamp ".parquet" runDt))
  | .logs source => "logs/" ++ (source ++ stamp ".jsonl.gz" runDt)
  | .hostmetrics => "hostmetrics" ++ stamp ".jsonl.gz" runDt

lemma key_eq (pre : String) (runDt : Datetime) (x : Upload) :
    x.key pre runDt = normalisePrefix pre ++ x.body runDt := by
  cases x <;>
    simp only [Upload.key, Upload.body, mongoKey, logsKey, hostmetricsKey, stamp,
      String.append_assoc]
  congr 1

lemma body_injective {x y : Upload} {s t : Datetime} (h : x.body s = y.body t) :
    x = y ∧ s.wall / 1000000 = t.wall / 1000000 := by
  rcases x with ⟨db, coll⟩ | source | _ <;> rcases y with ⟨db', coll'⟩ | source' | _ <;>
    simp only [Upload.body] at h
  case mongo.mongo =>
    have hlist := congrArg String.toList ((String.append_right_inj _).mp h)
    simp only [String.toList_append, List.append_assoc] at hlist
    obtain ⟨hdb, hrest⟩ := segment_injective db.noSlash db'.noSlash hlist
    rw [← String.toList_append, ← String.toList_append] at hrest
    obtain ⟨rfl, hrun⟩ := name_stamp_injective (String.toList_inj.mp hrest)
    obtain rfl : db = db' := by
      cases db; cases db'
      simpa [String.toList_inj] using hdb
    exact ⟨rfl, hrun⟩
  case logs.logs =>
    obtain ⟨rfl, hrun⟩ := name_stamp_injective ((String.append_right_inj _).mp h)
    exact ⟨rfl, hrun⟩
  case hostmetrics.hostmetrics => exact ⟨rfl, stamp_injective ((String.append_right_inj _).mp h)⟩
  -- the builders differ in their first letter
  all_goals
    have hlist := congrArg String.toList h
    simp at hlist

/-- The prefix with a separator after it is the prefix with its separator, unless there is none
to be added: at an empty prefix, and at one that has it. -/
lemma normalisePrefix_slash (pre : String) :
    normalisePrefix (pre ++ "/") = normalisePrefix pre ↔ pre ≠ "" ∧ ¬ ['/'] <:+ pre.toList := by
  have hslash : normalisePrefix (pre ++ "/") = pre ++ "/" := by
    rw [normalisePrefix, if_neg]
    rintro ⟨-, hno⟩
    exact hno ⟨pre.toList, by simp⟩
  rw [hslash, normalisePrefix]
  split_ifs with h
  · exact ⟨fun _ => h, fun _ => rfl⟩
  · refine ⟨fun heq => ?_, fun hyes => absurd hyes h⟩
    have hlen := congrArg (fun s => s.toList.length) heq
    simp at hlen

/-- **Keys determine what they hold**: under one prefix they come from one builder with one list
of names, and from one second of the clock that the run time is given on. A prefix gives the same
keys with a separator after it as without exactly where the builder would have added it. -/
theorem keys_determine_uploads :
    (∀ (pre : String) (x y : Upload) (s t : Datetime), x.key pre s = y.key pre t →
      x = y ∧ s.wall / 1000000 = t.wall / 1000000) ∧
    ∀ (pre : String) (x : Upload) (runDt : Datetime),
      x.key (pre ++ "/") runDt = x.key pre runDt ↔ pre ≠ "" ∧ ¬ ['/'] <:+ pre.toList := by
  refine ⟨fun pre x y s t h => ?_, fun pre x runDt => ?_⟩
  · rw [key_eq, key_eq] at h
    exact body_injective ((String.append_right_inj _).mp h)
  · rw [← normalisePrefix_slash, key_eq, key_eq, String.append_left_inj]

def sampleDb : DbName := ⟨"db", by decide⟩

/-- A run at 2026-07-03 12:34:56 UTC, so many microseconds into the second. -/
def sampleRun (microsecond : ℕ) : Datetime where
  wall := 63918678896000000 + microsecond % 1000000
  tzinfo := some 0
  wall_lt := by unfold wallLimit; omega

/-- A collection with the separators of a key in its name, written twice within a second. -/
theorem keys_of_one_second :
    (sampleRun 0).wall / 1000000 = (sampleRun 7).wall / 1000000 :=
  (keys_determine_uploads.1 "raw" (.mongo sampleDb "a/dt=b") (.mongo sampleDb "a/dt=b")
    (sampleRun 0) (sampleRun 7) rfl).2

/-- The empty prefix is no prefix, and `/` is one. -/
theorem slash_prefix_differs :
    ¬ ∀ (pre : String) (x : Upload) (runDt : Datetime),
      x.key (pre ++ "/") runDt = x.key pre runDt := by
  intro h
  have hlen := congrArg String.length (h "" .hostmetrics (sampleRun 0))
  revert hlen
  decide

end MongoSyncAgent.UploadKeys
