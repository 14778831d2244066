import MongoSyncAgent.Py
import Mathlib

/-!
The metrics of the host, and what the disk I/O of a volume counts.

Windows counts by physical drive, and a volume is given by its extents. Two extents may lie on
one drive; the drive is then in the list of keys twice, and its counters are added twice.
-/

namespace MongoSyncAgent.HostMetrics

open MongoSyncAgent.Py

/-! ### What the machine reports -/

/-- The counters of a drive that are summed. -/
inductive Counter
  | readBytes | writeBytes | readCount | writeCount
  deriving DecidableEq

abbrev Counters := Counter → ℕ

structure Usage where
  total : ℕ
  used : ℕ
  free : ℕ
  percent : String
  deriving DecidableEq

structure Memory where
  total : ℕ
  available : ℕ
  used : ℕ
  percent : String
  deriving DecidableEq

/-- `_MAX_EXTENTS`. -/
def maxExtents : ℕ := 32

/-- `VOLUME_DISK_EXTENTS`, by the disk numbers of its extents. -/
structure VolumeDiskExtents where
  numberOfDiskExtents : ℕ
  extents : List ℕ
  length_extents : extents.length = maxExtents

/-- `kernel32`: a handle for each volume that opens, the extents for each that can be queried. -/
structure Kernel32 where
  createFileW : String → Option ℕ
  deviceIoControl : ℕ → Option VolumeDiskExtents

/-- `psutil`, the clock and the platform, as one call of `collect` meets them. -/
structure Machine where
  platform : String
  kernel32 : Kernel32
  cpuPercent : Except Exc String
  virtualMemory : Except Exc Memory
  /-- `None` where there are no disks. -/
  diskIoCounters : Except Exc (Option (List (String × Counters)))
  diskUsage : String → Except Exc Usage
  /-- The time at each reading of the clock. -/
  clock : ℕ → String

/-! ### Collecting -/

inductive Metric
  | cpuPercent1s (value : String)
  | memory (mem : Memory)
  | diskUsage (path : String) (usage : Usage)
  | diskIo (path : String) (io : Counters) (warning : Option String)

structure Record where
  metric : Metric
  ts : String
  host : String

variable (m : Machine)

/-- `disk.rstrip("\\/").rstrip(":")`, as the path of a volume device. -/
def volumePath (disk : String) : String :=
  "\\\\.\\" ++ String.ofList ((disk.toList.rdropWhile fun c => c = '\\' ∨ c = '/').rdropWhile
    fun c => c = ':') ++ ":"

/-- `_windows_volume_disk_numbers`. -/
def windowsVolumeDiskNumbers (disk : String) : Except Exc (List ℕ) :=
  match m.kernel32.createFileW (volumePath disk) with
  | none => raise .osError ("could not open volume " ++ volumePath disk)
  | some handle =>
    match m.kernel32.deviceIoControl handle with
    | none => raise .osError ("could not query disk extents for " ++ volumePath disk)
    | some ext => .ok (ext.extents.take (min ext.numberOfDiskExtents maxExtents))

/-- The key of a physical drive in the counters of `psutil`. -/
def driveKey (n : ℕ) : String := "PhysicalDrive" ++ toString n

/-- `try: ... except Exception`: nothing where there was an exception. -/
def caught {α : Type} (x : Except Exc α) : Except Exc (Option α) :=
  match x with
  | .ok a => .ok (some a)
  | .error e => if e.isException then .ok none else .error e

/-- `_resolve_perdisk_keys`. -/
def resolvePerdiskKeys (disk : String) : Except Exc (Option (List String)) :=
  if m.platform ≠ "win32" then .ok none
  else do
    match ← caught (windowsVolumeDiskNumbers m disk) with
    | none | some [] => return none
    | some numbers => return some (numbers.map driveKey)

/-- `_sum_disk_io`. -/
def sumDiskIo (keys : List String) (counters : List (String × Counters)) : Option Counters :=
  let present := keys.filter fun key => (counters.lookup key).isSome
  if present = [] then none
  else some (present.foldl (fun sum key => sum + (counters.lookup key).getD 0) 0)

/-- `if disk in disk_io_counters`: a key of its own, or the keys of its drives. -/
def ioKeys (counters : List (String × Counters)) (disk : String) :
    Except Exc (Option (List String)) :=
  if (counters.lookup disk).isSome then .ok (some [disk]) else resolvePerdiskKeys m disk

/-- The `disk_io` record of a disk. -/
def diskIo (counters : List (String × Counters)) (disk : String) : Except Exc Metric := do
  let keys ← ioKeys m counters disk
  match keys.bind fun keys => if keys = [] then none else sumDiskIo keys counters with
  | some io => return .diskIo disk io none
  | none => return .diskIo disk 0 (some ("Disk IO data not found for " ++ disk))

def diskMetrics (counters : List (String × Counters)) (disk : String) :
    Except Exc (List Metric) := do
  match ← caught (m.diskUsage disk) with
  | none => return []
  | some usage => return .diskUsage disk usage :: ((← caught (diskIo m counters disk)).toList)

def allDisks (counters : List (String × Counters)) : List String → Except Exc (List Metric)
  | [] => .ok []
  | disk :: disks => do return (← diskMetrics m counters disk) ++ (← allDisks counters disks)

/-- Every record with the time it was made at and the host. -/
def stamped (host : String) (metrics : List Metric) : List Record :=
  metrics.zipIdx.map fun r => ⟨r.1, m.clock r.2, host⟩

/-- `collect`. -/
def collect (disks : List String) (host : String) : Except Exc (List Record) := do
  let cpu ← caught m.cpuPercent
  let mem ← caught m.virtualMemory
  let counters := ((← caught m.diskIoCounters).join).getD []
  let io ← allDisks m counters disks
  return stamped m host (cpu.toList.map .cpuPercent1s ++ mem.toList.map .memory ++ io)

/-! ### A sum over a list and over its elements -/

/-- A list adds up to the same as its distinct elements just where nothing counts that is in it
more than once. -/
lemma sum_eq_distinct_iff {α : Type} [DecidableEq α] (xs : List α) (f : α → ℕ) :
    (xs.map f).sum = ∑ x ∈ xs.toFinset, f x ↔ ∀ x ∈ xs, 1 < xs.count x → f x = 0 := by
  rw [Finset.sum_list_map_count, eq_comm, Finset.sum_eq_sum_iff_of_le]
  · refine forall_congr' fun x => ?_
    rw [List.mem_toFinset]
    refine imp_congr_right fun hx => ?_
    have hpos := List.count_pos_iff.mpr hx
    rw [smul_eq_mul]
    constructor
    · intro h hmore
      by_contra hne
      have hlt : f x * 1 < f x * xs.count x :=
        Nat.mul_lt_mul_of_pos_left hmore (Nat.pos_of_ne_zero hne)
      rw [Nat.mul_comm (f x) (xs.count x)] at hlt
      omega
    · intro h
      rcases Nat.lt_or_ge 1 (xs.count x) with hmore | hle
      · rw [h hmore, Nat.mul_zero]
      · rw [show xs.count x = 1 by omega, Nat.one_mul]
  · intro x hx
    exact Nat.le_mul_of_pos_left _ (List.count_pos_iff.mpr (List.mem_toFinset.mp hx))

/-! ### A volume and its drives -/

/-- Windows reports these extents for a volume, by their disk numbers. -/
structure Reports (disk : String) (numbers : List ℕ) : Prop where
  platform : m.platform = "win32"
  extents : ∃ handle ext, m.kernel32.createFileW (volumePath disk) = some handle ∧
    m.kernel32.deviceIoControl handle = some ext ∧ ext.numberOfDiskExtents = numbers.length ∧
      numbers <+: ext.extents

/-- The counters of some drives, by the keys of `psutil`. -/
def driveTable (drives : List (ℕ × Counters)) : List (String × Counters) :=
  drives.map fun d => (driveKey d.1, d.2)

/-- The counters of a drive, which are zero where it is not in the table. -/
def countersOf (drives : List (ℕ × Counters)) (n : ℕ) : Counters := (drives.lookup n).getD 0

/-- The drives that a volume is on, of those in the table. -/
def backing (drives : List (ℕ × Counters)) (numbers : List ℕ) : Finset ℕ :=
  numbers.toFinset.filter fun n => (drives.lookup n).isSome

variable {m : Machine} {disk : String} {numbers : List ℕ} {drives : List (ℕ × Counters)}

lemma driveKey_injective : Function.Injective driveKey := fun n k h => by
  have htext := (String.append_right_inj _).mp h
  exact Nat.repr_injective htext

lemma lookup_driveTable (n : ℕ) : (driveTable drives).lookup (driveKey n) = drives.lookup n := by
  induction drives with
  | nil => rfl
  | cons d drives ih =>
    have hcons : driveTable (d :: drives) = (driveKey d.1, d.2) :: driveTable drives := rfl
    rw [hcons, List.lookup_cons, List.lookup_cons, ih]
    by_cases h : n = d.1
    · subst h; simp
    · rw [beq_false_of_ne h, beq_false_of_ne fun hkey => h (driveKey_injective hkey)]

lemma lookup_volume (hdisk : ∀ n, disk ≠ driveKey n) : (driveTable drives).lookup disk = none := by
  rw [List.lookup_eq_none_iff]
  intro p hp
  obtain ⟨d, -, rfl⟩ := List.mem_map.mp hp
  exact bne_iff_ne.mpr (hdisk d.1)

lemma windowsVolumeDiskNumbers_eq (h : Reports m disk numbers) :
    windowsVolumeDiskNumbers m disk = .ok numbers := by
  obtain ⟨handle, ext, hopen, hquery, hcount, hpre⟩ := h.extents
  have hle : numbers.length ≤ maxExtents := hpre.length_le.trans_eq ext.length_extents
  simp only [windowsVolumeDiskNumbers, hopen, hquery, hcount, Nat.min_eq_left hle]
  rw [← List.prefix_iff_eq_take.mp hpre]

/-- The drives of all keys add up to those of the keys that are present. -/
lemma sumDiskIo_getD (numbers : List ℕ) :
    (sumDiskIo (numbers.map driveKey) (driveTable drives)).getD 0 =
      (numbers.map (countersOf drives)).sum := by
  have hfold : ∀ (ns : List ℕ) (sum : Counters),
      ((ns.map driveKey).filter fun key => ((driveTable drives).lookup key).isSome).foldl
        (fun sum key => sum + ((driveTable drives).lookup key).getD 0) sum =
      sum + (ns.map (countersOf drives)).sum := by
    intro ns
    induction ns with
    | nil => intro sum; simp
    | cons n ns ih =>
      intro sum
      rw [List.map_cons, List.filter_cons, List.map_cons, List.sum_cons, lookup_driveTable]
      rcases h : drives.lookup n with _ | c
      · simp only [Option.isSome_none, Bool.false_eq_true, if_false, ih, countersOf, h,
          Option.getD_none, zero_add]
      · simp only [Option.isSome_some, if_true, List.foldl_cons, lookup_driveTable, h, ih,
          countersOf, Option.getD_some, add_assoc]
  have hall := hfold numbers 0
  rw [zero_add] at hall
  simp only [sumDiskIo]
  split_ifs with hnone
  · rw [hnone] at hall
    exact hall
  · exact hall

variable (drives) in
/-- **The record of a volume** carries the sum over the list of its extents. -/
lemma diskIo_volume (hdisk : ∀ n, disk ≠ driveKey n) (h : Reports m disk numbers) :
    ∃ warning, diskIo m (driveTable drives) disk =
      .ok (.diskIo disk (numbers.map (countersOf drives)).sum warning) := by
  have hkeys : ioKeys m (driveTable drives) disk =
      .ok (if numbers = [] then none else some (numbers.map driveKey)) := by
    rw [ioKeys, lookup_volume hdisk, Option.isSome_none, if_neg Bool.false_ne_true,
      resolvePerdiskKeys, if_neg (not_not.mpr h.platform), windowsVolumeDiskNumbers_eq h]
    cases numbers <;> rfl
  rw [diskIo, hkeys, ok_bind]
  rcases numbers with _ | ⟨n, ns⟩
  · exact ⟨_, rfl⟩
  rw [← sumDiskIo_getD]
  have hne : (n :: ns).map driveKey ≠ [] := List.cons_ne_nil _ _
  simp only [reduceCtorEq, if_false, Option.bind_some, if_neg hne]
  rcases sumDiskIo ((n :: ns).map driveKey) (driveTable drives) with _ | io
  · exact ⟨_, rfl⟩
  · exact ⟨_, rfl⟩

/-! ### The records of a call -/

lemma diskIo_ok {counters : List (String × Counters)} {metric : Metric}
    (h : diskIo m counters disk = .ok metric) : ∃ io warning, metric = .diskIo disk io warning := by
  obtain ⟨keys, -, h⟩ := bind_ok h
  split at h
  · obtain rfl := Except.ok.inj h
    exact ⟨_, _, rfl⟩
  · obtain rfl := Except.ok.inj h
    exact ⟨_, _, rfl⟩

lemma diskMetrics_mem {counters : List (String × Counters)} {ms : List Metric}
    (h : diskMetrics m counters disk = .ok ms) {metric : Metric} (hmem : metric ∈ ms) :
    (∃ usage, metric = .diskUsage disk usage) ∨ diskIo m counters disk = .ok metric := by
  obtain ⟨usage, -, h⟩ := bind_ok h
  rcases usage with _ | usage
  · obtain rfl := Except.ok.inj h
    cases hmem
  obtain ⟨io, hio, h⟩ := bind_ok h
  obtain rfl := Except.ok.inj h
  rcases List.mem_cons.mp hmem with rfl | hmem
  · exact .inl ⟨usage, rfl⟩
  · obtain rfl := Option.mem_toList.mp hmem
    unfold caught at hio
    split at hio
    · next hok =>
      rw [hok, Option.some.inj (Except.ok.inj hio)]
      exact .inr rfl
    · split_ifs at hio
      cases hio

lemma mem_allDisks {counters : List (String × Counters)} {disks : List String}
    {out : List Metric} (h : allDisks m counters disks = .ok out) {metric : Metric} :
    metric ∈ out ↔ ∃ d ∈ disks, ∃ ms, diskMetrics m counters d = .ok ms ∧ metric ∈ ms := by
  induction disks generalizing out with
  | nil =>
    obtain rfl := Except.ok.inj h
    simp
  | cons d disks ih =>
    obtain ⟨ms, hms, h⟩ := bind_ok h
    obtain ⟨rest, hrest, h⟩ := bind_ok h
    obtain rfl := Except.ok.inj h
    rw [List.mem_append, ih hrest]
    simp only [List.mem_cons, exists_eq_or_imp]
    refine or_congr_left ⟨fun hmem => ⟨ms, hms, hmem⟩, fun ⟨ms', hms', hmem⟩ => ?_⟩
    rw [hms] at hms'
    rwa [Except.ok.inj hms']

lemma mem_stamped {host : String} {metrics : List Metric} {metric : Metric} :
    (∃ r ∈ stamped m host metrics, r.metric = metric) ↔ metric ∈ metrics := by
  have hmap : (stamped m host metrics).map Record.metric = metrics := by
    rw [stamped, List.map_map]
    exact List.zipIdx_map_fst 0 metrics
  rw [← List.mem_map, hmap]

/-- What is emitted as the disk I/O of a disk is what `diskIo` gives for it. -/
lemma collect_diskIo {counters : List (String × Counters)} {usage : Usage} {disks : List String}
    {host : String} {records : List Record} {metric : Metric}
    (hcounters : m.diskIoCounters = .ok (some counters)) (husage : m.diskUsage disk = .ok usage)
    (hmem : disk ∈ disks) (hio : diskIo m counters disk = .ok metric)
    (h : collect m disks host = .ok records) :
    (∃ r ∈ records, r.metric = metric) ∧
      ∀ r ∈ records, ∀ io warning, r.metric = .diskIo disk io warning → r.metric = metric := by
  obtain ⟨cpu, -, h⟩ := bind_ok h
  obtain ⟨mem, -, h⟩ := bind_ok h
  rw [hcounters] at h
  obtain ⟨_, hcaught, h⟩ := bind_ok h
  obtain rfl := Except.ok.inj hcaught
  obtain ⟨out, hout, h⟩ := bind_ok h
  obtain rfl := Except.ok.inj h
  replace hout : allDisks m counters disks = .ok out := hout
  have hms : diskMetrics m counters disk = .ok [.diskUsage disk usage, metric] := by
    rw [diskMetrics, husage, hio]; rfl
  constructor
  · have hin : metric ∈ out := (mem_allDisks hout).mpr ⟨disk, hmem, _, hms, by simp⟩
    exact mem_stamped.mpr (List.mem_append_right _ hin)
  · intro r hr io warning hr'
    have hin := mem_stamped.mp ⟨r, hr, hr'⟩
    have hin' : Metric.diskIo disk io warning ∈ out := by simpa using hin
    obtain ⟨d, -, ms, hd, hmem'⟩ := (mem_allDisks hout).mp hin'
    rcases diskMetrics_mem hd hmem' with ⟨usage, h⟩ | h
    · cases h
    · obtain ⟨io', warning', heq⟩ := diskIo_ok h
      obtain ⟨rfl, -, -⟩ := Metric.diskIo.inj heq
      rw [hio] at h
      rw [hr', Except.ok.inj h]

lemma sum_apply (xs : List ℕ) (c : Counter) :
    (xs.map (countersOf drives)).sum c = (xs.map fun n => countersOf drives n c).sum := by
  induction xs with
  | nil => rfl
  | cons x xs ih => rw [List.map_cons, List.sum_cons, List.map_cons, List.sum_cons, ← ih]; rfl

/-- Drives that are not in the table add nothing. -/
lemma sum_backing (c : Counter) : ∑ n ∈ backing drives numbers, countersOf drives n c =
    ∑ n ∈ numbers.toFinset, countersOf drives n c := by
  refine Finset.sum_filter_of_ne fun n _ hne => ?_
  by_contra habsent
  rw [Option.not_isSome_iff_eq_none] at habsent
  exact hne (by rw [countersOf, habsent]; rfl)

/-- **When a volume counts every drive once**: just where every drive that more than one of its
extents lie on has counters of zero, or is not in the table. -/
theorem disk_io_counts_once_iff {usage : Usage} {disks : List String} {host : String}
    {records : List Record} (hdisk : ∀ n, disk ≠ driveKey n) (hreports : Reports m disk numbers)
    (hcounters : m.diskIoCounters = .ok (some (driveTable drives)))
    (husage : m.diskUsage disk = .ok usage) (hmem : disk ∈ disks)
    (hcollect : collect m disks host = .ok records) :
    (∃ r ∈ records, ∃ io warning, r.metric = .diskIo disk io warning) ∧
    ((∀ r ∈ records, ∀ io warning, r.metric = .diskIo disk io warning →
        ∀ c, io c = ∑ n ∈ backing drives numbers, countersOf drives n c) ↔
      ∀ n ∈ numbers, 1 < numbers.count n → ∀ c, countersOf drives n c = 0) := by
  obtain ⟨warning, hio⟩ := diskIo_volume drives hdisk hreports
  obtain ⟨⟨r, hr, hmetric⟩, hall⟩ := collect_diskIo hcounters husage hmem hio hcollect
  refine ⟨⟨r, hr, _, _, hmetric⟩, ?_⟩
  have honce : (∀ r ∈ records, ∀ io warning, r.metric = .diskIo disk io warning →
      ∀ c, io c = ∑ n ∈ backing drives numbers, countersOf drives n c) ↔
      ∀ c, (numbers.map fun n => countersOf drives n c).sum =
        ∑ n ∈ numbers.toFinset, countersOf drives n c := by
    constructor
    · intro h c
      rw [← sum_backing, ← sum_apply]
      exact h r hr _ _ hmetric c
    · intro h r hr io warning' hr' c
      have heq := hall r hr io warning' hr'
      rw [hr'] at heq
      obtain ⟨-, rfl, -⟩ := Metric.diskIo.inj heq
      rw [sum_apply, sum_backing, h c]
  rw [honce]
  simp only [sum_eq_distinct_iff]
  exact ⟨fun h n hn hmore c => h c n hn hmore, fun h c n hn hmore => h n hn hmore c⟩

/-! ### Two extents -/

def sampleDrives : List (ℕ × Counters) := [(0, fun _ => 7), (1, fun _ => 9)]

/-- Two drives, and a volume of two extents. -/
def sampleMachine (first second : ℕ) : Machine where
  platform := "win32"
  kernel32 := ⟨fun _ => some 1, fun _ => some ⟨2, first :: second :: List.replicate 30 0, rfl⟩⟩
  cpuPercent := .ok "3.5"
  virtualMemory := .ok ⟨100, 60, 40, "40.0"⟩
  diskIoCounters := .ok (some (driveTable sampleDrives))
  diskUsage := fun _ => .ok ⟨100, 40, 60, "40.0"⟩
  clock := fun _ => "2026-07-03T12:34:56+00:00"

lemma sampleMachine_reports (first second : ℕ) :
    Reports (sampleMachine first second) "C:" [first, second] where
  platform := rfl
  extents := ⟨1, _, rfl, rfl, rfl, ⟨_, rfl⟩⟩

lemma letter_not_drive (n : ℕ) : "C:" ≠ driveKey n := by
  intro h
  have hlist := congrArg String.toList h
  simp [driveKey] at hlist

/-- Extents on two drives. -/
theorem spanned_volume_counts_once :
    ∃ records, collect (sampleMachine 0 1) ["C:"] "host" = .ok records ∧ ∀ r ∈ records,
      ∀ io warning, r.metric = .diskIo "C:" io warning →
        ∀ c, io c = ∑ n ∈ backing sampleDrives [0, 1], countersOf sampleDrives n c :=
  ⟨_, rfl, (disk_io_counts_once_iff letter_not_drive (sampleMachine_reports 0 1) rfl rfl
    (List.mem_singleton_self _) rfl).2.mpr fun n hn hmore => by
      have hnodup : [0, 1].count n ≤ 1 := List.nodup_iff_count_le_one.mp (by decide) n
      omega⟩

/-- Two extents on one drive, which then counts `14` where it has counted `7`. -/
theorem extended_volume_counts_twice :
    ¬ ∀ records, collect (sampleMachine 0 0) ["C:"] "host" = .ok records → ∀ r ∈ records,
      ∀ io warning, r.metric = .diskIo "C:" io warning →
        ∀ c, io c = ∑ n ∈ backing sampleDrives [0, 0], countersOf sampleDrives n c := by
  intro h
  obtain ⟨warning, hio⟩ := diskIo_volume sampleDrives letter_not_drive (sampleMachine_reports 0 0)
  obtain ⟨records, hrecords⟩ : ∃ records,
      collect (sampleMachine 0 0) ["C:"] "host" = .ok records := ⟨_, rfl⟩
  obtain ⟨⟨r, hr, hmetric⟩, -⟩ :=
    collect_diskIo rfl rfl (List.mem_singleton_self "C:") hio hrecords
  have hsum := h records hrecords r hr _ _ hmetric .readBytes
  rw [sum_apply] at hsum
  revert hsum
  decide

end MongoSyncAgent.HostMetrics
