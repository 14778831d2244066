import MongoSyncAgent.Py
import MongoSyncAgent.Systems
import Mathlib.Logic.Function.Basic
import Mathlib.Tactic.Cases

/-!
The single-instance lock: a file that holds the PID of the process that has taken the lock.

Every access to the file is a step of its own, so that processes can overlap in any order. The
lock is what its code makes of the file: no process is told that another has written it.
-/

namespace MongoSyncAgent.Locking

open MongoSyncAgent.Py MongoSyncAgent.Systems

/-! ### Reading a PID -/

/-- Decimal digits, with single underscores between them at most. -/
def digitsOf : List Char → Option (List ℕ)
  | [] => none
  | [c] => (decimal c).map ([·])
  | c :: '_' :: cs => do return (← decimal c) :: (← digitsOf cs)
  | c :: d :: cs => do return (← decimal c) :: (← digitsOf (d :: cs))

def natOf (cs : List Char) : Option ℕ :=
  (digitsOf cs).map fun ds => ds.foldl (fun n d => 10 * n + d) 0

/-- `int(text.strip())`; `none` where that is a `ValueError`. -/
def pidOf (text : String) : Option ℤ :=
  match strip text.toList with
  | '-' :: cs => (natOf cs).map fun n => -(n : ℤ)
  | '+' :: cs => (natOf cs).map (↑)
  | cs => (natOf cs).map (↑)

/-! ### The processes -/

/-- Where a process is. -/
inductive Phase
  | unborn
  /-- At `self.lock_path.exists()`. -/
  | testing
  /-- At `self.lock_path.read_text()`. -/
  | reading
  /-- At `psutil.pid_exists(pid)`. -/
  | checking (pid : ℤ)
  /-- At `self.lock_path.write_text(str(os.getpid()))`. -/
  | writing
  /-- Between `acquire` and `release`. -/
  | holding
  /-- After `AlreadyRunningError` or `release`, until it exits. -/
  | leaving
  | dead
  deriving DecidableEq

def Phase.alive (ph : Phase) : Bool := ph != .unborn && ph != .dead

/-- The lock file, and the processes by their PIDs. -/
structure LockState where
  file : Option String
  phase : ℕ → Phase

inductive LockEvent
  | start (p : ℕ)
  | exists_ (p : ℕ)
  | read (p : ℕ)
  /-- `except (ValueError, OSError)`, whatever the file holds. -/
  | readFails (p : ℕ)
  | check (p : ℕ) (found : Bool)
  | write (p : ℕ)
  | release (p : ℕ)
  /-- The process exits, or is killed wherever it is. -/
  | die (p : ℕ)

namespace LockState

def move (s : LockState) (p : ℕ) (ph : Phase) : LockState :=
  { s with phase := Function.update s.phase p ph }

/-- The process has the lock, and the file names it. -/
def take (s : LockState) (p : ℕ) : LockState :=
  ⟨some (toString p), Function.update s.phase p .holding⟩

/-- `unlink`, whatever the file holds. -/
def release (s : LockState) (p : ℕ) : LockState := ⟨none, Function.update s.phase p .leaving⟩

/-- What `psutil.pid_exists` can say of a PID. It may be that of a program which is no agent. -/
def Answers (s : LockState) (pid : ℤ) (found : Bool) : Prop :=
  ∀ q : ℕ, (q : ℤ) = pid → s.phase q ≠ .unborn → found = (s.phase q).alive

end LockState

/-- After the read: a text that is no number counts as a stale lock. -/
def afterRead (text : String) : Phase :=
  match pidOf text with
  | some pid => .checking pid
  | none => .writing

inductive LockStep : LockState → LockEvent → LockState → Prop
  /-- PIDs are not reused, so no leftover file names a new process. -/
  | start {s} {p : ℕ} (hp : s.phase p = .unborn)
    (hnew : ∀ text, s.file = some text → pidOf text ≠ some (p : ℤ)) :
    LockStep s (.start p) (s.move p .testing)
  | exists_ {s p} (hp : s.phase p = .testing) :
    LockStep s (.exists_ p) (s.move p (if s.file.isSome then .reading else .writing))
  | read {s p text} (hp : s.phase p = .reading) (ht : s.file = some text) :
    LockStep s (.read p) (s.move p (afterRead text))
  | readFails {s p} (hp : s.phase p = .reading) : LockStep s (.readFails p) (s.move p .writing)
  | check {s p pid found} (hp : s.phase p = .checking pid) (ha : s.Answers pid found) :
    LockStep s (.check p found) (s.move p (if found then .leaving else .writing))
  | write {s p} (hp : s.phase p = .writing) :
    LockStep s (.write p) (s.take p)
  | release {s p} (hp : s.phase p = .holding) :
    LockStep s (.release p) (s.release p)
  | die {s p} (hp : (s.phase p).alive) : LockStep s (.die p) (s.move p .dead)

/-- No process runs yet; a lock file may be left over. -/
def locking : System LockState LockEvent where
  init s := ∀ p, (s.phase p).alive = false
  step := LockStep

/-- At most one live process has the lock. -/
def MutuallyExclusive (s : LockState) : Prop :=
  ∀ p q, s.phase p = .holding → s.phase q = .holding → p = q

/-- When a process writes its PID, what it has found out about the lock file is still so: there is
none, or none that names a live process. -/
def stillFree (s : LockState) : LockEvent → Prop
  | .write _ => ∀ q, s.file = some (toString q) → (s.phase q).alive = false
  | _ => True

/-! ### Writing a PID and reading it back -/

lemma digitsOf_of_isDigit {cs : List Char} (hne : cs ≠ []) (h : ∀ c ∈ cs, c.isDigit) :
    digitsOf cs = some (cs.map fun c => c.toNat - '0'.toNat) := by
  induction cs with
  | nil => exact absurd rfl hne
  | cons c cs ih =>
    have hc := decimal_of_isDigit (h c List.mem_cons_self)
    have hcs : ∀ d ∈ cs, d.isDigit := fun d hd => h d (List.mem_cons_of_mem _ hd)
    cases cs with
    | nil => simp [digitsOf, hc]
    | cons d cs =>
      have hd : d ≠ '_' := by
        rintro rfl
        exact absurd (hcs '_' List.mem_cons_self) (by decide)
      rw [digitsOf]
      · simp [hc, ih (List.cons_ne_nil _ _) hcs]
      · exact hd

/-- **A PID that was written is the PID that is read.** -/
theorem pidOf_toString (p : ℕ) : pidOf (toString p) = some (p : ℤ) := by
  have htext : (toString p).toList = Nat.toDigits 10 p := Nat.toList_repr
  have hne : Nat.toDigits 10 p ≠ [] := Nat.toDigits_ne_nil
  have hdigits : ∀ c ∈ Nat.toDigits 10 p, c.isDigit := fun c hc =>
    Nat.isDigit_of_mem_toDigits (by omega) (by omega) hc
  have hnat : natOf (Nat.toDigits 10 p) = some p := by
    have hvalue : Nat.ofDigitChars 10 (Nat.toDigits 10 p) 0 = p := Nat.ofDigitChars_ten_toDigits
    rw [natOf, digitsOf_of_isDigit hne hdigits, Option.map_some, List.foldl_map, ←
      Nat.ofDigitChars_eq_foldl, hvalue]
  have hstrip : strip (Nat.toDigits 10 p) = Nat.toDigits 10 p := by
    obtain ⟨c, cs, hcs⟩ := List.exists_cons_of_ne_nil hne
    have hdrop : (Nat.toDigits 10 p).dropWhile isSpace = Nat.toDigits 10 p := by
      rw [hcs, List.dropWhile_cons_of_neg]
      simp [isSpace_of_isDigit (hdigits c (hcs ▸ List.mem_cons_self))]
    rw [strip, hdrop, List.rdropWhile_eq_self_iff]
    intro h
    simp [isSpace_of_isDigit (hdigits _ (List.getLast_mem h))]
  unfold pidOf
  rw [htext, hstrip]
  split
  · rename_i cs hcs
    exact absurd (hdigits '-' (hcs ▸ List.mem_cons_self)) (by decide)
  · rename_i cs hcs
    exact absurd (hdigits '+' (hcs ▸ List.mem_cons_self)) (by decide)
  · rw [hnat]
    rfl

lemma toString_injective : Function.Injective (toString : ℕ → String) := by
  intro p q h
  have hpid := congrArg pidOf h
  rw [pidOf_toString, pidOf_toString] at hpid
  exact_mod_cast Option.some.inj hpid

/-! ### The lock file of a holder -/

variable {s s' : LockState} {e : LockEvent} {p q : ℕ}

structure LockInv (s : LockState) : Prop where
  /-- The lock file of a holder names it. -/
  named : ∀ p, s.phase p = .holding → s.file = some (toString p)
  /-- A live process that the lock file names has the lock. -/
  holds : ∀ p, s.file = some (toString p) → (s.phase p).alive → s.phase p = .holding

/-- Moves that neither take the lock nor bring a process to life. -/
lemma lockInv_move {ph : Phase} (h : LockInv s) (hph : ph ≠ .holding)
    (hlive : ph.alive → (s.phase p).alive ∧ s.phase p ≠ .holding) : LockInv (s.move p ph) := by
  refine ⟨fun q hq => ?_, fun q hfile hq => ?_⟩ <;> by_cases hqp : q = p
  · subst hqp
    simp only [LockState.move, Function.update_self] at hq
    exact absurd hq hph
  · simp only [LockState.move, Function.update_of_ne hqp] at hq
    exact h.named q hq
  · subst hqp
    simp only [LockState.move, Function.update_self] at hq
    exact absurd (h.holds q hfile (hlive hq).1) (hlive hq).2
  · simp only [LockState.move, Function.update_of_ne hqp] at hq ⊢
    exact h.holds q hfile hq

lemma afterRead_ne (text : String) : afterRead text ≠ .holding := by
  unfold afterRead
  split <;> simp

lemma lockInv_step (h : LockInv s) (hok : stillFree s e) (hstep : LockStep s e s') :
    LockInv s' := by
  have hmove : ∀ {p ph ph'}, s.phase p = ph' → ph'.alive = true → ph' ≠ .holding →
      ph ≠ .holding → LockInv (s.move p ph) := by
    rintro p ph ph' rfl halive hne hph
    exact lockInv_move h hph fun _ => ⟨halive, hne⟩
  cases hstep with
  | @start p hp hnew =>
    refine ⟨fun q hq => ?_, fun q hfile hq => ?_⟩ <;> by_cases hqp : q = p
    · subst hqp
      simp [LockState.move] at hq
    · simp only [LockState.move, Function.update_of_ne hqp] at hq
      exact h.named q hq
    · subst hqp
      exact absurd (pidOf_toString q) (hnew _ hfile)
    · simp only [LockState.move, Function.update_of_ne hqp] at hq ⊢
      exact h.holds q hfile hq
  | exists_ hp =>
    refine hmove hp rfl (by simp) ?_
    split_ifs <;> simp
  | read hp => exact hmove hp rfl (by simp) (afterRead_ne _)
  | readFails hp => exact hmove hp rfl (by simp) (by simp)
  | check hp =>
    refine hmove hp rfl (by simp) ?_
    split_ifs <;> simp
  | @write p hp =>
    refine ⟨fun q hq => ?_, fun q hfile hq => ?_⟩
    · by_cases hqp : q = p
      · rw [hqp]
        rfl
      · -- the file of another holder would name a live process
        simp only [LockState.take, Function.update_of_ne hqp] at hq
        have := hok q (h.named q hq)
        rw [hq] at this
        cases this
    · obtain rfl := toString_injective (Option.some.inj hfile)
      exact Function.update_self ..
  | @release p hp =>
    refine ⟨fun q hq => ?_, fun q hfile hq => by cases hfile⟩
    by_cases hqp : q = p
    · subst hqp
      simp [LockState.release] at hq
    · simp only [LockState.release, Function.update_of_ne hqp] at hq
      have := toString_injective (Option.some.inj ((h.named p hp).symm.trans (h.named q hq)))
      exact absurd this.symm hqp
  | die hp => exact lockInv_move h (by simp) fun hd => by cases hd

lemma LockInv.exclusive (h : LockInv s) : MutuallyExclusive s := fun p q hp hq =>
  toString_injective (Option.some.inj ((h.named p hp).symm.trans (h.named q hq)))

/-- **Mutual exclusion** in every run in which a process writes its PID only while the lock file
names no live process; and the first write for which this is not so breaks it. -/
theorem lock_exclusive (h : (locking.restrict stillFree).Reachable s) :
    MutuallyExclusive s ∧
      ∀ e s', locking.step s e s' → (MutuallyExclusive s' ↔ stillFree s e) := by
  have hinv : LockInv s := by
    refine h.invariant (fun s hs => ?_) ?_
    · refine ⟨fun p hp => ?_, fun p _ hp => ?_⟩
      · have := hs p
        rw [hp] at this
        cases this
      · rw [hs p] at hp
        cases hp
    · rintro s e s' _ hinv ⟨hok, hstep⟩
      exact lockInv_step hinv hok hstep
  refine ⟨hinv.exclusive, fun e s' hstep => ⟨fun hex => ?_, fun hok =>
    (lockInv_step hinv hok hstep).exclusive⟩⟩
  cases hstep with
  | @write p hp =>
    intro q hfile
    by_contra halive
    have hq := hinv.holds q hfile (by simpa using halive)
    have hqp : q ≠ p := by
      rintro rfl
      rw [hp] at hq
      cases hq
    refine hqp (hex q p ?_ (Function.update_self ..))
    simp only [LockState.take, Function.update_of_ne hqp, hq]
  | _ => trivial

/-! ### Processes one after the other, and two at once -/

def noAgents : LockState := ⟨none, fun _ => .unborn⟩

lemma noAgents_init : locking.init noAgents := fun _ => rfl

lemma noAgents_start (p : ℕ) : LockStep noAgents (.start p) (noAgents.move p .testing) :=
  .start rfl fun _ h => by cases h

/-- The process with PID 1 has taken the lock. -/
def sampleHeld : LockState := ((noAgents.move 1 .testing).move 1 .writing).take 1

/-- A process has read the lock file of process 1. -/
def LockState.reader (s : LockState) (p : ℕ) : LockState :=
  ((s.move p .testing).move p .reading).move p (.checking 1)

/-- A second one has found it alive. -/
def sampleRefused : LockState := (sampleHeld.reader 2).move 2 .leaving

/-- The first one was killed, and a third one has taken the lock that it left. -/
def sampleStale : LockState := (((sampleRefused.move 1 .dead).reader 3).move 3 .writing).take 3

lemma step_free (h : (locking.restrict stillFree).Reachable s) (hok : stillFree s e)
    (hs : LockStep s e s') : (locking.restrict stillFree).Reachable s' := .step h ⟨hok, hs⟩

/-- A process starts and reads the lock file of process 1. -/
lemma reader_reachable (h : (locking.restrict stillFree).Reachable s) (hp : s.phase p = .unborn)
    (hfile : s.file = some (toString 1)) (hne : p ≠ 1) :
    (locking.restrict stillFree).Reachable (s.reader p) := by
  have hnew : ∀ text, s.file = some text → pidOf text ≠ some (p : ℤ) := by
    intro text ht hpid
    rw [hfile] at ht
    obtain rfl := Option.some.inj ht
    rw [pidOf_toString 1] at hpid
    exact hne (by exact_mod_cast (Option.some.inj hpid).symm)
  have htesting := step_free h (e := .start p) trivial (.start hp hnew)
  have hexists := LockStep.exists_ (s := s.move p .testing) (p := p) (Function.update_self ..)
  rw [show (s.move p .testing).file = some (toString 1) from hfile] at hexists
  have hreading := step_free htesting (e := .exists_ p) trivial hexists
  have hread := LockStep.read (s := (s.move p .testing).move p .reading) (p := p)
    (Function.update_self ..) hfile
  have hafter : afterRead (toString 1) = .checking 1 := by
    rw [afterRead, pidOf_toString 1]
    rfl
  rw [hafter] at hread
  exact step_free hreading (e := .read p) trivial hread

theorem lock_exclusive_sample : sampleRefused.phase 1 = .holding ∧
    MutuallyExclusive sampleRefused ∧ sampleStale.phase 3 = .holding ∧
    MutuallyExclusive sampleStale := by
  have htesting := step_free (.init noAgents_init) (e := .start 1) trivial (noAgents_start 1)
  have hwaiting := step_free htesting (e := .exists_ 1) trivial (.exists_ rfl)
  have hheld : (locking.restrict stillFree).Reachable sampleHeld :=
    step_free hwaiting (e := .write 1) (fun q hq => by cases hq) (.write rfl)
  -- the second process finds the first one alive
  have hchecking := reader_reachable (p := 2) hheld rfl rfl (by decide)
  have halive : (sampleHeld.reader 2).Answers 1 true := by
    intro q hq _
    obtain rfl : q = 1 := by exact_mod_cast hq
    rfl
  have hrefused : (locking.restrict stillFree).Reachable sampleRefused :=
    step_free hchecking (e := .check 2 true) trivial (.check rfl halive)
  -- the third one does not
  have hdead := step_free hrefused (e := .die 1) trivial (.die rfl)
  have hchecking' := reader_reachable (p := 3) hdead rfl rfl (by decide)
  have hgone : ((sampleRefused.move 1 .dead).reader 3).Answers 1 false := by
    intro q hq _
    obtain rfl : q = 1 := by exact_mod_cast hq
    rfl
  have hwriting := step_free hchecking' (e := .check 3 false) trivial (.check rfl hgone)
  have hfree : stillFree (((sampleRefused.move 1 .dead).reader 3).move 3 .writing) (.write 3) := by
    intro q hq
    obtain rfl := toString_injective (Option.some.inj hq)
    rfl
  have hstale : (locking.restrict stillFree).Reachable sampleStale :=
    step_free hwriting (e := .write 3) hfree (.write rfl)
  exact ⟨rfl, (lock_exclusive hrefused).1, rfl, (lock_exclusive hstale).1⟩

/-- The processes with PIDs 1 and 2 have both found no lock file. -/
def bothWaiting : LockState :=
  (((noAgents.move 1 .testing).move 2 .testing).move 1 .writing).move 2 .writing

/-- Both go on to write their PIDs, and both have the lock. -/
theorem lock_taken_twice : locking.Reachable ((bothWaiting.take 1).take 2) ∧
    ((bothWaiting.take 1).take 2).phase 1 = .holding ∧
    ((bothWaiting.take 1).take 2).phase 2 = .holding ∧
    ¬ MutuallyExclusive ((bothWaiting.take 1).take 2) := by
  refine ⟨?_, rfl, rfl, fun h => absurd (h 1 2 rfl rfl) (by decide)⟩
  have hboth : locking.Reachable ((noAgents.move 1 .testing).move 2 .testing) :=
    .step (.step (.init noAgents_init) (noAgents_start 1))
      (.start (p := 2) rfl fun _ h => by cases h)
  have hwaiting : locking.Reachable bothWaiting :=
    .step (.step hboth (.exists_ (p := 1) rfl)) (.exists_ (p := 2) rfl)
  exact .step (.step hwaiting (.write (p := 1) rfl)) (.write (p := 2) rfl)

end MongoSyncAgent.Locking
