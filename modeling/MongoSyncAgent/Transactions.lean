import Mathlib.Data.List.Induction

/-!
Transactions on one connection to a database, and what is left of one that fails.

A connection is in autocommit mode, or it has an open transaction with a working copy of its own.
`BEGIN` is rejected inside a transaction, and a `COMMIT` that fails leaves the transaction open.
An attempt runs its statements between the two, and rolls back where one of them fails. A failing
`COMMIT` is rolled back by nobody, so it is the one failure that outlives its attempt.
-/

namespace MongoSyncAgent.Transactions

variable {σ : Type*}

/-- A connection, by what is committed and by the working copy of an open transaction. -/
structure Connection (σ : Type*) where
  committed : σ
  working : Option σ

/-- What a query on the connection sees. -/
def Connection.visible (c : Connection σ) : σ := c.working.getD c.committed

/-- A connection in autocommit mode. -/
def idle (s : σ) : Connection σ := ⟨s, none⟩

inductive Statement (σ : Type*)
  | beginImmediate
  | update (f : σ → σ)
  | commit
  | rollback

/-- A statement, which may fail; where it does, or where it is rejected, nothing has changed. -/
def execute (fails : Bool) (c : Connection σ) (statement : Statement σ) :
    Option (Connection σ) :=
  if fails then none
  else
    match statement, c.working with
    | .beginImmediate, none => some ⟨c.committed, some c.committed⟩
    | .beginImmediate, some _ => none
    | .update f, none => some ⟨f c.committed, none⟩
    | .update f, some w => some ⟨c.committed, some (f w)⟩
    | .commit, none => none
    | .commit, some w => some ⟨w, none⟩
    | .rollback, none => none
    | .rollback, some _ => some ⟨c.committed, none⟩

/-- A transaction to be run: its statements, and which of them will fail. -/
structure Attempt (σ : Type*) where
  beginFails : Bool
  inner : List ((σ → σ) × Bool)
  commitFails : Bool

namespace Attempt

/-- The inner statements, up to one that fails; and whether all went through. -/
def body : List ((σ → σ) × Bool) → Connection σ → Bool × Connection σ
  | [], c => (true, c)
  | step :: steps, c =>
    match execute step.2 c (.update step.1) with
    | some c => body steps c
    | none => (false, c)

/-- Leaving the transaction: a commit where the inner statements went through, or else a
rollback; the failure of a commit is not handled. -/
def leave (commitFails : Bool) : Bool × Connection σ → Bool × Connection σ
  | (true, c) => ((execute commitFails c .commit).map fun c => (true, c)).getD (false, c)
  | (false, c) => (false, (execute false c .rollback).getD c)

/-- Whether an attempt returns normally, and the connection after it. -/
def run (t : Attempt σ) (c : Connection σ) : Bool × Connection σ :=
  match execute t.beginFails c .beginImmediate with
  | none => (false, c)
  | some c => leave t.commitFails (body t.inner c)

/-- What the inner statements do when none of them fails. -/
def effect (t : Attempt σ) (s : σ) : σ := t.inner.foldl (fun s step => step.1 s) s

/-- No statement before the `COMMIT` fails. -/
def ReachesCommit (t : Attempt σ) : Prop :=
  t.beginFails = false ∧ ∀ step ∈ t.inner, step.2 = false

/-- None of its own statements fails. -/
def Unfailing (t : Attempt σ) : Prop := t.ReachesCommit ∧ t.commitFails = false

instance (t : Attempt σ) : Decidable t.ReachesCommit := by
  unfold ReachesCommit; exact inferInstance

end Attempt

/-- One attempt after the other: those that returned normally, and the connection. -/
def runAll : List (Attempt σ) → Connection σ → List (Attempt σ) × Connection σ
  | [], c => ([], c)
  | t :: ts, c =>
    let rest := runAll ts (t.run c).2
    (if (t.run c).1 then t :: rest.1 else rest.1, rest.2)

/-- What some attempts do, each as a whole. -/
def applyAll (ts : List (Attempt σ)) (s : σ) : σ := ts.foldl (fun s t => t.effect s) s

/-! ### One attempt -/

variable {t : Attempt σ} {ts : List (Attempt σ)} {c : Connection σ} {s w : σ}

lemma body_open (steps : List ((σ → σ) × Bool)) (s w : σ) :
    ∃ w', (Attempt.body steps ⟨s, some w⟩).2 = ⟨s, some w'⟩ ∧
      ((∀ step ∈ steps, step.2 = false) → (Attempt.body steps ⟨s, some w⟩).1 = true ∧
        w' = steps.foldl (fun s step => step.1 s) w) ∧
      ((∃ step ∈ steps, step.2 = true) → (Attempt.body steps ⟨s, some w⟩).1 = false) := by
  induction steps generalizing w with
  | nil => exact ⟨w, rfl, fun _ => ⟨rfl, rfl⟩, fun ⟨_, h, _⟩ => by cases h⟩
  | cons step steps ih =>
    obtain ⟨f, fails⟩ := step
    cases fails with
    | true => exact ⟨w, rfl, fun h => by simp at h, fun _ => rfl⟩
    | false =>
      obtain ⟨w', hconn, hok, hbad⟩ := ih (f w)
      refine ⟨w', hconn, fun h => hok fun step hstep => h step (List.mem_cons_of_mem _ hstep), ?_⟩
      rintro ⟨step, hmem, htrue⟩
      rcases List.mem_cons.mp hmem with rfl | hmem
      · cases htrue
      · exact hbad ⟨step, hmem, htrue⟩

/-- Inside an open transaction nothing begins, and nothing changes. -/
lemma run_open : t.run ⟨s, some w⟩ = (false, ⟨s, some w⟩) := by
  have hrejected : execute t.beginFails ⟨s, some w⟩ .beginImmediate = none := by
    cases h : t.beginFails <;> rfl
  rw [Attempt.run, hrejected]

/-- A failure before the `COMMIT` leaves the connection as it was. -/
lemma run_fails (h : ¬ t.ReachesCommit) : t.run (idle s) = (false, idle s) := by
  rcases hbegin : t.beginFails with _ | _
  · obtain ⟨w, hconn, -, hbad⟩ := body_open t.inner s s
    have hinner : ∃ step ∈ t.inner, step.2 = true := by
      by_contra hno
      push Not at hno
      exact h ⟨hbegin, fun step hstep => Bool.eq_false_iff.mpr (hno step hstep)⟩
    have hbody : Attempt.body t.inner ⟨s, some s⟩ = (false, ⟨s, some w⟩) :=
      Prod.ext (hbad hinner) hconn
    rw [Attempt.run, hbegin]
    show Attempt.leave t.commitFails (Attempt.body t.inner ⟨s, some s⟩) = _
    rw [hbody]
    rfl
  · rw [Attempt.run, hbegin]
    rfl

/-- Otherwise the `COMMIT` decides. -/
lemma run_commits (h : t.ReachesCommit) : t.run (idle s) =
    if t.commitFails then (false, ⟨s, some (t.effect s)⟩) else (true, idle (t.effect s)) := by
  obtain ⟨w, hconn, hok, -⟩ := body_open t.inner s s
  obtain ⟨htrue, rfl⟩ := hok h.2
  have hbody : Attempt.body t.inner ⟨s, some s⟩ = (true, ⟨s, some (t.effect s)⟩) :=
    Prod.ext htrue hconn
  rw [Attempt.run, h.1]
  show Attempt.leave t.commitFails (Attempt.body t.inner ⟨s, some s⟩) = _
  rw [hbody]
  cases t.commitFails <;> rfl

/-! ### A run of attempts -/

lemma runAll_snoc (ts : List (Attempt σ)) (t : Attempt σ) (c : Connection σ) :
    runAll (ts ++ [t]) c =
      ((runAll ts c).1 ++ (if (t.run (runAll ts c).2).1 then [t] else []),
        (t.run (runAll ts c).2).2) := by
  induction ts generalizing c with
  | nil => rfl
  | cons t' ts ih =>
    rw [List.cons_append, runAll, ih, runAll]
    cases (t'.run c).1 <;> rfl

/-- After some attempts: no open transaction, and what is seen is what those that returned
normally have done. -/
def Clean (s : σ) (ts : List (Attempt σ)) : Prop :=
  (runAll ts (idle s)).2.working = none ∧
    (runAll ts (idle s)).2.visible = applyAll (runAll ts (idle s)).1 s

/-- No failure disturbs what comes later: the connection is clean after every attempt, and an
attempt whose own statements do not fail returns normally. -/
def Undisturbed (s : σ) (ts : List (Attempt σ)) : Prop :=
  ∀ done t rest, ts = done ++ t :: rest → Clean s (done ++ [t]) ∧
    (t.Unfailing → (t.run (runAll done (idle s)).2).1 = true)

lemma clean_nil (s : σ) : Clean s [] := ⟨rfl, rfl⟩

lemma Clean.idle (h : Clean s ts) : (runAll ts (idle s)).2 =
    Transactions.idle (applyAll (runAll ts (Transactions.idle s)).1 s) := by
  obtain ⟨hnone, hvisible⟩ := h
  rcases hconn : (runAll ts (Transactions.idle s)).2 with ⟨committed, working⟩
  rw [hconn] at hnone hvisible
  obtain rfl : working = none := hnone
  rw [← hvisible]
  rfl

/-- **One attempt**, of those whose commit does not fail. -/
lemma clean_snoc (h : Clean s ts) (ht : t.ReachesCommit → t.commitFails = false) :
    Clean s (ts ++ [t]) := by
  unfold Clean
  rw [runAll_snoc, h.idle]
  by_cases hreach : t.ReachesCommit
  · rw [run_commits hreach, ht hreach]
    simp [applyAll, Connection.visible, Transactions.idle]
  · rw [run_fails hreach]
    simp [Connection.visible, Transactions.idle]

/-- **All attempts.** -/
lemma clean_all (h : ∀ t ∈ ts, t.ReachesCommit → t.commitFails = false) : Clean s ts := by
  induction ts using List.reverseRecOn with
  | nil => exact clean_nil s
  | append_singleton ts t ih =>
    exact clean_snoc (ih fun t ht => h t (List.mem_append_left _ ht)) (h t (by simp))

/-- After a commit that failed the connection is not clean. -/
lemma not_clean_snoc (h : Clean s ts) (hreach : t.ReachesCommit) (hfails : t.commitFails = true) :
    ¬ Clean s (ts ++ [t]) := by
  unfold Clean
  rw [runAll_snoc, h.idle, run_commits hreach, hfails]
  simp

/-- **When failures do not disturb**: where no attempt that reaches its commit fails in it. -/
theorem undisturbed_iff (s : σ) (ts : List (Attempt σ)) :
    Undisturbed s ts ↔ ∀ t ∈ ts, t.ReachesCommit → t.commitFails = false := by
  constructor
  · intro h
    -- the first attempt that fails in its commit leaves the transaction open
    have hpre : ∀ done, done <+: ts → ∀ t ∈ done, t.ReachesCommit → t.commitFails = false := by
      intro done
      induction done using List.reverseRecOn with
      | nil => intro _ t ht; cases ht
      | append_singleton done t ih =>
        intro hdone t' ht' hreach
        have hbefore := ih ((List.prefix_append done [t]).trans hdone)
        rcases List.mem_append.mp ht' with ht' | ht'
        · exact hbefore t' ht' hreach
        obtain rfl := List.mem_singleton.mp ht'
        by_contra hfails
        obtain ⟨rest, rfl⟩ := hdone
        have hclean := (h done t' rest (by rw [List.append_assoc]; rfl)).1
        exact not_clean_snoc (clean_all hbefore) hreach ((Bool.not_eq_false _).mp hfails) hclean
    exact hpre ts List.prefix_rfl
  · rintro h done t rest rfl
    have hdone : ∀ t ∈ done, t.ReachesCommit → t.commitFails = false :=
      fun t ht => h t (List.mem_append_left _ ht)
    refine ⟨clean_snoc (clean_all hdone) (h t (by simp)), fun hown => ?_⟩
    rw [(clean_all hdone).idle, run_commits hown.1, hown.2]
    rfl

/-! ### Sessions -/

/-- One connection after another, each to what is committed by then: the attempts that returned
normally, and what is committed at the end. -/
def sessions : List (List (Attempt σ)) → σ → List (Attempt σ) × σ
  | [], s => ([], s)
  | ts :: rest, s =>
    let later := sessions rest (runAll ts (idle s)).2.committed
    ((runAll ts (idle s)).1 ++ later.1, later.2)

/-- Whatever fails, what is committed is what those that returned normally have done: after a
commit that failed none returns. -/
lemma runAll_committed (ts : List (Attempt σ)) (s : σ) :
    ∃ working, (runAll ts (idle s)).2 = ⟨applyAll (runAll ts (idle s)).1 s, working⟩ := by
  induction ts using List.reverseRecOn with
  | nil => exact ⟨none, rfl⟩
  | append_singleton ts t ih =>
    obtain ⟨working, hconn⟩ := ih
    rw [runAll_snoc]
    rcases working with _ | w
    · change (runAll ts (idle s)).2 = idle _ at hconn
      rw [hconn]
      by_cases hreach : t.ReachesCommit
      · rw [run_commits hreach]
        cases t.commitFails with
        | false => exact ⟨none, by simp [applyAll, idle]⟩
        | true => exact ⟨some (t.effect (applyAll (runAll ts (idle s)).1 s)), by simp⟩
      · rw [run_fails hreach]
        exact ⟨none, by simp [idle]⟩
    · rw [hconn, run_open]
      exact ⟨some w, by simp⟩

lemma applyAll_append (ts us : List (Attempt σ)) (s : σ) :
    applyAll (ts ++ us) s = applyAll us (applyAll ts s) := List.foldl_append

/-- **Durability.** Over any sessions, what is committed is what the attempts have done that
returned normally. -/
theorem sessions_committed (tss : List (List (Attempt σ))) (s : σ) :
    (sessions tss s).2 = applyAll (sessions tss s).1 s := by
  induction tss generalizing s with
  | nil => rfl
  | cons ts tss ih =>
    obtain ⟨working, hconn⟩ := runAll_committed ts s
    simp only [sessions, hconn, applyAll_append]
    exact ih _

end MongoSyncAgent.Transactions
