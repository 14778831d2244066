import MongoSyncAgent.Systems

/-!
Turns under a lock.

A process that is inside works on what all share, one action after another, and may stop after any
of them. What it does next is what it would do alone, by what it found when it entered. If no two
are ever inside, then it is alone: what all of them leave, in any interleaving, is what the turns
leave that are taken one after the other.
-/

namespace MongoSyncAgent.Sections

open MongoSyncAgent.Systems

variable {ℓ κ π ι σ ε : Type*}

/-- A lock, by who is inside, and by the events at which one enters. -/
structure Lock (ℓ κ π : Type*) where
  system : System ℓ κ
  inside : ℓ → π → Prop
  enters : κ → Option π

/-- One is inside only since the event at which one entered, and alone. -/
structure Lock.Exclusive (L : Lock ℓ κ π) : Prop where
  outside : ∀ {l p}, L.system.init l → ¬ L.inside l p
  enter : ∀ {l e l' p}, L.system.step l e l' → L.enters e = some p → L.inside l' p
  only : ∀ {l e l' p}, L.system.step l e l' → L.inside l' p → L.inside l p ∨ L.enters e = some p
  alone : ∀ {l p q}, L.system.Reachable l → L.inside l p → L.inside l q → p = q

/-- What a task is to do, by what it finds, and what an action does. -/
structure Work (ι σ ε : Type*) where
  plan : ι → σ → List ε
  apply : σ → ε → σ

/-- What a process has done since it entered. -/
structure Turn (π ι σ ε : Type*) where
  owner : π
  task : ι
  found : σ
  done : List ε

structure Shared (ℓ π ι σ ε : Type*) where
  lock : ℓ
  data : σ
  /-- In the order in which they were taken. -/
  turns : List (Turn π ι σ ε)

inductive Event (κ π ι ε : Type*)
  | lock (e : κ)
  | enter (e : κ) (task : ι)
  | act (p : π) (x : ε)

variable (L : Lock ℓ κ π) (W : Work ι σ ε)

inductive SharedStep : Shared ℓ π ι σ ε → Event κ π ι ε → Shared ℓ π ι σ ε → Prop
  | lock {s e l} (he : L.enters e = none) (h : L.system.step s.lock e l) :
    SharedStep s (.lock e) { s with lock := l }
  | enter {s e p task l} (he : L.enters e = some p) (h : L.system.step s.lock e l) :
    SharedStep s (.enter e task)
      { s with lock := l, turns := s.turns ++ [⟨p, task, s.data, []⟩] }
  /-- The latest turn of a process that is inside goes on. -/
  | act {s before t after x} (hturns : s.turns = before ++ t :: after)
    (hlatest : ∀ u ∈ after, u.owner ≠ t.owner) (hinside : L.inside s.lock t.owner)
    (hx : t.done ++ [x] <+: W.plan t.task t.found) :
    SharedStep s (.act t.owner x) { s with
      data := W.apply s.data x
      turns := before ++ { t with done := t.done ++ [x] } :: after }

def sections (start : σ → Prop) : System (Shared ℓ π ι σ ε) (Event κ π ι ε) where
  init s := L.system.init s.lock ∧ start s.data ∧ s.turns = []
  step := SharedStep L W

/-- Turns that are taken one after the other: each finds what the last one left, and goes on as
planned until it stops. -/
def InTurn : σ → List (Turn π ι σ ε) → σ → Prop
  | s, [], s' => s' = s
  | s, t :: ts, s' =>
    t.found = s ∧ t.done <+: W.plan t.task s ∧ InTurn (t.done.foldl W.apply s) ts s'

variable {L W} {start : σ → Prop} {s : Shared ℓ π ι σ ε} {d d' : σ} {t : Turn π ι σ ε}
  {ts : List (Turn π ι σ ε)}

lemma inTurn_snoc : InTurn W d (ts ++ [t]) d' ↔ InTurn W d ts t.found ∧
    t.done <+: W.plan t.task t.found ∧ d' = t.done.foldl W.apply t.found := by
  induction ts generalizing d with
  | nil =>
    constructor
    · rintro ⟨rfl, hdone, rfl⟩
      exact ⟨rfl, hdone, rfl⟩
    · rintro ⟨hfound, hdone, hd'⟩
      rw [hfound] at hdone hd'
      exact ⟨hfound, hdone, hd'⟩
  | cons u ts ih => simp only [List.cons_append, InTurn, ih, and_assoc]

/-- **What every turn keeps**, wherever it stops, the turns keep. -/
theorem InTurn.invariant {P : σ → Prop} (h : InTurn W d ts d') (h0 : P d)
    (hturn : ∀ t ∈ ts, ∀ d, P d → t.done <+: W.plan t.task d → P (t.done.foldl W.apply d)) :
    P d' := by
  induction ts generalizing d with
  | nil =>
    obtain rfl := h
    exact h0
  | cons u ts ih =>
    obtain ⟨-, hdone, hrest⟩ := h
    exact ih hrest (hturn u List.mem_cons_self d h0 hdone) fun t ht =>
      hturn t (List.mem_cons_of_mem _ ht)

lemma lock_reachable (h : (sections L W start).Reachable s) : L.system.Reachable s.lock := by
  refine h.invariant (P := fun s => L.system.Reachable s.lock) ?_ ?_
  · rintro s ⟨hlock, -⟩
    exact .init hlock
  intro s e s' _ ih hstep
  cases hstep with
  | lock _ h => exact ih.step h
  | enter _ h => exact ih.step h
  | act => exact ih

/-- The latest turn of an owner, if the latest of all is one of its turns. -/
lemma after_latest {before after before' : List (Turn π ι σ ε)} {u : Turn π ι σ ε}
    (hlatest : ∀ u ∈ after, u.owner ≠ t.owner) (hu : u.owner = t.owner)
    (h : before ++ t :: after = before' ++ [u]) : after = [] := by
  rcases List.eq_nil_or_concat after with hnil | ⟨init, last, hlast⟩
  · exact hnil
  · subst hlast
    rw [List.concat_eq_append] at h hlatest
    have hsplit : before ++ t :: (init ++ [last]) = (before ++ t :: init) ++ [last] := by simp
    rw [hsplit] at h
    obtain ⟨-, hlast⟩ := List.append_inj' h rfl
    obtain rfl := List.singleton_inj.mp hlast
    exact absurd hu (hlatest last (by simp))

/-- The latest turn is that of the process inside. -/
lemma latest_inside (hL : L.Exclusive) (h : (sections L W start).Reachable s) :
    ∀ p, L.inside s.lock p → ∃ before t, s.turns = before ++ [t] ∧ t.owner = p := by
  refine h.invariant (P := fun s => ∀ p, L.inside s.lock p →
    ∃ before t, s.turns = before ++ [t] ∧ t.owner = p) ?_ ?_
  · rintro s ⟨hlock, -⟩ p hp
    exact absurd hp (hL.outside hlock)
  intro s e s' hr ih hstep p hp
  cases hstep with
  | lock he h =>
    rcases hL.only h hp with hin | henters
    · exact ih p hin
    · rw [he] at henters
      cases henters
  | enter he h =>
    obtain rfl := hL.alone ((lock_reachable hr).step h) hp (hL.enter h he)
    exact ⟨_, _, rfl, rfl⟩
  | @act before t after x hturns hlatest hinside =>
    obtain ⟨before', u, hlast, hu⟩ := ih p hp
    have howner : p = t.owner := hL.alone (lock_reachable hr) hp hinside
    obtain rfl := after_latest hlatest (hu.trans howner) (hturns.symm.trans hlast)
    exact ⟨before, _, rfl, howner.symm⟩

/-- **Turns under a lock are serial.** -/
theorem sections_serial (hL : L.Exclusive) (h : (sections L W start).Reachable s) :
    ∃ d, start d ∧ InTurn W d s.turns s.data := by
  refine h.invariant (P := fun s => ∃ d, start d ∧ InTurn W d s.turns s.data) ?_ ?_
  · rintro s ⟨-, hstart, hturns⟩
    refine ⟨s.data, hstart, ?_⟩
    rw [hturns]
    rfl
  rintro s e s' hr ⟨d, hd, hserial⟩ hstep
  refine ⟨d, hd, ?_⟩
  cases hstep with
  | lock => exact hserial
  | enter => exact inTurn_snoc.mpr ⟨hserial, List.nil_prefix, rfl⟩
  | @act before t after x hturns hlatest hinside hx =>
    obtain ⟨before', u, hlast, hu⟩ := latest_inside hL hr _ hinside
    obtain rfl := after_latest hlatest hu (hturns.symm.trans hlast)
    rw [hturns] at hserial
    obtain ⟨hbefore, -, hdata⟩ := inTurn_snoc.mp hserial
    refine inTurn_snoc.mpr ⟨hbefore, hx, ?_⟩
    show W.apply s.data x = (t.done ++ [x]).foldl W.apply t.found
    rw [hdata, List.foldl_append]
    rfl

/-- A turn goes on as planned as long as nobody else does anything. -/
lemma turn_goes_on {before : List (Turn π ι σ ε)} (h : (sections L W start).Reachable s)
    (hturns : s.turns = before ++ [t]) (hinside : L.inside s.lock t.owner) {more : List ε}
    (hmore : t.done ++ more <+: W.plan t.task t.found) : (sections L W start).Reachable
      ⟨s.lock, more.foldl W.apply s.data, before ++ [{ t with done := t.done ++ more }]⟩ := by
  induction more generalizing s t with
  | nil =>
    rw [List.append_nil, ← hturns]
    exact h
  | cons x more ih =>
    rw [← List.singleton_append, ← List.append_assoc] at hmore
    have hx : t.done ++ [x] <+: W.plan t.task t.found := (List.prefix_append _ _).trans hmore
    have hnext := h.step (.act hturns (by simp) hinside hx)
    have hrest := ih hnext rfl hinside hmore
    rwa [List.append_assoc, List.singleton_append] at hrest

end MongoSyncAgent.Sections
