import Mathlib.Data.List.Induction
import Mathlib.Data.List.MinMax
import Mathlib.Data.List.Perm.Basic
import Mathlib.Data.Set.List

/-!
The last of a list that nothing after it beat.

Each element in turn takes the place of the champion if it beats it. What beats what need not be
transitive, so the champion depends on the order of the list in general. It does not where some
class of elements is beaten by no element outside of it, and only there. There the champion is
also what its name says: no element beats it.
-/

namespace MongoSyncAgent.Champions

variable {α κ : Type*} (beats : α → α → Bool) (key : α → κ)

/-- The champion after one more element. -/
def challenge : Option α → α → Option α
  | none, x => some x
  | some m, x => some (if beats x m then x else m)

def championFrom (m : Option α) (xs : List α) : Option α := xs.foldl (challenge beats) m

abbrev champion (xs : List α) : Option α := championFrom beats none xs

@[simp] lemma championFrom_nil (m : Option α) : championFrom beats m [] = m := rfl

@[simp] lemma championFrom_cons (m : Option α) (x : α) (xs : List α) :
    championFrom beats m (x :: xs) = championFrom beats (challenge beats m x) xs := rfl

lemma championFrom_append (m : Option α) (xs ys : List α) :
    championFrom beats m (xs ++ ys) = championFrom beats (championFrom beats m xs) ys :=
  List.foldl_append

/-- Of two elements of different classes one beats the other; in a class nothing beats anything. -/
structure Contest (xs : List α) : Prop where
  tie : ∀ a ∈ xs, ∀ b ∈ xs, key a = key b → ¬ beats a b
  total : ∀ a ∈ xs, ∀ b ∈ xs, key a ≠ key b → beats a b ∨ beats b a

/-- The class of an element is beaten from nowhere else. -/
def Settled (xs : List α) (v : α) : Prop :=
  v ∈ xs ∧ ∀ a ∈ xs, key a = key v → ∀ x ∈ xs, key x ≠ key v → ¬ beats x a

/-- What some element does not beat, nothing beats. -/
def Ranked (xs : List α) : Prop := ∃ v ∈ xs, ∀ a ∈ xs, ¬ beats v a → ∀ x ∈ xs, ¬ beats x a

variable {beats key} {xs ys : List α}

lemma Contest.perm (h : Contest beats key xs) (hperm : ys.Perm xs) : Contest beats key ys where
  tie a ha b hb := h.tie a (hperm.subset ha) b (hperm.subset hb)
  total a ha b hb := h.total a (hperm.subset ha) b (hperm.subset hb)

lemma settled_perm {v : α} (h : Settled beats key xs v) (hperm : ys.Perm xs) :
    Settled beats key ys v :=
  ⟨hperm.symm.subset h.1, fun a ha hkey x hx => h.2 a (hperm.subset ha) hkey x (hperm.subset hx)⟩

variable (beats) in
/-- A champion is one of the elements, or was it before them. -/
lemma championFrom_mem (m : α) (xs : List α) :
    ∃ m', championFrom beats (some m) xs = some m' ∧ m' ∈ m :: xs := by
  induction xs generalizing m with
  | nil => exact ⟨m, rfl, List.mem_singleton_self m⟩
  | cons x xs ih =>
    obtain ⟨m', hm', hmem⟩ := ih (if beats x m then x else m)
    refine ⟨m', hm', ?_⟩
    split_ifs at hmem <;> simp only [List.mem_cons] at hmem ⊢ <;> tauto

variable (beats) in
lemma champion_mem (hne : xs ≠ []) : ∃ m ∈ xs, champion beats xs = some m := by
  obtain ⟨x, xs, rfl⟩ := List.exists_cons_of_ne_nil hne
  obtain ⟨m, hm, hmem⟩ := championFrom_mem beats x xs
  exact ⟨m, hmem, hm⟩

lemma champion_snoc (xs : List α) (x : α) :
    champion beats (xs ++ [x]) = challenge beats (champion beats xs) x :=
  championFrom_append beats none xs [x]

lemma champion_some {m : α} (h : champion beats xs = some m) : m ∈ xs := by
  rcases eq_or_ne xs [] with rfl | hne
  · cases h
  · obtain ⟨m', hmem, hm'⟩ := champion_mem beats hne
    rw [h] at hm'
    obtain rfl := Option.some.inj hm'
    exact hmem

/-- **One challenge** from or to a settled class leaves the place in the class. -/
lemma challenge_settled {v m x : α} (hc : Contest beats key xs) (hv : Settled beats key xs v)
    (hm : m ∈ xs) (hx : x ∈ xs) (h : key m = key v ∨ key x = key v) :
    ∃ m', challenge beats (some m) x = some m' ∧ key m' = key v := by
  refine ⟨_, rfl, ?_⟩
  split_ifs with hbeats <;> by_contra hother
  · exact hv.2 m hm (h.resolve_right hother) x hx hother hbeats
  · have hkey := h.resolve_left hother
    rcases hc.total x hx m hm (by rw [hkey]; exact Ne.symm hother) with hwin | hlose
    · exact hbeats hwin
    · exact hv.2 x hx hkey m hm hother hlose

/-- **A settled class wins**, once one of its elements has come. -/
lemma champion_settled {v : α} (hc : Contest beats key xs) (hv : Settled beats key xs v) :
    ∃ m, champion beats xs = some m ∧ key m = key v := by
  have hseen : ∀ seen ⊆ xs, (∃ a ∈ seen, key a = key v) →
      ∃ m, champion beats seen = some m ∧ key m = key v := by
    intro seen
    induction seen using List.reverseRecOn with
    | nil => rintro - ⟨a, ha, -⟩; cases ha
    | append_singleton seen x ih =>
      rintro hsub ⟨a, ha, hkey⟩
      have hx : x ∈ xs := hsub (by simp)
      have hsub' : seen ⊆ xs := fun a ha => hsub (List.mem_append_left _ ha)
      have hlast : (∃ b ∈ seen, key b = key v) ∨ key x = key v := by
        rcases List.mem_append.mp ha with ha | ha
        · exact .inl ⟨a, ha, hkey⟩
        · rw [← List.mem_singleton.mp ha]; exact .inr hkey
      rw [champion_snoc]
      rcases hm : champion beats seen with _ | m
      · refine ⟨x, rfl, hlast.resolve_left fun hbefore => ?_⟩
        obtain ⟨m, hm', -⟩ := ih hsub' hbefore
        rw [hm] at hm'
        cases hm'
      · have hmem := hsub' (champion_some hm)
        refine challenge_settled hc hv hmem hx (hlast.imp_left fun hbefore => ?_)
        obtain ⟨m', hm', hkey'⟩ := ih hsub' hbefore
        rw [hm] at hm'
        rwa [Option.some.inj hm']
  exact hseen xs (List.Subset.refl _) ⟨v, hv.1, rfl⟩

/-- Elements that do not beat the champion leave it where it is. -/
lemma championFrom_tie {m : α} (h : ∀ x ∈ xs, ¬ beats x m) :
    championFrom beats (some m) xs = some m := by
  induction xs with
  | nil => rfl
  | cons x xs ih =>
    rw [championFrom_cons, challenge, if_neg (h x List.mem_cons_self)]
    exact ih fun y hy => h y (List.mem_cons_of_mem _ hy)

/-! ### Champions that nothing beats -/

/-- **The champion of a ranked list** is beaten by no element of it. -/
theorem champion_unbeaten (hirrefl : ∀ a, ¬ beats a a) (h : Ranked beats xs) {m : α}
    (hm : champion beats xs = some m) : ∀ x ∈ xs, ¬ beats x m := by
  obtain ⟨v, hv, htop⟩ := h
  obtain ⟨s, t, rfl⟩ := List.append_of_mem hv
  -- with `v`, an element takes the place or keeps it that `v` does not beat
  have hplace : ∃ m', challenge beats (champion beats s) v = some m' ∧ ¬ beats v m' := by
    rcases champion beats s with _ | m
    · exact ⟨v, rfl, hirrefl v⟩
    · refine ⟨_, rfl, ?_⟩
      split_ifs with hbeats
      · exact hirrefl v
      · exact hbeats
  obtain ⟨m', hm', hnot⟩ := hplace
  have hplaced : championFrom beats none (s ++ [v]) = some m' := by
    rw [← hm']
    exact champion_snoc s v
  have hmem : m' ∈ s ++ v :: t := by
    have hin := champion_some hplaced
    simp only [List.mem_append, List.mem_cons] at hin ⊢
    tauto
  have hsplit : s ++ v :: t = (s ++ [v]) ++ t := by simp
  rw [hsplit, champion, championFrom_append, hplaced, championFrom_tie fun x hx =>
    htop m' hmem hnot x (by simp [hx])] at hm
  obtain rfl := Option.some.inj hm
  exact htop m' hmem hnot

/-- Where elements of different classes always compare, to be ranked is to have a settled
class. -/
theorem ranked_iff (hc : Contest beats key xs) :
    Ranked beats xs ↔ ∃ v, Settled beats key xs v := by
  constructor
  · rintro ⟨v, hv, htop⟩
    exact ⟨v, hv, fun a ha hkey x hx _ => htop a ha (hc.tie v hv a ha hkey.symm) x hx⟩
  · rintro ⟨v, hv, hsettled⟩
    refine ⟨v, hv, fun a ha hnot x hx => ?_⟩
    have hkey : key a = key v := by
      by_contra hne
      rcases hc.total v hv a ha (Ne.symm hne) with hbeats | hbeats
      · exact hnot hbeats
      · exact hsettled v hv rfl a ha hne hbeats
    by_cases hx' : key x = key v
    · exact hc.tie x hx a ha (hx'.trans hkey.symm)
    · exact hsettled a ha hkey x hx hx'

/-- A list of elements of one kind, which compare by values in an order, is ranked. -/
lemma ranked_of_order {β γ : Type*} [LinearOrder γ] {g : β → α} {f : β → γ}
    (hbeats : ∀ b c, beats (g b) (g c) ↔ f c < f b) (hne : xs ≠ [])
    (h : ∀ a ∈ xs, ∃ b, a = g b) : Ranked beats xs := by
  have hvalues : xs ∈ Set.range (List.map g) := by
    rw [Set.range_list_map]
    exact fun a ha => (h a ha).imp fun b hb => hb.symm
  obtain ⟨values, rfl⟩ := hvalues
  have hsome : values.argmax f ≠ none := mt List.argmax_eq_none.mp (mt List.map_eq_nil_iff.mpr hne)
  obtain ⟨v, hv⟩ := Option.ne_none_iff_exists'.mp hsome
  refine ⟨g v, List.mem_map_of_mem (List.argmax_mem hv), fun a ha hnot x hx hwins => ?_⟩
  obtain ⟨b, -, rfl⟩ := List.mem_map.mp ha
  obtain ⟨c, hc, rfl⟩ := List.mem_map.mp hx
  rw [hbeats] at hnot hwins
  exact hnot (hwins.trans_le (List.le_of_mem_argmax hc hv))

/-- **A class that is not settled loses** in some order: first its elements, from the one that is
beaten, and then the others, from the one that beats it. -/
lemma exists_order [DecidableEq κ] {v : α} (hc : Contest beats key xs) (hv : v ∈ xs)
    (hnot : ¬ Settled beats key xs v) :
    ∃ ys : List α, ys.Perm xs ∧ ∃ m, champion beats ys = some m ∧ key m ≠ key v := by
  have hbeaten : ∃ a ∈ xs, key a = key v ∧ ∃ x ∈ xs, key x ≠ key v ∧ beats x a = true := by
    by_contra hno
    push Not at hno
    exact hnot ⟨hv, fun a ha hkey x hx hother hbeats => hno a ha hkey x hx hother hbeats⟩
  obtain ⟨a, ha, hkey, x, hx, hother, hbeats⟩ := hbeaten
  obtain ⟨s, t, hsame⟩ := List.append_of_mem
    (List.mem_filter.mpr ⟨ha, decide_eq_true hkey⟩ : a ∈ xs.filter fun y => decide (key y = key v))
  obtain ⟨s', t', hrest⟩ := List.append_of_mem (List.mem_filter.mpr ⟨hx, by simpa using hother⟩ :
    x ∈ xs.filter fun y => !decide (key y = key v))
  have hin : ∀ y ∈ s ++ t, y ∈ xs ∧ key y = key v := by
    intro y hy
    have hmem : y ∈ xs.filter fun y => decide (key y = key v) := by
      rw [hsame, List.mem_append, List.mem_cons]
      exact (List.mem_append.mp hy).imp_right .inr
    simpa using List.mem_filter.mp hmem
  have hout : ∀ y ∈ s' ++ t', key y ≠ key v := by
    intro y hy
    have hmem : y ∈ xs.filter fun y => !decide (key y = key v) := by
      rw [hrest, List.mem_append, List.mem_cons]
      exact (List.mem_append.mp hy).imp_right .inr
    simpa using (List.mem_filter.mp hmem).2
  refine ⟨(a :: (s ++ t)) ++ (x :: (s' ++ t')), ?_, ?_⟩
  · have hperm := List.filter_append_perm (fun y => decide (key y = key v)) xs
    rw [hsame, hrest] at hperm
    exact (List.perm_middle.symm.append List.perm_middle.symm).trans hperm
  · have hfirst : championFrom beats (some a) (s ++ t) = some a :=
      championFrom_tie fun y hy => hc.tie y (hin y hy).1 a ha ((hin y hy).2.trans hkey.symm)
    obtain ⟨m, hm, hmem⟩ := championFrom_mem beats x (s' ++ t')
    refine ⟨m, ?_, ?_⟩
    · have hrun : championFrom beats none (a :: (s ++ t)) = some a := hfirst
      rw [champion, championFrom_append, hrun, championFrom_cons, challenge, if_pos hbeats, hm]
    · rcases List.mem_cons.mp hmem with rfl | hmem
      · exact hother
      · exact hout m hmem

/-- **When the order does not matter.** -/
theorem order_free_iff [DecidableEq κ] (hc : Contest beats key xs) :
    (∀ ys : List α, ys.Perm xs → (champion beats ys).map key = (champion beats xs).map key) ↔
      xs = [] ∨ ∃ v, Settled beats key xs v := by
  constructor
  · intro hfree
    by_cases hne : xs = []
    · exact .inl hne
    obtain ⟨m, hmem, hm⟩ := champion_mem beats hne
    refine .inr ⟨m, ?_⟩
    by_contra hnot
    obtain ⟨ys, hperm, m', hm', hother⟩ := exists_order hc hmem hnot
    have heq := hfree ys hperm
    rw [hm, hm'] at heq
    exact hother (Option.some.inj heq)
  · rintro (rfl | ⟨v, hv⟩) ys hperm
    · rw [hperm.eq_nil]
    · obtain ⟨m, hm, hkey⟩ := champion_settled hc hv
      obtain ⟨m', hm', hkey'⟩ := champion_settled (hc.perm hperm) (settled_perm hv hperm)
      rw [hm, hm', Option.map_some, Option.map_some, hkey, hkey']

end MongoSyncAgent.Champions
