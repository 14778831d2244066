import MongoSyncAgent.Outcomes
import Mathlib.Data.List.Nodup
import Mathlib.Data.List.Perm.Basic

/-!
Units of work that do not reach each other.

A list of units is run one after the other. A unit ends in its own way from every state in which
it is prepared, and what a unit does leaves the others prepared. So each of them ends in its own
way, whatever comes before it. Where what two units do commutes, their order does not matter.
-/

namespace MongoSyncAgent.Independence

open MongoSyncAgent.Outcomes

variable {ε σ α β ι δ κ : Type}

/-- The units of a list, one after the other. -/
def each (m : ι → Prog ε σ α) : List ι → Prog ε σ (List α)
  | [] => return []
  | i :: is => do
    let a ← m i
    return a :: (← each m is)

lemma each_map (m : ι → Prog ε σ α) (f : κ → ι) (ks : List κ) :
    each m (ks.map f) = each (fun k => m (f k)) ks := by
  induction ks with
  | nil => rfl
  | cons k ks ih => simp only [List.map_cons, each, ih]

lemma each_pure (f : ι → α) (is : List ι) :
    each (fun i => (pure (f i) : Prog ε σ α)) is = pure (is.map f) := by
  induction is with
  | nil => rfl
  | cons i is ih => simp [each, ih]

lemma each_append (m : ι → Prog ε σ α) (is ks : List ι) :
    each m (is ++ ks) = do
      let as ← each m is
      let bs ← each m ks
      return as ++ bs := by
  induction is with
  | nil => simp [each]
  | cons i is ih => simp [each, ih]

/-- Moves of a state that leave a journal. -/
structure Journaled (W : σ → σ → List δ → Prop) : Prop where
  refl : ∀ s, W s s []
  trans : ∀ {s s' s'' j k}, W s s' j → W s' s'' k → W s s'' (j ++ k)

/-! ### One after the other -/

section Each

variable {m : ι → Prog ε σ α} {W : σ → σ → List δ → Prop} {P : ι → σ → Prop} {a : ι → α}
  {J : ι → List δ} {is : List ι} {s : σ}

/-- **Each unit ends in its own way**, and does what it does, one after the other. -/
theorem ensures_each (hW : Journaled W)
    (hone : ∀ i ∈ is, ∀ s, P i s → Ensures (m i) s fun r s' => r = .ok (a i) ∧ W s s' (J i))
    (hkeep : is.Pairwise fun i k => ∀ s s', W s s' (J i) → P k s → P k s')
    (hs : ∀ i ∈ is, P i s) :
    Ensures (each m is) s fun r s' => r = .ok (is.map a) ∧ W s s' (is.flatMap J) := by
  induction is generalizing s with
  | nil => exact ⟨rfl, hW.refl s⟩
  | cons i is ih =>
    obtain ⟨hi, hkeep⟩ := List.pairwise_cons.mp hkeep
    refine Ensures.bind (hone i List.mem_cons_self s (hs i List.mem_cons_self))
      (fun e s' h => by cases h.1) fun b s' ⟨hb, h₁⟩ => ?_
    obtain rfl := Except.ok.inj hb
    have hrest := ih (fun k hk => hone k (List.mem_cons_of_mem _ hk)) hkeep fun k hk =>
      hi k hk s s' h₁ (hs k (List.mem_cons_of_mem _ hk))
    refine Ensures.bind hrest (fun e s'' h => by cases h.1) fun bs s'' ⟨hbs, h₂⟩ => ?_
    obtain rfl := Except.ok.inj hbs
    exact ⟨rfl, hW.trans h₁ h₂⟩

end Each

/-! ### In any order -/

/-- What units do to a state that have no key in common, in any order. -/
theorem foldl_perm {f : σ → ι → σ} {key : ι → κ} {is is' : List ι} (hperm : is.Perm is')
    (hkeys : (is.map key).Nodup)
    (hcomm : ∀ i k, key i ≠ key k → ∀ s, f (f s i) k = f (f s k) i) (s : σ) :
    is.foldl f s = is'.foldl f s := by
  refine hperm.foldl_eq' (fun i hi k hk s => ?_) s
  by_cases h : key i = key k
  · rw [List.inj_on_of_nodup_map hkeys hi hk h]
  · exact hcomm i k h s

lemma pairwise_of_keys {key : ι → κ} {is : List ι} {S : ι → ι → Prop}
    (hkeys : (is.map key).Nodup) (h : ∀ i ∈ is, ∀ k ∈ is, key i ≠ key k → S i k) :
    is.Pairwise S := by
  have hne : is.Pairwise fun i k => key i ≠ key k := List.pairwise_map.mp hkeys
  exact hne.imp_of_mem fun hi hk hne => h _ hi _ hk hne

end MongoSyncAgent.Independence
