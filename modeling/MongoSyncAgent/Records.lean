import Mathlib.Data.List.Basic
import Mathlib.Algebra.Order.Group.Nat
import Mathlib.Tactic.Basic

/-!
Record framing: how a growing sequence of symbols divides into items.

A framing says after which prefixes a sequence may be cut, and what items a sequence holds.
Cuts are positions of the sequence, not of the reader: a piece that starts at a cut is framed
as the whole is. So a reader that stops at cuts, remembers where it stopped, and goes on from
there collects exactly the items of what it has passed, however it was chunked and however the
sequence grew meanwhile.
-/

namespace MongoSyncAgent.Records

/-- Where sequences may be cut. -/
structure Cutting (α : Type*) where
  /-- The sequence ends where it may be cut. -/
  Cut : List α → Prop
  cut_nil : Cut []
  cut_append : ∀ {u v}, Cut u → (Cut (u ++ v) ↔ Cut v)

structure Framing (α β : Type*) extends Cutting α where
  items : List α → List β
  items_append : ∀ {u v}, Cut u → items (u ++ v) = items u ++ items v

variable {α β : Type*}

section Cutting

variable (K : Cutting α)

/-- Position `n` of `c` is a cut. -/
def CutAt (c : List α) (n : ℕ) : Prop := n ≤ c.length ∧ K.Cut (c.take n)

lemma cutAt_zero (c : List α) : CutAt K c 0 := ⟨by simp, by simpa using K.cut_nil⟩

/-- A cut of what follows a cut is a cut of the whole. -/
lemma cutAt_add {c : List α} {s k : ℕ} (hs : CutAt K c s) :
    CutAt K c (s + k) ↔ CutAt K (c.drop s) k := by
  have ht : c.take (s + k) = c.take s ++ (c.drop s).take k := List.take_add
  unfold CutAt
  rw [ht, K.cut_append hs.2, List.length_drop]
  have := hs.1
  constructor
  · rintro ⟨h1, h2⟩; exact ⟨by omega, h2⟩
  · rintro ⟨h1, h2⟩; exact ⟨by omega, h2⟩

lemma take_mono {c d : List α} (h : c <+: d) {n : ℕ} (hn : n ≤ c.length) :
    d.take n = c.take n := by
  obtain ⟨t, rfl⟩ := h
  exact List.take_append_of_le_length hn

lemma cutAt_mono {c d : List α} (h : c <+: d) {n : ℕ} (hn : CutAt K c n) : CutAt K d n :=
  ⟨hn.1.trans h.length_le, by rw [take_mono h hn.1]; exact hn.2⟩

end Cutting

variable (F : Framing α β)

lemma items_nil : F.items [] = [] := by
  have h := F.items_append (u := []) (v := []) F.cut_nil
  simpa using h

/-- The items between two positions. -/
def between (c : List α) (s e : ℕ) : List β := F.items ((c.take e).drop s)

lemma take_split {c : List α} {s e : ℕ} (h : s ≤ e) :
    c.take e = c.take s ++ (c.take e).drop s := by
  conv_lhs => rw [← List.take_append_drop s (c.take e)]
  rw [List.take_take, Nat.min_eq_left h]

lemma items_take {c : List α} {s e : ℕ} (hs : CutAt F.toCutting c s) (h : s ≤ e) :
    F.items (c.take e) = F.items (c.take s) ++ between F c s e := by
  rw [between, ← F.items_append hs.2, ← take_split h]

lemma between_self (c : List α) (s : ℕ) : between F c s s = [] := by
  have : (c.take s).drop s = [] := by
    rw [List.drop_eq_nil_iff, List.length_take]; omega
  rw [between, this, items_nil]

lemma between_trans {c : List α} {s m e : ℕ} (hs : CutAt F.toCutting c s)
    (hm : CutAt F.toCutting c m)
    (h1 : s ≤ m) (h2 : m ≤ e) :
    between F c s e = between F c s m ++ between F c m e := by
  have h := items_take F hs (h1.trans h2)
  rw [items_take F hm h2, items_take F hs h1, List.append_assoc] at h
  exact (List.append_cancel_left h).symm

/-! ### Reading in chunks -/

/-- A chunked reading of `c` from position `s` to `e`: each chunk holds the items up to the
cut at which it stops, and moves forward. -/
inductive Chunked (c : List α) : ℕ → List (List β × ℕ) → ℕ → Prop
  | nil {s} : Chunked c s [] s
  | cons {s m e rest} : s < m → CutAt F.toCutting c m → Chunked c m rest e →
      Chunked c s ((between F c s m, m) :: rest) e

variable {F}

lemma Chunked.le {c : List α} {s e : ℕ} {ch : List (List β × ℕ)} (h : Chunked F c s ch e) :
    s ≤ e := by
  induction h with
  | nil => exact le_rfl
  | cons hlt _ _ ih => omega

/-- A reader that takes over the end of every chunk stands at the end of the last. -/
lemma Chunked.foldl_end {c : List α} {s e : ℕ} {ch : List (List β × ℕ)}
    (h : Chunked F c s ch e) : ch.foldl (fun _ x => x.2) s = e := by
  induction h with
  | nil => rfl
  | cons _ _ _ ih => exact ih

/-- **Chunking is invisible.** The chunks together hold the items between the two ends. -/
theorem Chunked.items {c : List α} {s e : ℕ} {ch : List (List β × ℕ)} (h : Chunked F c s ch e)
    (hs : CutAt F.toCutting c s) : ch.flatMap (·.1) = between F c s e := by
  induction h with
  | nil => simp [between_self]
  | cons hlt hm hrest ih =>
    rw [List.flatMap_cons, ih hm, ← between_trans F hs hm hlt.le hrest.le]

/-- The chunk ends are strictly increasing, and lie past the start and up to the end. -/
lemma Chunked.ends {c : List α} {s e : ℕ} {ch : List (List β × ℕ)} (h : Chunked F c s ch e) :
    (ch.map (·.2)).Pairwise (· < ·) ∧ ∀ x ∈ ch, s < x.2 ∧ x.2 ≤ e ∧ CutAt F.toCutting c x.2 := by
  induction h with
  | nil => simp
  | cons hlt hm hrest ih =>
    obtain ⟨hp, hall⟩ := ih
    refine ⟨?_, ?_⟩
    · rw [List.map_cons, List.pairwise_cons]
      refine ⟨fun x hx => ?_, hp⟩
      obtain ⟨y, hy, rfl⟩ := List.mem_map.mp hx
      exact (hall y hy).1
    · intro x hx
      rcases List.mem_cons.mp hx with rfl | hx
      · exact ⟨hlt, hrest.le, hm⟩
      · obtain ⟨h1, h2, h3⟩ := hall x hx
        exact ⟨hlt.trans h1, h2, h3⟩

end MongoSyncAgent.Records
