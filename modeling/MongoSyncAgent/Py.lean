import Mathlib.Algebra.Order.Group.Nat
import Mathlib.Data.List.DropRight

/-!
What the agent takes from the Python runtime: exceptions, by class and text, dicts, and what counts
as a digit or a blank.

A process that is killed is modelled as an exception that no handler of the agent catches.
-/

namespace MongoSyncAgent.Py

inductive ExcClass
  | valueError | typeError | attributeError | lookupError | overflowError | structError | osError
  | invalidId | pyMongoError | arrowError | sqliteError
  | clientError | botoCoreError | s3UploadFailedError
  | configError | uploadError
  | killed
  deriving DecidableEq

structure Exc where
  cls : ExcClass
  text : String
  deriving DecidableEq

/-- What `except Exception` catches. -/
def Exc.isException (e : Exc) : Bool := e.cls != .killed

def raise {α : Type*} (cls : ExcClass) (text : String) : Except Exc α := .error ⟨cls, text⟩

/-- A computation that went through has a value at each of its stages. -/
lemma bind_ok {ε α β : Type} {x : Except ε α} {f : α → Except ε β} {b : β}
    (h : x >>= f = .ok b) : ∃ a, x = .ok a ∧ f a = .ok b := by
  cases x with
  | error e => cases h
  | ok a => exact ⟨a, rfl, h⟩

@[simp] lemma ok_bind {ε α β : Type} (a : α) (f : α → Except ε β) :
    (Except.ok a >>= f) = f a := rfl

/-- `d[key] = value`, on a dict in the order of its keys. -/
def dictSet {α β : Type} [DecidableEq α] (key : α) (value : β) : List (α × β) → List (α × β)
  | [] => [(key, value)]
  | (k, v) :: d => if k = key then (k, value) :: d else (k, v) :: dictSet key value d

/-- The dict that a loop fills, item by item. -/
def dictOf {α β : Type} [DecidableEq α] (items : List (α × β)) : List (α × β) :=
  items.foldl (fun d kv => dictSet kv.1 kv.2 d) []

lemma mem_dictSet {α β : Type} [DecidableEq α] {key : α} {value : β} {d : List (α × β)}
    {kv : α × β} (h : kv ∈ dictSet key value d) : kv = (key, value) ∨ kv ∈ d := by
  induction d with
  | nil => exact .inl (List.mem_singleton.mp h)
  | cons x d ih =>
    obtain ⟨k, v⟩ := x
    by_cases hk : k = key
    · subst hk
      rw [dictSet, if_pos rfl] at h
      exact (List.mem_cons.mp h).imp_right (List.mem_cons_of_mem _)
    · rw [dictSet, if_neg hk] at h
      rcases List.mem_cons.mp h with rfl | h
      · exact .inr List.mem_cons_self
      · exact (ih h).imp_right (List.mem_cons_of_mem _)

lemma mem_foldl_dictSet {α β : Type} [DecidableEq α] {items d : List (α × β)} {kv : α × β}
    (h : kv ∈ items.foldl (fun d kv => dictSet kv.1 kv.2 d) d) : kv ∈ d ∨ kv ∈ items := by
  induction items generalizing d with
  | nil => exact .inl h
  | cons x items ih =>
    rcases ih h with h | h
    · exact (mem_dictSet h).symm.imp_right fun h => by simp [h]
    · exact .inr (List.mem_cons_of_mem _ h)

/-- What a dict holds is among the items that filled it. -/
lemma mem_dictOf {α β : Type} [DecidableEq α] {items : List (α × β)} {kv : α × β}
    (h : kv ∈ dictOf items) : kv ∈ items :=
  (mem_foldl_dictSet h).resolve_left List.not_mem_nil

lemma dictSet_keys {α β : Type} [DecidableEq α] {key k : α} {value : β} {d : List (α × β)}
    (h : k = key ∨ k ∈ d.map Prod.fst) : k ∈ (dictSet key value d).map Prod.fst := by
  induction d with
  | nil =>
    rcases h with rfl | h
    · exact List.mem_singleton.mpr rfl
    · exact absurd h List.not_mem_nil
  | cons x d ih =>
    by_cases hx : x.1 = key
    · rw [dictSet, if_pos hx]
      simp only [List.map_cons, List.mem_cons] at h ⊢
      rcases h with rfl | h | h
      · exact .inl hx.symm
      · exact .inl h
      · exact .inr h
    · rw [dictSet, if_neg hx]
      simp only [List.map_cons, List.mem_cons] at h ⊢
      rcases h with rfl | h | h
      · exact .inr (ih (.inl rfl))
      · exact .inl h
      · exact .inr (ih (.inr h))

/-- A dict has a key for each of the items. -/
lemma dictOf_keys {α β : Type} [DecidableEq α] {items : List (α × β)} {k : α}
    (h : k ∈ items.map Prod.fst) : k ∈ (dictOf items).map Prod.fst := by
  have hgen : ∀ d : List (α × β), k ∈ d.map Prod.fst ∨ k ∈ items.map Prod.fst →
      k ∈ (items.foldl (fun d kv => dictSet kv.1 kv.2 d) d).map Prod.fst := by
    clear h
    induction items with
    | nil => exact fun d h => h.resolve_right List.not_mem_nil
    | cons x items ih =>
      intro d hd
      refine ih _ ?_
      rcases hd with hd | hd
      · exact .inl (dictSet_keys (.inr hd))
      · rcases List.mem_cons.mp hd with rfl | hd
        · exact .inl (dictSet_keys (.inl rfl))
        · exact .inr hd
  exact hgen [] (.inr h)

lemma dictSet_new {α β : Type} [DecidableEq α] {key : α} {value : β} {d : List (α × β)}
    (h : key ∉ d.map Prod.fst) : dictSet key value d = d ++ [(key, value)] := by
  induction d with
  | nil => rfl
  | cons x d ih =>
    simp only [List.map_cons, List.mem_cons, not_or] at h
    rw [dictSet, if_neg (Ne.symm h.1), ih h.2, List.cons_append]

/-- Items with keys of their own all stay. -/
lemma dictOf_nodup {α β : Type} [DecidableEq α] {items : List (α × β)}
    (h : (items.map Prod.fst).Nodup) : dictOf items = items := by
  have hgen : ∀ d : List (α × β), ((d ++ items).map Prod.fst).Nodup →
      items.foldl (fun d kv => dictSet kv.1 kv.2 d) d = d ++ items := by
    clear h
    induction items with
    | nil => simp
    | cons x items ih =>
      intro d hd
      have hnew : x.1 ∉ d.map Prod.fst := by
        intro hx
        rw [List.map_append, List.nodup_append] at hd
        exact hd.2.2 x.1 hx x.1 (by simp) rfl
      rw [List.foldl_cons, dictSet_new hnew, ih _ (by simpa using hd)]
      simp
  exact hgen [] (by simpa using h)

/-! ### Characters -/

/-- The zeros of the scripts that have decimal digits. -/
def decimalZeros : List ℕ :=
  [0x30, 0x660, 0x6F0, 0x7C0, 0x966, 0x9E6, 0xA66, 0xAE6, 0xB66, 0xBE6, 0xC66, 0xCE6, 0xD66,
    0xDE6, 0xE50, 0xED0, 0xF20, 0x1040, 0x1090, 0x17E0, 0x1810, 0x1946, 0x19D0, 0x1A80, 0x1A90,
    0x1B50, 0x1BB0, 0x1C40, 0x1C50, 0xA620, 0xA8D0, 0xA900, 0xA9D0, 0xA9F0, 0xAA50, 0xABF0,
    0xFF10, 0x104A0, 0x10D30, 0x11066, 0x110F0, 0x11136, 0x111D0, 0x112F0, 0x11450, 0x114D0,
    0x11650, 0x116C0, 0x11730, 0x118E0, 0x11950, 0x11C50, 0x11D50, 0x11DA0, 0x11F50, 0x16A60,
    0x16AC0, 0x16B50, 0x1D7CE, 0x1D7D8, 0x1D7E2, 0x1D7EC, 0x1D7F6, 0x1E140, 0x1E2F0, 0x1E4F0,
    0x1E950, 0x1FBF0]

/-- The value of a decimal digit, of any script. -/
def decimal (c : Char) : Option ℕ :=
  (decimalZeros.find? fun z => z ≤ c.toNat && c.toNat < z + 10).map (c.toNat - ·)

/-- What `str.strip` takes for a blank. -/
def isSpace (c : Char) : Bool :=
  let n := c.toNat
  (9 ≤ n && n ≤ 13) || (28 ≤ n && n ≤ 32) || (0x2000 ≤ n && n ≤ 0x200A) ||
    [0x85, 0xA0, 0x1680, 0x2028, 0x2029, 0x202F, 0x205F, 0x3000].contains n

def strip (cs : List Char) : List Char := (cs.dropWhile isSpace).rdropWhile isSpace

lemma decimal_of_isDigit {c : Char} (h : c.isDigit) : decimal c = some (c.toNat - '0'.toNat) := by
  have hc : 48 ≤ c.toNat ∧ c.toNat ≤ 57 := by
    simpa [Char.isDigit, UInt32.le_iff_toNat_le] using h
  have hfind : decimalZeros.find? (fun z => z ≤ c.toNat && c.toNat < z + 10) = some 48 := by
    rw [decimalZeros, List.find?_cons_of_pos]
    simp only [Bool.and_eq_true, decide_eq_true_eq]
    omega
  rw [decimal, hfind]
  rfl

lemma isSpace_of_isDigit {c : Char} (h : c.isDigit) : isSpace c = false := by
  have hc : 48 ≤ c.toNat ∧ c.toNat ≤ 57 := by
    simpa [Char.isDigit, UInt32.le_iff_toNat_le] using h
  simp only [isSpace, List.contains_cons, List.contains_nil, Bool.or_false, Bool.or_eq_false_iff,
    Bool.and_eq_false_iff, decide_eq_false_iff_not, beq_eq_false_iff_ne]
  omega

end MongoSyncAgent.Py
