import Mathlib.Data.List.Basic
import Mathlib.Algebra.Order.Group.Nat
import Mathlib.Tactic.Basic

/-!
Numerals of a fixed width.

A number is written with leading zeros to a given number of digits, and read back digit by
digit. Numerals of one width compare as the numbers do, which is why they may be compared as
strings.
-/

namespace MongoSyncAgent.Numerals

/-- The value of a digit, in bases up to sixteen and either case. -/
def digit (c : Char) : Option ℕ :=
  if '0' ≤ c ∧ c ≤ '9' then some (c.toNat - 48)
  else if 'a' ≤ c ∧ c ≤ 'f' then some (c.toNat - 87)
  else if 'A' ≤ c ∧ c ≤ 'F' then some (c.toNat - 55)
  else none

/-- The value of a digit below the base. -/
def digitBelow (b : ℕ) (c : Char) : Option ℕ := (digit c).filter (· < b)

def numeralFrom (b : ℕ) : ℕ → List Char → Option ℕ
  | a, [] => some a
  | a, c :: cs => do numeralFrom b (a * b + (← digitBelow b c)) cs

/-- The number written in base `b`, if all characters are digits. -/
def numeral (b : ℕ) (cs : List Char) : Option ℕ := numeralFrom b 0 cs

/-- The last `w` digits of `n` in base `b`. -/
def pad (b : ℕ) : ℕ → ℕ → List Char
  | 0, _ => []
  | w + 1, n => pad b w (n / b) ++ [Nat.digitChar (n % b)]

variable {b : ℕ}

lemma digitBelow_digitChar (hb : b ≤ 16) {d : ℕ} (hd : d < b) :
    digitBelow b (Nat.digitChar d) = some d := by
  have h : ∀ d < 16, digit (Nat.digitChar d) = some d := by decide
  simp [digitBelow, h d (by omega), hd]

@[simp] lemma length_pad (w n : ℕ) : (pad b w n).length = w := by
  induction w generalizing n with
  | zero => rfl
  | succ w ih => simp [pad, ih]

lemma numeralFrom_append (a : ℕ) (u v : List Char) :
    numeralFrom b a (u ++ v) = (numeralFrom b a u).bind fun a' => numeralFrom b a' v := by
  induction u generalizing a with
  | nil => rfl
  | cons c u ih =>
    simp only [List.cons_append, numeralFrom, Option.bind_eq_bind, Option.bind_assoc, ih]

/-- **Reading a numeral back** gives the number, where the width suffices. -/
theorem numeral_pad (hb : b ≤ 16) (hb0 : 0 < b) {w n : ℕ} (hn : n < b ^ w) :
    numeral b (pad b w n) = some n := by
  induction w generalizing n with
  | zero => simp [numeral, pad, numeralFrom] at hn ⊢; exact hn.symm
  | succ w ih =>
    have hq : n / b < b ^ w := by
      rw [Nat.div_lt_iff_lt_mul hb0, ← pow_succ]; exact hn
    have hih := ih hq
    unfold numeral at hih ⊢
    rw [pad, numeralFrom_append, hih]
    simp only [Option.bind_some, numeralFrom, digitBelow_digitChar hb (Nat.mod_lt n hb0)]
    simp [Nat.div_add_mod']

lemma numeralFrom_lt {a v : ℕ} {cs : List Char} (h : numeralFrom b a cs = some v) :
    v < (a + 1) * b ^ cs.length := by
  induction cs generalizing a with
  | nil => simp [numeralFrom] at h ⊢; omega
  | cons c cs ih =>
    rcases hd : digitBelow b c with _ | d
    · simp [numeralFrom, hd] at h
    · have hdb : d < b := by simpa using (Option.filter_eq_some_iff.mp hd).2
      have hv : v < (a * b + d + 1) * b ^ cs.length := ih (by simpa [numeralFrom, hd] using h)
      calc v < (a * b + d + 1) * b ^ cs.length := hv
        _ ≤ ((a + 1) * b) * b ^ cs.length := Nat.mul_le_mul_right _ (by rw [Nat.add_mul]; omega)
        _ = (a + 1) * b ^ (c :: cs).length := by
          rw [List.length_cons, pow_succ, Nat.mul_assoc, Nat.mul_comm b]

lemma numeral_lt {v : ℕ} {cs : List Char} (h : numeral b cs = some v) : v < b ^ cs.length := by
  simpa using numeralFrom_lt h

/-- Every character of a numeral is a digit. -/
lemma pad_digits (hb0 : 0 < b) (w n : ℕ) {c : Char} (hc : c ∈ pad b w n) :
    ∃ d < b, c = Nat.digitChar d := by
  induction w generalizing n with
  | zero => simp [pad] at hc
  | succ w ih =>
    rcases List.mem_append.mp hc with hc | hc
    · exact ih _ hc
    · exact ⟨n % b, Nat.mod_lt n hb0, by simpa using hc⟩

lemma digitChar_lt {d e : ℕ} (he : e < 16) (h : d < e) : Nat.digitChar d < Nat.digitChar e := by
  have : ∀ e < 16, ∀ d < e, Nat.digitChar d < Nat.digitChar e := by decide
  exact this e he d h

lemma lt_append_of_lt {u v : List Char} (x y : List Char) (hl : u.length = v.length) (h : u < v) :
    u ++ x < v ++ y := by
  induction h with
  | nil => simp at hl
  | rel h => exact List.Lex.rel h
  | cons _ ih => exact List.Lex.cons (ih (by simpa using hl))

/-- **Numerals of one width compare as numbers do.** -/
theorem pad_lt (hb : b ≤ 16) (hb0 : 0 < b) {w m n : ℕ} (hn : n < b ^ w) (h : m < n) :
    pad b w m < pad b w n := by
  induction w generalizing m n with
  | zero => simp at hn; omega
  | succ w ih =>
    have hq : n / b < b ^ w := by
      rw [Nat.div_lt_iff_lt_mul hb0, ← pow_succ]; exact hn
    rcases Nat.lt_or_ge (m / b) (n / b) with hlt | hge
    · exact lt_append_of_lt _ _ (by simp) (ih hq hlt)
    · have hdiv : m / b = n / b := le_antisymm (Nat.div_le_div_right h.le) hge
      have hmod : m % b < n % b := by
        have h1 := Nat.div_add_mod m b
        have h2 := Nat.div_add_mod n b
        rw [hdiv] at h1
        omega
      rw [pad, pad, hdiv]
      refine List.append_left_lt ?_
      exact List.Lex.rel (digitChar_lt (by have := Nat.mod_lt n hb0; omega) hmod)

end MongoSyncAgent.Numerals
