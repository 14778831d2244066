import MongoSyncAgent.Numerals
import MongoSyncAgent.Text
import Mathlib.Data.List.TakeWhile
import Mathlib.Tactic.Basic

/-!
JSON texts: how a value is written in printable ASCII, and a reader of the grammar of JSON that
gets the value back.

A number stands for its text, which is one of the grammar; so no precision is lost that the text
has. Fields keep their order. The reader goes by a budget of steps that the length of the text
always covers.
-/

namespace MongoSyncAgent.JsonText

open MongoSyncAgent.Numerals

/-! ### Numbers -/

def isDigit (c : Char) : Bool := (digitBelow 10 c).isSome

/-- One digit, or several that do not begin with a zero. -/
def isInt : List Char → Bool
  | [] => false
  | c :: cs => isDigit c && cs.all isDigit && (c ≠ '0' || cs.isEmpty)

/-- An exponent, after its `e`. -/
def isExponent : List Char → Bool
  | '+' :: cs | '-' :: cs => !cs.isEmpty && cs.all isDigit
  | cs => !cs.isEmpty && cs.all isDigit

/-- What may follow the integer part. -/
def isTail : List Char → Bool
  | [] => true
  | '.' :: cs =>
    let fraction := cs.takeWhile isDigit
    !fraction.isEmpty && match cs.dropWhile isDigit with
      | [] => true
      | c :: cs => (c = 'e' || c = 'E') && isExponent cs
  | c :: cs => (c = 'e' || c = 'E') && isExponent cs

def isUnsigned (cs : List Char) : Bool :=
  isInt (cs.takeWhile isDigit) && isTail (cs.dropWhile isDigit)

def isNumber : List Char → Bool
  | '-' :: cs => isUnsigned cs
  | cs => isUnsigned cs

/-- The characters that numbers are written with. -/
def numberChar (c : Char) : Bool := isDigit c || c = '-' || c = '+' || c = '.' || c = 'e' || c = 'E'

structure Number where
  text : List Char
  isNumber_text : isNumber text
  deriving DecidableEq

/-! ### Values -/

inductive Json
  | null
  | bool (b : Bool)
  | num (n : Number)
  | str (s : String)
  | arr (xs : List Json)
  | obj (fields : List (String × Json))

/-- The escape of a code unit. -/
def unicodeEscape (n : ℕ) : List Char := '\\' :: 'u' :: pad 16 4 n

/-- `ESCAPE_DCT`. -/
def escapeDct (c : Char) : Option Char :=
  if c = '"' then some '"'
  else if c = '\\' then some '\\'
  else if c = '\n' then some 'n'
  else if c = '\r' then some 'r'
  else if c = '\t' then some 't'
  else if c = Char.ofNat 0x0C then some 'f'
  else if c = Char.ofNat 0x08 then some 'b'
  else none

/-- A character inside a string, where all but printable ASCII is escaped. -/
def escape (c : Char) : List Char :=
  match escapeDct c with
  | some e => ['\\', e]
  | none =>
    if 0x20 ≤ c.toNat ∧ c.toNat ≤ 0x7E then [c]
    else if c.toNat < 0x10000 then unicodeEscape c.toNat
    else unicodeEscape (0xD800 + (c.toNat - 0x10000) / 1024) ++
      unicodeEscape (0xDC00 + (c.toNat - 0x10000) % 1024)

def dumpsString (s : String) : List Char := '"' :: (s.toList.flatMap escape ++ ['"'])

mutual

/-- `json.dumps`, with its separators `", "` and `": "`. -/
def dumps : Json → List Char
  | .null => ['n', 'u', 'l', 'l']
  | .bool true => ['t', 'r', 'u', 'e']
  | .bool false => ['f', 'a', 'l', 's', 'e']
  | .num n => n.text
  | .str s => dumpsString s
  | .arr xs => '[' :: (dumpsElements xs ++ [']'])
  | .obj fields => '{' :: (dumpsMembers fields ++ ['}'])

def dumpsElements : List Json → List Char
  | [] => []
  | [x] => dumps x
  | x :: y :: xs => dumps x ++ ',' :: ' ' :: dumpsElements (y :: xs)

def dumpsMembers : List (String × Json) → List Char
  | [] => []
  | [(key, v)] => dumpsString key ++ ':' :: ' ' :: dumps v
  | (key, v) :: f :: fields =>
    dumpsString key ++ ':' :: ' ' :: (dumps v ++ ',' :: ' ' :: dumpsMembers (f :: fields))

end

/-! ### Reading -/

/-- Blanks between the tokens. -/
def isBlank (c : Char) : Bool := c = ' ' || c = '\t' || c = '\n' || c = '\r'

def skipBlanks (cs : List Char) : List Char := cs.dropWhile isBlank

/-- The character of a short escape. -/
def unescape : Char → Option Char
  | '"' => some '"'
  | '\\' => some '\\'
  | '/' => some '/'
  | 'n' => some '\n'
  | 'r' => some '\r'
  | 't' => some '\t'
  | 'f' => some (Char.ofNat 0x0C)
  | 'b' => some (Char.ofNat 0x08)
  | _ => none

/-- The rest of a string after its opening quote. A surrogate must come with its other half. -/
def readChars : List Char → Option (List Char × List Char)
  | '"' :: r => some ([], r)
  | '\\' :: 'u' :: a :: b :: c :: d :: r => do
    let u ← numeral 16 [a, b, c, d]
    if 0xD800 ≤ u ∧ u < 0xDC00 then
      match r with
      | '\\' :: 'u' :: a :: b :: c :: d :: r => do
        let v ← numeral 16 [a, b, c, d]
        if 0xDC00 ≤ v ∧ v < 0xE000 then
          let (cs, r) ← readChars r
          return (Char.ofNat (0x10000 + (u - 0xD800) * 1024 + (v - 0xDC00)) :: cs, r)
        else none
      | _ => none
    else if 0xDC00 ≤ u ∧ u < 0xE000 then none
    else do
      let (cs, r) ← readChars r
      return (Char.ofNat u :: cs, r)
  | '\\' :: e :: r => do
    let c ← unescape e
    let (cs, r) ← readChars r
    return (c :: cs, r)
  | c :: r =>
    if c.toNat < 0x20 then none
    else do
      let (cs, r) ← readChars r
      return (c :: cs, r)
  | [] => none

def readString (cs : List Char) : Option (String × List Char) :=
  match skipBlanks cs with
  | '"' :: r => do
    let (chars, r) ← readChars r
    return (String.ofList chars, r)
  | _ => none

def readNumber (cs : List Char) : Option (Json × List Char) :=
  if h : isNumber (cs.takeWhile numberChar) then
    some (.num ⟨cs.takeWhile numberChar, h⟩, cs.dropWhile numberChar)
  else none

mutual

def readValue : ℕ → List Char → Option (Json × List Char)
  | 0, _ => none
  | n + 1, cs =>
    match skipBlanks cs with
    | 'n' :: 'u' :: 'l' :: 'l' :: r => some (.null, r)
    | 't' :: 'r' :: 'u' :: 'e' :: r => some (.bool true, r)
    | 'f' :: 'a' :: 'l' :: 's' :: 'e' :: r => some (.bool false, r)
    | '"' :: r => do
      let (chars, r) ← readChars r
      return (.str (String.ofList chars), r)
    | '[' :: r =>
      match skipBlanks r with
      | ']' :: r => some (.arr [], r)
      | r => do
        let (xs, r) ← readElements n r
        return (.arr xs, r)
    | '{' :: r =>
      match skipBlanks r with
      | '}' :: r => some (.obj [], r)
      | r => do
        let (fields, r) ← readMembers n r
        return (.obj fields, r)
    | cs => readNumber cs

def readElements : ℕ → List Char → Option (List Json × List Char)
  | 0, _ => none
  | n + 1, cs => do
    let (x, r) ← readValue n cs
    match skipBlanks r with
    | ',' :: r => do
      let (xs, r) ← readElements n r
      return (x :: xs, r)
    | ']' :: r => return ([x], r)
    | _ => none

def readMembers : ℕ → List Char → Option (List (String × Json) × List Char)
  | 0, _ => none
  | n + 1, cs => do
    let (key, r) ← readString cs
    match skipBlanks r with
    | ':' :: r => do
      let (v, r) ← readValue n r
      match skipBlanks r with
      | ',' :: r => do
        let (fields, r) ← readMembers n r
        return ((key, v) :: fields, r)
      | '}' :: r => return ([(key, v)], r)
      | _ => none
    | _ => none

end

/-- A whole text. -/
def loads (cs : List Char) : Option Json := do
  let (v, r) ← readValue cs.length cs
  if skipBlanks r = [] then return v else none

/-! ### What is written is printable ASCII -/

def Printable (c : Char) : Prop := 0x20 ≤ c.toNat ∧ c.toNat ≤ 0x7E

instance (c : Char) : Decidable (Printable c) := inferInstanceAs (Decidable (_ ∧ _))

lemma isDigit_iff {c : Char} : isDigit c ↔ 48 ≤ c.toNat ∧ c.toNat ≤ 57 := by
  have hdigit : isDigit c ↔ ∃ d < 10, digit c = some d := by
    unfold isDigit digitBelow
    rcases digit c with _ | d <;> simp
  rw [hdigit]
  unfold digit
  simp only [Char.le_def, UInt32.le_iff_toNat_le]
  change (∃ d < 10, (if 48 ≤ c.toNat ∧ c.toNat ≤ 57 then some (c.toNat - 48)
    else if 97 ≤ c.toNat ∧ c.toNat ≤ 102 then some (c.toNat - 87)
    else if 65 ≤ c.toNat ∧ c.toNat ≤ 70 then some (c.toNat - 55) else none) = some d) ↔ _
  constructor
  · rintro ⟨d, hd, h⟩
    split_ifs at h <;> simp only [Option.some.injEq] at h <;> omega
  · intro h
    exact ⟨c.toNat - 48, by omega, by rw [if_pos h]⟩

lemma numberChar_printable {c : Char} (h : numberChar c) : Printable c := by
  simp only [numberChar, Bool.or_eq_true, decide_eq_true_eq, isDigit_iff] at h
  unfold Printable
  rcases h with ((((h | rfl) | rfl) | rfl) | rfl) | rfl
  · omega
  all_goals decide

lemma pad_printable {w n : ℕ} {c : Char} (h : c ∈ pad 16 w n) : Printable c := by
  obtain ⟨d, hd, rfl⟩ := pad_digits (by omega) w n h
  have : ∀ d < 16, Printable (Nat.digitChar d) := by decide
  exact this d hd

lemma unicodeEscape_printable {n : ℕ} {c : Char} (h : c ∈ unicodeEscape n) : Printable c := by
  rcases List.mem_cons.mp h with rfl | h
  · decide
  rcases List.mem_cons.mp h with rfl | h
  · decide
  exact pad_printable h

/-- A short escape is read back as what it is the escape of. -/
lemma unescape_escapeDct {c e : Char} (h : escapeDct c = some e) :
    Printable e ∧ e ≠ 'u' ∧ unescape e = some c := by
  unfold escapeDct at h
  split_ifs at h <;> obtain rfl := Option.some.inj h <;> subst c <;> decide

lemma escape_printable {c d : Char} (h : d ∈ escape c) : Printable d := by
  unfold escape at h
  rcases he : escapeDct c with _ | e <;> rw [he] at h <;> simp only at h
  · split_ifs at h with hplain hsmall
    · rwa [List.mem_singleton.mp h]
    · exact unicodeEscape_printable h
    · exact (List.mem_append.mp h).elim unicodeEscape_printable unicodeEscape_printable
  · rcases List.mem_cons.mp h with rfl | h
    · decide
    · rw [List.mem_singleton.mp h]
      exact (unescape_escapeDct he).1

lemma dumpsString_printable {s : String} {c : Char} (h : c ∈ dumpsString s) : Printable c := by
  simp only [dumpsString, List.mem_cons, List.mem_append, List.mem_flatMap, List.not_mem_nil,
    or_false] at h
  rcases h with rfl | ⟨d, -, h⟩ | rfl
  · decide
  · exact escape_printable h
  · decide

/-! #### Numbers -/

lemma digits_numberChar {cs : List Char} (h : cs.all isDigit) : ∀ c ∈ cs, numberChar c := by
  intro c hc
  simp [numberChar, List.all_eq_true.mp h c hc]

lemma exponent_numberChar {cs : List Char} (h : isExponent cs) : ∀ c ∈ cs, numberChar c := by
  unfold isExponent at h
  split at h <;> simp only [Bool.and_eq_true] at h
  · exact List.forall_mem_cons.mpr ⟨rfl, digits_numberChar h.2⟩
  · exact List.forall_mem_cons.mpr ⟨rfl, digits_numberChar h.2⟩
  · exact digits_numberChar h.2

lemma tail_numberChar {cs : List Char} (h : isTail cs) : ∀ c ∈ cs, numberChar c := by
  have hexp : ∀ {c cs}, ((c = 'e' || c = 'E') && isExponent cs) = true →
      ∀ d ∈ c :: cs, numberChar d := by
    intro c cs h
    simp only [Bool.and_eq_true, Bool.or_eq_true, decide_eq_true_eq] at h
    refine List.forall_mem_cons.mpr ⟨?_, exponent_numberChar h.2⟩
    rcases h.1 with rfl | rfl <;> rfl
  have hdigits : ∀ cs : List Char, ∀ c ∈ cs.takeWhile isDigit, numberChar c := fun cs =>
    digits_numberChar (List.all_takeWhile)
  unfold isTail at h
  split at h
  · simp
  · rename_i cs
    refine List.forall_mem_cons.mpr ⟨rfl, ?_⟩
    simp only [Bool.and_eq_true] at h
    intro c hc
    rw [← List.takeWhile_append_dropWhile (p := isDigit) (l := cs)] at hc
    rcases List.mem_append.mp hc with hc | hc
    · exact hdigits cs c hc
    · have h := h.2
      split at h
      · rename_i hnil
        rw [hnil] at hc
        cases hc
      · rename_i hcons
        rw [hcons] at hc
        exact hexp h c hc
  · exact hexp h

lemma unsigned_numberChar {cs : List Char} (h : isUnsigned cs) : ∀ c ∈ cs, numberChar c := by
  simp only [isUnsigned, Bool.and_eq_true] at h
  intro c hc
  rw [← List.takeWhile_append_dropWhile (p := isDigit) (l := cs)] at hc
  rcases List.mem_append.mp hc with hc | hc
  · exact digits_numberChar List.all_takeWhile c hc
  · exact tail_numberChar h.2 c hc

/-- How the text of a number begins. -/
lemma unsigned_head {cs : List Char} (h : isUnsigned cs) :
    ∃ c r, cs = c :: r ∧ isDigit c := by
  rcases cs with _ | ⟨c, r⟩
  · cases h
  · refine ⟨c, r, rfl, ?_⟩
    by_contra hc
    have hnil : (c :: r).takeWhile isDigit = [] := by
      rw [List.takeWhile_cons_of_neg hc]
    simp [isUnsigned, hnil, isInt] at h

lemma Number.numberChar_text (n : Number) : ∀ c ∈ n.text, numberChar c := by
  have h := n.isNumber_text
  unfold isNumber at h
  split at h
  · rename_i heq
    rw [heq]
    exact List.forall_mem_cons.mpr ⟨rfl, unsigned_numberChar h⟩
  · exact unsigned_numberChar h

lemma Number.head (n : Number) : ∃ c r, n.text = c :: r ∧ (c = '-' ∨ isDigit c) := by
  have h := n.isNumber_text
  unfold isNumber at h
  split at h
  · rename_i r heq
    exact ⟨'-', r, heq, .inl rfl⟩
  · obtain ⟨c, r, heq, hc⟩ := unsigned_head h
    exact ⟨c, r, heq, .inr hc⟩

/-! #### Values -/

mutual

lemma dumps_printable : ∀ {v : Json} {c : Char}, c ∈ dumps v → Printable c
  | .null, c, h => by
    simp only [dumps, List.mem_cons, List.not_mem_nil, or_false] at h
    rcases h with rfl | rfl | rfl | rfl <;> decide
  | .bool true, c, h => by
    simp only [dumps, List.mem_cons, List.not_mem_nil, or_false] at h
    rcases h with rfl | rfl | rfl | rfl <;> decide
  | .bool false, c, h => by
    simp only [dumps, List.mem_cons, List.not_mem_nil, or_false] at h
    rcases h with rfl | rfl | rfl | rfl | rfl <;> decide
  | .num n, c, h => numberChar_printable (n.numberChar_text c h)
  | .str s, c, h => dumpsString_printable h
  | .arr xs, c, h => by
    rw [dumps, List.mem_cons, List.mem_append, List.mem_singleton] at h
    rcases h with rfl | h | rfl
    · decide
    · exact dumpsElements_printable h
    · decide
  | .obj fields, c, h => by
    rw [dumps, List.mem_cons, List.mem_append, List.mem_singleton] at h
    rcases h with rfl | h | rfl
    · decide
    · exact dumpsMembers_printable h
    · decide

lemma dumpsElements_printable : ∀ {xs : List Json} {c : Char}, c ∈ dumpsElements xs → Printable c
  | [], c, h => by cases h
  | [x], c, h => dumps_printable h
  | x :: y :: xs, c, h => by
    rw [dumpsElements, List.mem_append, List.mem_cons, List.mem_cons] at h
    rcases h with h | rfl | rfl | h
    · exact dumps_printable h
    · decide
    · decide
    · exact dumpsElements_printable h

lemma dumpsMembers_printable :
    ∀ {fields : List (String × Json)} {c : Char}, c ∈ dumpsMembers fields → Printable c
  | [], c, h => by cases h
  | [(key, v)], c, h => by
    rw [dumpsMembers, List.mem_append, List.mem_cons, List.mem_cons] at h
    rcases h with h | rfl | rfl | h
    · exact dumpsString_printable h
    · decide
    · decide
    · exact dumps_printable h
  | (key, v) :: f :: fields, c, h => by
    rw [dumpsMembers, List.mem_append, List.mem_cons, List.mem_cons, List.mem_append,
      List.mem_cons, List.mem_cons] at h
    rcases h with h | rfl | rfl | h | rfl | rfl | h
    · exact dumpsString_printable h
    · decide
    · decide
    · exact dumps_printable h
    · decide
    · decide
    · exact dumpsMembers_printable h

end

/-! ### Strings are read back -/

lemma pad_four (n : ℕ) : ∃ a b c d, pad 16 4 n = [a, b, c, d] :=
  ⟨_, _, _, _, rfl⟩

/-- The escape of a unit that is no surrogate. -/
lemma readChars_unicode {n : ℕ} (h : n < 0xD800 ∨ 0xE000 ≤ n ∧ n < 0x10000) (r : List Char) :
    readChars (unicodeEscape n ++ r) =
      (readChars r).map fun p => (Char.ofNat n :: p.1, p.2) := by
  obtain ⟨a, b, c, d, hpad⟩ := pad_four n
  have hnum : numeral 16 [a, b, c, d] = some n := by
    rw [← hpad]
    exact numeral_pad (by omega) (by omega) (by omega)
  rw [unicodeEscape, hpad]
  simp only [List.cons_append, List.nil_append]
  rw [readChars.eq_2, hnum]
  simp only [Option.bind_eq_bind, Option.bind_some]
  rw [if_neg (by omega), if_neg (by omega)]
  rcases readChars r with _ | ⟨cs, r⟩ <;> rfl

/-- The escapes of two surrogates. -/
lemma readChars_pair {n : ℕ} (h : n < 0x100000) (r : List Char) :
    readChars (unicodeEscape (0xD800 + n / 1024) ++ (unicodeEscape (0xDC00 + n % 1024) ++ r)) =
      (readChars r).map fun p => (Char.ofNat (0x10000 + n) :: p.1, p.2) := by
  obtain ⟨a, b, c, d, hpad⟩ := pad_four (0xD800 + n / 1024)
  obtain ⟨a', b', c', d', hpad'⟩ := pad_four (0xDC00 + n % 1024)
  have hnum : numeral 16 [a, b, c, d] = some (0xD800 + n / 1024) := by
    rw [← hpad]
    exact numeral_pad (by omega) (by omega) (by omega)
  have hnum' : numeral 16 [a', b', c', d'] = some (0xDC00 + n % 1024) := by
    rw [← hpad']
    exact numeral_pad (by omega) (by omega) (by omega)
  rw [unicodeEscape, unicodeEscape, hpad, hpad']
  simp only [List.cons_append, List.nil_append]
  rw [readChars.eq_2, hnum]
  simp only [Option.bind_eq_bind, Option.bind_some]
  rw [if_pos (by omega), hnum']
  simp only [Option.bind_some]
  rw [if_pos (by omega)]
  have hsum : 0x10000 + (0xD800 + n / 1024 - 0xD800) * 1024 + (0xDC00 + n % 1024 - 0xDC00) =
      0x10000 + n := by omega
  rw [hsum]
  rcases readChars r with _ | ⟨cs, r⟩ <;> rfl

/-- **A character is read back** from how it is written. -/
lemma readChars_escape (c : Char) (r : List Char) :
    readChars (escape c ++ r) = (readChars r).map fun p => (c :: p.1, p.2) := by
  have hvalid := c.valid
  unfold escape
  rcases he : escapeDct c with _ | e <;> simp only
  · split_ifs with hplain hsmall
    · have hquote : c ≠ '"' := by
        rintro rfl
        cases he
      have hslash : c ≠ '\\' := by
        rintro rfl
        cases he
      rw [List.singleton_append, readChars.eq_4 c r hquote (fun _ _ _ _ _ h _ => hslash h)
        (fun _ _ h _ => hslash h), if_neg (by omega)]
      rcases readChars r with _ | ⟨cs, r⟩ <;> rfl
    · have hunit : c.toNat < 0xD800 ∨ 0xE000 ≤ c.toNat ∧ c.toNat < 0x10000 := by
        rcases hvalid with h | h
        · exact .inl h
        · exact .inr ⟨h.1, hsmall⟩
      rw [readChars_unicode hunit, Char.ofNat_toNat]
    · have hlt : c.toNat < 0x110000 := by
        rcases hvalid with h | h
        · exact Nat.lt_trans h (by decide)
        · exact h.2
      rw [List.append_assoc, readChars_pair (by omega)]
      rw [show 0x10000 + (c.toNat - 0x10000) = c.toNat by omega, Char.ofNat_toNat]
  · obtain ⟨-, hu, hback⟩ := unescape_escapeDct he
    rw [List.cons_append, List.singleton_append, readChars.eq_3 e r (fun _ _ _ _ _ h _ => hu h),
      hback]
    rcases readChars r with _ | ⟨cs, r⟩ <;> rfl

lemma readChars_flatMap (cs r : List Char) :
    readChars (cs.flatMap escape ++ '"' :: r) = some (cs, r) := by
  induction cs with
  | nil => simp [readChars]
  | cons c cs ih => rw [List.flatMap_cons, List.append_assoc, readChars_escape, ih]; rfl

lemma skipBlanks_cons {c : Char} (h : isBlank c = false) (r : List Char) :
    skipBlanks (c :: r) = c :: r := by
  rw [skipBlanks, List.dropWhile_cons_of_neg (by simp [h])]

lemma readString_dumps (s : String) (r : List Char) :
    readString (dumpsString s ++ r) = some (s, r) := by
  have hchars := readChars_flatMap s.toList r
  rw [dumpsString, List.cons_append, List.append_assoc, List.singleton_append, readString,
    skipBlanks_cons rfl]
  simp only [hchars, Option.bind_eq_bind, Option.bind_some, String.ofList_toList]
  rfl

/-! ### Values are read back -/

/-- What follows does not go on with a number. -/
def Ends (r : List Char) : Prop := ∀ c ∈ r.head?, numberChar c = false

lemma ends_cons {c : Char} (h : numberChar c = false) (r : List Char) : Ends (c :: r) := by
  simpa [Ends] using h

lemma takeWhile_number {n : Number} {r : List Char} (h : Ends r) :
    (n.text ++ r).takeWhile numberChar = n.text ∧ (n.text ++ r).dropWhile numberChar = r := by
  have hnil : r.takeWhile numberChar = [] ∧ r.dropWhile numberChar = r := by
    rcases r with _ | ⟨c, r⟩
    · exact ⟨rfl, rfl⟩
    · have hc : numberChar c = false := h c (by simp)
      exact ⟨List.takeWhile_cons_of_neg (by simp [hc]), List.dropWhile_cons_of_neg (by simp [hc])⟩
  rw [List.takeWhile_append_of_pos n.numberChar_text, List.dropWhile_append_of_pos
    n.numberChar_text, hnil.1, hnil.2]
  exact ⟨List.append_nil _, rfl⟩

lemma readNumber_text (n : Number) {r : List Char} (h : Ends r) :
    readNumber (n.text ++ r) = some (.num n, r) := by
  obtain ⟨htake, hdrop⟩ := takeWhile_number (n := n) h
  unfold readNumber
  simp only [htake, hdrop]
  rw [dif_pos n.isNumber_text]

mutual

/-- How many steps the reader takes for a value at most. -/
def steps : Json → ℕ
  | .arr xs => 1 + stepsElements xs
  | .obj fields => 1 + stepsMembers fields
  | _ => 1

def stepsElements : List Json → ℕ
  | [] => 0
  | x :: xs => 1 + steps x + stepsElements xs

def stepsMembers : List (String × Json) → ℕ
  | [] => 0
  | (_, v) :: fields => 1 + steps v + stepsMembers fields

end

/-- A value that begins with none of the other tokens is a number. -/
lemma readValue_number {c : Char} (h : c = '-' ∨ isDigit c) (fuel : ℕ) (r : List Char) :
    readValue (fuel + 1) (c :: r) = readNumber (c :: r) := by
  have hrange : c.toNat = 45 ∨ 48 ≤ c.toNat ∧ c.toNat ≤ 57 := by
    rcases h with rfl | h
    · exact .inl rfl
    · exact .inr (isDigit_iff.mp h)
  have hblank : isBlank c = false := by
    simp only [isBlank, Bool.or_eq_false_iff, decide_eq_false_iff_not]
    refine ⟨⟨⟨?_, ?_⟩, ?_⟩, ?_⟩ <;> rintro rfl <;> revert hrange <;> decide
  rw [readValue, skipBlanks_cons hblank]
  split <;> rename_i heq <;> first
    | rfl
    | obtain ⟨rfl, -⟩ := List.cons.inj heq
      exact absurd hrange (by decide)

lemma readValue_str (s : String) (fuel : ℕ) (r : List Char) :
    readValue (fuel + 1) (dumpsString s ++ r) = some (.str s, r) := by
  have hchars := readChars_flatMap s.toList r
  rw [dumpsString, List.cons_append, List.append_assoc, List.singleton_append, readValue,
    skipBlanks_cons rfl]
  simp only [hchars, Option.bind_eq_bind, Option.bind_some, String.ofList_toList]
  rfl

/-- An array that is not closed at once has elements. -/
lemma readValue_arr {c : Char} (hblank : isBlank c = false) (hne : c ≠ ']') (fuel : ℕ)
    (r : List Char) : readValue (fuel + 1) ('[' :: c :: r) =
      (readElements fuel (c :: r)).map fun p => (.arr p.1, p.2) := by
  rw [readValue, skipBlanks_cons rfl]
  simp only
  rw [skipBlanks_cons hblank]
  split
  · rename_i heq
    exact absurd (List.cons.inj heq).1 hne
  · rcases readElements fuel (c :: r) with _ | ⟨xs, r⟩ <;> rfl

lemma readValue_obj {c : Char} (hblank : isBlank c = false) (hne : c ≠ '\x7d') (fuel : ℕ)
    (r : List Char) : readValue (fuel + 1) ('\x7b' :: c :: r) =
      (readMembers fuel (c :: r)).map fun p => (.obj p.1, p.2) := by
  rw [readValue, skipBlanks_cons rfl]
  simp only
  rw [skipBlanks_cons hblank]
  split
  · rename_i heq
    exact absurd (List.cons.inj heq).1 hne
  · rcases readMembers fuel (c :: r) with _ | ⟨fields, r⟩ <;> rfl

/-- A value begins with neither a blank nor the end of an array. -/
lemma dumps_head (v : Json) : ∃ c r, dumps v = c :: r ∧ isBlank c = false ∧ c ≠ ']' := by
  cases v with
  | null => exact ⟨_, _, rfl, rfl, by decide⟩
  | bool b => cases b <;> exact ⟨_, _, rfl, rfl, by decide⟩
  | str s => exact ⟨_, _, rfl, rfl, by decide⟩
  | arr xs => exact ⟨_, _, rfl, rfl, by decide⟩
  | obj fields => exact ⟨_, _, rfl, rfl, by decide⟩
  | num n =>
    obtain ⟨c, r, heq, hc⟩ := n.head
    refine ⟨c, r, heq, ?_, ?_⟩
    · rcases hc with rfl | hc
      · rfl
      · have hrange := isDigit_iff.mp hc
        simp only [isBlank, Bool.or_eq_false_iff, decide_eq_false_iff_not]
        refine ⟨⟨⟨?_, ?_⟩, ?_⟩, ?_⟩ <;> rintro rfl <;> exact absurd hrange (by decide)
    · rintro rfl
      rcases hc with hc | hc
      · exact absurd hc (by decide)
      · exact absurd (isDigit_iff.mp hc) (by decide)

lemma dumpsElements_head (x : Json) (xs : List Json) :
    ∃ c r, dumpsElements (x :: xs) = c :: r ∧ isBlank c = false ∧ c ≠ ']' := by
  obtain ⟨c, r, heq, hblank, hne⟩ := dumps_head x
  rcases xs with _ | ⟨y, xs⟩
  · exact ⟨c, r, heq, hblank, hne⟩
  · exact ⟨c, r ++ _, by rw [dumpsElements, heq]; rfl, hblank, hne⟩

lemma dumpsMembers_head (f : String × Json) (fields : List (String × Json)) :
    ∃ r, dumpsMembers (f :: fields) = '"' :: r := by
  rcases fields with _ | ⟨g, fields⟩
  · exact ⟨_, rfl⟩
  · exact ⟨_, rfl⟩

lemma skipBlanks_blank (cs : List Char) : skipBlanks (' ' :: cs) = skipBlanks cs := rfl

lemma readValue_blank (n : ℕ) (cs : List Char) : readValue n (' ' :: cs) = readValue n cs := by
  rcases n with _ | n
  · rfl
  · rw [readValue, readValue, skipBlanks_blank]

lemma readElements_blank (n : ℕ) (cs : List Char) :
    readElements n (' ' :: cs) = readElements n cs := by
  rcases n with _ | n
  · rfl
  · rw [readElements, readElements, readValue_blank]

lemma readMembers_blank (n : ℕ) (cs : List Char) :
    readMembers n (' ' :: cs) = readMembers n cs := by
  rcases n with _ | n
  · rfl
  · rw [readMembers, readMembers, readString, readString, skipBlanks_blank]

mutual

/-- **Values are read back**, whatever follows them that is no number. -/
theorem readValue_dumps : ∀ (v : Json) {n : ℕ} {r : List Char}, steps v ≤ n → Ends r →
    readValue n (dumps v ++ r) = some (v, r)
  | v, 0, r, hn, _ => by cases v <;> simp [steps] at hn
  | .null, n + 1, r, _, _ => rfl
  | .bool true, n + 1, r, _, _ => rfl
  | .bool false, n + 1, r, _, _ => rfl
  | .str s, n + 1, r, _, _ => readValue_str s n r
  | .num k, n + 1, r, _, hr => by
    obtain ⟨c, t, heq, hc⟩ := k.head
    have hread := readNumber_text k hr
    rw [dumps, heq] at *
    rw [List.cons_append] at hread ⊢
    rw [readValue_number hc, hread]
  | .arr [], n + 1, r, _, _ => rfl
  | .arr (x :: xs), n + 1, r, hn, _ => by
    obtain ⟨c, t, heq, hblank, hne⟩ := dumpsElements_head x xs
    have hread : readElements n (dumpsElements (x :: xs) ++ ']' :: r) = some (x :: xs, r) :=
      readElements_dumps x xs (by rw [steps] at hn; omega)
    rw [dumps, List.cons_append, List.append_assoc, List.singleton_append]
    rw [heq, List.cons_append] at hread ⊢
    rw [readValue_arr hblank hne, hread]
    rfl
  | .obj [], n + 1, r, _, _ => rfl
  | .obj (f :: fields), n + 1, r, hn, _ => by
    obtain ⟨t, heq⟩ := dumpsMembers_head f fields
    have hread : readMembers n (dumpsMembers (f :: fields) ++ '\x7d' :: r) =
        some (f :: fields, r) := readMembers_dumps f fields (by rw [steps] at hn; omega)
    rw [dumps, List.cons_append, List.append_assoc, List.singleton_append]
    rw [heq, List.cons_append] at hread ⊢
    rw [readValue_obj rfl (by decide), hread]
    rfl

theorem readElements_dumps : ∀ (x : Json) (xs : List Json) {n : ℕ} {r : List Char},
    stepsElements (x :: xs) ≤ n →
    readElements n (dumpsElements (x :: xs) ++ ']' :: r) = some (x :: xs, r)
  | x, xs, 0, r, hn => by simp [stepsElements] at hn
  | x, [], n + 1, r, hn => by
    have hx : readValue n (dumps x ++ ']' :: r) = some (x, ']' :: r) :=
      readValue_dumps x (by simp only [stepsElements] at hn; omega) (ends_cons rfl r)
    rw [dumpsElements, readElements, hx]
    rfl
  | x, y :: xs, n + 1, r, hn => by
    have hx : ∀ t, readValue n (dumps x ++ ',' :: t) = some (x, ',' :: t) := fun t =>
      readValue_dumps x (by simp only [stepsElements] at hn; omega) (ends_cons rfl t)
    have hxs : readElements n (dumpsElements (y :: xs) ++ ']' :: r) = some (y :: xs, r) :=
      readElements_dumps y xs (by simp only [stepsElements] at hn ⊢; omega)
    rw [dumpsElements, List.append_assoc, List.cons_append, List.cons_append, readElements, hx]
    simp only [Option.bind_eq_bind, Option.bind_some]
    rw [skipBlanks_cons rfl]
    simp only [readElements_blank, hxs]
    rfl

theorem readMembers_dumps : ∀ (f : String × Json) (fields : List (String × Json)) {n : ℕ}
    {r : List Char}, stepsMembers (f :: fields) ≤ n →
    readMembers n (dumpsMembers (f :: fields) ++ '\x7d' :: r) = some (f :: fields, r)
  | f, fields, 0, r, hn => by simp [stepsMembers] at hn
  | (key, v), [], n + 1, r, hn => by
    have hv : readValue n (dumps v ++ '\x7d' :: r) = some (v, '\x7d' :: r) :=
      readValue_dumps v (by simp only [stepsMembers] at hn; omega) (ends_cons rfl r)
    rw [dumpsMembers, List.append_assoc, readMembers, readString_dumps]
    simp only [Option.bind_eq_bind, Option.bind_some, List.cons_append]
    rw [skipBlanks_cons rfl]
    simp only [readValue_blank, hv]
    rfl
  | (key, v), g :: fields, n + 1, r, hn => by
    have hv : ∀ t, readValue n (dumps v ++ ',' :: t) = some (v, ',' :: t) := fun t =>
      readValue_dumps v (by simp only [stepsMembers] at hn; omega) (ends_cons rfl t)
    have hfields : readMembers n (dumpsMembers (g :: fields) ++ '\x7d' :: r) =
        some (g :: fields, r) :=
      readMembers_dumps g fields (by simp only [stepsMembers] at hn ⊢; omega)
    rw [dumpsMembers, List.append_assoc, readMembers, readString_dumps]
    simp only [Option.bind_eq_bind, Option.bind_some, List.cons_append, List.append_assoc]
    rw [skipBlanks_cons rfl]
    simp only [readValue_blank, hv, Option.bind_some]
    rw [skipBlanks_cons rfl]
    simp only [readMembers_blank, hfields]
    rfl

end

mutual

/-- The length of a text covers the steps of its value. -/
lemma steps_le : ∀ v : Json, steps v ≤ (dumps v).length
  | .null => by decide
  | .bool true => by decide
  | .bool false => by decide
  | .str s => by simp [steps, dumps, dumpsString]
  | .num k => by
    obtain ⟨c, r, heq, -⟩ := k.head
    simp [steps, dumps, heq]
  | .arr xs => by
    have := stepsElements_le xs
    simp only [steps, dumps, List.length_cons, List.length_append, List.length_nil]
    omega
  | .obj fields => by
    have := stepsMembers_le fields
    simp only [steps, dumps, List.length_cons, List.length_append, List.length_nil]
    omega

lemma stepsElements_le : ∀ xs : List Json, stepsElements xs ≤ (dumpsElements xs).length + 1
  | [] => by simp [stepsElements]
  | [x] => by
    have := steps_le x
    simp only [stepsElements, dumpsElements]
    omega
  | x :: y :: xs => by
    have := steps_le x
    have := stepsElements_le (y :: xs)
    simp only [stepsElements, dumpsElements, List.length_append, List.length_cons] at *
    omega

lemma stepsMembers_le :
    ∀ fields : List (String × Json), stepsMembers fields ≤ (dumpsMembers fields).length + 1
  | [] => by simp [stepsMembers]
  | [(key, v)] => by
    have := steps_le v
    simp only [stepsMembers, dumpsMembers, List.length_append, List.length_cons]
    omega
  | (key, v) :: g :: fields => by
    have := steps_le v
    have := stepsMembers_le (g :: fields)
    simp only [stepsMembers, dumpsMembers, List.length_append, List.length_cons] at *
    omega

end

/-- **Round trip.** A text is read back as the value it was written for, and blanks after it do
not matter. -/
theorem loads_dumps (v : Json) {blanks : List Char} (h : ∀ c ∈ blanks, isBlank c) :
    loads (dumps v ++ blanks) = some v := by
  have hends : Ends blanks := by
    rcases blanks with _ | ⟨c, r⟩
    · simp [Ends]
    · refine ends_cons ?_ r
      have hc := h c List.mem_cons_self
      simp only [isBlank, Bool.or_eq_true, decide_eq_true_eq] at hc
      rcases hc with ((rfl | rfl) | rfl) | rfl <;> rfl
  have hread : readValue (dumps v ++ blanks).length (dumps v ++ blanks) = some (v, blanks) :=
    readValue_dumps v ((steps_le v).trans (by simp)) hends
  have hskip : skipBlanks blanks = [] := by simpa [skipBlanks, List.dropWhile_eq_nil_iff] using h
  unfold loads
  rw [hread]
  simp [hskip]

/-! ### Natural numbers and fields -/

lemma toDigits_isDigit (n : ℕ) : (Nat.toDigits 10 n).all isDigit := by
  rw [List.all_eq_true]
  intro c hc
  have h := Nat.isDigit_of_mem_toDigits (by omega) (by omega) hc
  simp only [Char.isDigit, Bool.and_eq_true, decide_eq_true_eq, UInt32.le_iff_toNat_le] at h
  exact isDigit_iff.mpr h

/-- Only zero begins with a zero. -/
lemma toDigits_head {n : ℕ} (h : 0 < n) : ∃ c cs, Nat.toDigits 10 n = c :: cs ∧ c ≠ '0' := by
  induction n using Nat.strong_induction_on with
  | _ n ih =>
    rcases Nat.lt_or_ge n 10 with hlt | hge
    · refine ⟨n.digitChar, [], Nat.toDigits_of_lt_base hlt, ?_⟩
      have : ∀ n < 10, 0 < n → Nat.digitChar n ≠ '0' := by decide
      exact this n hlt h
    · obtain ⟨c, cs, heq, hc⟩ := ih (n / 10) (by omega) (by omega)
      refine ⟨c, cs ++ [(n % 10).digitChar], ?_, hc⟩
      rw [Nat.toDigits_of_base_le (by omega) hge, heq, List.cons_append]

lemma isInt_toDigits (n : ℕ) : isInt (Nat.toDigits 10 n) := by
  rcases Nat.eq_zero_or_pos n with rfl | h
  · rfl
  · obtain ⟨c, cs, heq, hc⟩ := toDigits_head h
    have hdigits := toDigits_isDigit n
    rw [heq] at hdigits ⊢
    rw [List.all_cons, Bool.and_eq_true] at hdigits
    simp [isInt, hdigits, hc]

lemma isUnsigned_toDigits (n : ℕ) : isUnsigned (Nat.toDigits 10 n) := by
  have hdigits := List.all_eq_true.mp (toDigits_isDigit n)
  have htake : (Nat.toDigits 10 n).takeWhile isDigit = Nat.toDigits 10 n :=
    List.takeWhile_eq_self_iff.mpr hdigits
  have hdrop : (Nat.toDigits 10 n).dropWhile isDigit = [] := List.dropWhile_eq_nil_iff.mpr hdigits
  rw [isUnsigned, htake, hdrop, isInt_toDigits]
  rfl

/-- `int.__repr__`, for what is not negative. -/
def Number.ofNat (n : ℕ) : Number where
  text := Nat.toDigits 10 n
  isNumber_text := by
    unfold isNumber
    split
    · rename_i r heq
      have hminus := toDigits_isDigit n
      rw [heq] at hminus
      simp [isDigit, digitBelow, digit] at hminus
    · exact isUnsigned_toDigits n

/-- The natural number that the text is, if it has digits only. -/
def Number.toNat? (n : Number) : Option ℕ :=
  if n.text.all isDigit then some (Nat.ofDigitChars 10 n.text 0) else none

@[simp] lemma Number.toNat?_ofNat (n : ℕ) : (Number.ofNat n).toNat? = some n := by
  have hdigits : (Number.ofNat n).text.all isDigit = true := toDigits_isDigit n
  unfold Number.toNat?
  rw [if_pos hdigits]
  exact congrArg some Nat.ofDigitChars_ten_toDigits

/-- `$1:key`: the field of an object. -/
def Json.get (v : Json) (key : String) : Option Json :=
  match v with
  | .obj fields => fields.lookup key
  | _ => none

/-! ### One value a line -/

/-- `os.linesep`, which a text file puts for each line feed that is written to it. -/
inductive Newline
  | lf
  | crlf
  deriving DecidableEq

def Newline.chars : Newline → List Char
  | .lf => ['\n']
  | .crlf => ['\r', '\n']

/-- The text of a file to which values were written one a line. -/
def ndjson (newline : Newline) (vs : List Json) : List Char :=
  vs.flatMap fun v => dumps v ++ newline.chars

/-- A reader of newline-delimited JSON: blank lines count for nothing. -/
def readLines (text : List Char) : Option (List Json) :=
  ((text.splitOn '\n').filter fun line => !line.all isBlank).mapM loads

/-- What a line has before its line feed. -/
def Newline.rest : Newline → List Char
  | .lf => []
  | .crlf => ['\r']

lemma splitOn_line {line : List Char} (h : '\n' ∉ line) (text : List Char) :
    (line ++ '\n' :: text).splitOn '\n' = line :: text.splitOn '\n' := by
  have hsingle : line.splitOn '\n' = [line] :=
    List.splitOnP_eq_singleton fun c hc => beq_false_of_ne fun hfeed => h (hfeed ▸ hc)
  rw [Text.splitOn_append, hsingle, List.singleton_append]

lemma ndjson_cons (newline : Newline) (v : Json) (vs : List Json) :
    (ndjson newline (v :: vs)).splitOn '\n' =
      (dumps v ++ newline.rest) :: (ndjson newline vs).splitOn '\n' := by
  have hline : '\n' ∉ dumps v ++ newline.rest := by
    intro h
    rcases List.mem_append.mp h with h | h
    · exact absurd (dumps_printable h) (by decide)
    · cases newline <;> simp [Newline.rest] at h
  have hchars : newline.chars = newline.rest ++ ['\n'] := by cases newline <;> rfl
  have hcons : ndjson newline (v :: vs) = dumps v ++ newline.chars ++ ndjson newline vs :=
    List.flatMap_cons
  rw [hcons, hchars, ← List.append_assoc, List.append_assoc, List.singleton_append,
    splitOn_line hline]

/-- **A line for each value, and back**: the lines of the file are read as the values that were
written, whatever their strings hold. -/
theorem readLines_ndjson (newline : Newline) (vs : List Json) :
    readLines (ndjson newline vs) = some vs := by
  induction vs with
  | nil => rfl
  | cons v vs ih =>
    obtain ⟨c, r, heq, hblank, -⟩ := dumps_head v
    have hline : (dumps v ++ newline.rest).all isBlank = false := by simp [heq, hblank]
    have hrest : ∀ c ∈ newline.rest, isBlank c := by cases newline <;> simp [Newline.rest, isBlank]
    unfold readLines at ih ⊢
    rw [ndjson_cons, List.filter_cons_of_pos (by simp [hline]), List.mapM_cons,
      loads_dumps v hrest, ih]
    rfl

end MongoSyncAgent.JsonText
