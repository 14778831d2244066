import MongoSyncAgent.Timestamps
import Mathlib.Algebra.Ring.Int.Defs
import Mathlib.Data.List.Sort

/-!
What the agent sees of MongoDB: documents, ObjectIds, and the filters and the sort it asks for.
-/

namespace MongoSyncAgent.Bson

open MongoSyncAgent.Py MongoSyncAgent.Numerals MongoSyncAgent.Timestamps

/-! ### ObjectIds -/

/-- Twelve bytes, the big-endian second of generation first. -/
@[ext] structure ObjectId where
  val : ℕ
  val_lt : val < 2 ^ 96
  deriving DecidableEq

/-- The instant of the start of 1970, in microseconds. -/
def epoch : ℕ := 62135596800000000

namespace ObjectId

/-- The generation second. -/
def seconds (o : ObjectId) : ℕ := o.val / 2 ^ 64

/-- The low eight bytes. -/
def low (o : ObjectId) : ℕ := o.val % 2 ^ 64

lemma seconds_lt (o : ObjectId) : o.seconds < 2 ^ 32 := by
  have := o.val_lt
  unfold seconds
  omega

lemma val_eq (o : ObjectId) : o.val = o.seconds * 2 ^ 64 + o.low := by
  unfold seconds low
  omega

lemma low_lt (o : ObjectId) : o.low < 2 ^ 64 := by
  unfold low
  omega

/-- `str(oid)`: 24 hex digits. -/
def str (o : ObjectId) : String := String.ofList (pad 16 24 o.val)

/-- `ObjectId(text)`, as it is documented: 24 hex digits are one, and any other text is an
`InvalidId`. -/
def ofStr (text : String) : Except Exc ObjectId :=
  if hl : text.toList.length = 24 then
    match h : numeral 16 text.toList with
    | some v => .ok ⟨v, by have := numeral_lt h; rw [hl] at this; omega⟩
    | none => raise .invalidId (text ++ " is not a valid ObjectId")
  else raise .invalidId (text ++ " is not a valid ObjectId")

/-- **An ObjectId reads back** from its hex string. -/
theorem ofStr_str (o : ObjectId) : ofStr o.str = .ok o := by
  have hl : o.str.toList.length = 24 := by simp [str]
  have hn : numeral 16 o.str.toList = some o.val := by
    rw [str, String.toList_ofList]
    exact numeral_pad (by omega) (by omega) (by have := o.val_lt; omega)
  unfold ofStr
  rw [dif_pos hl]
  split
  · rename_i v hv
    rw [hn] at hv
    obtain rfl := Option.some.inj hv
    rfl
  · rename_i hv
    rw [hn] at hv
    cases hv

/-- Hex strings compare as the ObjectIds do. -/
lemma str_lt {a b : ObjectId} (h : a.val < b.val) : a.str < b.str := by
  rw [str, str, String.lt_iff, String.toList_ofList, String.toList_ofList]
  exact pad_lt (by omega) (by omega) (by have := b.val_lt; omega) h

lemma str_lt_iff {a b : ObjectId} : a.str < b.str ↔ a.val < b.val := by
  refine ⟨fun h => ?_, str_lt⟩
  by_contra hge
  rcases Nat.lt_or_ge b.val a.val with hlt | hle
  · exact String.lt_asymm h (str_lt hlt)
  · obtain rfl : a = b := ObjectId.ext (Nat.le_antisymm hle (Nat.not_lt.mp hge))
    exact String.lt_irrefl _ h

/-- `oid.generation_time`. -/
def generationTime (o : ObjectId) : Datetime where
  wall := epoch + o.seconds * 1000000
  tzinfo := some 0
  wall_lt := by
    have := o.seconds_lt
    unfold epoch wallLimit
    omega

/-- `ObjectId.from_datetime(dt)`: the second of the instant, then eight zero bytes. -/
def fromDatetime (d : Datetime) : Except Exc ObjectId :=
  let secs := (d.instant - epoch) / 1000000
  if h : 0 ≤ secs ∧ secs < 2 ^ 32 then .ok ⟨secs.toNat * 2 ^ 64, by omega⟩
  else raise .structError "argument out of range"

lemma generationTime_instant (o : ObjectId) :
    o.generationTime.instant = epoch + o.seconds * 1000000 := by
  simp [Datetime.instant, generationTime]

lemma fromDatetime_ok {d : Datetime} {o : ObjectId} (h : fromDatetime d = .ok o) :
    (o.val : ℤ) = (d.instant - epoch) / 1000000 * 2 ^ 64 := by
  simp only [fromDatetime] at h
  split_ifs at h with hsecs
  · obtain rfl := Except.ok.inj h
    show ((((d.instant - epoch) / 1000000).toNat * 2 ^ 64 : ℕ) : ℤ) = _
    omega
  · cases h

end ObjectId

/-! ### Documents -/

inductive Value
  | null
  | bool (b : Bool)
  | int (n : ℤ)
  | str (s : String)
  | oid (o : ObjectId)
  | date (d : Datetime)
  | doc (fields : List (String × Value))

abbrev Doc := List (String × Value)

/-- `doc.get(field)`. -/
def get (d : Doc) (field : String) : Option Value := d.lookup field

/-- The value at a path of field names, descending into embedded documents. -/
def lookupPath : List String → Doc → Option Value
  | [], _ => none
  | [k], d => d.lookup k
  | k :: ks, d =>
    match d.lookup k with
    | some (.doc d') => lookupPath ks d'
    | _ => none

/-- The names of a dotted field. -/
def path (field : String) : List String := (field.toList.splitOn '.').map String.ofList

/-- MongoDB's lookup of a field that a filter names. -/
def lookup (field : String) (d : Doc) : Option Value := lookupPath (path field) d

/-- A field without dots is a field of the document itself. -/
lemma lookup_eq_get {field : String} (h : '.' ∉ field.toList) (d : Doc) :
    lookup field d = get d field := by
  have hsplit : field.toList.splitOn '.' = [field.toList] :=
    List.splitOnP_eq_singleton fun c hc => beq_false_of_ne fun hdot => h (hdot ▸ hc)
  have hpath : path field = [field] := by
    rw [path, hsplit, List.map_singleton, String.ofList_toList]
  rw [lookup, hpath]
  rfl

def Value.number : Value → Option ℤ
  | .bool b => some b.toInt
  | .int n => some n
  | _ => none

/-- `a > b` in Python; values of different kinds do not compare. -/
def pyGt : Value → Value → Except Exc Bool
  | .oid a, .oid b => .ok (b.val < a.val)
  | .str a, .str b => .ok (b < a)
  | .date a, .date b => Datetime.gt a b
  | a, b =>
    match a.number, b.number with
    | some m, some n => .ok (n < m)
    | _, _ => raise .typeError "'>' not supported between instances of these types"

/-- `str(value)`, where `text` gives the texts of dates and embedded documents. -/
def pyStr (text : Value → String) : Value → String
  | .null => "None"
  | .bool b => if b then "True" else "False"
  | .int n => toString n
  | .str s => s
  | .oid o => o.str
  | v => text v

/-! ### Filters -/

inductive Filter
  /-- `{}` -/
  | all
  /-- `{"_id": {"$gt": bound}}` -/
  | idGt (bound : ObjectId)
  /-- `{field: {"$gte": bound}}` -/
  | fieldGte (field : String) (bound : Datetime)
  deriving DecidableEq

/-- The milliseconds of a BSON date. -/
def millis (d : Datetime) : ℤ := d.instant / 1000

/-- What MongoDB matches: a comparison only matches values of the kind of its bound. -/
def Filter.matches : Filter → Doc → Bool
  | .all, _ => true
  | .idGt bound, d =>
    match lookup "_id" d with
    | some (.oid o) => bound.val < o.val
    | _ => false
  | .fieldGte field bound, d =>
    match lookup field d with
    | some (.date t) => millis bound ≤ millis t
    | _ => false

/-! ### The ascending sort on `_id` -/

/-- The place of a kind in the BSON order. -/
def kindRank : Option Value → ℕ
  | none => 0
  | some .null => 0
  | some (.int _) => 1
  | some (.str _) => 2
  | some (.doc _) => 3
  | some (.oid _) => 4
  | some (.bool _) => 5
  | some (.date _) => 6

/-- The BSON order; embedded documents are left as they come. -/
def bsonLe (a b : Option Value) : Bool :=
  kindRank a < kindRank b || kindRank a = kindRank b &&
    match a, b with
    | some (.int m), some (.int n) => m ≤ n
    | some (.str s), some (.str t) => ¬ t < s
    | some (.oid o), some (.oid p) => o.val ≤ p.val
    | some (.bool x), some (.bool y) => x ≤ y
    | some (.date d), some (.date e) => millis d ≤ millis e
    | _, _ => true

end MongoSyncAgent.Bson
