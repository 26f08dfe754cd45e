import TinyScript.Text.Basic

/-!
# Hash tables

A table is an array of rows; a key sits in the row that its hash selects, behind the keys put there before it. Going
through a table visits row after row.

When a table gets too full it grows by a factor, in one pass over all rows. Each entry carries the generation it was
placed in, and only entries of the old generation are moved. The number of rows is multiplied as a signed word of 64
bits, which wraps around. A product that cannot be the length of an array is refused; any other is the new number of
rows, even if it is smaller than the old one or zero.
-/

namespace TinyScript

/-- The two generations of placement, used in turn. -/
inductive Generation where
  | a
  | b
  deriving DecidableEq, Inhabited, Repr

namespace Generation

def flip : Generation → Generation
  | a => b
  | b => a

def name : Generation → Text
  | a => "A"
  | b => "B"

end Generation

/-- The hash of a text: byte by byte, exclusive-or with the byte as a signed number, a multiplication
and a mix of the high bits into the low ones. -/
def hashText (t : Text) : UInt64 :=
  t.bytes.foldl (fun h b =>
    let h := h ^^^ b.toInt8.toInt64.toUInt64
    let h := h * 0x5bd1e9955bd1e995
    h ^^^ (h >>> 47)) 525201411107845655

/-- One entry of a table. -/
structure Entry (α : Type) where
  key : Text
  value : α
  /-- The generation in which the entry was placed. -/
  generation : Generation
  deriving Inhabited, Repr

/-- The most rows that there can be: as many as an address space of 48 bits has references. -/
def rowLimit : Nat := 0x200000000000

/-- A table from texts to values. -/
structure Table (α : Type) where
  /-- The rows, each with its entries in order. -/
  rows : Array (List (Entry α))
  count : Nat
  /-- The number of entries that the rows are meant for. -/
  capacity : Int
  generation : Generation
  autoGrow : Bool
  fits : rows.size ≤ rowLimit
  deriving Repr

/-- What happened when a table grew. -/
structure Growth where
  entries : Nat
  before : Nat
  after : Int
  deriving DecidableEq, Inhabited, Repr

def Growth.message (g : Growth) : Text :=
  "hashmap grow: objects=" ++ Text.ofNat g.entries ++ " rows " ++ Text.ofNat g.before ++ " -> "
    ++ Text.ofInt g.after

namespace Table

variable {α : Type}

/-- The number of rows of a table for which none is given. -/
def defaultRows : Nat := 20

/-- The capacity of a table for which none is given. -/
def defaultCapacity : Int := 200

/-- The factor by which a table grows by itself. -/
def growthFactor : Int := 10

/-- A table of empty rows. -/
def ofRows (n : Nat) (h : n ≤ rowLimit) (capacity : Int) (autoGrow : Bool) : Table α where
  rows := Array.replicate n []
  count := 0
  capacity := capacity
  generation := .a
  autoGrow := autoGrow
  fits := by rw [Array.size_replicate]; exact h

/-- An empty table of the default size that grows by itself. -/
def empty : Table α := ofRows defaultRows (by decide) defaultCapacity true

instance : Inhabited (Table α) := ⟨empty⟩

/-- An empty table, unless there cannot be so many rows; a number of rows or a capacity below one stands
for the default. -/
def new? (rows capacity : Int) (autoGrow : Bool) : Option (Table α) :=
  let n := if rows < 1 then defaultRows else rows.toNat
  if h : n ≤ rowLimit then
    some (ofRows n h (if capacity < 1 then defaultCapacity else capacity) autoGrow)
  else none

/-- The row that a key belongs to. -/
def index (t : Table α) (key : Text) : Nat := (hashText key).toNat % t.rows.size

/-- The entries of a row; none if there is no such row. -/
def row (t : Table α) (i : Nat) : List (Entry α) := t.rows.getD i []

/-- The entries in the row of a key. -/
def chain (t : Table α) (key : Text) : List (Entry α) := t.row (t.index key)

/-- All entries, row by row. -/
def entries (t : Table α) : List (Entry α) := t.rows.toList.flatten

/-- All keys with their values, row by row. -/
def toList (t : Table α) : List (Text × α) := t.entries.map fun e => (e.key, e.value)

def keys (t : Table α) : List Text := t.entries.map Entry.key

def get? (t : Table α) (key : Text) : Option α :=
  ((t.chain key).find? fun e => e.key = key).map Entry.value

def contains (t : Table α) (key : Text) : Bool := (t.chain key).any fun e => e.key = key

/-! ## Growing -/

def modifyRow (t : Table α) (i : Nat) (f : List (Entry α) → List (Entry α)) : Table α :=
  { t with
    rows := t.rows.modify i f
    fits := by rw [Array.size_modify]; exact t.fits }

/-- Add an entry at the end of the row of its key. -/
def append (t : Table α) (e : Entry α) : Table α := t.modifyRow (t.index e.key) (· ++ [e])

/-- Move an entry of the old generation to the end of its row. -/
def place (t : Table α) (e : Entry α) : Table α := t.append { e with generation := t.generation }

/-- How many entries of a row are of the old generation. -/
def staleIn (t : Table α) (i : Nat) : Nat := (t.row i).countP fun e => e.generation ≠ t.generation

theorem row_modifyRow (t : Table α) (i j : Nat) (f : List (Entry α) → List (Entry α)) :
    (t.modifyRow i f).row j = if i = j ∧ j < t.rows.size then f (t.row j) else t.row j := by
  simp only [row, modifyRow, Array.getD_eq_getD_getElem?, Array.getElem?_modify]
  by_cases hj : j < t.rows.size
  · by_cases hij : i = j <;> simp [hij, hj]
  · by_cases hij : i = j <;> simp [hij, hj]

/-- Placing an entry leaves no more of the old generation behind. -/
theorem staleIn_place (t : Table α) (e : Entry α) (i : Nat) : (t.place e).staleIn i = t.staleIn i := by
  have hgen : (t.place e).generation = t.generation := rfl
  rw [staleIn, staleIn, hgen, place, append, row_modifyRow]
  split
  · simp
  · rfl

theorem countP_eraseIdx {l : List (Entry α)} {p : Entry α → Bool} {k : Nat} {e : Entry α}
    (h : l[k]? = some e) (he : p e) : (l.eraseIdx k).countP p + 1 = l.countP p := by
  induction l generalizing k with
  | nil => cases h
  | cons e' l ih =>
    cases k with
    | zero => simp_all
    | succ k =>
      rw [List.eraseIdx_cons_succ, List.countP_cons, List.countP_cons, ← ih (by simpa using h)]
      omega

/-- Go through a row from an index on and move what is of the old generation to the end of its row, which
may be this one. Whether an entry is the last one is settled before it moves. -/
def rehashFrom (t : Table α) (i k : Nat) : Table α :=
  match h : (t.row i)[k]? with
  | none => t
  | some e =>
    if hgen : e.generation = t.generation then t.rehashFrom i (k + 1)
    else
      let moved := (t.modifyRow i (·.eraseIdx k)).place e
      if k + 1 = (t.row i).length then moved else moved.rehashFrom i k
termination_by (t.staleIn i, (t.row i).length - k)
decreasing_by
  · have hk := (List.getElem?_eq_some_iff.mp h).1
    exact Prod.Lex.right _ (by omega)
  · have hi : i < t.rows.size := by
      refine Nat.lt_of_not_le fun hi => ?_
      rw [row, Array.getD_eq_getD_getElem?, Array.getElem?_eq_none hi] at h
      cases h
    refine Prod.Lex.left _ _ ?_
    rw [staleIn_place, staleIn, row_modifyRow, if_pos ⟨rfl, hi⟩]
    have hcount := countP_eraseIdx (p := fun e => e.generation ≠ t.generation) h (by simpa using hgen)
    exact Nat.lt_of_succ_le (Nat.le_of_eq hcount)

/-- Move what is of the old generation in a row. -/
def rehashRow (t : Table α) (i : Nat) : Table α := t.rehashFrom i 0

/-- Flip the generation and place every entry of the old one, row by row. -/
def rehash (t : Table α) : Table α :=
  let t := { t with generation := t.generation.flip }
  (List.range t.rows.size).foldl rehashRow t

/-- Add empty rows, or cut off the last ones, until there are so many. -/
def resize (t : Table α) (n : Nat) (h : n ≤ rowLimit) : Table α :=
  { t with
    rows := t.rows.take n ++ Array.replicate (n - t.rows.size) []
    fits := by simp only [Array.size_append, Array.size_replicate, Array.size_extract]; omega }

/-- The product of two signed words. It wraps around. -/
def wordMul (a b : Int) : Int := (a * b).bmod 0x10000000000000000

/-- Widen a table by a factor, unless there cannot be so many rows. -/
def widen? (t : Table α) (factor : Int) : Option (Table α × Growth) :=
  let after := wordMul t.rows.size factor
  if h : 0 ≤ after ∧ after ≤ rowLimit then
    let wide := { t.resize after.toNat (by omega) with capacity := wordMul t.capacity factor }
    some (wide.rehash, ⟨t.count, t.rows.size, after⟩)
  else none

/-- Whether a table holds more entries than three quarters of its capacity. -/
def isCrowded (t : Table α) : Bool := 3 * t.capacity < 4 * t.count

/-! ## Changing -/

/-- Replace the value of a key in a row. -/
def replaceIn (key : Text) (value : α) (generation : Generation) : List (Entry α) → List (Entry α)
  | [] => []
  | e :: es =>
    if e.key = key then ⟨e.key, value, generation⟩ :: es
    else e :: replaceIn key value generation es

/-- Give a key a value. A present key keeps its place; a new one goes to the end of its row, and then
a table that grows by itself may grow. -/
def put (t : Table α) (key : Text) (value : α) : Table α × Option Growth :=
  if t.contains key then (t.modifyRow (t.index key) (replaceIn key value t.generation), none)
  else
    let t := { t.append ⟨key, value, t.generation⟩ with count := t.count + 1 }
    if t.autoGrow && t.isCrowded then
      match t.widen? growthFactor with
      | some (t, g) => (t, some g)
      | none => (t, none)
    else (t, none)

/-- Give keys values, one after the other. -/
def putAll (t : Table α) (kvs : List (Text × α)) : Table α :=
  kvs.foldl (fun t kv => (t.put kv.1 kv.2).1) t

/-- Remove a key, if it is present. -/
def erase? (t : Table α) (key : Text) : Option (Table α) :=
  if t.contains key then
    some { t.modifyRow (t.index key) (·.eraseP fun e => e.key = key) with count := t.count - 1 }
  else none

end Table

/-- Why a table operation was refused. -/
inductive TableError where
  | keyNotFound
  | badFactor (factor : Int)
  | rowsOutOfRange
  | noRows
  deriving DecidableEq, Inhabited, Repr

def TableError.message : TableError → Text
  | keyNotFound => "key not found"
  | badFactor f => "Grow(" ++ Text.ofInt f ++ "): grow factor must be greater than 1"
  | rowsOutOfRange => "runtime error: makeslice: len out of range"
  | noRows => "runtime error: integer divide by zero"

namespace Table

variable {α : Type}

/-- Widen a table by a factor, which must be greater than one. -/
def grow (t : Table α) (factor : Int) : Except TableError (Table α × Growth) :=
  if factor ≤ 1 then .error (.badFactor factor)
  else
    match t.widen? factor with
    | some grown => .ok grown
    | none => .error .rowsOutOfRange

/-- The value of a key, where there are rows. -/
def lookup (t : Table α) (key : Text) : Except TableError (Option α) :=
  if t.rows.isEmpty then .error .noRows else .ok (t.get? key)

/-- What can be done to a table. -/
inductive Op (α : Type) where
  | put (key : Text) (value : α)
  | erase (key : Text)
  | grow (factor : Int)

/-- What an operation makes of a table, and why it was refused if it was. -/
def Op.apply (t : Table α) (op : Op α) : Table α × Option TableError :=
  match op with
  | grow factor =>
    match t.grow factor with
    | .ok (t', _) => (t', none)
    | .error e => (t, some e)
  | put key v => if t.rows.isEmpty then (t, some .noRows) else ((t.put key v).1, none)
  | erase key =>
    if t.rows.isEmpty then (t, some .noRows)
    else
      match t.erase? key with
      | some t' => (t', none)
      | none => (t, some .keyNotFound)

end Table

end TinyScript
