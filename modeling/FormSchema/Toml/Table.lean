/-!
# TOML tables

A table is grown along paths of keys. How a table came about decides what may be added to it later:
a table with a header has one header only, keys with dots only extend tables that such keys made,
and a table written between braces is never extended.
-/

namespace FormSchema.Toml

/-- How a table came about. -/
inductive Origin where
  -- by a header of its own; also the root
  | header
  -- by a header of a table within it
  | outerHeader
  -- by a key with dots
  | dots
  -- between braces
  | braces
deriving DecidableEq, Inhabited

inductive Value where
  | string (value : String)
  | integer (value : Int)
  -- a truth value, a real number or a point in time, under the name that messages have for it
  | other (name : String)
  | array (items : List Value)
  | table (origin : Origin) (entries : List (String × Value))
  -- an array of tables with headers, the last one first
  | tables (items : List (List (String × Value)))
deriving Inhabited

/-- A table: how it came about, and its entries. -/
structure Table where
  origin : Origin
  entries : List (String × Value)
deriving Inhabited

namespace Table

def root : Table := ⟨.header, []⟩

def value (t : Table) : Value := .table t.origin t.entries

def get? (t : Table) (key : String) : Option Value := t.entries.lookup key

/-- Sets the value of a key, at its place if it has one. -/
def set (t : Table) (key : String) (v : Value) : Table :=
  if (t.get? key).isSome then
    { t with entries := t.entries.map fun (k, w) => if k = key then (k, v) else (k, w) }
  else { t with entries := t.entries ++ [(key, v)] }

/-- Changes the table at the end of a path. Tables that are missing on the way are made; of an
array of tables the last one is on the way. -/
def within (dotted : Bool) (change : Table → Option Table) : List String → Table → Option Table
  | [], t => change t
  | k :: ks, t =>
    match t.get? k with
    | none => do
      let made ← within dotted change ks ⟨if dotted then .dots else .outerHeader, []⟩
      some (t.set k made.value)
    | some (.table origin entries) =>
      if origin = .braces || (dotted && origin = .header) then none
      else do
        let changed ← within dotted change ks ⟨origin, entries⟩
        some (t.set k changed.value)
    | some (.tables (last :: earlier)) => do
      let changed ← within dotted change ks ⟨.header, last⟩
      some (t.set k (.tables (changed.entries :: earlier)))
    | some _ => none

/-- Adds a value under a new key of a table. Keys with dots only add to tables made by such keys,
and other keys only to other tables. -/
def add (dotted : Bool) (key : String) (v : Value) (t : Table) : Option Table :=
  if (t.origin = .dots) = dotted && (t.get? key).isNone then some (t.set key v) else none

def put (path : List String) (v : Value) (t : Table) : Option Table :=
  match path.reverse with
  | [] => none
  | key :: above => within (!above.isEmpty) (add (!above.isEmpty) key v) above.reverse t

/-- Gives a table its header. -/
def openTable (key : String) (t : Table) : Option Table :=
  match t.get? key with
  | none => some (t.set key (.table .header []))
  | some (.table .outerHeader entries) => some (t.set key (.table .header entries))
  | some _ => none

/-- Begins a further table of an array of tables. -/
def openItem (key : String) (t : Table) : Option Table :=
  match t.get? key with
  | none => some (t.set key (.tables [[]]))
  | some (.tables items) => some (t.set key (.tables ([] :: items)))
  | some _ => none

/-- Opens the table, or the item of an array of tables, that a header names. -/
def openHeader (item : Bool) (path : List String) (t : Table) : Option Table :=
  match path.reverse with
  | [] => none
  | key :: above =>
    within false (if item then openItem key else openTable key) above.reverse t

end Table

end FormSchema.Toml
