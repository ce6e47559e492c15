import LineShell.Toml.Value

/-!
# Tables under construction

The tables of a document grow pair by pair. How a table came about decides what
may still be added: a table is opened by a header at most once, and one that
keys with points have made takes pairs from such keys only.
-/

set_option autoImplicit false

namespace LineShell.Toml

inductive Origin where
  /-- Opened by a header of its own. -/
  | header
  /-- On the way to a table that has a header. -/
  | implied
  /-- Made by a key with points. -/
  | pointed
  deriving DecidableEq, Repr

inductive Entry where
  | value (v : Value)
  | table (origin : Origin) (fields : List (String × Entry))
  /-- Tables under one header, the last one first. -/
  | tables (elements : List (List (String × Entry)))
  deriving Repr

namespace Tables

abbrev Fields := List (String × Entry)

mutual

def closeEntry : Entry → Value
  | .value v => v
  | .table _ fields => .table (close fields)
  | .tables elements => .array (closeAll elements).reverse

def close : List (String × Entry) → List (String × Value)
  | [] => []
  | (k, e) :: rest => (k, closeEntry e) :: close rest

def closeAll : List (List (String × Entry)) → List Value
  | [] => []
  | fields :: rest => .table (close fields) :: closeAll rest

end

def store (fields : Fields) (k : String) (e : Entry) : Fields :=
  if fields.any (·.1 = k) then fields.map fun f => if f.1 = k then (k, e) else f
  else fields ++ [(k, e)]

/-- Changes what is found under a key; `none` refuses the change. -/
def update (fields : Fields) (k : String) (change : Option Entry → Option Entry) :
    Option Fields :=
  (change (fields.lookup k)).map (store fields k)

/-- Adds a pair. A table on the way must not have a header, and the one that
takes the pair must be made by keys with points, if it is not the first. -/
def addPair (fields : Fields) : List String → Value → Option Fields
  | [], _ => none
  | [k], v => update fields k fun
    | none => some (.value v)
    | some _ => none
  | k :: rest@(next :: more), v => update fields k fun
    | none => (addPair [] rest v).map (.table .pointed)
    | some (.table .pointed inner) => (addPair inner rest v).map (.table .pointed)
    | some (.table .implied inner) =>
      if more.isEmpty then none else (addPair inner (next :: more) v).map (.table .implied)
    | some _ => none

/-- The table that a header before leads through: of several, the last. -/
def through (deeper : Fields → Option Fields) : Option Entry → Option Entry
  | none => (deeper []).map (.table .implied)
  | some (.table origin inner) => (deeper inner).map (.table origin)
  | some (.tables (last :: others)) => (deeper last).map fun t => .tables (t :: others)
  | some _ => none

def openTable (fields : Fields) : List String → Option Fields
  | [] => none
  | [k] => update fields k fun
    | none => some (.table .header [])
    | some (.table .implied inner) => some (.table .header inner)
    | some _ => none
  | k :: rest => update fields k (through fun inner => openTable inner rest)

def openElement (fields : Fields) : List String → Option Fields
  | [] => none
  | [k] => update fields k fun
    | none => some (.tables [[]])
    | some (.tables elements) => some (.tables ([] :: elements))
    | some _ => none
  | k :: rest => update fields k (through fun inner => openElement inner rest)

/-- Adds a pair to the table at a path that a header has opened. -/
def addPairAt (fields : Fields) : List String → List String → Value → Option Fields
  | [], path, v => addPair fields path v
  | k :: rest, path, v => update fields k (through fun inner => addPairAt inner rest path v)

def ofPairs? (pairs : List (List String × Value)) : Option Fields :=
  pairs.foldlM (fun fields p => addPair fields p.1 p.2) []

end Tables

end LineShell.Toml
