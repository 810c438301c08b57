import FormulaFields.Toml.Value

/-!
Tables that grow line by line. A table remembers how it came about, because that decides what may
still be added: a table that has its own header takes no dotted keys from elsewhere, one that dotted
keys made takes no header, and one that was only implied by a header below it takes a header once.
-/
namespace FormulaFields.Toml

inductive Origin where
  /-- By its own header; so is the document itself. -/
  | stated
  /-- By a header of a table inside it. -/
  | implied
  /-- By a dotted key. -/
  | dotted
  deriving DecidableEq, Repr

inductive Node where
  | value (value : Value)
  | table (origin : Origin) (entries : List (String × Node))
  /-- An array of tables, each under a header of its own, the last first. -/
  | tables (elements : List (List (String × Node)))
  deriving Repr

/-- A key with points in it: the tables that it leads through, and its last part. -/
structure Key where
  path : List String
  last : String
  deriving DecidableEq, Repr

/-- A table on the way: how it came about, and its entries. -/
structure Table where
  origin : Origin
  entries : List (String × Node)
  deriving Repr

namespace Table

def empty : Table := ⟨.stated, []⟩

def put (t : Table) (key : String) (node : Node) : Table :=
  if t.entries.any (·.1 == key) then
    { t with entries := t.entries.map fun entry => if entry.1 == key then (key, node) else entry }
  else { t with entries := t.entries ++ [(key, node)] }

/-- The table with the one at the end of `path` changed. Tables that are missing on the way are
made, with the given origin. The way leads through the last element of an array of tables, and
through no value. Only a header (`made` is `implied`) leads through tables with headers. -/
def changeAt (made : Origin) (change : Table → Option Table) : List String → Table → Option Table
  | [], t => change t
  | key :: path, t =>
    let enter (inner : Table) (back : Table → Node) : Option Table :=
      (changeAt made change path inner).map fun changed => t.put key (back changed)
    match t.entries.lookup key with
    | none => enter ⟨made, []⟩ fun inner => .table inner.origin inner.entries
    | some (.table origin entries) =>
      if made = .dotted ∧ origin = .stated then none
      else enter ⟨origin, entries⟩ fun inner => .table inner.origin inner.entries
    | some (.tables (last :: before)) =>
      enter ⟨.stated, last⟩ fun inner => .tables (inner.entries :: before)
    | some _ => none

/-- The table with one more entry, whose key must be new. A dotted key may end only in a table that
dotted keys made, and a plain one in any other. -/
def addEntry (key : Key) (value : Value) : Table → Option Table :=
  changeAt .dotted (fun t =>
    if (t.origin == .dotted) == key.path.isEmpty then none
    else if t.entries.any (·.1 == key.last) then none
    else some (t.put key.last (.value value))) key.path

/-- The table with a header for the table at the end of the key. -/
def addTable (key : Key) : Table → Option Table :=
  changeAt .implied (fun t =>
    match t.entries.lookup key.last with
    | none => some (t.put key.last (.table .stated []))
    | some (.table .implied entries) => some (t.put key.last (.table .stated entries))
    | _ => none) key.path

/-- The table with a header for one more element of the array at the end of the key. -/
def addElement (key : Key) : Table → Option Table :=
  changeAt .implied (fun t =>
    match t.entries.lookup key.last with
    | none => some (t.put key.last (.tables [[]]))
    | some (.tables elements) => some (t.put key.last (.tables ([] :: elements)))
    | _ => none) key.path

end Table

mutual

def Node.toValue : Node → Value
  | .value v => v
  | .table _ entries => .table (entriesToValues entries)
  | .tables elements => .array (elementsToValues [] elements)

def entriesToValues : List (String × Node) → List (String × Value)
  | [] => []
  | (key, node) :: rest => (key, node.toValue) :: entriesToValues rest

/-- The elements in their order, `later` ones being done. -/
def elementsToValues (later : List Value) : List (List (String × Node)) → List Value
  | [] => later
  | entries :: before => elementsToValues (.table (entriesToValues entries) :: later) before

end

def Table.toEntries (t : Table) : List (String × Value) := entriesToValues t.entries

end FormulaFields.Toml
