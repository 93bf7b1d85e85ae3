import ClassWeave.Toml.Value
/-!
# Toml -- tables while they are being read

A file mentions a table in several ways, and not all of them may be mixed:
a header opens it, a longer header or a dotted key merely passes through
it. A draft remembers of each table whether it has only been passed
through so far, and whether by a dotted key. What may follow what is
decided here, and a draft that was completed is plain fields
(`DraftTable.finish`).
-/


namespace ClassWeave

namespace Toml

/-- A value of a draft. -/
inductive Draft where
  | value (v : Toml)
  /-- A table: whether it has only been passed through, and whether a
  dotted key made it. -/
  | table (implicit dotted : Bool) (fields : List (String × Draft))
  /-- A row of tables, the last one first. -/
  | tables (items : List (List (String × Draft)))

/-- A table of a draft. -/
structure DraftTable where
  implicit : Bool
  dotted : Bool
  fields : List (String × Draft)

namespace DraftTable

/-- A table that a header opens. -/
def empty : DraftTable := ⟨false, false, []⟩

def get? (t : DraftTable) (key : String) : Option Draft := t.fields.lookup key

def erase (t : DraftTable) (key : String) : DraftTable :=
  { t with fields := t.fields.filter fun p => p.1 != key }

/-- The table with a draft for a key, in place of what it had. -/
def put (t : DraftTable) (key : String) (d : Draft) : DraftTable :=
  { t.erase key with fields := (key, d) :: (t.erase key).fields }

/-- A change at the table that a path leads to. Tables that are not there
are made on the way; of a row of tables the last is meant. A dotted key
passes through tables that no header opened only. -/
def alter {α : Type} (dotted : Bool) (change : DraftTable → Option (DraftTable × α)) :
    List String → DraftTable → Option (DraftTable × α)
  | [], t => change t
  | key :: path, t =>
    match t.get? key with
    | none => do
      let (inner, a) ← alter dotted change path ⟨true, dotted, []⟩
      return (t.put key (.table inner.implicit inner.dotted inner.fields), a)
    | some (.table implicit wasDotted fields) =>
      if dotted && !implicit then none
      else do
        let (inner, a) ← alter dotted change path ⟨implicit, wasDotted, fields⟩
        return (t.put key (.table inner.implicit inner.dotted inner.fields), a)
    | some (.tables (last :: before)) => do
      let (inner, a) ← alter dotted change path ⟨false, false, last⟩
      return (t.put key (.tables (inner.fields :: before)), a)
    | some (.tables []) | some (.value _) => none

/-- The table with a value entered under a path and a key. A dotted key
ends in a table that dotted keys made, and a key is entered once. -/
def enter (t : DraftTable) (path : List String) (key : String) (v : Toml) : Option DraftTable :=
  (t.alter true (fun inner =>
    if inner.dotted == path.isEmpty then none
    else if (inner.get? key).isSome then none
    else some (inner.put key (.value v), ())) path).map Prod.fst

mutual

/-- The value of a draft. -/
def finishDraft : Draft → Toml
  | .value v => v
  | .table _ _ fields => .table (finishFields fields)
  | .tables items => .array (finishItems items).reverse

/-- The fields of a draft. -/
def finishFields : List (String × Draft) → Fields
  | [] => []
  | (key, d) :: rest => (key, finishDraft d) :: finishFields rest

/-- The tables of a row. -/
def finishItems : List (List (String × Draft)) → List Toml
  | [] => []
  | fields :: rest => .table (finishFields fields) :: finishItems rest

end

def finish (t : DraftTable) : Fields := finishFields t.fields

end DraftTable

/-- A file being read: what stands above the last header, and the table
that it opened. -/
structure DraftFile where
  root : DraftTable
  current : DraftTable
  /-- The path of the open table; none for the top of the file. -/
  path : List String
  /-- Whether the open table is one of a row. -/
  inRow : Bool

namespace DraftFile

/-- A file of which nothing has been read. -/
def start : DraftFile := ⟨.empty, .empty, [], false⟩

/-- The whole table, with the open one put in its place. -/
def close (f : DraftFile) : Option DraftTable :=
  match f.path.getLast? with
  | none => some f.current
  | some key =>
    (f.root.alter false (fun parent =>
      if f.inRow then
        match parent.get? key with
        | none => some (parent.put key (.tables [f.current.fields]), ())
        | some (.tables items) => some (parent.put key (.tables (f.current.fields :: items)), ())
        | some _ => none
      else some (parent.put key (.table false false f.current.fields), ()))
      f.path.dropLast).map Prod.fst

/-- The file with a table opened by a header. A table that has only been
passed through by headers keeps what it has. -/
def openTable (f : DraftFile) (path : List String) : Option DraftFile := do
  let root ← f.close
  let key ← path.getLast?
  let (root, fields) ← root.alter false (fun parent =>
    match parent.get? key with
    | none => some (parent, [])
    | some (.table true false fields) => some (parent.erase key, fields)
    | some _ => none) path.dropLast
  return ⟨root, ⟨false, false, fields⟩, path, false⟩

/-- The file with one more table of a row opened by a header. -/
def openRow (f : DraftFile) (path : List String) : Option DraftFile := do
  let root ← f.close
  let key ← path.getLast?
  let (root, _) ← root.alter false (fun parent =>
    match parent.get? key with
    | none => some (parent.put key (.tables []), ())
    | some (.tables items) => some (parent.put key (.tables items), ())
    | some _ => none) path.dropLast
  return ⟨root, .empty, path, true⟩

/-- The file with a value entered into the open table. -/
def enter (f : DraftFile) (path : List String) (key : String) (v : Toml) : Option DraftFile := do
  return { f with current := ← f.current.enter path key v }

end DraftFile

end Toml

end ClassWeave
