import ClassWeave.Decimal.Double
import ClassWeave.Toml.DateTime
/-!
# Toml -- values and how they are merged

The values of configuration files, and the merging of one table over
another: tables within tables are merged key by key, and all else is
replaced. Each key stands in a table once.
-/


namespace ClassWeave

/-- A value of a configuration file. -/
inductive Toml where
  | string (s : String)
  | integer (n : Int)
  | float (x : Double)
  | boolean (b : Bool)
  | datetime (d : Toml.DateTime)
  | array (items : List Toml)
  | table (fields : List (String × Toml))

namespace Toml

abbrev Fields := List (String × Toml)

def get? (fields : Fields) (key : String) : Option Toml := fields.lookup key

/-- The fields with a value for a key, in place of the one it had. -/
def put (fields : Fields) (key : String) (v : Toml) : Fields :=
  (key, v) :: fields.filter fun p => p.1 != key

mutual

/-- A value over another one, if there is one: a table over a table is
merged with it, and any other value takes its place. -/
def overlay (old : Option Toml) : Toml → Toml
  | .table new =>
    match old with
    | some (.table fields) => .table (merge fields new)
    | _ => .table new
  | v => v

/-- Fields with others merged over them. -/
def merge (fields : Fields) : List (String × Toml) → Fields
  | [] => fields
  | (key, v) :: rest => merge (put fields key (overlay (get? fields key) v)) rest

end

end Toml

end ClassWeave
