/-! Settings files: tables of named values, written in TOML. -/
namespace Logo

/-- How a table came to be. It decides whether a later line may add to it. -/
inductive Origin where
  | header
  | implied
  | dotted
  | inline
  deriving DecidableEq, Repr

inductive Toml where
  | string (s : String)
  | integer (i : Int)
  | float (x : Float)
  | bool (b : Bool)
  /-- A date or a time. No setting takes one, so it is not kept. -/
  | moment
  | array (items : List Toml)
  | table (origin : Origin) (entries : List (String × Toml))

namespace Toml

abbrev Entries := List (String × Toml)

def put (key : String) (v : Toml) : Entries → Entries
  | [] => [(key, v)]
  | (k, w) :: rest => if k = key then (k, v) :: rest else (k, w) :: put key v rest

/-- Binds a dotted key. Nothing is bound twice, and only tables that dotted keys made are extended. -/
def assign (v : Toml) : (path : List String) → Entries → Option Entries
  | [], _ => none
  | [key], entries => if (entries.lookup key).isSome then none else some (put key v entries)
  | key :: path, entries =>
    match entries.lookup key with
    | none => do return put key (.table .dotted (← assign v path [])) entries
    | some (.table .dotted inner) => do return put key (.table .dotted (← assign v path inner)) entries
    | some _ => none

/-- Opens the table of a header. A table has one header, and values are no tables. -/
def openTable : (path : List String) → Entries → Option Entries
  | [], _ => none
  | [key], entries =>
    match entries.lookup key with
    | none => some (put key (.table .header []) entries)
    | some (.table .implied inner) => some (put key (.table .header inner) entries)
    | some _ => none
  | key :: path, entries =>
    match entries.lookup key with
    | none => do return put key (.table .implied (← openTable path [])) entries
    | some (.table .inline _) => none
    | some (.table origin inner) => do return put key (.table origin (← openTable path inner)) entries
    | some _ => none

def inTable (change : Entries → Option Entries) : (header : List String) → Entries → Option Entries
  | [], entries => change entries
  | key :: path, entries =>
    match entries.lookup key with
    | some (.table origin inner) => do return put key (.table origin (← inTable change path inner)) entries
    | _ => none

end Toml
end Logo
