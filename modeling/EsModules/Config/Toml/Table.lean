import EsModules.Config.Value

/-!
# Tables of a TOML document

A document names each table once.  Headers may add tables below tables, dotted keys may add to the
tables that dotted keys made, and nothing may add to a value.
-/

namespace EsModules
namespace Config
namespace Toml

/-- How a table came about. -/
inductive TableKind where
  /-- Named on the way to another table. -/
  | implied
  /-- Made by a dotted key. -/
  | dotted
  /-- Named by a header of its own. -/
  | named
  deriving DecidableEq, Repr, Inhabited

/-- A part of a document. -/
inductive Node where
  | value (v : Value)
  | table (kind : TableKind) (fields : List (String × Node))
  /-- A list of tables, the last one first. -/
  | tables (elements : List Node)
  deriving Inhabited

mutual

/-- The data of a part. -/
def Node.data : Node → Value
  | .value v => v
  | .table _ fields => .dict (Node.dataOfFields fields)
  | .tables elements => .list (Node.dataOfList elements).reverse

/-- The data of the entries of a table. -/
def Node.dataOfFields : List (String × Node) → Fields
  | [] => []
  | (key, node) :: rest => (Node.dataOfFields rest).set key node.data

/-- The data of several parts. -/
def Node.dataOfList : List Node → List Value
  | [] => []
  | node :: rest => node.data :: Node.dataOfList rest

end

/-- The entries of a table. -/
abbrev Entries : Type :=
  List (String × Node)

/-- The entry with a key. -/
def Entries.get? (entries : Entries) (key : String) : Option Node :=
  (entries.find? (·.1 == key)).map (·.2)

/-- Puts an entry in the place of the one with the same key. -/
def Entries.put (entries : Entries) (key : String) (node : Node) : Entries :=
  (key, node) :: entries.filter (·.1 != key)

/-- How the tables on the way to an entry are treated. -/
structure Way where
  /-- What a missing table becomes. -/
  fresh : TableKind
  /-- The tables that may be entered. -/
  mayEnter : TableKind → Bool
  /-- The last table of a list may be entered. -/
  mayEnterList : Bool

/-- The way of a header. -/
def Way.header : Way := ⟨.implied, fun _ => true, true⟩

/-- The way of a dotted key up to the last table. -/
def Way.dots : Way := ⟨.dotted, (· != .named), true⟩

/-- The way of a dotted key into the last table. -/
def Way.lastDot : Way := ⟨.dotted, (· == .dotted), false⟩

/-- Changes the table that a key stands for, which is made when it is missing. -/
def Entries.descend
    (way : Way)
    (key : String)
    (change : Entries → Option Entries)
    (entries : Entries) :
    Option Entries := do
  match entries.get? key with
  | none => return entries.put key (.table way.fresh (← change []))
  | some (.table kind fields) =>
      if way.mayEnter kind then return entries.put key (.table kind (← change fields)) else none
  | some (.tables (.table kind fields :: earlier)) =>
      if way.mayEnterList then
        return entries.put key (.tables (.table kind (← change fields) :: earlier))
      else none
  | _ => none

/-- Changes the table at the end of the path of a header. -/
def Entries.at (change : Entries → Option Entries) : List String → Entries → Option Entries
  | [], entries => change entries
  | key :: rest, entries => entries.descend .header key (Entries.at change rest)

/-- Adds a new entry. -/
def Entries.add (key : String) (node : Node) (entries : Entries) : Option Entries :=
  if (entries.get? key).isSome then none else some (entries.put key node)

/-- Sets the value of a dotted key. -/
def Entries.assign (value : Value) : List String → Entries → Option Entries
  | [], _ => none
  | [key], entries => entries.add key (.value value)
  | [table, key], entries => entries.descend .lastDot table (Entries.add key (.value value))
  | table :: rest, entries => entries.descend .dots table (Entries.assign value rest)

/-- Begins the table of a header. -/
def Entries.begin (key : String) (entries : Entries) : Option Entries :=
  match entries.get? key with
  | none => some (entries.put key (.table .named []))
  | some (.table .implied fields) => some (entries.put key (.table .named fields))
  | _ => none

/-- Begins the next table of a list. -/
def Entries.beginElement (key : String) (entries : Entries) : Option Entries :=
  match entries.get? key with
  | none => some (entries.put key (.tables [.table .named []]))
  | some (.tables elements) => some (entries.put key (.tables (.table .named [] :: elements)))
  | _ => none

end Toml
end Config
end EsModules
