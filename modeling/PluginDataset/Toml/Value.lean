/-!
# TOML values

Values of a TOML document, and the rules by which headers and dotted keys build up its tables. A
table is defined once: by a header, by dotted keys, or in braces. A table that exists only because a
longer header names it may still get a header of its own.

## Main definitions

* `Toml.Value` is the type of values, `Toml.Table` that of tables.
* `Toml.Statement` is a line of a document.
* `Toml.build?` makes a table of statements.
-/

namespace PluginDataset.Toml

abbrev Key := List Char

inductive Origin where
  /-- By its own header. -/
  | header
  /-- By the header of a table inside it. -/
  | implied
  /-- By dotted keys. -/
  | dotted
  /-- In braces. -/
  | inBraces
deriving DecidableEq, Repr

/-- A value. Numbers and dates are told apart by their kind only. -/
inductive Value where
  | string (s : List Char)
  | integer
  | float
  | boolean (b : Bool)
  | dateTime
  | array (items : List Value)
  | table (origin : Origin) (entries : List (Key × Value))
  | tables (items : List (List (Key × Value)))

abbrev Table := List (Key × Value)

def Table.find? (key : Key) (t : Table) : Option Value :=
  t.lookup key

def Table.set (key : Key) (v : Value) : Table → Table
  | [] => [(key, v)]
  | (k, w) :: rest => if key = k then (k, v) :: rest else (k, w) :: Table.set key v rest

def Table.add? (key : Key) (v : Value) (t : Table) : Option Table :=
  if (t.find? key).isSome then none else some (t ++ [(key, v)])

def changeLast? (change : Table → Option Table) : List Table → Option (List Table)
  | [] => none
  | [t] => (change t).map ([·])
  | t :: rest => (changeLast? change rest).map (t :: ·)

/-- Changes the table that dotted keys lead to. Missing tables are created; tables that were defined
otherwise are refused. The last flag of `change` tells whether the table was defined by dotted
keys. -/
def throughDots? (change : Bool → Table → Option Table) :
    (isDotted : Bool) → List Key → Table → Option Table
  | isDotted, [], t => change isDotted t
  | _, key :: path, t =>
    match t.find? key with
    | none =>
      (throughDots? change true path []).map fun inner => Table.set key (.table .dotted inner) t
    | some (.table .dotted inner) =>
      (throughDots? change true path inner).map fun inner => Table.set key (.table .dotted inner) t
    | some (.table .implied inner) =>
      (throughDots? change false path inner).map fun inner =>
        Table.set key (.table .implied inner) t
    | some (.tables items) =>
      (changeLast? (throughDots? change false path) items).map fun items =>
        Table.set key (.tables items) t
    | some _ => none

/-- Sets a dotted key. A table that dots lead to has to be one that dots define. -/
def setDotted? (path : List Key) (key : Key) (v : Value) (t : Table) : Option Table :=
  throughDots? (fun isDotted t => if path = [] ∨ isDotted then t.add? key v else none) false path t

/-- Changes the table that the keys of a header lead to: of several tables under one key, the last.
Missing tables are created. -/
def throughHeader? (change : Table → Option Table) : List Key → Table → Option Table
  | [], t => change t
  | key :: path, t =>
    match t.find? key with
    | none =>
      (throughHeader? change path []).map fun inner => Table.set key (.table .implied inner) t
    | some (.table .inBraces _) => none
    | some (.table origin inner) =>
      (throughHeader? change path inner).map fun inner => Table.set key (.table origin inner) t
    | some (.tables items) =>
      (changeLast? (throughHeader? change path) items).map fun items =>
        Table.set key (.tables items) t
    | some _ => none

def openTable? (key : Key) (t : Table) : Option Table :=
  match t.find? key with
  | none => some (Table.set key (.table .header []) t)
  | some (.table .implied inner) => some (Table.set key (.table .header inner) t)
  | some _ => none

/-- Opens one more table under the key of a double header. -/
def openTables? (key : Key) (t : Table) : Option Table :=
  match t.find? key with
  | none => some (Table.set key (.tables [[]]) t)
  | some (.tables items) => some (Table.set key (.tables (items ++ [[]])) t)
  | some _ => none

/-- A line of a document. Keys are given as the keys before the last dot and the last one. -/
inductive Statement where
  | header (path : List Key) (key : Key)
  | doubleHeader (path : List Key) (key : Key)
  | entry (path : List Key) (key : Key) (v : Value)

/-- The table of a document and the header that entries go under. -/
structure Building where
  root : Table := []
  current : List Key := []

def Building.add? (b : Building) : Statement → Option Building
  | .header path key =>
    (throughHeader? (openTable? key) path b.root).map (⟨·, path ++ [key]⟩)
  | .doubleHeader path key =>
    (throughHeader? (openTables? key) path b.root).map (⟨·, path ++ [key]⟩)
  | .entry path key v =>
    (throughHeader? (setDotted? path key v) b.current b.root).map (⟨·, b.current⟩)

def build? (lines : List Statement) : Option Table :=
  (lines.foldlM Building.add? {}).map (·.root)

def inlineTable? (entries : List (List Key × Key × Value)) : Option Table :=
  entries.foldlM (fun t (path, key, v) => setDotted? path key v t) []

end PluginDataset.Toml
