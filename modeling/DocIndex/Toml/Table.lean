import DocIndex.Toml.Basic

/-!
# Tables in TOML

How the lines of a document come to tables. A table is opened by one header at most; one that was
only named on the way to another may still be opened. Dotted keys go on with tables that dotted keys
began, and with no others.

* `Toml.tableOfLines?` — a whole document.
* `Toml.tableOfEntries?` — a table between braces.
-/

namespace DocIndex

/-- A value and its key, which may be dotted. -/
structure KeyedValue where
  key : List String
  value : Toml
  deriving Repr, Inhabited

namespace Toml

/-- A line of a document. -/
inductive Line
  /-- The header of a table. -/
  | header (path : List String)
  /-- The header of one of several tables. -/
  | element (path : List String)
  | entry (entry : KeyedValue)
  deriving Repr, Inhabited

/-- A table that is being filled. -/
structure Table where
  form : TableForm
  entries : Entries
  deriving Repr, Inhabited

/-- The value of a table. -/
def Table.value (t : Table) : Toml :=
  .table t.form t.entries

/-- Changes the table at the end of `path`. Tables that are missing on the way are made in form
`made`. Of several tables the last one is meant. A table may be passed if `passable` holds of its
form. -/
def changeAt? (made : TableForm) (passable : TableForm → Bool) (change : Table → Option Table) :
    List String → Table → Option Table
  | [], t => change t
  | key :: path, t =>
    match t.entries.lookup key with
    | none => do
      let within ← changeAt? made passable change path { form := made, entries := [] }
      return { t with entries := t.entries.put key within.value }
    | some (.table form entries) =>
      if passable form then do
        let within ← changeAt? made passable change path { form, entries }
        return { t with entries := t.entries.put key within.value }
      else none
    | some (.tables items) => do
      let last ← items.getLast?
      let within ← changeAt? made passable change path { form := .header, entries := last }
      return { t with entries := t.entries.put key (.tables (items.dropLast ++ [within.entries])) }
    | some _ => none

/-- The table with one more entry. Where dotted keys led to it, dotted keys must have begun it. -/
def addPair? (dotted : Bool) (key : String) (value : Toml) (t : Table) : Option Table :=
  if (t.form == .dotted) != dotted then none
  else if (t.entries.lookup key).isSome then none
  else some { t with entries := t.entries.put key value }

/-- Puts a value into a table. -/
def putValue? (e : KeyedValue) (t : Table) : Option Table := do
  let key ← e.key.getLast?
  let path := e.key.dropLast
  changeAt? .dotted (fun form => form == .dotted || form == .implied)
    (addPair? (!path.isEmpty) key e.value) path t

/-- Opens the table `key` by its header. -/
def openTable? (key : String) (t : Table) : Option Table :=
  match t.entries.lookup key with
  | none => some { t with entries := t.entries.put key (.table .header []) }
  -- named on the way to another table, but not opened yet
  | some (.table .implied entries) =>
    some { t with entries := t.entries.put key (.table .header entries) }
  | some _ => none

/-- Opens one more of the tables `key`. -/
def openElement? (key : String) (t : Table) : Option Table :=
  match t.entries.lookup key with
  | none => some { t with entries := t.entries.put key (.tables [[]]) }
  | some (.tables items) => some { t with entries := t.entries.put key (.tables (items ++ [[]])) }
  | some _ => none

/-- Changes the table at the end of the path of a header. -/
def changeHeader? (change : Table → Option Table) (path : List String) (t : Table) :
    Option Table :=
  changeAt? .implied (· != .inline) change path t

/-- A document up to some line: the whole of it, and the path of the table that entries go to. -/
structure Progress where
  root : Table
  path : List String
  deriving Repr, Inhabited

/-- Takes in a line. -/
def takeLine? (p : Progress) : Line → Option Progress
  | .header path => do
    let root ← changeHeader? (openTable? (← path.getLast?)) path.dropLast p.root
    return { root, path }
  | .element path => do
    let root ← changeHeader? (openElement? (← path.getLast?)) path.dropLast p.root
    return { root, path }
  | .entry e => do
    let root ← changeHeader? (putValue? e) p.path p.root
    return { p with root }

/-- The table that a document comes to. -/
def tableOfLines? (lines : List Line) : Option Entries :=
  (lines.foldlM takeLine? { root := { form := .header, entries := [] }, path := [] }).map
    fun p => p.root.entries

/-- The table that entries between braces come to. -/
def tableOfEntries? (entries : List KeyedValue) : Option Entries :=
  (entries.foldlM (fun t e => putValue? e t) { form := .inline, entries := [] }).map Table.entries

end Toml

end DocIndex
