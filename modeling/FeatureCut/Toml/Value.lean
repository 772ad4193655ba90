/-
  FeatureCut/Toml/Value.lean
  ==========================
  **TOML values and tables.**

  A table can come about in four ways, and the way decides whether it may be
  extended later.  `put` enters a value under a dotted key, `alter` changes what
  stands at the path of a header.  Both refuse what the format forbids: a key
  that is there already, and a table that is closed.
-/

namespace FeatureCut.Toml

/-! ### Values -/

/-- How a table came about: by a header of its own, on the path of a header, on the path
    of a dotted key, or in braces, which close it. -/
inductive TableKind where
  | explicit
  | implied
  | dotted
  | inline
deriving DecidableEq, Repr

/-- A value of a TOML document.  A float keeps its text and a date or time its written form,
    because nothing is computed with them.  An array made by headers is kept as `tables`. -/
inductive Value where
  | text (s : String)
  | integer (n : Int)
  | float (literal : String)
  | boolean (b : Bool)
  | moment (s : String)
  | list (elements : List Value)
  | table (kind : TableKind) (entries : List (String × Value))
  | tables (elements : List Value)

/-- The entries of a table, each key once. -/
abbrev Entries := List (String × Value)

/-! ### Size -/

mutual

/-- Whether all integers in a value fit into 64 bits, with or without a sign. -/
def Value.fitsWord : Value → Bool
  | .integer n => decide (-(2 ^ 63 : Int) ≤ n) && decide (n < (2 ^ 64 : Int))
  | .list elements => elementsFitWord elements
  | .tables elements => elementsFitWord elements
  | .table _ entries => entriesFitWord entries
  | .text _ | .float _ | .boolean _ | .moment _ => true

def elementsFitWord : List Value → Bool
  | [] => true
  | v :: rest => v.fitsWord && elementsFitWord rest

def entriesFitWord : List (String × Value) → Bool
  | [] => true
  | (_, v) :: rest => v.fitsWord && entriesFitWord rest

end

/-! ### Changing tables -/

/-- Change what a key stands for, or refuse to. -/
def update (key : String) (f : Option Value → Option Value) : Entries → Option Entries
  | [] => (f none).map fun v => [(key, v)]
  | (k, v) :: rest =>
    if k = key then (f (some v)).map fun w => (k, w) :: rest
    else (update key f rest).map fun rest => (k, v) :: rest

def updateLast (f : Value → Option Value) : List Value → Option (List Value)
  | [] => none
  | [v] => (f v).map fun w => [w]
  | v :: rest => (updateLast f rest).map fun rest => v :: rest

/-- Change the entries of a table.  An array of tables is changed at its last
    one. -/
def Value.within (f : TableKind → Entries → Option Entries) : Value → Option Value
  | .table kind entries => (f kind entries).map (.table kind)
  | .tables elements =>
    (updateLast (fun
      | .table kind entries => (f kind entries).map (.table kind)
      | _ => none) elements).map .tables
  | _ => none

/-- Enter a value under a dotted key.  The tables on the way may not have a
    header of their own or be closed, and count as dotted from then on; the last
    table of an array may be gone through, but not be entered into.  A key
    without dots goes into the table it is written in. -/
def put (kind : TableKind) (nested : Bool) (value : Value) : List String → Entries → Option Entries
  | [], _ => none
  | [key], entries =>
    if (kind == .dotted) == nested then
      update key (fun
        | none => some value
        | some _ => none) entries
    else none
  | key :: path, entries =>
    update key (fun
      | none => (put .dotted true value path []).map (.table .dotted)
      | some (.table .dotted entries) | some (.table .implied entries) =>
        (put .dotted true value path entries).map (.table .dotted)
      | some (.tables elements) =>
        (Value.tables elements).within fun kind entries => put kind true value path entries
      | some _ => none) entries

/-- Change what stands at the path of a header.  Missing tables on the way are
    implied by it. -/
def alter (f : Option Value → Option Value) : List String → Entries → Option Entries
  | [], _ => none
  | [key], entries => update key f entries
  | key :: path, entries =>
    update key (fun
      | none => (alter f path []).map (.table .implied)
      | some (.table .inline _) => none
      | some v => v.within fun _ entries => alter f path entries) entries

/-- Start a table by its header.  It may have been implied, but nothing else. -/
def define (path : List String) (entries : Entries) : Option Entries :=
  alter (fun
    | none => some (.table .explicit [])
    | some (.table .implied entries) => some (.table .explicit entries)
    | some _ => none) path entries

def append (path : List String) (entries : Entries) : Option Entries :=
  alter (fun
    | none => some (.tables [.table .explicit []])
    | some (.tables elements) => some (.tables (elements ++ [.table .explicit []]))
    | some _ => none) path entries

/-- Enter a value in the table whose header has the given path; without a header
    it goes into the document itself. -/
def assign (header key : List String) (value : Value) (entries : Entries) : Option Entries :=
  match header with
  | [] => put .explicit false value key entries
  | header =>
    alter (fun
      | some v => v.within fun kind entries => put kind false value key entries
      | none => none) header entries

end FeatureCut.Toml
