/-
  FeatureCut/Toml/Document.lean
  =============================
  **TOML documents.**

  A document is a list of statements: headers, and keys with their values.
  `statements` reads the list, `tableOf` makes a table of it, and `parse` does
  both.
-/
import FeatureCut.Toml.Moment
import FeatureCut.Toml.Number
import FeatureCut.Toml.Value

namespace FeatureCut.Toml

/-- The deepest nesting of arrays and inline tables, and the most parts that a
    key may have. -/
def maxNesting : Nat := 80

/-! ### Keys -/

def isBareKey (c : Char) : Bool := c.isAlphanum || c == '_' || c == '-'

def simpleKey (cs : List Char) : Option (String × List Char) :=
  match cs with
  | '"' :: r => (basicBody cs.length r).map fun found => (String.ofList found.1, found.2)
  | '\'' :: r => (rawBody r).map fun found => (String.ofList found.1, found.2)
  | cs =>
    let name := cs.takeWhile isBareKey
    if name.isEmpty then none else some (String.ofList name, cs.dropWhile isBareKey)

/-- Read a key with dots between its parts, of which there may be no more than a
    given number. -/
def dottedKey : Nat → Reader (List String)
  | 0, _ => none
  | n + 1, cs => do
    let (key, r) ← simpleKey cs
    match skipBlanks r with
    | '.' :: r => do
      let (path, r) ← dottedKey n (skipBlanks r)
      some (key :: path, r)
    | r => some ([key], r)

def keyAndEquals (cs : List Char) : Option (List String × List Char) := do
  let (path, r) ← dottedKey maxNesting cs
  let ((), r) ← mark '=' r
  some (path, skipBlanks r)

/-! ### Values -/

/-- What may follow a value without quotes or brackets. -/
def endsScalar (c : Char) : Bool := [' ', '\t', '\r', '\n', ',', ']', '\x7d', '#'].contains c

def scalar? (cs : List Char) : Option Value :=
  if cs = ['t', 'r', 'u', 'e'] then some (.boolean true)
  else if cs = ['f', 'a', 'l', 's', 'e'] then some (.boolean false)
  else
    match integer? cs, moment? cs with
    | some n, _ => some (.integer n)
    | none, some written => some (.moment (String.ofList written))
    | none, none => if isFloat cs then some (.float (String.ofList cs)) else none

/-- Read a value without quotes or brackets.  A date takes a time after a space
    with it. -/
def scalar : Reader Value := fun cs =>
  let run := cs.takeWhile fun c => !endsScalar c
  let rest := cs.dropWhile fun c => !endsScalar c
  match rest with
  | ' ' :: d :: r =>
    if isDate run && d.isDigit then
      let tail := d :: r
      (scalar? (run ++ ' ' :: tail.takeWhile fun c => !endsScalar c)).map
        fun v => (v, tail.dropWhile fun c => !endsScalar c)
    else (scalar? run).map fun v => (v, rest)
  | rest => (scalar? run).map fun v => (v, rest)

/-- Read the elements of an array up to its closing bracket; every round takes
    an element. -/
def elements (value : Reader Value) : Nat → Reader (List Value)
  | 0, _ => none
  | n + 1, cs => do
    let cs ← skipTrivia false cs
    match cs with
    | ']' :: r => some ([], r)
    | cs => do
      let (v, r) ← value cs
      let r ← skipTrivia false r
      match r with
      | ',' :: r => do
        let (vs, r) ← elements value n r
        some (v :: vs, r)
      | ']' :: r => some ([v], r)
      | _ => none

def inlineEntries (value : Reader Value) (entries : Entries) : Nat → Reader Entries
  | 0, _ => none
  | n + 1, cs => do
    let cs ← skipTrivia false cs
    match cs with
    | '\x7d' :: r => some (entries, r)
    | cs => do
      let (path, r) ← keyAndEquals cs
      let (v, r) ← value r
      let entries ← put .inline false v path entries
      let r ← skipTrivia false r
      match r with
      | ',' :: r => inlineEntries value entries n r
      | '\x7d' :: r => some (entries, r)
      | _ => none

/-- Read a value, with arrays and inline tables nested up to a depth. -/
def value : Nat → Reader Value
  | _, '"' :: r => (stringValue ('"' :: r)).map fun found => (.text found.1, found.2)
  | _, '\'' :: r => (stringValue ('\'' :: r)).map fun found => (.text found.1, found.2)
  | 0, '[' :: _ | 0, '\x7b' :: _ => none
  | depth + 1, '[' :: r =>
    (elements (value depth) (r.length + 1) r).map fun found => (.list found.1, found.2)
  | depth + 1, '\x7b' :: r =>
    (inlineEntries (value depth) [] (r.length + 1) r).map
      fun found => (.table .inline found.1, found.2)
  | _, cs => scalar cs

/-! ### Documents -/

inductive Statement where
  | header (path : List String)
  | arrayHeader (path : List String)
  | entry (path : List String) (value : Value)

def statement (cs : List Char) : Option (Statement × List Char) :=
  match cs with
  | '[' :: '[' :: r => do
    let (path, r) ← dottedKey maxNesting (skipBlanks r)
    let ((), r) ← mark ']' r
    let ((), r) ← mark ']' r
    let r ← skipLine r
    some (.arrayHeader path, r)
  | '[' :: r => do
    let (path, r) ← dottedKey maxNesting (skipBlanks r)
    let ((), r) ← mark ']' r
    let r ← skipLine r
    some (.header path, r)
  | cs => do
    let (path, r) ← keyAndEquals cs
    let (v, r) ← value maxNesting r
    let r ← skipLine r
    some (.entry path v, r)

/-- Read all statements of a text; every round takes one. -/
def statements : Nat → List Char → Option (List Statement)
  | 0, _ => none
  | n + 1, cs => do
    let cs ← skipTrivia false cs
    match cs with
    | [] => some []
    | cs => do
      let (s, r) ← statement cs
      (statements n r).map (s :: ·)

/-- Enter a list of statements, where `header` is the path of the current
    table. -/
def tableOf (header : List String) (entries : Entries) : List Statement → Option Entries
  | [] => some entries
  | .header path :: rest => do
    let entries ← define path entries
    tableOf path entries rest
  | .arrayHeader path :: rest => do
    let entries ← append path entries
    tableOf path entries rest
  | .entry path v :: rest => do
    let entries ← assign header path v entries
    tableOf header entries rest

/-- Read a document, which may start with a byte order mark. -/
def parse (text : String) : Option Entries := do
  let cs := match text.toList with
    | '\ufeff' :: r => r
    | cs => cs
  let ss ← statements (cs.length + 1) cs
  tableOf [] [] ss

end FeatureCut.Toml
