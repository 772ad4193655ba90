/-
  FeatureCut/Toml/Text.lean
  =========================
  **TOML text.**

  Blanks, comments, and the four sorts of strings.  A reader gives what it read
  and what follows, or nothing if the text is not well formed.
-/

namespace FeatureCut.Toml

/-- A reader takes a value off the front of a text. -/
abbrev Reader (α : Type) := List Char → Option (α × List Char)

/-! ### Blanks and comments -/

/-- The characters that may stand in comments and strings. -/
def isPrintable (c : Char) : Bool := c == '\t' || (decide (' ' ≤ c) && c.toNat != 0x7F)

def skipBlanks (cs : List Char) : List Char := cs.dropWhile fun c => c == ' ' || c == '\t'

def lineBreak? : List Char → Option (List Char)
  | '\n' :: r => some r
  | '\r' :: '\n' :: r => some r
  | _ => none

/-- Leave out blanks, line breaks and comments.  A carriage return counts only in
    front of a line feed. -/
def skipTrivia (inComment : Bool) : List Char → Option (List Char)
  | [] => some []
  | '\n' :: r => skipTrivia false r
  | '\r' :: '\n' :: r => skipTrivia false r
  | c :: r =>
    if inComment then (if isPrintable c then skipTrivia true r else none)
    else if c == '#' then skipTrivia true r
    else if c == ' ' || c == '\t' then skipTrivia false r
    else some (c :: r)

/-- Leave out the rest of a line, which may hold a comment and nothing else. -/
def skipLine (cs : List Char) : Option (List Char) :=
  match skipBlanks cs with
  | [] => some []
  | '#' :: r =>
    match r.dropWhile isPrintable with
    | [] => some []
    | rest => lineBreak? rest
  | rest => lineBreak? rest

/-! ### Strings of one line -/

def hexDigit? (c : Char) : Option Nat :=
  if c.isDigit then some (c.toNat - '0'.toNat)
  else if 'a' ≤ c && c ≤ 'f' then some (c.toNat - 'a'.toNat + 10)
  else if 'A' ≤ c && c ≤ 'F' then some (c.toNat - 'A'.toNat + 10)
  else none

def codePoint (n : Nat) : Reader Char := fun cs => do
  let digits ← (cs.take n).mapM hexDigit?
  if digits.length < n then none
  else
    let code := digits.foldl (fun code digit => 16 * code + digit) 0
    if code.isValidChar then some (Char.ofNat code, cs.drop n) else none

def escape : Reader Char
  | 'b' :: r => some ('\x08', r)
  | 't' :: r => some ('\t', r)
  | 'n' :: r => some ('\n', r)
  | 'f' :: r => some ('\x0c', r)
  | 'r' :: r => some ('\r', r)
  | 'e' :: r => some ('\x1b', r)
  | '"' :: r => some ('"', r)
  | '\\' :: r => some ('\\', r)
  | 'x' :: r => codePoint 2 r
  | 'u' :: r => codePoint 4 r
  | 'U' :: r => codePoint 8 r
  | _ => none

def consFirst (c : Char) (p : List Char × List Char) : List Char × List Char := (c :: p.1, p.2)

/-- Read the body of a string in double quotes; every round takes a
    character. -/
def basicBody : Nat → Reader (List Char)
  | 0, _ => none
  | _, [] => none
  | n + 1, c :: r =>
    if c == '"' then some ([], r)
    else if c == '\\' then do
      let (d, r) ← escape r
      (basicBody n r).map (consFirst d)
    else if isPrintable c then (basicBody n r).map (consFirst c)
    else none

def rawBody : Reader (List Char)
  | [] => none
  | c :: r =>
    if c == '\'' then some ([], r)
    else if isPrintable c then (rawBody r).map (consFirst c)
    else none

/-! ### Strings of several lines -/

/-- Three to five quotes close a string; all but three of them belong to it. -/
def closing? (quote : Char) (cs : List Char) : Option (List Char × List Char) :=
  let run := cs.takeWhile (· == quote)
  if 3 ≤ run.length && run.length ≤ 5 then some (run.drop 3, cs.dropWhile (· == quote)) else none

/-- Leave out a line break after a backslash, with all blanks and line breaks
    around it. -/
def foldedLine? (cs : List Char) : Option (List Char) :=
  match lineBreak? (skipBlanks cs) with
  | none => none
  | some r => some (skipFolded r)
where
  skipFolded : List Char → List Char
    | '\r' :: '\n' :: r => skipFolded r
    | c :: r => if c == ' ' || c == '\t' || c == '\n' then skipFolded r else c :: r
    | [] => []

/-- Read the body of a string in three quotes.  Line breaks stay as they are;
    backslashes count if `escapes` is set. -/
def multiLineBody (quote : Char) (escapes : Bool) : Nat → Reader (List Char)
  | 0, _ => none
  | _, [] => none
  | n + 1, c :: r =>
    match closing? quote (c :: r) with
    | some found => some found
    | none =>
      -- a longer run of quotes closes nothing, and cannot be part of the string
      if c == quote && 5 < ((c :: r).takeWhile (· == quote)).length then none
      else if escapes && c == '\\' then
        match foldedLine? r with
        | some r => multiLineBody quote escapes n r
        | none => do
          let (d, r) ← escape r
          (multiLineBody quote escapes n r).map (consFirst d)
      else if isPrintable c || c == '\n' || (c == '\r' && r.head? == some '\n') then
        (multiLineBody quote escapes n r).map (consFirst c)
      else none

def stringValue (cs : List Char) : Option (String × List Char) :=
  let result :=
    match cs with
    | '"' :: '"' :: '"' :: r => multiLineBody '"' true (cs.length) ((lineBreak? r).getD r)
    | '\'' :: '\'' :: '\'' :: r => multiLineBody '\'' false (cs.length) ((lineBreak? r).getD r)
    | '"' :: r => basicBody cs.length r
    | '\'' :: r => rawBody r
    | _ => none
  result.map fun found => (String.ofList found.1, found.2)

end FeatureCut.Toml
