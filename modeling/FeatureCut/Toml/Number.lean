/-
  FeatureCut/Toml/Number.lean
  ===========================
  **TOML numbers.**

  Integers in four bases, and floats.  An integer has to fit into 128 bits, and a
  float may not be too large for a double.
-/
import FeatureCut.Toml.Text

namespace FeatureCut.Toml

/-! ### Digits -/

/-- Leave out the underscores between digits.  Each has to stand between two
    digits. -/
def digits? (isDigit : Char → Bool) : List Char → Option (List Char)
  | [] => none
  | [c] => if isDigit c then some [c] else none
  | c :: d :: r =>
    if !isDigit c then none
    else if d == '_' then (digits? isDigit r).map (c :: ·)
    else (digits? isDigit (d :: r)).map (c :: ·)

def ofDigits (base : Nat) (ds : List Char) : Nat :=
  ds.foldl (fun n d => base * n + (hexDigit? d).getD 0) 0

def splitSign : List Char → Bool × List Char
  | '-' :: r => (true, r)
  | '+' :: r => (false, r)
  | r => (false, r)

/-- The digits of a decimal number, which has no zero in front. -/
def decimal? (cs : List Char) : Option (List Char) := do
  let ds ← digits? Char.isDigit cs
  if 1 < ds.length && ds.head? == some '0' then none else some ds

/-! ### Integers -/

/-- Integers are kept if they fit into 128 bits, with or without a sign. -/
def fits (n : Int) : Bool := decide (-Int.pow 2 127 ≤ n) && decide (n < Int.pow 2 128)

def integer? (cs : List Char) : Option Int := do
  let n : Int ←
    match cs with
    | '0' :: 'x' :: r => (digits? (fun c => (hexDigit? c).isSome) r).map fun ds => ofDigits 16 ds
    | '0' :: 'o' :: r =>
      (digits? (fun c => '0' ≤ c && c ≤ '7') r).map fun ds => ofDigits 8 ds
    | '0' :: 'b' :: r =>
      (digits? (fun c => c == '0' || c == '1') r).map fun ds => ofDigits 2 ds
    | cs =>
      let (negative, r) := splitSign cs
      (decimal? r).map fun ds => if negative then -(ofDigits 10 ds : Int) else ofDigits 10 ds
  if fits n then some n else none

/-! ### Floats -/

/-- Whether `m · 10 ^ e`, with the digits `ds` for `m`, is rounded to infinity: it
    is at least half a unit above the largest double. -/
def overflows (ds : List Char) (e : Int) : Bool :=
  let ds := ds.dropWhile (· == '0')
  let size : Int := ds.length + e
  if ds.isEmpty || size < 309 then false
  else if 309 < size then true
  else
    -- the largest double is 2 ^ 1024 - 2 ^ 971
    let limit := Nat.pow 2 1024 - Nat.pow 2 970
    if e < 0 then decide (limit * Nat.pow 10 (-e).toNat ≤ ofDigits 10 ds)
    else decide (limit ≤ ofDigits 10 ds * Nat.pow 10 e.toNat)

def exponent? (cs : List Char) : Option Int := do
  let (negative, r) := splitSign cs
  let ds ← digits? Char.isDigit r
  some (if negative then -(ofDigits 10 ds : Int) else ofDigits 10 ds)

/-- Whether a text is a float.  It has a fraction or an exponent, or is one of
    the special values. -/
def isFloat (cs : List Char) : Bool :=
  let (_, r) := splitSign cs
  if r = ['i', 'n', 'f'] || r = ['n', 'a', 'n'] then true
  else
    let isMark := fun c => c == '.' || c == 'e' || c == 'E'
    let isExp := fun c => c == 'e' || c == 'E'
    let whole := r.takeWhile fun c => !isMark c
    let parts : Option (List Char × Int) := do
      let ds ← decimal? whole
      match r.dropWhile fun c => !isMark c with
      | '.' :: r => do
        let fraction ← digits? Char.isDigit (r.takeWhile fun c => !isExp c)
        let e ← match r.dropWhile fun c => !isExp c with
          | [] => some 0
          | _ :: r => exponent? r
        some (ds ++ fraction, e - fraction.length)
      | _ :: r => do
        let e ← exponent? r
        some (ds, e)
      | [] => none
    match parts with
    | some (ds, e) => !overflows ds e
    | none => false

end FeatureCut.Toml
