/-
  FeatureCut/Toml/Moment.lean
  ===========================
  **TOML dates and times.**

  A date, a time of day, or both, and then possibly the distance from universal
  time.  Seconds may be left out.  The written form is normalised: the parts are
  joined by `T`, and a fraction of a second is cut after nine digits and has no
  more zeros at its end than it needs.
-/
import FeatureCut.Toml.Text

namespace FeatureCut.Toml

def fixedDigits (n : Nat) : Reader (List Char) := fun cs =>
  let ds := cs.take n
  if ds.length = n && ds.all Char.isDigit then some (ds, cs.drop n) else none

def decimalValue (ds : List Char) : Nat := ds.foldl (fun n d => 10 * n + (d.toNat - '0'.toNat)) 0

def digitsWithin (n low high : Nat) : Reader (List Char) := fun cs => do
  let (ds, r) ← fixedDigits n cs
  if low ≤ decimalValue ds && decimalValue ds ≤ high then some (ds, r) else none

def mark (c : Char) : Reader Unit
  | d :: r => if c = d then some ((), r) else none
  | [] => none

def daysOf (year month : Nat) : Nat :=
  if month = 2 then
    if year % 4 = 0 && (year % 100 != 0 || year % 400 = 0) then 29 else 28
  else if [4, 6, 9, 11].contains month then 30 else 31

def date : Reader (List Char) := fun cs => do
  let (year, r) ← fixedDigits 4 cs
  let ((), r) ← mark '-' r
  let (month, r) ← digitsWithin 2 1 12 r
  let ((), r) ← mark '-' r
  let (day, r) ← digitsWithin 2 1 (daysOf (decimalValue year) (decimalValue month)) r
  some (year ++ '-' :: month ++ '-' :: day, r)

/-- Read a fraction of a second, if there is one.  Nine digits of it count; of
    these, zeros at the end are left out, but one digit stays. -/
def fraction : Reader (List Char)
  | '.' :: r =>
    let ds := r.takeWhile Char.isDigit
    let kept := ((ds.take 9).reverse.dropWhile (· == '0')).reverse
    if ds.isEmpty then none
    else some ('.' :: (if kept.isEmpty then ['0'] else kept), r.dropWhile Char.isDigit)
  | r => some ([], r)

def timeOfDay : Reader (List Char) := fun cs => do
  let (hour, r) ← digitsWithin 2 0 23 cs
  let ((), r) ← mark ':' r
  let (minute, r) ← digitsWithin 2 0 59 r
  match r with
  | ':' :: r => do
    let (second, r) ← digitsWithin 2 0 60 r
    let (part, r) ← fraction r
    some (hour ++ ':' :: minute ++ ':' :: second ++ part, r)
  | r => some (hour ++ ':' :: minute, r)

/-- Read the distance from universal time, if it is given. -/
def offset : Reader (List Char)
  | 'Z' :: r | 'z' :: r => some (['Z'], r)
  | c :: r =>
    if c == '+' || c == '-' then do
      let (hour, r) ← digitsWithin 2 0 23 r
      let ((), r) ← mark ':' r
      let (minute, r) ← digitsWithin 2 0 59 r
      -- a distance of zero is written with a plus
      let sign := if decimalValue hour + decimalValue minute = 0 then '+' else c
      some (sign :: hour ++ ':' :: minute, r)
    else some ([], c :: r)
  | [] => some ([], [])

def dateAndTime : Reader (List Char) := fun cs => do
  let (day, r) ← date cs
  match r with
  | c :: r =>
    if c == 'T' || c == 't' || c == ' ' then do
      let (time, r) ← timeOfDay r
      let (zone, r) ← offset r
      some (day ++ 'T' :: time ++ zone, r)
    else some (day, c :: r)
  | [] => some (day, [])

/-- The written form of a date or a time, if a text is one. -/
def moment? (cs : List Char) : Option (List Char) :=
  match dateAndTime cs, timeOfDay cs with
  | some (written, []), _ => some written
  | _, some (written, []) => some written
  | _, _ => none

def isDate (cs : List Char) : Bool :=
  match date cs with
  | some (_, []) => true
  | _ => false

end FeatureCut.Toml
