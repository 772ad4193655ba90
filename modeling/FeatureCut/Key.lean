/-
  FeatureCut/Key.lean
  ===================
  **Feature keys.**

  A run has a set of active keys, and a directive names the keys it asks for.
  Keys are case sensitive.  One key is reserved: `DEFAULT` stands for the
  absence of all others and is never active itself.
-/
import Std.Data.TreeSet
import FeatureCut.Text.Blank

namespace FeatureCut

/-! ### Active keys -/

/-- The set of keys of a run, in the order of their code points. -/
abbrev ActiveKeys := Std.TreeSet String

/-- The key that stands for the absence of others. -/
def reservedKey : String := "DEFAULT"

def ActiveKeys.single? (keys : ActiveKeys) : Option String :=
  match keys.toList with
  | [key] => some key
  | _ => none

/-! ### Key expressions -/

/-- The keys a directive asks for: one key, or several with `|` between them,
    any of which is enough. -/
structure KeyExpr where
  text : String
deriving DecidableEq, Repr

/-- The keys of an expression, without blanks around them and without empty
    ones. -/
def KeyExpr.parts (e : KeyExpr) : List String :=
  (((e.text.toList.splitOn '|').map trimBlank).filter (· != [])).map String.ofList

def KeyExpr.holds (e : KeyExpr) (keys : ActiveKeys) : Bool :=
  e.parts.any fun key => keys.contains key

/-- Like `KeyExpr.holds`, but the reserved key alone holds when no key is
    active. -/
def KeyExpr.holdsOrDefault (e : KeyExpr) (keys : ActiveKeys) : Bool :=
  if trimBlank e.text.toList = reservedKey.toList then keys.isEmpty else e.holds keys

theorem KeyExpr.holds_iff {e : KeyExpr} {keys : ActiveKeys} :
    e.holds keys = true ↔ ∃ key ∈ e.parts, keys.contains key = true := by
  simp [KeyExpr.holds]

end FeatureCut
