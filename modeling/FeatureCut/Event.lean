/-
  FeatureCut/Event.lean
  =====================
  **What a run reports.**

  Apart from its result a run leaves a list of events, in the order in which
  they happen.
-/
import FeatureCut.Directive
import FeatureCut.Language
import FeatureCut.Text.Quoted

namespace FeatureCut

/-- Something that happened in a run.  A region is reported once it is found, with the line
    of its opening comment; a license and an inline body before they are looked at. -/
inductive Event where
  | started (language : Language) (keys : Nat)
  | regionResolved (key : KeyExpr) (polarity : Polarity) (active divided : Bool) (line : Nat)
  | htmlRegionResolved (key : KeyExpr) (polarity : Polarity) (active : Bool) (line : Nat)
  | fileExclusionMatched (key : KeyExpr) (line : Nat)
  | documentExcluded
  | licenseRequested (key : Option String)
  | inlineEntered (body : List Char)
deriving DecidableEq, Repr

/-- How the key of a license directive is reported. -/
def licenseRemark : Option String → String
  | none => "None"
  | some key => "Some(" ++ String.ofList (quoted key.toList) ++ ")"

end FeatureCut
