/-
  FeatureCut/Language/Profile.lean
  ================================
  **Comment profiles.**

  Which comments of a document can carry directives, and how far a string
  literal reaches.
-/

namespace FeatureCut

/-- Which comments there are: from `/*` or `/**` to `*/`, from `<!--` to `-->` inside of
    these, and after a `#` or two hyphens that are the first thing on their line; and
    whether three quotes open a literal that may run over several lines. -/
structure Profile where
  blockComments : Bool
  htmlComments : Bool
  hashComments : Bool
  doubleHyphenComments : Bool
  tripleQuotedStrings : Bool
deriving DecidableEq, Repr

end FeatureCut
