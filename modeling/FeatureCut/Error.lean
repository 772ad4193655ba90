/-
  FeatureCut/Error.lean
  =====================
  **What can go wrong.**

  An `Error` is a cause; its message, its code and the advice that comes with it
  are written here and nowhere else.  Lines and columns count from one.
-/
import FeatureCut.Token

namespace FeatureCut

/-! ### Causes -/

/-- The three sorts of comments that have to be closed. -/
inductive CommentKind where
  | block
  | doc
  | html
deriving DecidableEq, Repr

def CommentKind.name : CommentKind → String
  | .block => "block comment"
  | .doc => "doc comment"
  | .html => "html comment"

/-- Why a file could not be read. -/
inductive ReadFault where
  | notFound
  | notDirectory
  | isDirectory
  | nameTooLong
  | invalidName
  | invalidText
deriving DecidableEq, Repr

def ReadFault.message : ReadFault → String
  | .notFound => "No such file or directory (os error 2)"
  | .notDirectory => "Not a directory (os error 20)"
  | .isDirectory => "Is a directory (os error 21)"
  | .nameTooLong => "File name too long (os error 36)"
  | .invalidName => "file name contained an unexpected NUL byte"
  | .invalidText => "stream did not contain valid UTF-8"

/-- The causes of failure.  A place is that of the comment or of the atom in question. -/
inductive Error where
  | unreadable (fault : ReadFault)
  | unterminatedComment (kind : CommentKind) (line column : Nat)
  | unclosedDirective (atom : Atom) (key : String) (line column : Nat)
  | missingKey (atom : Atom) (line column : Nat)
  | missingEnd (atom : Atom) (key : String) (line column : Nat)
  | nestingTooDeep (limit : Nat)
  | missingLicenseMap
  | ambiguousLicenseKeys (count : Nat)
  | licenseNotFound (key : String)
  | reservedKey (key : String)
  | malformedSettings
  | licenseFile (path : String) (fault : ReadFault)
deriving DecidableEq, Repr

/-! ### Wording -/

def placeText (line column : Nat) : String := toString line ++ ":" ++ toString column

def Error.message : Error → String
  | .unreadable fault => fault.message
  | .unterminatedComment kind line column =>
    "unterminated " ++ kind.name ++ " starting at " ++ placeText line column
  | .unclosedDirective atom key line column =>
    "`" ++ atom.name ++ " " ++ key ++ "` at " ++ placeText line column ++
      " has no matching `@end`"
  | .missingKey atom line column =>
    "`" ++ atom.name ++ "` at " ++ placeText line column ++ " is missing a key"
  | .missingEnd atom key line column =>
    "`" ++ atom.name ++ " " ++ key ++ "` at " ++ placeText line column ++
      " is followed by content but no `@end`"
  | .nestingTooDeep limit =>
    "directives are nested more than " ++ toString limit ++ " levels deep"
  | .missingLicenseMap => "`@license` requires a license map but none was provided"
  | .ambiguousLicenseKeys count =>
    "license resolution needs at most one active key, got " ++ toString count
  | .licenseNotFound key => "no license text found for key `" ++ key ++ "`"
  | .reservedKey key => "`" ++ key ++ "` is reserved and cannot be used as an active key"
  | .malformedSettings => "failed to parse config file"
  | .licenseFile path fault =>
    "failed to load license file `" ++ path ++ "`: " ++ fault.message

def Error.code : Error → String
  | .unreadable .. => "cutline::io_error"
  | .unterminatedComment .. => "cutline::unterminated_comment"
  | .unclosedDirective .. => "cutline::unclosed_directive"
  | .missingKey .. => "cutline::missing_key"
  | .missingEnd .. => "cutline::missing_end"
  | .nestingTooDeep .. => "cutline::nesting_too_deep"
  | .missingLicenseMap => "cutline::missing_license_map"
  | .ambiguousLicenseKeys .. => "cutline::ambiguous_license_keys"
  | .licenseNotFound .. => "cutline::license_not_found"
  | .reservedKey .. => "cutline::reserved_key"
  | .malformedSettings => "cutline::config_parse"
  | .licenseFile .. => "cutline::license_file"

/-- The advice that comes with an error. -/
def Error.help? : Error → Option String
  | .unterminatedComment .. => some "add the missing closing delimiter for this comment"
  | .unclosedDirective .. =>
    some "close the block with a later `@end` comment at the same nesting depth"
  | .missingKey atom .. =>
    some ("write the key directly after the directive, e.g. `" ++ atom.name ++ " FEATURE`")
  | .missingEnd .. => some "end an inline directive with `@end` inside the same comment"
  | .missingLicenseMap =>
    some "add a `[licenses]` table to cutline.toml or call `TransformOptions::with_license`"
  | .ambiguousLicenseKeys .. =>
    some "activate a single key when licenses or the automatic license header are in use"
  | .licenseNotFound key => some ("add an entry for `" ++ key ++ "` to the license map")
  | .reservedKey .. => some "`DEFAULT` stands for the absence of other keys"
  | .malformedSettings =>
    some ("check that cutline.toml is valid TOML with optional `keys`, `language` and " ++
      "`[licenses]` entries")
  | .unreadable .. | .nestingTooDeep .. | .licenseFile .. => none

def Token.unterminated (t : Token) (kind : CommentKind) : Error :=
  .unterminatedComment kind t.extent.start.line t.extent.start.column

end FeatureCut
