/-
  FeatureCut/Options.lean
  =======================
  **The options of a run.**

  The active keys, the host language, the license texts, and whether the license
  in force is put at the head of the document.
-/
import FeatureCut.Language
import FeatureCut.License

namespace FeatureCut

structure Options where
  keys : ActiveKeys := ∅
  language : Language := .generic
  licenses : LicenseMap := ∅
  autoHeader : Bool := false

def Options.withKey (o : Options) (key : String) : Options :=
  { o with keys := o.keys.insert key }

def Options.withKeys (o : Options) (keys : List String) : Options :=
  keys.foldl Options.withKey o

def Options.withLanguage (o : Options) (language : Language) : Options :=
  { o with language := language }

def Options.withLicense (o : Options) (key text : String) : Options :=
  { o with licenses := o.licenses.insert key text }

/-- Set the license texts of several keys; a later text replaces an earlier
    one. -/
def Options.withLicenses (o : Options) (licenses : List (String × String)) : Options :=
  licenses.foldl (fun o entry => o.withLicense entry.1 entry.2) o

def Options.withAutoHeader (o : Options) (enabled : Bool) : Options :=
  { o with autoHeader := enabled }

/-- The options for the body of an inline directive.  A header is written in front of the
    whole document only. -/
def Options.forInlineBody (o : Options) : Options := { o with autoHeader := false }

/-- Licenses are in play when there are any, or when a header is asked for. -/
def Options.licenseMode (o : Options) : Bool := o.autoHeader || !o.licenses.isEmpty

/-- Options that can never give a document are refused: the reserved key may not
    be active, and with licenses in play no more than one key may. -/
def Options.validate (o : Options) : Except Error Unit :=
  if o.keys.contains reservedKey then .error (.reservedKey reservedKey)
  else if o.licenseMode && 1 < o.keys.size then .error (.ambiguousLicenseKeys o.keys.size)
  else .ok ()

end FeatureCut
