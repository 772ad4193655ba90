/-
  FeatureCut/License.lean
  =======================
  **License texts.**

  Each key may have a license text of its own, and the reserved key has the text
  for the case that no key is active.
-/
import Std.Data.TreeMap
import FeatureCut.Error
import FeatureCut.Key

namespace FeatureCut

/-- License texts by key, in the order of their code points. -/
abbrev LicenseMap := Std.TreeMap String String

def licenseKey (keys : ActiveKeys) : String := (ActiveKeys.single? keys).getD reservedKey

/-- The license text in force.  There have to be licenses, at most one key may
    be active, and its entry has to be there. -/
def resolveLicense (licenses : LicenseMap) (keys : ActiveKeys) : Except Error String :=
  if licenses.isEmpty then .error .missingLicenseMap
  else if 1 < keys.size then .error (.ambiguousLicenseKeys keys.size)
  else match licenses[licenseKey keys]? with
    | some text => .ok text
    | none => .error (.licenseNotFound (licenseKey keys))

end FeatureCut
