/-
  FeatureCut/Settings.lean
  ========================
  **Settings files.**

  Settings are kept in a TOML file at one of three places below a root
  directory.  They give the host language, the active keys, the license texts or
  the files that hold them, and whether the license is put at the head of every
  document.
-/
import FeatureCut.FileTree
import FeatureCut.Options
import FeatureCut.Toml.Document

namespace FeatureCut

open Toml (Value)

/-! ### Settings -/

/-- A license text, or the file that it is in, which is below the root unless the path
    says otherwise. -/
inductive LicenseSource where
  | text (s : String)
  | file (path : String)
deriving DecidableEq, Repr

/-- What a settings file says.  Without a language the extension of a document tells it. -/
structure Settings where
  language : Option Language
  keys : List String
  autoHeader : Bool
  licenses : Std.TreeMap String LicenseSource

/-! ### Decoding -/

/-- A language is given by its name, or by a table whose only key is the name and
    whose value is empty. -/
def languageOf? : Value → Option Language
  | .text name => Language.ofName? name
  | .table _ [(name, .table _ [])] => Language.ofName? name
  | .table _ [(name, .list [])] => Language.ofName? name
  | _ => none

def textOf? : Value → Option String
  | .text s => some s
  | _ => none

def keysOf? : Value → Option (List String)
  | .list values => values.mapM textOf?
  | _ => none

def booleanOf? : Value → Option Bool
  | .boolean b => some b
  | _ => none

/-- A license is given by its text, or by the path of its file: in a table under
    `path`, or as the only element of a list.  Other entries of the table mean
    nothing, but integers in them have to fit into 64 bits. -/
def licenseSourceOf? (v : Value) : Option LicenseSource :=
  if v.fitsWord then
    match v with
    | .text s => some (.text s)
    | .list [v] => (textOf? v).map .file
    | .table _ entries => ((entries.lookup "path").bind textOf?).map .file
    | _ => none
  else none

/-- The name under which a date or time counts as a table of one text. -/
def momentKey : String := "$__toml_private_datetime"

def licensesOf? (v : Value) : Option (Std.TreeMap String LicenseSource) := do
  let entries ← match v with
    | .table _ entries => some entries
    | .moment s => some [(momentKey, .text s)]
    | _ => none
  let sources ← entries.mapM fun entry => (licenseSourceOf? entry.2).map fun s => (entry.1, s)
  some (Std.TreeMap.ofList sources)

/-- Decode the entry of a key, or take a default if there is none. -/
def decodeField {α : Type} (entries : Toml.Entries) (key : String) (f : Value → Option α)
    (default : α) : Option α :=
  match entries.lookup key with
  | some v => f v
  | none => some default

/-- Decode a settings table.  Keys that mean nothing are passed over. -/
def Settings.ofEntries? (entries : Toml.Entries) : Option Settings := do
  let language ← decodeField entries "language" (fun v => (languageOf? v).map some) none
  let keys ← decodeField entries "keys" keysOf? []
  let autoHeader ← decodeField entries "auto_license_header" booleanOf? false
  let licenses ← decodeField entries "licenses" licensesOf? ∅
  some ⟨language, keys, autoHeader, licenses⟩

def Settings.parse (text : String) : Except Error Settings :=
  match (Toml.parse text).bind Settings.ofEntries? with
  | some settings => .ok settings
  | none => .error .malformedSettings

/-! ### Loading -/

/-- The places of a settings file, the first one that exists counts. -/
def settingsPaths : List String := ["cutline.toml", ".cutline.toml", ".config/cutline.toml"]

def FileTree.settingsPath? (t : FileTree) : Option String := settingsPaths.find? t.isFile

def Settings.load (t : FileTree) : Except Error (Option Settings) :=
  match t.settingsPath? with
  | none => .ok none
  | some path =>
    match t.read path with
    | .error fault => .error (.unreadable fault)
    | .ok text => (Settings.parse text).map some

def Settings.languageFor (s : Settings) (path : String) : Language :=
  match s.language with
  | some language => language
  | none => (Language.ofPath? path).getD .generic

def LicenseSource.load (t : FileTree) : LicenseSource → Except Error String
  | .text s => .ok s
  | .file path =>
    match t.read path with
    | .ok found => .ok found
    | .error fault => .error (.licenseFile path fault)

/-- Load all license texts, in the order of their keys.  The first one that is
    missing counts. -/
def Settings.loadLicenses (s : Settings) (t : FileTree) : Except Error (List (String × String)) :=
  s.licenses.toList.mapM fun entry => (entry.2.load t).map fun text => (entry.1, text)

def Settings.toOptions (s : Settings) (t : FileTree) (path : String) : Except Error Options :=
  (s.loadLicenses t).map fun licenses =>
    (((({} : Options).withKeys s.keys).withLanguage (s.languageFor path)).withLicenses
      licenses).withAutoHeader s.autoHeader

end FeatureCut
