/-
  FeatureCut/Language.lean
  ========================
  **Host languages.**

  A document is written in a host language, which fixes its comment profile.
  The language is named in settings, or guessed from a file extension.
-/
import FeatureCut.Language.Profile

namespace FeatureCut

/-! ### Languages and their profiles -/

/-- The host languages; `generic` is used where nothing else is known. -/
inductive Language where
  | generic
  | java
  | cpp
  | csharp
  | python
  | sql
deriving DecidableEq, Repr

instance : Inhabited Language := ⟨.generic⟩

def Language.profile : Language → Profile
  | .generic | .java | .csharp => ⟨true, true, false, false, true⟩
  | .cpp => ⟨true, true, false, false, false⟩
  | .python => ⟨false, false, true, false, true⟩
  | .sql => ⟨true, false, false, true, false⟩

/-! ### Names -/

def Language.name : Language → String
  | .generic => "default"
  | .java => "java"
  | .cpp => "cpp"
  | .csharp => "csharp"
  | .python => "python"
  | .sql => "sql"

/-- Read a language name.  Names are exact, and two languages have a second
    name. -/
def Language.ofName? : String → Option Language
  | "default" => some .generic
  | "java" => some .java
  | "cpp" | "c++" => some .cpp
  | "csharp" | "c#" => some .csharp
  | "python" => some .python
  | "sql" => some .sql
  | _ => none

theorem Language.ofName?_name (l : Language) : Language.ofName? l.name = some l := by
  cases l <;> rfl

/-! ### Extensions -/

/-- The language that a file extension stands for, without its dot and in any
    case of the ASCII letters. -/
def Language.ofExtension? (extension : String) : Option Language :=
  match String.ofList (extension.toList.map Char.toLower) with
  | "java" => some .java
  | "c" | "h" | "cc" | "cpp" | "cxx" | "hpp" | "hh" => some .cpp
  | "cs" => some .csharp
  | "py" | "pyi" => some .python
  | "sql" => some .sql
  | _ => none

/-- The last component of a path that names something.  Empty components and
    `.` name nothing, and neither does a final `..`. -/
def fileName? (path : List Char) : Option (List Char) :=
  match ((path.splitOn '/').filter fun part => part != [] && part != ['.']).getLast? with
  | some ['.', '.'] => none
  | other => other

/-- What follows the last dot of a file name, if anything stands before it. -/
def extension? (name : List Char) : Option (List Char) :=
  let extension := (name.reverse.takeWhile (· != '.')).reverse
  if extension.length + 1 < name.length then some extension else none

def Language.ofPath? (path : String) : Option Language := do
  let name ← fileName? path.toList
  let extension ← extension? name
  Language.ofExtension? (String.ofList extension)

end FeatureCut
