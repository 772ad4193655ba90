/-
  FeatureCut/Proofs/Configuration.lean
  ====================================
  **Errors of the options.**

  Four errors say that the options are at fault and not the document: the reserved key is
  active, several keys are active with licenses in play, there are no licenses, or none for
  the key.  The first two are decided before anything is read.  The other two come up where a
  license is looked up, which may be anywhere in the document or not at all; with a header
  it is the first thing that a run does.

  `Options.Admits` lists what a lookup can find wrong.  That the whole run admits no other
  error of the options is an invariant of trails (`Trail.invariant_admits`), so it holds at
  any depth.  Options that are not refused rule out one more: with at most one key nothing
  is ambiguous (`not_arisesIn_ambiguousLicenseKeys`).
-/
import FeatureCut.Proofs.Diagnostics
import FeatureCut.Proofs.Header

namespace FeatureCut

/-! ### The key of the license -/

/-- The one active key, or the reserved key if none is active. -/
def IsLicenseKey (keys : ActiveKeys) (key : String) : Prop :=
  keys.size = 1 ∧ keys.contains key = true ∨ keys.isEmpty = true ∧ key = reservedKey

theorem ActiveKeys.single?_of_size {keys : ActiveKeys} (h : keys.size = 1) :
    ∃ key, keys.toList = [key] ∧ ActiveKeys.single? keys = some key := by
  obtain ⟨key, hkey⟩ := List.length_eq_one_iff.1 (Std.TreeSet.length_toList.trans h)
  exact ⟨key, hkey, by rw [ActiveKeys.single?, hkey]⟩

theorem ActiveKeys.single?_of_isEmpty {keys : ActiveKeys} (h : keys.isEmpty = true) :
    ActiveKeys.single? keys = none := by
  rw [← Std.TreeSet.isEmpty_toList, List.isEmpty_iff] at h
  rw [ActiveKeys.single?, h]

theorem isLicenseKey_licenseKey {keys : ActiveKeys} (h : ¬1 < keys.size) :
    IsLicenseKey keys (licenseKey keys) := by
  by_cases hsize : keys.size = 1
  · obtain ⟨key, hkeys, hsingle⟩ := ActiveKeys.single?_of_size hsize
    have hmem : key ∈ keys.toList := by rw [hkeys]; exact List.mem_singleton_self key
    refine Or.inl ⟨hsize, ?_⟩
    rw [licenseKey, hsingle]
    exact Std.TreeSet.mem_toList.1 hmem
  · have hempty : keys.isEmpty = true := by
      rw [Std.TreeSet.isEmpty_eq_size_eq_zero, beq_iff_eq]
      omega
    refine Or.inr ⟨hempty, ?_⟩
    rw [licenseKey, ActiveKeys.single?_of_isEmpty hempty, Option.getD_none]

/-- There is no other key whose license is in force. -/
theorem IsLicenseKey.eq_licenseKey {keys : ActiveKeys} {key : String} (h : IsLicenseKey keys key) :
    licenseKey keys = key := by
  rcases h with ⟨hsize, hkey⟩ | ⟨hempty, rfl⟩
  · obtain ⟨key', hkeys, hsingle⟩ := ActiveKeys.single?_of_size hsize
    have hmem : key ∈ keys.toList := Std.TreeSet.mem_toList.2 hkey
    rw [hkeys] at hmem
    rw [licenseKey, hsingle, Option.getD_some, List.mem_singleton.1 hmem]
  · rw [licenseKey, ActiveKeys.single?_of_isEmpty hempty, Option.getD_none]

theorem IsLicenseKey.size_le {keys : ActiveKeys} {key : String} (h : IsLicenseKey keys key) :
    ¬1 < keys.size := by
  rcases h with ⟨hsize, -⟩ | ⟨hempty, -⟩
  · omega
  · rw [Std.TreeSet.isEmpty_eq_size_eq_zero, beq_iff_eq] at hempty
    omega

/-! ### Looking up a license -/

/-- The errors that an evaluation with the options may come to: all errors of the document,
    and those that say what is wrong with the licenses. -/
def Options.Admits (o : Options) : Error → Prop
  | .reservedKey _ => False
  | .ambiguousLicenseKeys _ => o.licenses.isEmpty = false ∧ 1 < o.keys.size
  | .missingLicenseMap => o.licenses.isEmpty = true
  | .licenseNotFound key =>
    o.licenses.isEmpty = false ∧ IsLicenseKey o.keys key ∧ o.licenses.contains key = false
  | _ => True

section

variable {o : Options}

theorem resolveLicense_of_isEmpty (h : o.licenses.isEmpty = true) :
    resolveLicense o.licenses o.keys = .error .missingLicenseMap := by
  rw [resolveLicense, if_pos h]

theorem resolveLicense_of_not_found (hlicenses : o.licenses.isEmpty = false) {key : String}
    (hkey : IsLicenseKey o.keys key) (hnone : o.licenses.contains key = false) :
    resolveLicense o.licenses o.keys = .error (.licenseNotFound key) := by
  rw [resolveLicense, hlicenses, if_neg Bool.false_ne_true, if_neg hkey.size_le,
    hkey.eq_licenseKey, Std.TreeMap.getElem?_eq_none_of_contains_eq_false hnone]

theorem admits_of_resolveLicense {e : Error} (h : resolveLicense o.licenses o.keys = .error e) :
    o.Admits e := by
  rcases resolveLicense_cases h with ⟨hempty, rfl⟩ | ⟨hlicenses, hsize, rfl⟩ |
    ⟨hlicenses, hsize, hnone, rfl⟩
  · exact hempty
  · exact ⟨hlicenses, hsize⟩
  · exact ⟨hlicenses, isLicenseKey_licenseKey hsize, hnone⟩

/-! ### The run -/

theorem Error.IsAbout.admits {e : Error} {t : Token} (h : e.IsAbout t) : o.Admits e := by
  obtain ⟨a, -, rfl | ⟨key, rfl⟩⟩ := h <;> trivial

theorem Error.Raised.admits {limit : Nat} {e : Error} (h : e.Raised limit) : o.Admits e := by
  cases h with
  | unterminated t kind => trivial
  | unsound h =>
    obtain ⟨t, r, -, habout⟩ := exists_of_classify h
    exact habout.admits
  | unsoundHtml h =>
    obtain ⟨t, r, -, habout⟩ := exists_of_classifyHtml h
    exact habout.admits
  | unclosed t p key => trivial
  | nestingTooDeep => trivial

end

theorem Trail.invariant_admits (o : Options) (limit : Nat) :
    Trail.Invariant o limit fun _ a => a.FailsOnly o.Admits where
  andThen := Trail.FailsOnly.andThen
  mapSteps := Trail.FailsOnly.mapSteps
  write := Trail.FailsOnly.write
  report _ := Trail.FailsOnly.report _
  exclusion := exclusionTrail_failsOnly
  license := licenseTrail_failsOnly fun _ => admits_of_resolveLicense
  fail h := Trail.FailsOnly.fail h.admits

theorem evaluate_admits (o : Options) (source : String) :
    (evaluate o source).FailsOnly o.Admits :=
  evaluate_failsOnly (fun _ => admits_of_resolveLicense)
    ((Trail.invariant_admits o maxDepth).evaluateTokens maxDepth _)

/-- Where an error may arise in a run: when the options are checked, in the evaluation of the
    document, or in a branch, an html branch or an inline body, at any depth. -/
inductive ArisesIn (o : Options) (source : String) (e : Error) : Prop
  | options (h : o.validate = .error e)
  | document (h : (evaluate o source).stop = some (.failed e))
  | branch {levels n : Nat} {ts : List Token}
      (h : ((Level.ofDepth o maxDepth levels).branch n ts).stop = some (.failed e))
  | htmlBranch {levels n : Nat} {ts : List Token}
      (h : ((Level.ofDepth o maxDepth levels).htmlBranch n ts).stop = some (.failed e))
  | body {levels : Nat} {cs : List Char}
      (h : ((Level.ofDepth o maxDepth levels).document cs).stop = some (.failed e))

/-- All that arises is refused at the start, or admitted. -/
theorem ArisesIn.cases {o : Options} {source : String} {e : Error} (h : ArisesIn o source e) :
    o.validate = .error e ∨ o.Admits e := by
  have hlevel := (Trail.invariant_admits o maxDepth).level
  cases h with
  | options h => exact Or.inl h
  | document h => exact Or.inr (evaluate_admits o source e h)
  | @branch levels n ts h => exact Or.inr ((hlevel levels).branch n ts e h)
  | @htmlBranch levels n ts h => exact Or.inr ((hlevel levels).htmlBranch n ts e h)
  | @body levels cs h => exact Or.inr ((hlevel levels).document cs e h)

theorem arisesIn_of_transform {o : Options} {source : String} {e : Error}
    (h : transform o source = .error e) : ArisesIn o source e := by
  rcases validate_or_stop_of_transform h with hvalid | hstop
  · exact .options hvalid
  · exact .document hstop

/-! ### Errors of the options -/

theorem transform_of_validate {o : Options} {e : Error} (h : o.validate = .error e)
    (source : String) : transform o source = .error e := by
  rw [transform, h]

/-- With licenses there is a license mode. -/
theorem licenseMode_of_licenses {o : Options} (h : o.licenses.isEmpty = false) :
    o.licenseMode = true := by
  simp [Options.licenseMode, h]

/-- With a header the license is looked up before anything else. -/
theorem transform_of_resolveLicense {o : Options} (hvalid : o.validate = .ok ())
    (hheader : o.autoHeader = true) {e : Error}
    (h : resolveLicense o.licenses o.keys = .error e) (source : String) :
    transform o source = .error e := by
  rw [transform, hvalid]
  dsimp only
  rw [evaluate, evaluateDocument, Options.header, if_pos hheader, h]
  rfl

/-! ### Errors that do not arise -/

section

variable {o : Options}

theorem not_arisesIn_reservedKey (hreserved : o.keys.contains reservedKey = false)
    (source key : String) : ¬ArisesIn o source (.reservedKey key) := by
  intro h
  rcases h.cases with hvalid | hadmits
  · rcases validate_eq_error_iff.1 hvalid with ⟨h, -⟩ | ⟨-, -, -, h⟩
    · rw [hreserved] at h
      cases h
    · cases h
  · exact hadmits

theorem not_arisesIn_ambiguousLicenseKeys
    (hseveral : ¬(o.licenseMode = true ∧ 1 < o.keys.size)) (source : String) (n : Nat) :
    ¬ArisesIn o source (.ambiguousLicenseKeys n) := by
  intro h
  rcases h.cases with hvalid | ⟨hlicenses, hsize⟩
  · rcases validate_eq_error_iff.1 hvalid with ⟨-, h⟩ | ⟨-, hmode, hsize, -⟩
    · cases h
    · exact hseveral ⟨hmode, hsize⟩
  · exact hseveral ⟨licenseMode_of_licenses hlicenses, hsize⟩

/-- An error that options are not refused with arises only if it is admitted. -/
theorem ArisesIn.admits {source : String} {e : Error} (h : ArisesIn o source e)
    (hreserved : ∀ key, e ≠ .reservedKey key) (hseveral : ∀ n, e ≠ .ambiguousLicenseKeys n) :
    o.Admits e := by
  rcases h.cases with hvalid | hadmits
  · rcases validate_eq_error_iff.1 hvalid with ⟨-, he⟩ | ⟨-, -, -, he⟩
    · exact absurd he (hreserved _)
    · exact absurd he (hseveral _)
  · exact hadmits

/-! ### Errors that are returned -/

theorem transform_eq_reservedKey_iff {source key : String} :
    transform o source = .error (.reservedKey key) ↔
      o.keys.contains reservedKey = true ∧ key = reservedKey := by
  constructor
  · intro h
    rcases (arisesIn_of_transform h).cases with hvalid | hadmits
    · rcases validate_eq_error_iff.1 hvalid with ⟨hreserved, he⟩ | ⟨-, -, -, he⟩
      · exact ⟨hreserved, Error.reservedKey.inj he⟩
      · cases he
    · exact hadmits.elim
  · rintro ⟨hreserved, rfl⟩
    exact transform_of_validate (validate_eq_error_iff.2 (Or.inl ⟨hreserved, rfl⟩)) source

theorem transform_eq_ambiguousLicenseKeys_iff {source : String} {n : Nat} :
    transform o source = .error (.ambiguousLicenseKeys n) ↔
      o.keys.contains reservedKey = false ∧ o.licenseMode = true ∧ 1 < n ∧ n = o.keys.size := by
  constructor
  · intro h
    have hreserved : o.keys.contains reservedKey = false := by
      rw [← Bool.not_eq_true]
      intro hreserved
      rw [transform_eq_reservedKey_iff.2 ⟨hreserved, rfl⟩] at h
      cases h
    have hseveral : o.licenseMode = true ∧ 1 < o.keys.size := by
      by_contra hnot
      exact not_arisesIn_ambiguousLicenseKeys hnot source n (arisesIn_of_transform h)
    have hvalid := validate_eq_error_iff.2 (Or.inr ⟨hreserved, hseveral.1, hseveral.2, rfl⟩)
    rw [transform_of_validate hvalid] at h
    cases h
    exact ⟨hreserved, hseveral.1, hseveral.2, rfl⟩
  · rintro ⟨hreserved, hmode, hsize, rfl⟩
    exact transform_of_validate
      (validate_eq_error_iff.2 (Or.inr ⟨hreserved, hmode, hsize, rfl⟩)) source

end

/-! ### The main statement -/

/-- **Errors of the options are decided by the options.**  The reserved key is refused exactly
    if it is active; several keys, with their number, exactly if licenses are in play and the
    reserved key is not active; otherwise neither error arises anywhere in the run.  That
    there are no licenses, or none for the key, is found only where it is so.  With a header
    and options that are not refused, it is the result for every source. -/
theorem transform_configuration (o : Options) (source : String) :
    (∀ e, transform o source = .error e → ArisesIn o source e) ∧
    (∀ key, transform o source = .error (.reservedKey key) ↔
      o.keys.contains reservedKey = true ∧ key = reservedKey) ∧
    (∀ n, transform o source = .error (.ambiguousLicenseKeys n) ↔
      o.keys.contains reservedKey = false ∧ o.licenseMode = true ∧ 1 < n ∧ n = o.keys.size) ∧
    (o.keys.contains reservedKey = false → ¬(o.licenseMode = true ∧ 1 < o.keys.size) →
      (∀ key, ¬ArisesIn o source (.reservedKey key)) ∧
        ∀ n, ¬ArisesIn o source (.ambiguousLicenseKeys n)) ∧
    (ArisesIn o source .missingLicenseMap → o.licenses.isEmpty = true) ∧
    (∀ key, ArisesIn o source (.licenseNotFound key) → o.licenses.isEmpty = false ∧
      IsLicenseKey o.keys key ∧ o.licenses.contains key = false) ∧
    (o.validate = .ok () → o.autoHeader = true →
      (o.licenses.isEmpty = true → transform o source = .error .missingLicenseMap) ∧
      ∀ key, o.licenses.isEmpty = false → IsLicenseKey o.keys key →
        o.licenses.contains key = false →
        transform o source = .error (.licenseNotFound key)) := by
  refine ⟨fun e => arisesIn_of_transform, fun key => transform_eq_reservedKey_iff,
    fun n => transform_eq_ambiguousLicenseKeys_iff, ?neither, ?missing, ?unknown, ?header⟩
  case neither =>
    intro hreserved hseveral
    exact ⟨not_arisesIn_reservedKey hreserved source,
      not_arisesIn_ambiguousLicenseKeys hseveral source⟩
  case missing =>
    intro h
    exact h.admits (fun key => Error.noConfusion) (fun n => Error.noConfusion)
  case unknown =>
    intro key h
    exact h.admits (fun key => Error.noConfusion) (fun n => Error.noConfusion)
  case header =>
    intro hvalid hheader
    refine ⟨?_, ?_⟩
    · intro hempty
      exact transform_of_resolveLicense hvalid hheader (resolveLicense_of_isEmpty hempty) source
    · intro key hlicenses hkey hnone
      exact transform_of_resolveLicense hvalid hheader
        (resolveLicense_of_not_found hlicenses hkey hnone) source

/-- Options with two keys and a license, and with a header for a key without a license. -/
theorem transform_configuration_keys :
    transform ((Options.licensed "L\n").withKeys ["A", "B", "A"]) "/*" =
        .error (.ambiguousLicenseKeys 2) ∧
      (¬∃ n, ArisesIn ((Options.licensed "L\n").withKey "A") "/* @license */"
        (.ambiguousLicenseKeys n)) ∧
      transform (((Options.licensed "L\n").withKey "A").withAutoHeader true) "/*" =
        .error (.licenseNotFound "A") := by
  refine ⟨?_, ?_, ?_⟩
  · have h := transform_configuration ((Options.licensed "L\n").withKeys ["A", "B", "A"]) "/*"
    exact (h.2.2.1 2).2 (by decide +kernel)
  · have h := transform_configuration ((Options.licensed "L\n").withKey "A") "/* @license */"
    rintro ⟨n, hn⟩
    exact (h.2.2.2.1 (by decide +kernel) (by decide +kernel)).2 n hn
  · have h := transform_configuration
      (((Options.licensed "L\n").withKey "A").withAutoHeader true) "/*"
    exact (h.2.2.2.2.2.2 (by decide +kernel) rfl).2 "A" (by decide +kernel)
      (Or.inl (by decide +kernel)) (by decide +kernel)

end FeatureCut
