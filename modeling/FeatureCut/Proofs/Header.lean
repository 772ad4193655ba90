/-
  FeatureCut/Proofs/Header.lean
  =============================
  **The license at the head of a document.**

  A run may put the license in force in front of the document.  Nothing else in the run
  changes with it.  What is evaluated with a header is a document, and the only documents
  in a document are the bodies of inline directives, whose options turn the header off
  (`Options.forInlineBody`).  So nothing that is nested depends on that option
  (`Level.ofDepth_withAutoHeader`), and the header is one step in front of the same steps
  (`evaluate_withAutoHeader`).

  The header goes through the same page as the document.  A license that is empty or ends
  in a line break leaves a clean line behind, and what is written after a clean line does
  not depend on what stands above it (`render_append`).
-/
import FeatureCut.Proofs.InlineBody

namespace FeatureCut

/-! ### The page -/

/-- A text that may stand in front of a document: nothing, or complete lines. -/
def IsHeader (cs : List Char) : Prop := cs = [] ∨ EndsInBreak cs

theorem IsHeader.isClean {cs : List Char} (h : IsHeader cs) : (Page.empty.fragment cs).IsClean := by
  rcases h with rfl | h
  · exact ⟨rfl, rfl⟩
  · exact Page.isClean_fragment h Page.empty

theorem render_header {cs : List Char} (h : IsHeader cs) (ss : List Step) :
    render (.fragment cs :: ss) = cs ++ render ss := by
  have hclean : (Page.empty.steps [.fragment cs]).IsClean := h.isClean
  rw [← List.singleton_append, render_append hclean, render_of_copies (Copies.fragment cs)]

theorem Trail.result_header {cs : List Char} (h : IsHeader cs) {a : Trail Step}
    (ha : a.stop = none) :
    ((Trail.write [.fragment cs]).andThen a).result =
      .ok (String.ofList (cs ++ render a.steps)) := by
  have hstop : ((Trail.write [.fragment cs]).andThen a).stop = none := ha
  rw [Trail.result_of_none hstop, ← render_header h]
  rfl

/-- Where an evaluation stops early, it does not matter what was written before. -/
theorem Trail.result_write_andThen (ss : List Step) {a : Trail Step} (ha : a.stop ≠ none) :
    ((Trail.write ss).andThen a).result = a.result := by
  obtain ⟨steps, events, stop⟩ := a
  rcases stop with _ | (_ | e)
  · exact absurd rfl ha
  · rfl
  · rfl

/-! ### Options with and without a header -/

/-- What is nested in a document is evaluated without a look at the header. -/
theorem Level.ofDepth_withAutoHeader (o : Options) (header : Bool) (limit n : Nat) :
    Level.ofDepth (o.withAutoHeader header) limit n = Level.ofDepth o limit n := by
  have hbody : (o.withAutoHeader header).forInlineBody = o.forInlineBody := rfl
  rw [← Level.ofDepth_forInlineBody, hbody, Level.ofDepth_forInlineBody]

section

variable {o : Options} {license : String}
  (hlicense : resolveLicense o.licenses o.keys = .ok license)
include hlicense

theorem licenses_of_resolveLicense : o.licenses.isEmpty = false := by
  rw [← Bool.not_eq_true]
  intro hempty
  rw [resolveLicense, if_pos hempty] at hlicense
  cases hlicense

/-- Options with a license in force are refused or not whether a header is asked for or
    not. -/
theorem validate_withAutoHeader (header : Bool) :
    (o.withAutoHeader header).validate = o.validate := by
  have hmode : ∀ header, (o.withAutoHeader header).licenseMode = true := by
    intro header
    simp [Options.licenseMode, Options.withAutoHeader, licenses_of_resolveLicense hlicense]
  have hkeys : (o.withAutoHeader header).keys = o.keys := rfl
  rw [Options.validate, Options.validate, hmode, hkeys, ← hmode o.autoHeader]
  rfl

/-- The header is one step in front of what the document gives without it. -/
theorem evaluate_withAutoHeader (source : String) :
    evaluate (o.withAutoHeader true) source =
      (Trail.write [.fragment license.toList]).andThen
        (evaluate (o.withAutoHeader false) source) := by
  have hresolve : resolveLicense (o.withAutoHeader true).licenses (o.withAutoHeader true).keys =
      .ok license := hlicense
  have hon : (o.withAutoHeader true).autoHeader = true := rfl
  rw [evaluate_of_no_header (o := o.withAutoHeader false) rfl, evaluate, evaluateDocument,
    Options.header, if_pos hon, hresolve, Level.ofDepth_withAutoHeader,
    Level.ofDepth_withAutoHeader]
  rfl

/-- The two runs are refused together, or the one with the header writes it first. -/
theorem transform_withAutoHeader_cases (source : String) :
    (∃ e, transform (o.withAutoHeader false) source = .error e ∧
      transform (o.withAutoHeader true) source = .error e) ∨
    transform (o.withAutoHeader false) source =
        (evaluate (o.withAutoHeader false) source).result ∧
      transform (o.withAutoHeader true) source =
        ((Trail.write [.fragment license.toList]).andThen
          (evaluate (o.withAutoHeader false) source)).result := by
  rw [transform, transform, validate_withAutoHeader hlicense, validate_withAutoHeader hlicense,
    evaluate_withAutoHeader hlicense]
  cases o.validate with
  | error e => exact Or.inl ⟨e, rfl, rfl⟩
  | ok u => exact Or.inr ⟨rfl, rfl⟩

theorem transform_of_header (hheader : IsHeader license.toList) {source out : String}
    (hoff : transform (o.withAutoHeader false) source = .ok out)
    (hexcluded : (evaluate (o.withAutoHeader false) source).stop ≠ some .excluded) :
    transform (o.withAutoHeader true) source = .ok (license ++ out) := by
  rcases transform_withAutoHeader_cases hlicense source with ⟨e, he, -⟩ | ⟨hresult, hon⟩
  · rw [he] at hoff
    cases hoff
  · rw [hresult] at hoff
    have hstop := Trail.stop_eq_none_of_result hoff hexcluded
    rw [Trail.result_of_none hstop] at hoff
    rw [hon, Trail.result_header hheader hstop, String.ofList_append, String.ofList_toList,
      Except.ok.inj hoff]

end

/-! ### The main statement -/

/-- **The header stands in front of the document once.**  With a license that is empty or
    ends in a line break, a run with a header gives the license and then what the run gives
    without it.  A file exclusion leaves nothing of the header, and an error is the same.
    The license is the first step, all other steps and events are those of the run without
    a header, and the body of an inline directive is evaluated for its tokens alone, however
    deep it stands. -/
theorem transform_header {o : Options} {license : String}
    (hlicense : resolveLicense o.licenses o.keys = .ok license)
    (hheader : IsHeader license.toList) (source : String) :
    (∀ out, transform (o.withAutoHeader false) source = .ok out →
      (evaluate (o.withAutoHeader false) source).stop ≠ some .excluded →
      transform (o.withAutoHeader true) source = .ok (license ++ out)) ∧
    (∀ out, transform (o.withAutoHeader false) source = .ok out →
      (evaluate (o.withAutoHeader false) source).stop = some .excluded →
      transform (o.withAutoHeader true) source = .ok "") ∧
    (∀ e, transform (o.withAutoHeader false) source = .error e →
      transform (o.withAutoHeader true) source = .error e) ∧
    evaluate (o.withAutoHeader true) source =
      (Trail.write [.fragment license.toList]).andThen
        (evaluate (o.withAutoHeader false) source) ∧
    ∀ n body, (Level.ofDepth (o.withAutoHeader true) maxDepth (n + 1)).document body =
      evaluateTokens (o.withAutoHeader false) (Level.ofDepth (o.withAutoHeader false) maxDepth n)
        (tokenize o.language.profile (String.ofList body)) := by
  refine ⟨?success, ?exclusion, ?failure, evaluate_withAutoHeader hlicense source, ?body⟩
  case success => exact fun out => transform_of_header hlicense hheader
  case exclusion =>
    intro out hoff hexcluded
    rcases transform_withAutoHeader_cases hlicense source with ⟨e, he, -⟩ | ⟨-, hon⟩
    · rw [he] at hoff
      cases hoff
    · rw [hon, Trail.result_write_andThen _ (by simp [hexcluded]), Trail.result, hexcluded]
  case failure =>
    intro e hoff
    rcases transform_withAutoHeader_cases hlicense source with ⟨e', he, he'⟩ | ⟨hresult, hon⟩
    · rwa [he', ← he]
    · have hstop : (evaluate (o.withAutoHeader false) source).stop ≠ none := by
        intro hnone
        rw [hresult, Trail.result_of_none hnone] at hoff
        cases hoff
      rw [hon, Trail.result_write_andThen _ hstop, ← hresult, hoff]
  case body =>
    intro n body
    rw [Level.ofDepth_withAutoHeader, Level.ofDepth_withAutoHeader, Level.ofDepth_succ]
    rfl

/-- An inline body and a line that ask for the license once more, behind a body without it. -/
def headerSource : String :=
  "/* @exclude-if A\n<!-- /* @license */ --> @end */\n/* @license */\nx /* @exclude-if B y @end */"

/-- The license is written where it is asked for and once in front; with an exclusion in the
    document it is not written at all, and a comment without an end is the same error. -/
theorem transform_header_license :
    let o := Options.licensed "L\n"
    resolveLicense o.licenses o.keys = .ok "L\n" ∧ IsHeader "L\n".toList ∧
      transform (o.withAutoHeader true) headerSource = .ok ("L\n" ++ "<!-- L\n -->\nL\nx y") ∧
      transform (o.withAutoHeader true) "x\n/* @file-exclude-if DEFAULT */" = .ok "" ∧
      transform (o.withAutoHeader true) "x\n/* y" = .error (.unterminatedComment .block 2 1) := by
  have hlicense : resolveLicense (Options.licensed "L\n").licenses (Options.licensed "L\n").keys =
      .ok "L\n" := by
    decide +kernel
  have hheader : IsHeader "L\n".toList := Or.inr ⟨['L'], '\n', rfl, rfl⟩
  refine ⟨hlicense, hheader, ?_, ?_, ?_⟩
  · exact (transform_header hlicense hheader headerSource).1 _ (by decide +kernel)
      (by decide +kernel)
  · exact (transform_header hlicense hheader "x\n/* @file-exclude-if DEFAULT */").2.1 ""
      (by decide +kernel) (by decide +kernel)
  · exact (transform_header hlicense hheader "x\n/* y").2.2.1 _ (by decide +kernel)

end FeatureCut
