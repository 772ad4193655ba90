/-
  FeatureCut/Proofs/LicenseLine.lean
  ==================================
  **A license directive on the first line.**

  The directive is replaced by the license in force, and the line break after it is taken
  along.  On the page that is almost a header.  The difference is that the directive marks
  its line before the license is written, and a marked line without content is dropped.  So
  the license is written as it is if its first line has content; a first line with only
  spaces and tabs is dropped with its break (`Page.steps_license`, `withoutBlankLine`).

  What follows the directive is evaluated as if it stood alone
  (`evaluateTokens_licenseLine`), and the license ends its last line.
-/
import FeatureCut.Proofs.Header
import FeatureCut.Proofs.PageText

namespace FeatureCut

/-! ### The first line of a text -/

/-- What follows the first line of a text and its break. -/
def afterFirstLine (cs : List Char) : List Char :=
  match fromBreak cs with
  | [] => []
  | c :: r => (breakFrom c r).2

/-- A text without its first line, if that holds only spaces and tabs. -/
def withoutBlankLine (cs : List Char) : List Char :=
  if (firstLine cs).all isIndent then afterFirstLine cs else cs

theorem Page.fragment_line (p : Page) {w : List Char} (hw : ∀ c ∈ w, isBreak c = false)
    (r : List Char) : p.fragment (w ++ r) = (p.text w).fragment r := by
  induction w generalizing p with
  | nil => simp [Page.text]
  | cons c w ih =>
    have hw' : ∀ d ∈ w, isBreak d = false := fun d hd => hw d (List.mem_cons_of_mem c hd)
    rw [List.cons_append, p.fragment_char (hw c List.mem_cons_self), ih _ hw']
    simp [Page.text]

/-- A text with a break in it ends the line after its first line. -/
theorem exists_fragment_firstLine {cs : List Char} (h : HasBreak cs) :
    ∃ b, ∀ p : Page,
      p.fragment cs = ((p.text (firstLine cs)).eol b).fragment (afterFirstLine cs) := by
  obtain ⟨c, r, hrest⟩ := List.exists_cons_of_ne_nil h.fromBreak.ne_nil
  have hc : isBreak c = true := head?_fromBreak cs c (by rw [hrest]; rfl)
  have hsplit : firstLine cs ++ c :: r = cs := by rw [← hrest, firstLine_append_fromBreak]
  refine ⟨(breakFrom c r).1, fun p => ?_⟩
  rw [afterFirstLine, hrest]
  -- the text is cut on the left only, the right speaks of its first line already
  conv_lhs => rw [← hsplit]
  rw [p.fragment_line mem_firstLine, Page.fragment_break _ hc]

theorem EndsInBreak.hasBreak {cs : List Char} (h : EndsInBreak cs) : HasBreak cs := by
  obtain ⟨l, c, rfl, hc⟩ := h
  exact ⟨c, by simp, hc⟩

theorem EndsInBreak.of_suffix {cs r : List Char} (h : EndsInBreak cs) (hr : r <:+ cs) :
    IsHeader r := by
  obtain ⟨l, c, rfl, hc⟩ := h
  rcases List.eq_nil_or_concat r with rfl | ⟨r', d, rfl⟩
  · exact Or.inl rfl
  · rw [List.concat_eq_append] at hr ⊢
    obtain ⟨m, hm⟩ := hr
    rw [← List.append_assoc] at hm
    obtain ⟨-, hd⟩ := List.append_inj' hm rfl
    exact Or.inr ⟨r', d, rfl, by rwa [List.singleton_inj.1 hd]⟩

theorem afterFirstLine_suffix (cs : List Char) : afterFirstLine cs <:+ cs := by
  have hrest : fromBreak cs <:+ cs := List.dropWhile_suffix _
  unfold afterFirstLine
  split
  · exact List.nil_suffix
  · rename_i c r hr
    rw [hr] at hrest
    exact (List.IsSuffix.trans ⟨_, breakFrom_append c r⟩ hrest)

theorem isHeader_withoutBlankLine {cs : List Char} (h : EndsInBreak cs) :
    IsHeader (withoutBlankLine cs) := by
  unfold withoutBlankLine
  split
  · exact h.of_suffix (afterFirstLine_suffix cs)
  · exact Or.inr h

/-! ### The page -/

/-- The first line counts as the line of the directive, and all others as they are. -/
theorem Page.fragment_mark {cs : List Char} (h : EndsInBreak cs) :
    Page.empty.mark.fragment cs = Page.empty.fragment (withoutBlankLine cs) := by
  obtain ⟨b, hfragment⟩ := exists_fragment_firstLine h.hasBreak
  have hcontent : (Page.empty.mark.text (firstLine cs)).hasContent =
      !(firstLine cs).all isIndent := by
    rw [Page.hasContent_text, List.not_all_eq_any_not]
    rfl
  rw [hfragment]
  unfold withoutBlankLine
  by_cases hblank : (firstLine cs).all isIndent = true
  · have heol : (Page.empty.mark.text (firstLine cs)).eol b = Page.empty := by
      rw [Page.eol, Page.keepsLine, hcontent, hblank]
      rfl
    rw [if_pos hblank, heol]
  · have heol : (Page.empty.mark.text (firstLine cs)).eol b =
        (Page.empty.text (firstLine cs)).eol b := by
      rw [Page.eol, Page.keepsLine, hcontent, Bool.eq_false_iff.2 hblank]
      rfl
    rw [if_neg hblank, heol, hfragment]

theorem Page.IsClean.discard_mark {p : Page} (hp : p.IsClean) : p.mark.discard = p := by
  obtain ⟨lines, line, marked⟩ := p
  obtain ⟨rfl, rfl⟩ : line = [] ∧ marked = false := hp
  rfl

/-- What the directive and the break after it write is a header but for a blank line. -/
theorem Page.steps_license {cs : List Char} (h : EndsInBreak cs) :
    Page.empty.steps [.mark, .fragment cs, .mark, .discard] =
      Page.empty.steps [.fragment (withoutBlankLine cs)] := by
  have hclean : (Page.empty.mark.fragment cs).IsClean := Page.isClean_fragment h _
  calc Page.empty.steps [.mark, .fragment cs, .mark, .discard]
      = (Page.empty.mark.fragment cs).mark.discard := rfl
    _ = Page.empty.mark.fragment cs := hclean.discard_mark
    _ = Page.empty.fragment (withoutBlankLine cs) := Page.fragment_mark h

theorem render_license {cs : List Char} (h : EndsInBreak cs) (ss : List Step) :
    render ([.mark, .fragment cs, .mark, .discard] ++ ss) = withoutBlankLine cs ++ render ss := by
  rw [← render_header (isHeader_withoutBlankLine h), render, Page.steps_append,
    Page.steps_license h]
  rfl

/-! ### The document -/

def licenseSaying : Saying (.license none) where
  toComment := bareComment (atomPieces .license) (by decide)
  classified := by rfl

def licenseNode : Node := .remark (.license none) licenseSaying Role.noConfusion

/-- The break goes with the directive, and then comes what follows them. -/
theorem evaluateTokens_licenseLine (o : Options) (limit n : Nat) (ts : List Token) :
    evaluateTokens o (Level.ofDepth o limit n) (licenseSaying.tokens ++ newlineToken :: ts) =
      ((licenseTrail o none).andThen (.write [.discard])).andThen
        (evaluateTokens o (Level.ofDepth o limit n) ts) := by
  have hnode : licenseNode.Evaluates o limit := Node.evaluates_remark o limit _ licenseSaying _
  have hwalk := Node.walk_tokens hnode n true (newlineToken :: ts).length (newlineToken :: ts)
  have hbreak : breakAfter? true (newlineToken :: ts).length 0 (newlineToken :: ts) =
      some newlineToken := by
    simp [breakAfter?, newlineToken, Piece.bare]
  rw [hbreak] at hwalk
  rw [evaluateTokens, List.length_append]
  exact hwalk

theorem licenseTrail_eq {o : Options} {license : String}
    (hlicense : resolveLicense o.licenses o.keys = .ok license) (key : Option String) :
    licenseTrail o key =
      ⟨[.mark, .fragment license.toList, .mark], [.licenseRequested key], none⟩ := by
  rw [licenseTrail, hlicense]
  rfl

/-- The result behind a license directive is the license, but for a blank first line, and the
    result of what follows. -/
theorem Trail.result_license {o : Options} {license : String}
    (hlicense : resolveLicense o.licenses o.keys = .ok license)
    (hbreak : EndsInBreak license.toList) {a : Trail Step} (ha : a.stop = none) :
    (((licenseTrail o none).andThen (.write [.discard])).andThen a).result =
      .ok (String.ofList (withoutBlankLine license.toList ++ render a.steps)) := by
  have hstop : (((licenseTrail o none).andThen (.write [.discard])).andThen a).stop = none := by
    rw [licenseTrail_eq hlicense]
    exact ha
  rw [Trail.result_of_none hstop, ← render_license hbreak, licenseTrail_eq hlicense]
  rfl

/-! ### The main statement -/

theorem Options.withAutoHeader_eq_self {o : Options} {header : Bool}
    (h : o.autoHeader = header) : o.withAutoHeader header = o := by
  subst h
  rfl

/-- **A license directive on the first line stands for a header.**  With a license that ends
    in a line break, the document gives the license and then what the rest gives alone.  That
    is the document with a header if the first line of the license has content.  If it holds
    only spaces and tabs, it is dropped with its break: the directive has marked it. -/
theorem transform_licenseLine {o : Options}
    (hblock : o.language.profile.blockComments = true) (hheader : o.autoHeader = false)
    {license : String} (hlicense : resolveLicense o.licenses o.keys = .ok license)
    (hbreak : EndsInBreak license.toList) {source out : String}
    (hstart : source.toList.head? ≠ some '\r') (h : transform o source = .ok out)
    (hexcluded : (evaluate o source).stop ≠ some .excluded) :
    transform o (directiveLine Atom.license.name ++ source) =
        .ok (String.ofList (withoutBlankLine license.toList) ++ out) ∧
      transform (o.withAutoHeader true) source = .ok (license ++ out) ∧
      ((firstLine license.toList).all isIndent = false →
        transform o (directiveLine Atom.license.name ++ source) =
          transform (o.withAutoHeader true) source) := by
  have hon : transform (o.withAutoHeader true) source = .ok (license ++ out) := by
    rw [← Options.withAutoHeader_eq_self hheader] at h hexcluded
    exact transform_of_header hlicense (Or.inr hbreak) h hexcluded
  have hline : transform o (directiveLine Atom.license.name ++ source) =
      .ok (String.ofList (withoutBlankLine license.toList) ++ out) := by
    obtain ⟨hvalid, hresult⟩ := (transform_eq_ok_iff hheader).1 h
    rw [evaluate_of_no_header hheader] at hexcluded
    have hstop := Trail.stop_eq_none_of_result hresult hexcluded
    refine (transform_eq_ok_iff hheader).2 ⟨hvalid, ?_⟩
    -- places do not matter, and without them the rest is cut into the tokens of the source
    have hrest := evaluateTokens_bareTokens o maxDepth maxDepth source
    have hstop' := (Trail.stop_of_bare hrest).2 hstop
    have hresult' := (Trail.result_of_bare hrest).2 hresult
    rw [Trail.result_of_none hstop'] at hresult'
    have htokens : bareTokens o.language.profile
        (directiveLine Atom.license.name ++ source).toList =
          licenseSaying.tokens ++ newlineToken :: bareTokens o.language.profile source.toList := by
      rw [String.toList_append, bareTokens_atomLine hblock .license hstart]
      rfl
    rw [← Trail.result_of_bare (evaluateTokens_bareTokens o maxDepth maxDepth _), htokens,
      evaluateTokens_licenseLine, Trail.result_license hlicense hbreak hstop',
      String.ofList_append, Except.ok.inj hresult']
  refine ⟨hline, hon, fun hcontent => ?_⟩
  rw [hline, hon, withoutBlankLine, hcontent, if_neg Bool.false_ne_true, String.ofList_toList]

/-- A license with a blank line further down is written as it is, in front of a document that
    asks for it again; of one that starts with two blank lines the first is dropped. -/
theorem transform_licenseLine_blank :
    let source := "\nx /* @license */\n/* @exclude-if A */\ny\n/* @end */"
    transform (Options.licensed "L\n \n") (directiveLine Atom.license.name ++ source) =
        .ok ("L\n \n" ++ "\nx L\n \ny\n") ∧
      transform (Options.licensed " \n\nL\n") (directiveLine Atom.license.name ++ "x\n") =
        .ok ("\nL\n" ++ "x\n") := by
  have hends : ∀ l, EndsInBreak (l ++ ['\n']) := fun l => ⟨l, '\n', rfl, rfl⟩
  refine ⟨?_, ?_⟩
  · have hlicense : resolveLicense (Options.licensed "L\n \n").licenses
        (Options.licensed "L\n \n").keys = .ok "L\n \n" := by decide +kernel
    have halone : transform (Options.licensed "L\n \n")
        "\nx /* @license */\n/* @exclude-if A */\ny\n/* @end */" = .ok "\nx L\n \ny\n" := by
      decide +kernel
    obtain ⟨-, hon, hsame⟩ := transform_licenseLine rfl rfl hlicense (hends ['L', '\n', ' '])
      (by decide) halone (by decide +kernel)
    exact (hsame (by decide)).trans hon
  · have hlicense : resolveLicense (Options.licensed " \n\nL\n").licenses
        (Options.licensed " \n\nL\n").keys = .ok " \n\nL\n" := by decide +kernel
    have halone : transform (Options.licensed " \n\nL\n") "x\n" = .ok "x\n" := by
      decide +kernel
    exact (transform_licenseLine rfl rfl hlicense (hends [' ', '\n', '\n', 'L']) (by decide)
      halone (by decide +kernel)).1

/-- A license that starts with a blank line is not what the directive writes, although the
    same license is written as a header. -/
theorem licenseLine_drops_blank :
    let o := Options.licensed "\nL\n"
    o.validate = .ok () ∧ resolveLicense o.licenses o.keys = .ok "\nL\n" ∧
      EndsInBreak "\nL\n".toList ∧ transform o "x\n" = .ok "x\n" ∧
      (evaluate o "x\n").stop ≠ some .excluded ∧
      transform (o.withAutoHeader true) "x\n" = .ok ("\nL\n" ++ "x\n") ∧
      transform o (directiveLine Atom.license.name ++ "x\n") ≠ .ok ("\nL\n" ++ "x\n") := by
  refine ⟨by decide +kernel, by decide +kernel, ⟨['\n', 'L'], '\n', rfl, rfl⟩,
    by decide +kernel, by decide +kernel, by decide +kernel, by decide +kernel⟩

end FeatureCut
