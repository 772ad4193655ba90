/-
  FeatureCut/Proofs/CommentForms.lean
  ===================================
  **One directive in two forms.**

  A directive can stand in a line comment or in a block comment.  What is between the
  delimiters is read by the same moves, which stop at different places: at the end of the
  line, or in front of `*/`.  No lexeme reaches over either of them, so the tokens inside
  come out the same (`scan_unbroken`), and so does what the comment says, up to the places
  of its tokens (`classify_lineComment`).
-/
import FeatureCut.Proofs.DirectiveLine
import FeatureCut.Proofs.LineComment

namespace FeatureCut

/-! ### Documents that are one comment -/

/-- The tokens of a source that is one comment, with `inner` between its delimiters. -/
def IsSingleComment (ts : List Token) (opener closer : Piece) (inner : List Token) : Prop :=
  ∃ o c e, ts = o :: (inner ++ [c, e]) ∧ o.toPiece = opener ∧ c.toPiece = closer ∧
    e.kind = .eof ∧ ∀ t ∈ inner, IsInner .comment t.toPiece

/-- The inner tokens are all but the first one and the last two. -/
theorem IsSingleComment.inner_eq {ts inner : List Token} {opener closer : Piece}
    (h : IsSingleComment ts opener closer inner) : inner = ts.tail.dropLast.dropLast := by
  obtain ⟨o, c, e, rfl, -⟩ := h
  simp [List.dropLast_append_of_ne_nil]

theorem exists_inner_of_scan {p : Profile} {source : String} {opener closer : Piece}
    {ps : List Piece} (hdelimits : Delimits opener closer) (hps : ∀ q ∈ ps, IsInner .comment q)
    (h : scan p (.code true) source.toList = opener :: (ps ++ [closer, ⟨.eof, [], .code⟩])) :
    ∃ inner, IsSingleComment (tokenize p source) opener closer inner ∧
      inner.map Token.toPiece = coalesce ps := by
  have hopener : opener.kind ≠ .text := by cases hdelimits <;> simp
  have hcloser : closer.kind ≠ .text := by cases hdelimits <;> simp [blockCloser, lineCloser]
  have hpieces := toPiece_tokenize p source
  rw [h, coalesce_cons_of_ne hopener, coalesce_append_cons ps hcloser] at hpieces
  obtain ⟨o, rest, hts, ho, hrest⟩ := List.map_eq_cons_iff.1 hpieces
  obtain ⟨inner, ends, rfl, hinner, hends⟩ := List.map_eq_append_iff.1 hrest
  obtain ⟨c, ends, rfl, hc, hends⟩ := List.map_eq_cons_iff.1 hends
  obtain ⟨e, ends, rfl, he, hnil⟩ := List.map_eq_cons_iff.1 hends
  obtain rfl := List.map_eq_nil_iff.1 hnil
  refine ⟨inner, ⟨o, c, e, hts, ho, hc, congrArg Piece.kind he, ?_⟩, hinner⟩
  have hjoined : ∀ q ∈ coalesce ps, IsInner .comment q :=
    forall_mem_coalesce (fun q r _ hq _ _ => ⟨Or.inl rfl, hq.context⟩) hps
  intro t ht
  apply hjoined
  rw [← hinner]
  exact List.mem_map_of_mem ht

/-! ### The two forms -/

theorem OpensDirective.head?_ne {b : List Char} (h : OpensDirective b) (r : List Char) :
    (b ++ r).head? ≠ some '*' := by
  obtain ⟨indent, a, x, rfl, hindent, -⟩ := h
  cases indent with
  | nil =>
    obtain ⟨w, hname, -, -⟩ := a.exists_name_eq
    simp [hname]
  | cons c indent =>
    rcases isIndent_iff.1 (hindent c (by simp)) with rfl | rfl <;> simp

section

variable {p : Profile} {b : List Char} {ps : List Piece}

/-- The end of the source ends a line comment. -/
theorem scan_lineForm {k : LineMarker} (hk : k.isKnown p = true) (hdirective : OpensDirective b)
    {due : Bool} (hscan : scan p (.comment .line false) (b ++ []) =
      ps ++ scan p (.comment .line due) []) :
    scan p (.code true) (k.lexeme ++ b) =
      k.opener :: (ps ++ [lineCloser, ⟨.eof, [], .code⟩]) := by
  have hfinish : scan p (.comment .line due) [] = [lineCloser, ⟨.eof, [], .code⟩] := by
    rw [scan]
    rfl
  rw [List.append_nil, hfinish] at hscan
  rw [scan_marker_directive hk hdirective, hscan]

theorem scan_blockForm (hp : p.blockComments = true) (hhead : (b ++ ['*', '/']).head? ≠ some '*')
    {due : Bool} (hscan : scan p (.comment .block false) (b ++ ['*', '/']) =
      ps ++ scan p (.comment .block due) ['*', '/']) :
    scan p (.code true) ('/' :: '*' :: (b ++ ['*', '/'])) =
      ⟨.blockOpen, ['/', '*'], .code⟩ :: (ps ++ [blockCloser, ⟨.eof, [], .code⟩]) := by
  have hfinish : scan p (.comment .block due) ['*', '/'] = [blockCloser, ⟨.eof, [], .code⟩] := by
    rw [scan_blockClose, scan]
    rfl
  rw [hfinish] at hscan
  rw [scan_blockOpener hp true hhead, hscan]

end

theorem LineMarker.delimits (k : LineMarker) : Delimits k.opener lineCloser := by
  cases k with
  | hash => exact .hash
  | hyphens => exact .hyphens

/-- **A directive says the same in a line comment and in a block comment.**  Between the
    delimiters there are the same kinds and lexemes, and the directive or the error that
    they are read as is the same, up to places. -/
theorem classify_lineComment {p : Profile} (hp : p.blockComments = true)
    (hhtml : p.htmlComments = false) {k : LineMarker} (hk : k.isKnown p = true) {b : String}
    (hb : ∀ c ∈ b.toList, isBreak c = false) (hclose : ¬blockCloser.lexeme <:+: b.toList)
    (hdirective : OpensDirective b.toList) :
    ∃ inner inner',
      IsSingleComment (tokenize p (String.ofList k.lexeme ++ b)) k.opener lineCloser inner ∧
      IsSingleComment (tokenize p ("/*" ++ b ++ "*/")) ⟨.blockOpen, ['/', '*'], .code⟩ blockCloser
        inner' ∧
      inner.map Token.toPiece = inner'.map Token.toPiece ∧
      blur Directive.bare (classify inner) = blur Directive.bare (classify inner') := by
  have hline : Enclosure.line.IsQuiet p b.toList := by
    intro d hd
    cases hd
  have hblock : Enclosure.block.IsQuiet p b.toList := by
    apply Enclosure.isQuiet_of_not_infix
    simpa [Enclosure.delimiters, hhtml] using hclose
  -- the pieces of the body are the same in both enclosures
  obtain ⟨ps, due, -, hps, hscan⟩ := scan_unbroken p hb false
  have hinner : ∀ q ∈ ps, IsInner .comment q := fun q hq => (hps q hq).1
  have hscanline := scan_lineForm hk hdirective (hscan .line rfl hline [] (by simp [StopsLexeme]))
  have hscanblock := scan_blockForm hp (hdirective.head?_ne _)
    (hscan .block rfl hblock ['*', '/'] (by simp [StopsLexeme, startsAlways]))
  have htext : (String.ofList k.lexeme ++ b).toList = k.lexeme ++ b.toList := by simp
  have htext' : ("/*" ++ b ++ "*/").toList = '/' :: '*' :: (b.toList ++ ['*', '/']) := by simp
  rw [← htext] at hscanline
  rw [← htext'] at hscanblock
  obtain ⟨inner, hsingle, hpieces⟩ := exists_inner_of_scan k.delimits hinner hscanline
  obtain ⟨inner', hsingle', hpieces'⟩ := exists_inner_of_scan .block hinner hscanblock
  have hsame : inner.map Token.toPiece = inner'.map Token.toPiece := hpieces.trans hpieces'.symm
  refine ⟨inner, inner', hsingle, hsingle', hsame, ?_⟩
  have hbare : inner.map Token.bare = inner'.map Token.bare := by
    have h := congrArg (List.map Piece.bare) hsame
    rw [List.map_map, List.map_map] at h
    exact h
  rw [← classify_bare, ← classify_bare, hbare]

/-- An inline directive whose body ends in a star. -/
theorem classify_lineComment_inline :
    ∃ inner inner',
      IsSingleComment (tokenize Language.sql.profile
          (String.ofList LineMarker.hyphens.lexeme ++ " @include-if A x @end*"))
        LineMarker.hyphens.opener lineCloser inner ∧
      IsSingleComment (tokenize Language.sql.profile ("/*" ++ " @include-if A x @end*" ++ "*/"))
        ⟨.blockOpen, ['/', '*'], .code⟩ blockCloser inner' ∧
      inner.map Token.toPiece = inner'.map Token.toPiece ∧
      blur Directive.bare (classify inner) = blur Directive.bare (classify inner') ∧
      classify inner = .ok (.inline .positive ⟨"A"⟩ 4
        [⟨⟨.text, " x ".toList, .comment⟩, ⟨⟨1, 17, 16⟩, ⟨1, 20, 19⟩⟩⟩]) := by
  have hdirective : OpensDirective " @include-if A x @end*".toList :=
    startsWithAtom_iff.1 (by decide +kernel)
  obtain ⟨inner, inner', hline, hblock, hpieces, hclassify⟩ :=
    classify_lineComment (p := Language.sql.profile) (k := .hyphens) (b := " @include-if A x @end*")
      rfl rfl rfl (by simp [isBreak]) (by decide +kernel) hdirective
  refine ⟨inner, inner', hline, hblock, hpieces, hclassify, ?_⟩
  rw [hline.inner_eq]
  decide +kernel

end FeatureCut
