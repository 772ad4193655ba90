/-
  FeatureCut/Proofs/InlineBody.lean
  =================================
  **Inline bodies.**

  An inline directive holds a whole region in one comment, in the middle of a line.  Its
  body is cut into tokens as a part of that comment, put together again, freed of a space
  at both ends, and then evaluated as a document.  `transform_inline` says that all this
  comes to replacing the comment by what the body gives on its own, if the key selects it,
  and by nothing else.

  The body is quiet, so the comment is read over it up to its ending word (`scan_inner`),
  and the text between key and ending is the body with one space on each side.  No comment
  closes in the body.  That makes its evaluation the same at every level
  (`evaluateTokens_of_unclosed`), so it does not matter that the body stands one level
  deeper than a document.  On the page the line keeps all that is written on it, for there
  is text beside the comment on both sides.
-/
import FeatureCut.Proofs.CommentText
import FeatureCut.Proofs.Concatenation
import FeatureCut.Proofs.Diagnostics
import FeatureCut.Proofs.DirectiveLine

namespace FeatureCut

/-! ### Profiles without line comments -/

/-- Comments are enclosed in delimiters, and no line is a comment of its own. -/
structure Profile.IsDelimited (p : Profile) : Prop where
  block : p.blockComments = true
  hash : p.hashComments = false
  hyphens : p.doubleHyphenComments = false

theorem Language.isDelimited {l : Language} (h : l.profile.htmlComments = true) :
    l.profile.IsDelimited := by
  cases l with
  | python => cases h
  | sql => cases h
  | _ => exact ⟨rfl, rfl, rfl⟩

def Mode.isLine : Mode → Bool
  | .comment .line _ => true
  | _ => false

theorem Mode.move_closer {p : Profile} (hp : p.IsDelimited) {m : Mode} (hm : m.isLine = false)
    (c : Char) (r : List Char) :
    (m.move p c r).mode.isLine = false ∧
      ∀ q ∈ (m.move p c r).pieces, q.kind = .blockClose → q = blockCloser := by
  cases m with
  | code fresh =>
    simp only [Mode.move, codeMove, hp.block, hp.hash, hp.hyphens, Bool.true_and, Bool.false_and,
      Bool.false_eq_true, if_false]
    split
    · exact ⟨rfl, by simp⟩
    split
    · unfold slashMove
      split <;> exact ⟨rfl, by simp [Move.text]⟩
    split
    · refine ⟨rfl, ?_⟩
      intro q hq hk
      rcases literalPieces_kind q hq with hq | hq <;> rw [hk] at hq <;> cases hq
    · exact ⟨rfl, by simp [Move.text]⟩
  | comment e due =>
    have he : e ≠ .line := by
      rintro rfl
      cases hm
    have hmode : ∀ due', (Mode.comment e due').isLine = false := by
      intro due'
      cases e with
      | line => exact absurd rfl he
      | block => rfl
      | html => rfl
    simp only [Mode.move, commentMove]
    split
    · cases e with
      | line => exact absurd rfl he
      | block => exact ⟨rfl, by simp [commentBreakMove]⟩
      | html => exact ⟨rfl, by simp [commentBreakMove]⟩
    split
    · unfold atomMove
      dsimp only
      split <;> exact ⟨hmode _, by simp [Move.text]⟩
    split
    · exact ⟨hmode _, by simp [Move.text]⟩
    split
    · fun_cases delimiterMove p e c r with
      | case1 t he => exact ⟨rfl, by simp [blockCloser]⟩
      | case3 t he => exact ⟨rfl, by simp⟩
      | case5 t he => exact ⟨rfl, by simp⟩
      | _ => exact ⟨hmode _, by simp [Move.text]⟩
    split <;> exact ⟨hmode _, by simp [Move.text]⟩

/-- No comment closes in a text without `*/`. -/
theorem kind_ne_blockClose_of_scan {p : Profile} (hp : p.IsDelimited) {m : Mode}
    (hm : m.isLine = false) {cs : List Char} (hcs : ¬blockCloser.lexeme <:+: cs) :
    ∀ q ∈ scan p m cs, q.kind ≠ .blockClose := by
  fun_induction scan p m cs with
  | case1 m =>
    cases m with
    | code fresh => simp [Mode.finish]
    | comment e due => cases e <;> simp_all [Mode.finish, Mode.isLine]
  | case2 m c r ih =>
    obtain ⟨hmode, hcloser⟩ := m.move_closer hp hm c r
    have hread := m.move_lossless p c r
    intro q hq hk
    rcases List.mem_append.1 hq with hq | hq
    · obtain rfl := hcloser q hq hk
      apply hcs
      obtain ⟨a, b, hpieces⟩ := List.append_of_mem hq
      rw [← hread, hpieces]
      simp
    · refine ih hmode ?_ q hq hk
      intro hstands
      apply hcs
      rw [← hread]
      exact hstands.trans (List.suffix_append _ _).isInfix

theorem kind_ne_blockClose_of_tokenize {p : Profile} (hp : p.IsDelimited) {source : String}
    (h : ¬blockCloser.lexeme <:+: source.toList) :
    ∀ t ∈ tokenize p source, t.kind ≠ .blockClose := by
  have hpieces : ∀ q ∈ coalesce (scan p (.code true) source.toList), q.kind ≠ .blockClose :=
    forall_mem_coalesce (fun _ _ _ _ _ _ => Kind.noConfusion)
      (kind_ne_blockClose_of_scan hp rfl h)
  rw [← toPiece_tokenize] at hpieces
  intro t ht
  exact hpieces _ (List.mem_map_of_mem ht)

/-! ### Documents in which no comment closes -/

/-- Where no comment closes, nothing is evaluated at the level below. -/
theorem evaluateTokens_of_unclosed (o : Options) {ts : List Token}
    (h : ∀ t ∈ ts, t.kind ≠ .blockClose) (inner inner' : Level) :
    evaluateTokens o inner ts = evaluateTokens o inner' ts := by
  apply walk_eq_of_suffix
  intro n t r hr
  have hcut : cutAt .blockClose r = none :=
    cutAt_eq_none fun u hu => h u (hr.subset (List.mem_cons_of_mem t hu))
  unfold codeItem
  split
  · rfl
  · rfl
  · simp only [docCommentItem, hcut]
  · simp only [blockItem, hcut]
  · rfl

/-! ### The text beside a comment -/

/-- Text on the line of a comment: it has content, and nothing in it opens a comment, a
    literal or a line. -/
structure IsBeside (cs : List Char) : Prop where
  content : ∃ c ∈ cs, isIndent c = false
  plain : ∀ c ∈ cs, isBreak c = false ∧ c ≠ '"' ∧ c ≠ '\'' ∧ c ≠ '/'

def charPiece (c : Char) : Piece := ⟨.text, [c], .code⟩

theorem scan_beside {p : Profile} (hp : p.IsDelimited) {cs : List Char}
    (hcs : ∀ c ∈ cs, isBreak c = false ∧ c ≠ '"' ∧ c ≠ '\'' ∧ c ≠ '/') (fresh : Bool)
    (r : List Char) :
    ∃ fresh', scan p (.code fresh) (cs ++ r) = cs.map charPiece ++ scan p (.code fresh') r := by
  induction cs generalizing fresh with
  | nil => exact ⟨fresh, rfl⟩
  | cons c cs ih =>
    obtain ⟨⟨hbreak, hquote, hquote', hslash⟩, hrest⟩ := List.forall_mem_cons.1 hcs
    have hmove : Mode.move p (.code fresh) c (cs ++ r) =
        .text .code [c] (cs ++ r) (.code (fresh && isIndent c)) := by
      simp [Mode.move, codeMove, hbreak, hquote, hquote', hslash, hp.hash, hp.hyphens]
    obtain ⟨fresh', hscan⟩ := ih hrest (fresh && isIndent c)
    refine ⟨fresh', ?_⟩
    rw [List.cons_append, scan, hmove]
    simp only [Move.text, hscan, List.map_cons, List.cons_append, List.nil_append]
    rfl

theorem coalesce_charPieces {cs : List Char} (h : cs ≠ []) :
    coalesce (cs.map charPiece) = [⟨.text, cs, .code⟩] := by
  have hlexemes : lexemes (cs.map charPiece) = cs := by
    induction cs with
    | nil => rfl
    | cons c cs ih => cases cs <;> simp_all [charPiece]
  have htexts : ∀ q ∈ cs.map charPiece, q.kind = .text ∧ q.context = .code := by
    simp [charPiece]
  rw [coalesce_texts (by simpa using h) htexts, hlexemes]

/-! ### The comment -/

theorem infix_of_spaced {d w : List Char} (hd : ' ' ∉ d) (h : d <:+: ' ' :: (w ++ [' '])) :
    d <:+: w := by
  have hnil : d = [] → d <:+: w := by
    rintro rfl
    exact List.nil_infix
  rcases List.infix_cons_iff.1 h with hprefix | h
  · cases d with
    | nil => exact hnil rfl
    | cons c d =>
      obtain ⟨rfl, -⟩ := List.cons_prefix_cons.1 hprefix
      exact absurd (List.mem_cons_self ..) hd
  rcases List.infix_concat_iff.1 h with hsuffix | h
  · rcases List.eq_nil_or_concat' d with rfl | ⟨d, c, rfl⟩
    · exact hnil rfl
    · obtain ⟨a, ha⟩ := hsuffix
      rw [← List.append_assoc] at ha
      obtain ⟨-, hc⟩ := List.append_inj' ha rfl
      exact absurd (by simp [List.singleton_inj.1 hc]) hd
  · exact h

/-- With a space on each side a text gets no delimiters. -/
theorem isQuiet_spaced {p : Profile} {w : List Char} (hclose : ¬blockCloser.lexeme <:+: w)
    (hopen : ¬htmlOpener.lexeme <:+: w) : Enclosure.block.IsQuiet p (' ' :: (w ++ [' '])) := by
  apply isQuiet_block
  · exact fun h => hclose (infix_of_spaced (by decide) h)
  · exact fun h => hopen (infix_of_spaced (by decide) h)

theorem Accepts.reads_of_mem {a : Place} {ps : List Piece} (h : Accepts a ps) :
    ∀ q ∈ ps, q.kind ≠ .eof → ∃ b c, Reads b q c := by
  induction h with
  | code => simp
  | comment he => simp
  | cons hread _ ih => exact List.forall_mem_cons.2 ⟨fun _ => ⟨_, _, hread⟩, ih⟩

def inlineComment (pol : Polarity) (key : KeyExpr) (body : String) : String :=
  "/* " ++ pol.atom.name ++ " " ++ key.text ++ " " ++ body ++ " @end */"

def endingPiece : Piece := ⟨.atom .ending, Atom.ending.name.toList, .comment⟩

/-- The pieces inside of it, with those of the body and of the space on each side. -/
def inlinePieces (pol : Polarity) (key : KeyExpr) (ps : List Piece) : List Piece :=
  spacePiece :: ⟨.atom pol.atom, pol.atom.name.toList, .comment⟩ :: spacePiece ::
    ⟨.key, key.text.toList, .comment⟩ :: (ps ++ [endingPiece, spacePiece])

theorem classify_inlinePieces (pol : Polarity) (key : KeyExpr) {ps : List Piece}
    (hps : ∀ q ∈ ps, q.kind ≠ .atom .ending) :
    classify ((inlinePieces pol key ps).map Piece.bare) =
      .ok (.inline pol key 4 (ps.map Piece.bare)) := by
  have hcut : cutAt (.atom .ending) ((ps ++ [endingPiece, spacePiece]).map Piece.bare) =
      some ⟨ps.map Piece.bare, endingPiece.bare, [spacePiece.bare]⟩ := by
    have hending : endingPiece.bare.kind = .atom .ending := rfl
    rw [List.map_append]
    refine cutAt_append_cons ?_ hending [spacePiece.bare]
    intro t ht
    obtain ⟨q, hq, rfl⟩ := List.mem_map.1 ht
    exact hps q hq
  have hkey : ∀ a t, readKey a t ((spacePiece :: ⟨.key, key.text.toList, .comment⟩ ::
      (ps ++ [endingPiece, spacePiece])).map Piece.bare) =
      .ok (⟨String.ofList key.text.toList⟩, (ps ++ [endingPiece, spacePiece]).map Piece.bare) :=
    fun a t => rfl
  rw [String.ofList_toList] at hkey
  have hclassified : ∀ t,
      classifyConditional ((inlinePieces pol key ps).map Piece.bare).length pol t
      ((spacePiece :: ⟨.key, key.text.toList, .comment⟩ ::
        (ps ++ [endingPiece, spacePiece])).map Piece.bare) =
      .ok (.inline pol key 4 (ps.map Piece.bare)) := by
    intro t
    rw [classifyConditional, hkey]
    simp only [bind, Except.bind, hcut, inlinePieces, List.map_cons, List.length_cons]
    congr 2
    omega
  cases pol with
  | positive => exact hclassified _
  | negative => exact hclassified _

theorem toList_inlineComment (pol : Polarity) (key : KeyExpr) (body : String) :
    (inlineComment pol key body).toList =
      '/' :: '*' :: ' ' :: (pol.atom.name.toList ++ ' ' :: (key.text.toList ++
        ' ' :: (body.toList ++ ' ' :: (Atom.ending.name.toList ++ [' ', '*', '/'])))) := by
  have hending : Atom.ending.name.toList = ['@', 'e', 'n', 'd'] := rfl
  simp [inlineComment, hending]

section

variable {p : Profile} (hp : p.IsDelimited) (pol : Polarity) {key : KeyExpr} {body : String}
  (hkey : key.text ≠ "") (hchars : ∀ c ∈ key.text.toList, isBoundary c = false)
  (hclose : ¬blockCloser.lexeme <:+: body.toList) (hopen : ¬htmlOpener.lexeme <:+: body.toList)
  (hend : ¬Atom.ending.name.toList <:+: body.toList)

include hend in
/-- No word of the body ends it. -/
theorem kind_ne_ending {ps qs : List Piece} {m : Mode} {cs : List Char}
    (hscan : scan p m cs = ps ++ qs) (hlexemes : lexemes ps = ' ' :: (body.toList ++ [' '])) :
    ∀ q ∈ ps, q.kind ≠ .atom .ending := by
  intro q hq hk
  have haccepts := scan_accepts p m cs
  rw [hscan] at haccepts
  obtain ⟨a, b, hread⟩ := haccepts.reads_of_mem q (List.mem_append_left qs hq) (by simp [hk])
  obtain ⟨l, r, rfl⟩ := List.append_of_mem hq
  apply hend
  apply infix_of_spaced (by decide)
  rw [← hlexemes, ← hread.atom_lexeme hk]
  exact ⟨lexemes l, lexemes r, by simp⟩

include hp hkey hchars hclose hopen hend in
/-- The comment is read over its body, up to the word that ends it. -/
theorem scan_inlineComment (fresh : Bool) (r : List Char) :
    ∃ ps, scan p (.code fresh) ((inlineComment pol key body).toList ++ r) =
        ⟨.blockOpen, ['/', '*'], .code⟩ :: (inlinePieces pol key ps ++ blockCloser ::
          scan p (.code false) r) ∧
      lexemes ps = ' ' :: (body.toList ++ [' ']) ∧
      (∀ q ∈ ps, IsInner .comment q) ∧ ∀ q ∈ ps, q.kind ≠ .atom .ending := by
  have htakes : pol.atom.takesKey = true := by cases pol <;> rfl
  have hstarts : StartsLexeme (' ' :: (body.toList ++ [' ']))
      (Atom.ending.name.toList ++ ' ' :: '*' :: '/' :: r) := .mark rfl
  obtain ⟨ps, due, hscan, hlexemes, hps⟩ :=
    scan_inner Enclosure.noConfusion (isQuiet_spaced (p := p) hclose hopen) hstarts false
  refine ⟨ps, ?_, hlexemes, hps, kind_ne_ending hend hscan hlexemes⟩
  rw [scan_atom, scan_space, scan_blockClose] at hscan
  rw [toList_inlineComment]
  simp only [List.cons_append, List.append_assoc, List.nil_append] at hscan ⊢
  rw [scan_blockOpen hp.block, scan_space, scan_atom, htakes, scan_space,
    scan_key p (by simpa using hkey) hchars, hscan]
  simp [inlinePieces, endingPiece, spacePiece, blockCloser, Enclosure.context]

theorem coalesce_inlinePieces (ps qs : List Piece) :
    coalesce (inlinePieces pol key ps ++ blockCloser :: qs) =
      inlinePieces pol key (coalesce ps) ++ blockCloser :: coalesce qs := by
  have hword : ∀ (q : Piece) rest, q.kind ≠ .text →
      coalesce (spacePiece :: q :: rest) = spacePiece :: q :: coalesce rest :=
    fun q rest hq => coalesce_append_cons [spacePiece] hq rest
  have hlast : coalesce (ps ++ endingPiece :: ([spacePiece] ++ blockCloser :: qs)) =
      coalesce ps ++ endingPiece :: ([spacePiece] ++ blockCloser :: coalesce qs) := by
    rw [coalesce_append_cons ps Kind.noConfusion,
      coalesce_append_cons [spacePiece] Kind.noConfusion]
    rfl
  simp only [inlinePieces, List.cons_append, List.append_assoc, List.nil_append] at hlast ⊢
  rw [hword _ _ Kind.noConfusion, hword _ _ Kind.noConfusion, hlast]

theorem IsBeside.ne_nil {cs : List Char} (h : IsBeside cs) : cs ≠ [] := by
  obtain ⟨c, hc, -⟩ := h.content
  exact List.ne_nil_of_mem hc

include hp hkey hchars hclose hopen hend in
/-- The tokens of a line with an inline directive on it. -/
theorem bareTokens_inline {x y : String} (hx : IsBeside x.toList) (hy : IsBeside y.toList) :
    ∃ (inner : List Token) (c : Saying (.inline pol key 4 inner)),
      textOf inner = ' ' :: (body.toList ++ [' ']) ∧
      bareTokens p (x ++ inlineComment pol key body ++ y).toList =
        Piece.bare ⟨.text, x.toList, .code⟩ :: (c.tokens ++
          [Piece.bare ⟨.text, y.toList, .code⟩, eofToken]) := by
  obtain ⟨fresh, hscanx⟩ := scan_beside hp hx.plain true
    ((inlineComment pol key body).toList ++ y.toList)
  obtain ⟨ps, hscan, hlexemes, hps, hending⟩ :=
    scan_inlineComment hp pol hkey hchars hclose hopen hend fresh y.toList
  obtain ⟨fresh', hscany⟩ := scan_beside hp hy.plain false []
  have hpieces : scan p (.code true) (x ++ inlineComment pol key body ++ y).toList =
      x.toList.map charPiece ++ ⟨.blockOpen, ['/', '*'], .code⟩ :: (inlinePieces pol key ps ++
        blockCloser :: (y.toList.map charPiece ++ [⟨.eof, [], .code⟩])) := by
    rw [List.append_nil] at hscany
    rw [String.toList_append, String.toList_append, List.append_assoc, hscanx, hscan, hscany, scan]
    rfl
  have hnone : ∀ q ∈ coalesce ps, q.kind ≠ .atom .ending :=
    forall_mem_coalesce (fun _ _ _ _ _ _ => Kind.noConfusion) hending
  have hclosers : ∀ q ∈ coalesce ps, q.kind ≠ .blockClose :=
    forall_mem_coalesce (fun _ _ _ _ _ _ => Kind.noConfusion)
      fun q hq => (hps q hq).kind_ne_blockClose
  have hkinds : ∀ q ∈ inlinePieces pol key (coalesce ps), q.kind ≠ .blockClose := by
    simpa [inlinePieces, spacePiece, endingPiece, or_imp, forall_and] using hclosers
  refine ⟨(coalesce ps).map Piece.bare,
    ⟨bareComment (inlinePieces pol key (coalesce ps)) hkinds, classify_inlinePieces pol key hnone⟩,
    ?_, ?_⟩
  · rw [textOf_map_bare, lexemes_coalesce, hlexemes]
  · rw [bareTokens, hpieces, coalesce_append_cons _ Kind.noConfusion, coalesce_charPieces hx.ne_nil,
      coalesce_inlinePieces, coalesce_append_cons _ Kind.noConfusion, coalesce_charPieces hy.ne_nil]
    simp [bareComment, Comment.tokens, Comment.tail, eofToken, blockCloser, coalesce]

end

/-! ### Evaluation -/

theorem stripSpace_spaced (cs : List Char) : stripSpace (' ' :: (cs ++ [' '])) = cs := by
  simp [stripSpace]

theorem textToken_kind (cs : List Char) :
    (Piece.bare ⟨.text, cs, .code⟩).kind ≠ .blockOpen ∧
      (Piece.bare ⟨.text, cs, .code⟩).kind ≠ .docOpen :=
  ⟨Kind.noConfusion, Kind.noConfusion⟩

theorem role_inline (pol : Polarity) (key : KeyExpr) (lead : Nat) (inner : List Token) :
    (Directive.inline pol key lead inner).role ≠ .opening := Role.noConfusion

/-- A line that consists of text, an inline directive, and text again. -/
def inlineForest (x y : List Char) {pol : Polarity} {key : KeyExpr} {lead : Nat}
    {inner : List Token} (c : Saying (.inline pol key lead inner)) : List Node :=
  [.token (Piece.bare ⟨.text, x, .code⟩) (textToken_kind x),
    .remark _ c (role_inline pol key lead inner),
    .token (Piece.bare ⟨.text, y, .code⟩) (textToken_kind y), .token eofToken eofToken_kind]

theorem trail_inlineForest (o : Options) (limit n : Nat) (x y : List Char) {pol : Polarity}
    {key : KeyExpr} {lead : Nat} {inner : List Token} (c : Saying (.inline pol key lead inner)) :
    Forest.trail o limit n (inlineForest x y c) =
      (Trail.write [.text x]).andThen
        ((remarkTrail o (Level.ofDepth o limit n) (.inline pol key lead inner) c.toComment).andThen
          ((Trail.write [.text y]).andThen .nothing)) := rfl

/-- What the line gives: its text, and what the body gives if it is selected. -/
theorem evaluate_inline {o : Options} (hp : o.language.profile.IsDelimited)
    (hheader : o.autoHeader = false) (pol : Polarity) {key : KeyExpr} {body : String}
    (hkey : key.text ≠ "") (hchars : ∀ c ∈ key.text.toList, isBoundary c = false)
    (hclose : ¬blockCloser.lexeme <:+: body.toList) (hopen : ¬htmlOpener.lexeme <:+: body.toList)
    (hend : ¬Atom.ending.name.toList <:+: body.toList) {x y : String} (hx : IsBeside x.toList)
    (hy : IsBeside y.toList) :
    (evaluate o (x ++ inlineComment pol key body ++ y)).bare =
      ((Trail.write [.text x.toList, .mark]).andThen
        ((if pol.selects key o.keys then (evaluate o body).mapSteps bodySteps
          else .nothing).andThen (.write [.mark, .text y.toList]))).bare := by
  obtain ⟨inner, c, hinner, htokens⟩ :=
    bareTokens_inline hp pol hkey hchars hclose hopen hend hx hy
  have hforest : bareTokens o.language.profile (x ++ inlineComment pol key body ++ y).toList =
      Forest.tokens (inlineForest x.toList y.toList c) := by
    rw [htokens]
    simp [inlineForest, Node.tokens]
  -- the body stands one level deeper, but there is nothing nested in it
  have hbody : (Level.ofDepth o maxDepth maxDepth).document body.toList = evaluate o body := by
    rw [evaluate_of_no_header hheader, maxDepth, Level.ofDepth_succ]
    dsimp only
    rw [String.ofList_toList]
    exact evaluateTokens_of_unclosed o (kind_ne_blockClose_of_tokenize hp hclose) _ _
  rw [evaluate_of_no_header hheader, ← evaluateTokens_bare, bare_tokenize, hforest,
    evaluateTokens_tokens maxDepth (by simp [inlineForest, Forest.Balanced, Node.Balanced]),
    trail_inlineForest, remarkTrail, hinner, stripSpace_spaced, inlineTrail, hbody]
  generalize evaluate o body = given
  obtain ⟨ss, events, stop⟩ := given
  cases pol.selects key o.keys with
  | false => rfl
  | true => cases stop <;> rfl

/-! ### The page -/

/-- A fragment is copied over any number of breaks, once the line it starts on is kept. -/
theorem Copies.fragment (cs : List Char) : Copies [.fragment cs] cs := by
  have hfold : ∀ (ss : List Segment) (p : Page), p.keepsLine = true →
      (ss.foldl Page.segment p).keepsLine = true ∧
        (ss.foldl Page.segment p).total = p.total ++ ss.flatMap Segment.chars := by
    intro ss
    induction ss with
    | nil => simp
    | cons s ss ih =>
      intro p hp
      have hsegment :
          (p.segment s).keepsLine = true ∧ (p.segment s).total = p.total ++ s.chars := by
        cases s with
        | text cs => exact Copies.text cs p hp
        | eol cs => exact Copies.eol cs p hp
      have hrest := ih _ hsegment.1
      rw [hsegment.2, List.append_assoc] at hrest
      exact hrest
  intro p hp
  have h := hfold (segments cs) p hp
  rwa [flatten_segments] at h

theorem Page.contents_of_content {p : Page} (h : ∃ c ∈ p.line, isIndent c = false) :
    p.contents = p.total := by
  have hkeeps : p.keepsLine = true := by
    simpa [Page.keepsLine, Page.hasContent] using Or.inr h
  exact if_pos hkeeps

theorem render_inline {x y : List Char} (hx : IsBeside x) (hy : IsBeside y) (out : List Char) :
    render [.text x, .mark, .fragment out, .mark, .text y] = x ++ out ++ y := by
  obtain ⟨c, hc, hindent⟩ := hx.content
  obtain ⟨d, hd, hindent'⟩ := hy.content
  have hkeeps : (Page.empty.text x).mark.keepsLine = true := by
    simpa [Page.keepsLine, Page.hasContent, Page.mark, Page.text, Page.empty] using
      ⟨c, hc, hindent⟩
  have hbody : ((Page.empty.text x).mark.fragment out).total = x ++ out :=
    (Copies.fragment out _ hkeeps).2
  have hline : ∃ c ∈ (((Page.empty.text x).mark.fragment out).mark.text y).line,
      isIndent c = false := ⟨d, List.mem_append_right _ hd, hindent'⟩
  have hcontents := Page.contents_of_content hline
  rw [Page.total_text] at hcontents
  have hmark : ((Page.empty.text x).mark.fragment out).mark.total = x ++ out := hbody
  rwa [hmark] at hcontents

theorem render_beside {x y : List Char} (hx : IsBeside x) (hy : IsBeside y) :
    render [.text x, .mark, .mark, .text y] = x ++ y := by
  have h := render_inline hx hy []
  rwa [List.append_nil] at h

/-! ### The main statement -/

theorem transform_of_valid {o : Options} (hvalid : o.validate = .ok ()) (source : String) :
    transform o source = (evaluate o source).result := by
  rw [transform, hvalid]

/-- **An inline directive is replaced by what its body gives.**  If the key selects the
    body, the line is the text before it, the variant of the body, and the text behind it,
    and a body that excludes its file excludes the whole document.  If not, the comment
    vanishes, whatever stands in it. -/
theorem transform_inline {o : Options} (hprofile : o.language.profile.htmlComments = true)
    (hheader : o.autoHeader = false) (hvalid : o.validate = .ok ()) (pol : Polarity)
    {key : KeyExpr} (hkey : key.text ≠ "") (hchars : ∀ c ∈ key.text.toList, isBoundary c = false)
    {body : String} (hclose : ¬"*/".toList <:+: body.toList)
    (hopen : ¬"<!--".toList <:+: body.toList) (hend : ¬"@end".toList <:+: body.toList)
    {x y : String} (hx : IsBeside x.toList) (hy : IsBeside y.toList) :
    (pol.selects key o.keys = true →
      (∀ out, transform o body = .ok out → (evaluate o body).stop ≠ some .excluded →
        transform o (x ++ inlineComment pol key body ++ y) = .ok (x ++ out ++ y)) ∧
      ((evaluate o body).stop = some .excluded →
        transform o (x ++ inlineComment pol key body ++ y) = .ok "")) ∧
    (pol.selects key o.keys = false →
      transform o (x ++ inlineComment pol key body ++ y) = .ok (x ++ y)) := by
  have hline := evaluate_inline (Language.isDelimited hprofile) hheader pol hkey hchars hclose hopen
    hend hx hy
  simp only [transform_of_valid hvalid]
  generalize evaluate o body = given at hline ⊢
  obtain ⟨ss, events, stop⟩ := given
  constructor
  · intro hselects
    rw [hselects, if_pos rfl] at hline
    constructor
    · intro out hout hexcluded
      obtain rfl : stop = none := Trail.stop_eq_none_of_result hout hexcluded
      have hwritten : String.ofList (x.toList ++ render ss ++ y.toList) = x ++ out ++ y := by
        rw [← Except.ok.inj hout]
        simp [String.append_assoc]
      rw [Trail.result_of_bare hline, ← hwritten]
      exact congrArg (Except.ok ∘ String.ofList) (render_inline hx hy _)
    · rintro ⟨⟩
      rw [Trail.result_of_bare hline]
      rfl
  · intro hselects
    rw [hselects, if_neg Bool.false_ne_true] at hline
    have hwritten : String.ofList (x.toList ++ y.toList) = x ++ y := by simp
    rw [Trail.result_of_bare hline, ← hwritten]
    exact congrArg (Except.ok ∘ String.ofList) (render_beside hx hy)

/-- A body with a line break and a stray `*` in it, in the middle of a statement. -/
theorem transform_inline_statement :
    transform (({} : Options).withKey "A")
        ("x = " ++ inlineComment .positive ⟨"A|B"⟩ "1 *\n  2" ++ ";") =
      .ok ("x = " ++ "1 *\n  2" ++ ";") := by
  have hx : IsBeside "x = ".toList := ⟨⟨'x', by decide, rfl⟩, by simp [isBreak]⟩
  have hy : IsBeside ";".toList := ⟨⟨';', by decide, rfl⟩, by simp [isBreak]⟩
  have hchars : ∀ c ∈ (⟨"A|B"⟩ : KeyExpr).text.toList, isBoundary c = false := by
    simp [isBoundary, isIndent, isBreak]
  have hclose : ¬"*/".toList <:+: "1 *\n  2".toList := by decide
  have hline := transform_inline (o := ({} : Options).withKey "A") rfl rfl (by decide +kernel)
    .positive (by decide) hchars hclose (by decide) (by decide) hx hy
  exact (hline.1 (by decide +kernel)).1 _ (by decide +kernel) (by decide +kernel)

end FeatureCut
