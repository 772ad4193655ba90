/-
  FeatureCut/Proofs/DocRegions.lean
  =================================
  **Html directives on lines of their own.**

  Inside a doc comment a region is opened, divided and closed by html comments.  If each
  of them stands on a line of its own, behind the star, the body of the doc comment is a
  tree of plain lines and regions (`DocBody`), and what is written are the plain lines of
  the selected parts, in order and byte for byte (`transform_docBody`).

  The scanner is followed line by line.  A plain line is quiet and has no break in it, so
  it becomes text, keys and atoms, and the margin of a directive line is such a text too.
  From what the lines are cut into, `DocBody.exists_bodyTokens` assembles the tokens of a
  body together with what they give, along the tree.
-/
import FeatureCut.Proofs.DirectiveLine
import FeatureCut.Proofs.DocParts

namespace FeatureCut

/-! ### The body of a doc comment -/

/-- A line of a doc comment with no delimiter in it, and with more on it than a star. -/
structure DocLine where
  text : List Char
  unbroken : ∀ c ∈ text, isBreak c = false
  unclosed : ¬"*/".toList <:+: text
  unopened : ¬"<!--".toList <:+: text
  kept : isStarOnly text = false

/-- What stands before the html comment on a directive line: a star and a space, with
    spaces and tabs around them. -/
structure DocMargin where
  before : List Char
  after : List Char
  before_indent : ∀ c ∈ before, isIndent c = true
  after_indent : ∀ c ∈ after, isIndent c = true

/-- A key expression that can be written in a comment as one word. -/
structure DocKey extends KeyExpr where
  nonempty : text ≠ ""
  unbounded : ∀ c ∈ text.toList, isBoundary c = false

/-- Plain lines, and regions with all their directives on lines of their own. -/
inductive DocBody where
  | nil
  | line (l : DocLine) (rest : DocBody)
  | region (p : Polarity) (key : DocKey) (head : DocMargin) (first : DocBody) (last : DocMargin)
      (rest : DocBody)
  | divided (p : Polarity) (key : DocKey) (head : DocMargin) (first : DocBody)
      (middle : DocMargin) (second : DocBody) (last : DocMargin) (rest : DocBody)

def DocLine.chars (l : DocLine) : List Char := l.text ++ ['\n']

def DocMargin.chars (m : DocMargin) : List Char := m.before ++ '*' :: ' ' :: m.after

/-- A line with an html comment of the given words, behind a margin. -/
def DocMargin.line (m : DocMargin) (words : String) : List Char :=
  m.chars ++ ("<!-- " ++ words ++ " -->\n").toList

def openingWords (p : Polarity) (key : KeyExpr) : String := p.atom.name ++ " " ++ key.text

def DocBody.chars : DocBody → List Char
  | .nil => []
  | .line l rest => l.chars ++ rest.chars
  | .region p key head first last rest =>
    head.line (openingWords p key.toKeyExpr) ++ first.chars ++ last.line Atom.ending.name ++
      rest.chars
  | .divided p key head first middle second last rest =>
    head.line (openingWords p key.toKeyExpr) ++ first.chars ++ middle.line Atom.alternative.name ++
      second.chars ++ last.line Atom.ending.name ++ rest.chars

def DocBody.depth : DocBody → Nat
  | .nil => 0
  | .line _ rest => rest.depth
  | .region _ _ _ first _ rest => max (first.depth + 1) rest.depth
  | .divided _ _ _ first _ second _ rest =>
    max (max first.depth second.depth + 1) rest.depth

/-- The plain lines of the parts that are selected. -/
def DocBody.selected (keys : ActiveKeys) : DocBody → List DocLine
  | .nil => []
  | .line l rest => l :: rest.selected keys
  | .region p key _ first _ rest =>
    (if p.selects key.toKeyExpr keys then first.selected keys else []) ++ rest.selected keys
  | .divided p key _ first _ second _ rest =>
    (if p.selects key.toKeyExpr keys then first.selected keys else second.selected keys) ++
      rest.selected keys

/-- A doc comment with the given body between its first and its last line. -/
def docComment (body : List Char) : String := "/**\n" ++ String.ofList body ++ " */"

/-! ### Reading the lines -/

def bodyTokens (p : Profile) (cs : List Char) : List Token :=
  (coalesce (scan p (.comment .block false) cs)).map Piece.bare

section

variable {p : Profile}

theorem scan_commentNewline (due : Bool) {r : List Char} (hr : r.head? ≠ some '\r') :
    scan p (.comment .block due) ('\n' :: r) =
      newlinePiece :: scan p (.comment .block false) r := by
  have hmove : Mode.move p (.comment .block due) '\n' r =
      ⟨[newlinePiece], r, .comment .block false⟩ := by
    simp [Mode.move, commentMove, isBreak, commentBreakMove, breakFrom_newline hr, newlinePiece,
      Enclosure.context]
  rw [scan, hmove]
  rfl

/-- A text on one line is read as text, keys and atoms. -/
theorem exists_scan_plain {w s : List Char} (hbreak : ∀ c ∈ w, isBreak c = false)
    (hquiet : Enclosure.block.IsQuiet p w) (hs : StartsLexeme w s) :
    ∃ ps due, scan p (.comment .block false) (w ++ s) =
        ps ++ scan p (.comment .block due) s ∧
      textOf ((coalesce ps).map Piece.bare) = w ∧
      ∀ t ∈ (coalesce ps).map Piece.bare, t.IsPlain := by
  obtain ⟨ps, due, hscan, hlexemes, hps⟩ := scan_inner Enclosure.noConfusion hquiet hs false
  have haccepts := scan_accepts p (.comment .block false) (w ++ s)
  rw [hscan] at haccepts
  have hplain : ∀ q ∈ ps, q.bare.IsPlain := by
    intro q hq
    have hinner := hps q hq
    refine ⟨?_, ?_, hinner.kind_ne_blockClose⟩
    · intro heol
      -- the characters of a break would stand in the text
      have hline := (haccepts.spelled q (List.mem_append_left _ hq)).eol heol
      obtain ⟨c, hc, hcbreak⟩ : ∃ c ∈ q.lexeme, isBreak c = true := by
        rcases hline with h | h | h | h <;> rw [h] <;> simp [isBreak]
      have hmem : c ∈ w := by
        rw [← hlexemes, lexemes, List.mem_flatMap]
        exact ⟨q, hq, hc⟩
      rw [hbreak c hmem] at hcbreak
      cases hcbreak
    · rcases hinner.kind with h | h | h | ⟨a, h⟩ <;> simp [Piece.bare, h]
  have hjoined : ∀ q ∈ coalesce ps, q.bare.IsPlain :=
    forall_mem_coalesce
      (fun _ _ _ _ _ _ => ⟨Kind.noConfusion, Kind.noConfusion, Kind.noConfusion⟩) hplain
  refine ⟨ps, due, hscan, ?_, ?_⟩
  · rw [textOf_map_bare, lexemes_coalesce, hlexemes]
  · simpa using hjoined

theorem exists_bodyTokens_line (l : DocLine) {r : List Char} (hr : r.head? ≠ some '\r') :
    ∃ ts, bodyTokens p (l.chars ++ r) = ts ++ newlinePiece.bare :: bodyTokens p r ∧
      textOf ts = l.text ∧ ∀ t ∈ ts, t.IsPlain := by
  have hlast : ∀ b ∈ l.text.getLast?, isBreak b = false := by
    intro b hb
    exact l.unbroken b (List.mem_of_getLast? hb)
  obtain ⟨ps, due, hscan, htext, hplain⟩ :=
    exists_scan_plain (p := p) l.unbroken (isQuiet_block l.unclosed l.unopened)
      (.eol (c := '\n') (r := r) rfl hlast)
  refine ⟨_, ?_, htext, hplain⟩
  rw [scan_commentNewline due hr] at hscan
  rw [bodyTokens, DocLine.chars, List.append_assoc, List.singleton_append, hscan,
    coalesce_append_cons ps Kind.noConfusion]
  simp [bodyTokens]

/-! ### Reading directive lines -/

theorem DocMargin.mem_chars {m : DocMargin} {c : Char} (hc : c ∈ m.chars) :
    isIndent c = true ∨ c = '*' := by
  simp only [DocMargin.chars, List.mem_append, List.mem_cons] at hc
  rcases hc with hc | rfl | rfl | hc
  · exact Or.inl (m.before_indent c hc)
  · exact Or.inr rfl
  · exact Or.inl rfl
  · exact Or.inl (m.after_indent c hc)

theorem DocMargin.unbroken (m : DocMargin) : ∀ c ∈ m.chars, isBreak c = false := by
  intro c hc
  rcases DocMargin.mem_chars hc with h | rfl
  · rcases isIndent_iff.1 h with rfl | rfl <;> rfl
  · rfl

theorem DocMargin.isQuiet (m : DocMargin) : Enclosure.block.IsQuiet p m.chars := by
  have hnone : ∀ c ∈ ['/', '<'], c ∉ m.chars := by
    intro c hc hmem
    simp only [List.mem_cons, List.not_mem_nil, or_false] at hc
    rcases hc with rfl | rfl <;> rcases DocMargin.mem_chars hmem with h | h <;> cases h
  apply isQuiet_block
  · exact fun h => hnone '/' (by simp) (h.subset (by simp [blockCloser]))
  · exact fun h => hnone '<' (by simp) (h.subset (by simp [htmlOpener]))

theorem DocMargin.isStarOnly (m : DocMargin) : isStarOnly m.chars = true := by
  have hdrop : m.chars.dropWhile isIndent = '*' :: ' ' :: m.after := by
    rw [DocMargin.chars, List.dropWhile_append_of_pos m.before_indent]
    rfl
  rw [FeatureCut.isStarOnly, hdrop]
  simpa using m.after_indent

def htmlSpace : Piece := ⟨.text, [' '], .html⟩

def htmlAtomPieces (a : Atom) : List Piece :=
  [htmlSpace, ⟨.atom a, a.name.toList, .html⟩, htmlSpace]

def htmlOpeningPieces (q : Polarity) (key : KeyExpr) : List Piece :=
  [htmlSpace, ⟨.atom q.atom, q.atom.name.toList, .html⟩, htmlSpace,
    ⟨.key, key.text.toList, .html⟩, htmlSpace]

def bareHtml {d : HtmlDirective} (inner : List Piece) (h : ∀ q ∈ inner, IsInner .html q)
    (hd : classifyHtml (inner.map Piece.bare) = .ok d) : HtmlSaying d where
  opener := htmlOpener.bare
  inner := inner.map Piece.bare
  closer := htmlCloser.bare
  opener_kind := rfl
  inner_kind := by
    intro t ht
    obtain ⟨q, hq, rfl⟩ := List.mem_map.1 ht
    exact ⟨(h q hq).kind_ne_htmlClose, (h q hq).kind_ne_blockClose⟩
  closer_kind := rfl
  classified := hd

theorem htmlAtomPieces_inner (a : Atom) : ∀ q ∈ htmlAtomPieces a, IsInner .html q := by
  simp only [htmlAtomPieces, htmlSpace, List.forall_mem_cons]
  exact ⟨⟨.inl rfl, rfl⟩, ⟨.inr (.inr (.inr ⟨a, rfl⟩)), rfl⟩, ⟨.inl rfl, rfl⟩, by simp⟩

theorem htmlOpeningPieces_inner (q : Polarity) (key : KeyExpr) :
    ∀ r ∈ htmlOpeningPieces q key, IsInner .html r := by
  simp only [htmlOpeningPieces, htmlSpace, List.forall_mem_cons]
  exact ⟨⟨.inl rfl, rfl⟩, ⟨.inr (.inr (.inr ⟨q.atom, rfl⟩)), rfl⟩, ⟨.inl rfl, rfl⟩,
    ⟨.inr (.inr (.inl rfl)), rfl⟩, ⟨.inl rfl, rfl⟩, by simp⟩

theorem classifyHtml_opening (q : Polarity) (key : KeyExpr) :
    classifyHtml ((htmlOpeningPieces q key).map Piece.bare) = .ok (.opening q key) := by
  have h : classifyHtml ((htmlOpeningPieces q key).map Piece.bare) =
      .ok (.opening q ⟨String.ofList key.text.toList⟩) := by
    cases q <;> rfl
  rwa [String.ofList_toList] at h

def htmlOpening (q : Polarity) (key : KeyExpr) : HtmlSaying (.opening q key) :=
  bareHtml (htmlOpeningPieces q key) (htmlOpeningPieces_inner q key) (classifyHtml_opening q key)

def htmlAlternative : HtmlSaying .alternative :=
  bareHtml (htmlAtomPieces .alternative) (htmlAtomPieces_inner _) rfl

def htmlClosing : HtmlSaying .closing :=
  bareHtml (htmlAtomPieces .ending) (htmlAtomPieces_inner _) rfl

section

variable (hp : p.htmlComments = true) (m : DocMargin)

include hp in
theorem exists_bodyTokens_directive {words : String} {inner : List Piece} {d : HtmlDirective}
    (h : ∀ q ∈ inner, IsInner .html q) (hd : classifyHtml (inner.map Piece.bare) = .ok d)
    (hscan : ∀ r, scan p (.comment .html false)
        (' ' :: (words.toList ++ ' ' :: (htmlCloser.lexeme ++ r))) =
      inner ++ htmlCloser :: scan p (.comment .block false) r)
    (hinner : coalesce inner = inner) {r : List Char} (hr : r.head? ≠ some '\r') :
    ∃ ts, bodyTokens p (m.line words ++ r) =
        ts ++ ((bareHtml inner h hd).tokens ++ newlinePiece.bare :: bodyTokens p r) ∧
      IsMargin ts := by
  have hline : m.line words ++ r =
      m.chars ++ (htmlOpener.lexeme ++ ' ' :: (words.toList ++ ' ' :: (htmlCloser.lexeme ++
        '\n' :: r))) := by
    simp [DocMargin.line, htmlOpener, htmlCloser]
  obtain ⟨ps, due, hmargin, htext, hplain⟩ :=
    exists_scan_plain m.unbroken (m.isQuiet (p := p)) (.mark (c := '<') (r := '!' :: '-' :: '-' ::
      ' ' :: (words.toList ++ ' ' :: (htmlCloser.lexeme ++ '\n' :: r))) rfl)
  refine ⟨_, ?_, hplain, by rw [htext]; exact m.isStarOnly⟩
  have hcomment : scan p (.comment .block due) (htmlOpener.lexeme ++
      ' ' :: (words.toList ++ ' ' :: (htmlCloser.lexeme ++ '\n' :: r))) =
      htmlOpener :: (inner ++ htmlCloser :: newlinePiece ::
        scan p (.comment .block false) r) := by
    rw [scan_htmlOpen hp, hscan, scan_commentNewline false hr]
  have hscanned : scan p (.comment .block false) (m.line words ++ r) =
      ps ++ htmlOpener :: (inner ++ htmlCloser :: newlinePiece ::
        scan p (.comment .block false) r) := by
    rw [hline, ← hcomment]
    exact hmargin
  rw [bodyTokens, hscanned, coalesce_append_cons ps Kind.noConfusion,
    coalesce_append_cons inner Kind.noConfusion, hinner, coalesce_cons_of_ne Kind.noConfusion]
  simp [bareHtml, HtmlSaying.tokens, HtmlSaying.tail, bodyTokens]

include hp in
theorem exists_bodyTokens_atom (a : Atom) {d : HtmlDirective}
    (hd : classifyHtml ((htmlAtomPieces a).map Piece.bare) = .ok d) {r : List Char}
    (hr : r.head? ≠ some '\r') :
    ∃ ts, bodyTokens p (m.line a.name ++ r) =
        ts ++ ((bareHtml (htmlAtomPieces a) (htmlAtomPieces_inner a) hd).tokens ++
          newlinePiece.bare :: bodyTokens p r) ∧
      IsMargin ts := by
  refine exists_bodyTokens_directive hp m _ hd ?_ rfl hr
  intro r
  rw [scan_space, scan_atom, scan_space, scan_htmlClose]
  rfl

include hp in
theorem exists_bodyTokens_opening (q : Polarity) (key : DocKey) {r : List Char}
    (hr : r.head? ≠ some '\r') :
    ∃ ts, bodyTokens p (m.line (openingWords q key.toKeyExpr) ++ r) =
        ts ++ ((htmlOpening q key.toKeyExpr).tokens ++ newlinePiece.bare :: bodyTokens p r) ∧
      IsMargin ts := by
  refine exists_bodyTokens_directive hp m _ _ ?_ rfl hr
  intro r
  have hwords : (openingWords q key.toKeyExpr).toList ++ ' ' :: (htmlCloser.lexeme ++ r) =
      q.atom.name.toList ++ ' ' :: (key.text.toList ++ ' ' :: (htmlCloser.lexeme ++ r)) := by
    simp [openingWords]
  have htakes : q.atom.takesKey = true := by cases q <;> rfl
  rw [hwords, scan_space, scan_atom, htakes, scan_space,
    scan_key p (by simpa using key.nonempty) key.unbounded, scan_space, scan_htmlClose]
  rfl

end

/-! ### Reading a body -/

/-- A line does not start with the second half of a break. -/
theorem head?_append_of_unbroken {w r : List Char} (hw : ∀ c ∈ w, isBreak c = false)
    (hr : r.head? ≠ some '\r') : (w ++ r).head? ≠ some '\r' := by
  cases w with
  | nil => exact hr
  | cons c w =>
    intro hhead
    obtain rfl : c = '\r' := by simpa using hhead
    cases hw '\r' (List.mem_cons_self ..)

theorem DocMargin.head?_line (m : DocMargin) (words : String) (r : List Char) :
    (m.line words ++ r).head? ≠ some '\r' := by
  rw [DocMargin.line, List.append_assoc]
  exact head?_append_of_unbroken m.unbroken (by simp)

theorem DocBody.head?_chars (b : DocBody) {r : List Char} (hr : r.head? ≠ some '\r') :
    (b.chars ++ r).head? ≠ some '\r' := by
  cases b with
  | nil => exact hr
  | line l rest =>
    rw [DocBody.chars, DocLine.chars, List.append_assoc, List.append_assoc]
    exact head?_append_of_unbroken l.unbroken (by simp)
  | region q key head first last rest =>
    simp only [DocBody.chars, List.append_assoc]
    exact head.head?_line _ _
  | divided q key head first middle second last rest =>
    simp only [DocBody.chars, List.append_assoc]
    exact head.head?_line _ _

section

variable {o : Options} {limit d : Nat} {a b m m' m'' : List Token} {cs ds : List Char}
  (q : Polarity) (key : KeyExpr)

theorem Gives.regionLines (hm : IsMargin m) (ha : Gives o limit d (AreLines · cs) a)
    (hm' : IsMargin m') :
    Gives o limit (d + 1) (AreLines · (if q.selects key o.keys then cs else []))
      (m ++ ((htmlOpening q key).tokens ++ (partTokens a m' ++ htmlClosing.tokens) ++
        [newlinePiece.bare])) := by
  apply Gives.lines hm
  refine ((ha.part hm').region (htmlOpening q key) htmlClosing).mono le_rfl ?_
  intro ss hss
  cases hselects : q.selects key o.keys with
  | true => simpa [hselects] using hss
  | false =>
    obtain rfl : ss = [] := by simpa [hselects] using hss
    exact .nil

theorem Gives.dividedLines (hm : IsMargin m) (ha : Gives o limit d (AreLines · cs) a)
    (hm' : IsMargin m') (hb : Gives o limit d (AreLines · ds) b) (hm'' : IsMargin m'') :
    Gives o limit (d + 1) (AreLines · (if q.selects key o.keys then cs else ds))
      (m ++ ((htmlOpening q key).tokens ++ (partTokens a m' ++ (htmlAlternative.tokens ++
        (partTokens b m'' ++ htmlClosing.tokens))) ++ [newlinePiece.bare])) := by
  apply Gives.lines hm
  refine ((ha.part hm').divided (htmlOpening q key) htmlAlternative htmlClosing
    (hb.part hm'')).mono le_rfl ?_
  intro ss hss
  cases hselects : q.selects key o.keys with
  | true => simpa [hselects] using hss
  | false => simpa [hselects] using hss

end

def linesText (ls : List DocLine) : List Char := ls.flatMap DocLine.chars

theorem linesText_append (a b : List DocLine) : linesText (a ++ b) = linesText a ++ linesText b :=
  List.flatMap_append

/-- **A body gives its selected lines.** -/
theorem DocBody.exists_bodyTokens (hp : p.htmlComments = true) (o : Options) (limit : Nat)
    (b : DocBody) {r : List Char} (hr : r.head? ≠ some '\r') :
    ∃ ts, bodyTokens p (b.chars ++ r) = ts ++ bodyTokens p r ∧
      Gives o limit b.depth (AreLines · (linesText (b.selected o.keys))) ts := by
  induction b generalizing r with
  | nil => exact ⟨[], rfl, .nil .nil⟩
  | line l rest ih =>
    obtain ⟨ts, hline, htext, hplain⟩ := exists_bodyTokens_line (p := p) l (rest.head?_chars hr)
    obtain ⟨us, hrest, hus⟩ := ih hr
    refine ⟨(ts ++ [newlinePiece.bare]) ++ us, ?_, ?_⟩
    · rw [DocBody.chars, List.append_assoc, hline, hrest]
      simp
    · have hfirst : Gives o limit rest.depth (AreLines · l.chars) (ts ++ [newlinePiece.bare]) := by
        rw [DocLine.chars, ← htext]
        exact .line hplain (htext ▸ l.kept)
      exact hfirst.append hus fun _ _ => .append
  | region q key head first last rest ihfirst ihrest =>
    obtain ⟨us, hrest, hus⟩ := ihrest hr
    obtain ⟨m', hlast, hm'⟩ :=
      exists_bodyTokens_atom hp last .ending (d := .closing) rfl (rest.head?_chars hr)
    obtain ⟨ts, hfirst, hts⟩ := ihfirst (last.head?_line Atom.ending.name (rest.chars ++ r))
    obtain ⟨m, hhead, hm⟩ := exists_bodyTokens_opening hp head q key
      (first.head?_chars (last.head?_line Atom.ending.name (rest.chars ++ r)))
    refine ⟨(m ++ ((htmlOpening q key.toKeyExpr).tokens ++ (partTokens ts m' ++
      htmlClosing.tokens) ++ [newlinePiece.bare])) ++ us, ?_, ?_⟩
    · simp only [DocBody.chars, List.append_assoc]
      rw [hhead, hfirst, hlast, hrest]
      simp [partTokens, htmlClosing]
    · have hregion := (hts.regionLines q key.toKeyExpr hm hm').mono
        (Nat.le_max_left _ rest.depth) fun _ => id
      refine hregion.append (hus.mono (Nat.le_max_right _ _) fun _ => id) ?_
      intro ss ts hss hts
      rw [DocBody.selected, linesText_append, apply_ite linesText]
      exact hss.append hts
  | divided q key head first middle second last rest ihfirst ihsecond ihrest =>
    obtain ⟨us, hrest, hus⟩ := ihrest hr
    obtain ⟨m'', hlast, hm''⟩ :=
      exists_bodyTokens_atom hp last .ending (d := .closing) rfl (rest.head?_chars hr)
    have hlasthead := last.head?_line Atom.ending.name (rest.chars ++ r)
    obtain ⟨ts', hsecond, hts'⟩ := ihsecond hlasthead
    obtain ⟨m', hmiddle, hm'⟩ := exists_bodyTokens_atom hp middle .alternative (d := .alternative)
      rfl (second.head?_chars hlasthead)
    have hmiddlehead := middle.head?_line Atom.alternative.name
      (second.chars ++ (last.line Atom.ending.name ++ (rest.chars ++ r)))
    obtain ⟨ts, hfirst, hts⟩ := ihfirst hmiddlehead
    obtain ⟨m, hhead, hm⟩ :=
      exists_bodyTokens_opening hp head q key (first.head?_chars hmiddlehead)
    refine ⟨(m ++ ((htmlOpening q key.toKeyExpr).tokens ++ (partTokens ts m' ++
      (htmlAlternative.tokens ++ (partTokens ts' m'' ++ htmlClosing.tokens))) ++
        [newlinePiece.bare])) ++ us, ?_, ?_⟩
    · simp only [DocBody.chars, List.append_assoc]
      rw [hhead, hfirst, hmiddle, hsecond, hlast, hrest]
      simp [partTokens, htmlAlternative, htmlClosing]
    · have hparts := (hts.mono (Nat.le_max_left _ second.depth) fun _ => id).dividedLines q
        key.toKeyExpr hm hm' (hts'.mono (Nat.le_max_right _ _) fun _ => id) hm''
      have hregion := hparts.mono (Nat.le_max_left _ rest.depth) fun _ => id
      refine hregion.append (hus.mono (Nat.le_max_right _ _) fun _ => id) ?_
      intro ss ts hss hts
      rw [DocBody.selected, linesText_append, apply_ite linesText]
      exact hss.append hts

theorem toList_docComment (cs : List Char) :
    (docComment cs).toList = '/' :: '*' :: '*' :: '\n' :: (cs ++ [' ', '*', '/']) := by
  simp [docComment]

/-- The tokens of the body, from the break behind the opening delimiter to the space before
    the closing one. -/
def framed (ts : List Token) : List Token := newlinePiece.bare :: (ts ++ [spacePiece.bare])

theorem kinds_framed {ts : List Token} (h : ∀ t ∈ ts, t.kind ≠ .blockClose) :
    ∀ t ∈ framed ts, t.kind ≠ .blockClose := by
  intro t ht
  rcases List.mem_cons.1 ht with rfl | ht
  · exact Kind.noConfusion
  rcases List.mem_append.1 ht with ht | ht
  · exact h t ht
  · rw [List.mem_singleton.1 ht]
    exact Kind.noConfusion

theorem bareTokens_docComment (hp : p.blockComments = true) {cs : List Char} {ts : List Token}
    (hcs : (cs ++ [' ', '*', '/']).head? ≠ some '\r')
    (h : bodyTokens p (cs ++ [' ', '*', '/']) = ts ++ bodyTokens p [' ', '*', '/'])
    (hts : ∀ t ∈ ts, t.kind ≠ .blockClose) :
    bareTokens p (docComment cs).toList = (bareDoc _ (kinds_framed hts)).tokens ++ [eofToken] := by
  have hend : bodyTokens p [' ', '*', '/'] = [spacePiece.bare, blockCloser.bare, eofToken] := by
    rw [bodyTokens, scan_space, scan_blockClose, scan]
    rfl
  rw [hend] at h
  rw [toList_docComment, bareTokens, scan_docOpener hp true (by simp),
    scan_commentNewline false hcs, coalesce_cons_of_ne Kind.noConfusion,
    coalesce_cons_of_ne Kind.noConfusion, List.map_cons, List.map_cons, ← bodyTokens, h]
  simp [bareDoc, framed, Comment.tokens, Comment.tail]

end

/-! ### The main statement -/

theorem Gives.docTrail_copies {o : Options} {limit d n : Nat} {cs : List Char} {ts : List Token}
    (h : Gives o limit d (AreLines · cs) ts) (hn : d ≤ n) :
    (docTrail o (Level.ofDepth o limit n) (bareDoc _ (kinds_framed h.kinds))).Copies
      (docComment cs).toList := by
  have hnone : ∀ t ∈ ([] : List Token), t.IsPlain := by simp
  have hfirst : Gives o limit d (AreLines · ['\n']) [newlinePiece.bare] := .line hnone rfl
  have hlines : Gives o limit d (AreLines · ('\n' :: cs)) (newlinePiece.bare :: ts) :=
    hfirst.append h fun _ _ => .append
  -- behind the last whole line stands the space before the closing delimiter
  have hbody : Gives o limit d (fun ss => Copies (docSteps [] ss) ('\n' :: (cs ++ [' '])))
      (framed ts) := by
    have hspace : ∀ t ∈ [spacePiece.bare], t.IsPlain := by
      simp [Token.IsPlain, Piece.bare, spacePiece]
    refine hlines.append (.plain hspace) ?_
    rintro ss _ ⟨steps, hsteps, hss⟩ rfl
    rw [hss]
    exact hsteps.append (.text [' '])
  obtain ⟨a, hwalks, hstop, hsteps⟩ := hbody.walks n hn
  have hwalk := hwalks.all []
  rw [List.append_nil] at hwalk
  have hinner : (a.mapSteps (@docSteps [])).Copies ('\n' :: (cs ++ [' '])) := .mapSteps hstop hsteps
  have hall := (Trail.Copies.write (.text ['/', '*', '*'])).andThen
    (hinner.andThen (.write (.text ['*', '/'])))
  rw [docTrail, toList_docComment]
  have hchars : '/' :: '*' :: '*' :: '\n' :: (cs ++ [' ', '*', '/']) =
      ['/', '*', '*'] ++ ('\n' :: (cs ++ [' ']) ++ ['*', '/']) := by simp
  rw [hchars]
  exact hwalk ▸ hall

/-- **Directives on lines of their own vanish without a trace.**  A doc comment whose body
    consists of plain lines and of regions is transformed to the doc comment with the
    lines of the selected parts, in order, as long as its regions are not nested too
    deep. -/
theorem transform_docBody {o : Options} (hprofile : o.language.profile.htmlComments = true)
    (hheader : o.autoHeader = false) (b : DocBody) (hdepth : b.depth ≤ maxDepth) :
    transform o (docComment b.chars) =
      o.validate.map fun _ => docComment ((b.selected o.keys).flatMap DocLine.chars) := by
  have hblock : o.language.profile.blockComments = true := by
    cases hl : o.language <;> rw [hl] at hprofile <;> first | rfl | cases hprofile
  have hspace : [' ', '*', '/'].head? ≠ some '\r' := by decide
  obtain ⟨ts, htokens, hts⟩ := b.exists_bodyTokens hprofile o maxDepth hspace
  have hall : bareTokens o.language.profile (docComment b.chars).toList =
      (bareDoc _ (kinds_framed hts.kinds)).tokens ++ [eofToken] :=
    bareTokens_docComment hblock (b.head?_chars hspace) htokens hts.kinds
  have hbare := evaluate_bare_doc hheader rfl hall
  have hcopies := hts.docTrail_copies hdepth
  have hresult := (Trail.result_of_bare hbare).2 hcopies.result
  rw [String.ofList_toList] at hresult
  rw [transform]
  cases o.validate with
  | error e => rfl
  | ok u => exact hresult

/-- A region whose second part holds a region of its own, with tabs and spaces around the
    stars. -/
def nestedBody : DocBody :=
  let margin : DocMargin := ⟨[' '], [], by simp [isIndent], by simp⟩
  let wide : DocMargin := ⟨['\t', ' '], [' ', '\t'], by simp [isIndent], by simp [isIndent]⟩
  let line : DocLine := ⟨" * a > b.".toList, by simp [isBreak], by decide, by decide, by decide⟩
  let word : DocLine := ⟨" *@else".toList, by simp [isBreak], by decide, by decide, by decide⟩
  let first : DocKey := ⟨⟨"A"⟩, by decide, by simp [isBoundary, isIndent, isBreak]⟩
  let second : DocKey := ⟨⟨"B|C"⟩, by decide, by simp [isBoundary, isIndent, isBreak]⟩
  .divided .positive first margin (.line line .nil) wide
    (.line word (.region .negative second wide (.line line .nil) margin .nil)) margin
    (.line word .nil)

theorem transform_docBody_nested :
    transform (({} : Options).withKey "B") (docComment nestedBody.chars) =
      .ok "/**\n *@else\n *@else\n */" := by
  have h := transform_docBody (o := ({} : Options).withKey "B") rfl rfl nestedBody (by decide)
  rw [h]
  decide +kernel

end FeatureCut
