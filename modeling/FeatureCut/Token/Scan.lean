/-
  FeatureCut/Token/Scan.lean
  ==========================
  **Cutting a source into tokens.**

  The scanner reads a source from the left.  Outside comments it looks for
  comment openers, string literals and line breaks; inside a comment for the
  closing delimiter, html comments, directive atoms and keys.  A `Move` is what
  one lexeme contributes, and `Mode.move_lossless` says that a move reads exactly
  the characters it reports.  `tokenize` never fails: what is malformed shows when a
  closing token is looked for.
-/
import FeatureCut.Language.Profile
import FeatureCut.Token
import FeatureCut.Token.Literal

namespace FeatureCut

/-! ### Modes and moves -/

/-- What a comment is enclosed in: the rest of a line after its marker, which only a line
    break ends, or delimiters; an html comment stands inside a block comment. -/
inductive Enclosure where
  | line
  | block
  | html
deriving DecidableEq, Repr

/-- Where the scanner stands.  A line is `fresh` while it holds only spaces and tabs; in a
    comment a key is `due` after an atom that takes one. -/
inductive Mode where
  | code (fresh : Bool)
  | comment (enclosure : Enclosure) (due : Bool)
deriving DecidableEq, Repr

def Enclosure.context : Enclosure → Context
  | .line | .block => .comment
  | .html => .html

/-- One lexeme read: its pieces, the text that follows, and the mode there. -/
structure Move where
  pieces : List Piece
  rest : List Char
  mode : Mode

def Move.text (context : Context) (lexeme rest : List Char) (mode : Mode) : Move :=
  ⟨[⟨.text, lexeme, context⟩], rest, mode⟩

/-! ### Moves outside comments -/

/-- The pieces of a literal, whose line breaks are tokens of their own. -/
def literalPieces (body : List Char) : List Piece :=
  (segments body).map fun
    | .text cs => ⟨.text, cs, .code⟩
    | .eol cs => ⟨.eol, cs, .code⟩

/-- The rest of a literal after its first quote `q`, and what follows it.  Where
    three quotes open a literal, two more of them make it one of that kind. -/
def literalBody (p : Profile) (q : Char) (r : List Char) : List Char × List Char :=
  if p.tripleQuotedStrings && r.take 2 == [q, q] then extendFirst [q, q] (tripleBody q (r.drop 2))
  else quotedBody q r

/-- Read a literal after its first quote `q`.  It ends in a quote, before a line
    break or with the source, so the line is never fresh after it. -/
def literalMove (p : Profile) (q : Char) (r : List Char) : Move :=
  ⟨literalPieces (q :: (literalBody p q r).1), (literalBody p q r).2, .code false⟩

/-- Read what a slash starts where block comments are known.  An empty doc
    comment is text. -/
def slashMove : List Char → Move
  | '*' :: '*' :: '/' :: r => .text .code ['/', '*', '*', '/'] r (.code false)
  | '*' :: '*' :: r => ⟨[⟨.docOpen, ['/', '*', '*'], .code⟩], r, .comment .block false⟩
  | '*' :: r => ⟨[⟨.blockOpen, ['/', '*'], .code⟩], r, .comment .block false⟩
  | r => .text .code ['/'] r (.code false)

/-- The letters of an atom, each with at most one hyphen after it, and what
    follows them. -/
def atomTail : List Char → List Char × List Char
  | [] => ([], [])
  | c :: r =>
    if c.isAlpha then
      match r with
      | d :: t =>
        if d = '-' then extendFirst [c, d] (atomTail t) else extendFirst [c] (atomTail (d :: t))
      | [] => ([c], [])
    else ([], c :: r)
termination_by structural cs => cs

def startsWithAtom (cs : List Char) : Bool :=
  match cs.dropWhile isIndent with
  | '@' :: r => (Atom.ofLexeme? ('@' :: (atomTail r).1)).isSome
  | _ => false

/-- Read a line comment after its marker.  It is scanned as a comment if it
    starts with a directive, and otherwise it is text to the end of the line. -/
def lineMove (marker r : List Char) : Move :=
  if startsWithAtom r then ⟨[⟨.blockOpen, marker, .code⟩], r, .comment .line false⟩
  else .text .code (marker ++ firstLine r) (fromBreak r) (.code false)

def codeMove (p : Profile) (fresh : Bool) (c : Char) (r : List Char) : Move :=
  if isBreak c then
    ⟨[⟨.eol, (breakFrom c r).1, .code⟩], (breakFrom c r).2, .code true⟩
  else if p.blockComments && c == '/' then slashMove r
  else if c == '"' || c == '\'' then literalMove p c r
  else if p.hashComments && fresh && c == '#' then lineMove ['#'] r
  else if p.doubleHyphenComments && fresh && c == '-' && r.head? == some '-' then
    lineMove ['-', '-'] (r.drop 1)
  else .text .code [c] r (.code (fresh && isIndent c))

/-! ### Moves inside comments -/

/-- The characters that end a key. -/
def isBoundary (c : Char) : Bool :=
  isIndent c || isBreak c || ['*', '/', '<', '!', '-', '>', '@'].contains c

/-- Read a line break.  It ends a line comment, whose close is empty. -/
def commentBreakMove (e : Enclosure) (c : Char) (r : List Char) : Move :=
  match e with
  | .line =>
    ⟨[⟨.blockClose, [], .comment⟩, ⟨.eol, (breakFrom c r).1, .code⟩], (breakFrom c r).2,
      .code true⟩
  | e => ⟨[⟨.eol, (breakFrom c r).1, e.context⟩], (breakFrom c r).2, .comment e false⟩

/-- Read the word after an `@`.  Only the known atoms are more than text. -/
def atomMove (e : Enclosure) (r : List Char) : Move :=
  let lexeme := '@' :: (atomTail r).1
  match Atom.ofLexeme? lexeme with
  | some a => ⟨[⟨.atom a, lexeme, e.context⟩], (atomTail r).2, .comment e a.takesKey⟩
  | none => .text e.context lexeme (atomTail r).2 (.comment e false)

/-- Read what starts with one of the characters that delimiters are made of. -/
def delimiterMove (p : Profile) (e : Enclosure) (c : Char) (r : List Char) : Move :=
  match c, r with
  -- a delimiter that does not count where it stands is text as a whole
  | '*', '/' :: t =>
    if e = .block then ⟨[⟨.blockClose, ['*', '/'], .comment⟩], t, .code false⟩
    else .text e.context ['*', '/'] t (.comment e false)
  | '<', '!' :: '-' :: '-' :: t =>
    if e = .block && p.htmlComments then
      ⟨[⟨.htmlOpen, ['<', '!', '-', '-'], .comment⟩], t, .comment .html false⟩
    else .text e.context ['<', '!', '-', '-'] t (.comment e false)
  | '-', '-' :: '>' :: t =>
    if e = .html then ⟨[⟨.htmlClose, ['-', '-', '>'], .html⟩], t, .comment .block false⟩
    else .text e.context ['-', '-', '>'] t (.comment e false)
  | c, r => .text e.context [c] r (.comment e false)

def commentMove (p : Profile) (e : Enclosure) (due : Bool) (c : Char) (r : List Char) : Move :=
  if isBreak c then commentBreakMove e c r
  else if c == '@' then atomMove e r
  -- spaces may stand between an atom and its key, and nothing else
  else if isIndent c then .text e.context [c] r (.comment e due)
  else if isBoundary c then delimiterMove p e c r
  else if due then
    ⟨[⟨.key, c :: r.takeWhile fun d => !isBoundary d, e.context⟩],
      r.dropWhile fun d => !isBoundary d, .comment e false⟩
  else .text e.context [c] r (.comment e false)

def Mode.move (p : Profile) (m : Mode) (c : Char) (r : List Char) : Move :=
  match m with
  | .code fresh => codeMove p fresh c r
  | .comment e due => commentMove p e due c r

/-! ### A move reads what it reports -/

def lexemes (ps : List Piece) : List Char := ps.flatMap Piece.lexeme

@[simp] theorem lexemes_nil : lexemes [] = [] := rfl

@[simp] theorem lexemes_cons (p : Piece) (ps : List Piece) :
    lexemes (p :: ps) = p.lexeme ++ lexemes ps := rfl

@[simp] theorem lexemes_append (a b : List Piece) : lexemes (a ++ b) = lexemes a ++ lexemes b := by
  simp [lexemes]

@[simp] theorem lexemes_literalPieces (body : List Char) : lexemes (literalPieces body) = body := by
  have h : ∀ ss : List Segment,
      lexemes (ss.map fun
        | .text cs => (⟨.text, cs, .code⟩ : Piece)
        | .eol cs => ⟨.eol, cs, .code⟩) = ss.flatMap Segment.chars := by
    intro ss
    induction ss with
    | nil => rfl
    | cons s ss ih => cases s <;> simp [Segment.chars, ih]
  exact (h _).trans (flatten_segments body)

theorem atomTail_append (cs : List Char) : (atomTail cs).1 ++ (atomTail cs).2 = cs := by
  fun_induction atomTail cs <;> simp_all

theorem literalBody_append (p : Profile) (q : Char) (r : List Char) :
    (literalBody p q r).1 ++ (literalBody p q r).2 = r := by
  unfold literalBody
  split
  · rename_i h
    simp only [Bool.and_eq_true, beq_iff_eq] at h
    rw [extendFirst_fst, extendFirst_snd, List.append_assoc, tripleBody_append, ← h.2,
      List.take_append_drop]
  · exact quotedBody_append q r

theorem literalMove_lossless (p : Profile) (q : Char) (r : List Char) :
    lexemes (literalMove p q r).pieces ++ (literalMove p q r).rest = q :: r := by
  simp [literalMove, literalBody_append]

theorem slashMove_lossless (r : List Char) :
    lexemes (slashMove r).pieces ++ (slashMove r).rest = '/' :: r := by
  unfold slashMove
  split <;> simp [Move.text]

theorem lineMove_lossless (marker r : List Char) :
    lexemes (lineMove marker r).pieces ++ (lineMove marker r).rest = marker ++ r := by
  unfold lineMove
  split <;> simp [Move.text]

theorem codeMove_lossless (p : Profile) (fresh : Bool) (c : Char) (r : List Char) :
    lexemes (codeMove p fresh c r).pieces ++ (codeMove p fresh c r).rest = c :: r := by
  unfold codeMove
  split
  · simp [breakFrom_append]
  split
  · rename_i h
    simp only [Bool.and_eq_true, beq_iff_eq] at h
    rw [slashMove_lossless, h.2]
  split
  · exact literalMove_lossless p c r
  split
  · rename_i h
    simp only [Bool.and_eq_true, beq_iff_eq] at h
    rw [lineMove_lossless, h.2]
    rfl
  split
  · rename_i h
    simp only [Bool.and_eq_true, beq_iff_eq] at h
    rw [lineMove_lossless, h.1.2]
    cases r with
    | nil => simp at h
    | cons d t => simp_all
  · simp [Move.text]

theorem commentMove_lossless (p : Profile) (e : Enclosure) (due : Bool) (c : Char)
    (r : List Char) :
    lexemes (commentMove p e due c r).pieces ++ (commentMove p e due c r).rest = c :: r := by
  unfold commentMove
  split
  · unfold commentBreakMove
    split <;> simp [breakFrom_append]
  split
  · rename_i h
    unfold atomMove
    simp only [beq_iff_eq] at h
    subst h
    dsimp only
    split <;> simp [Move.text, atomTail_append]
  split
  · simp [Move.text]
  split
  · unfold delimiterMove
    split
    · split <;> simp [Move.text]
    · split <;> simp [Move.text]
    · split <;> simp [Move.text]
    · simp [Move.text]
  split
  · simp [List.takeWhile_append_dropWhile]
  · simp [Move.text]

/-- A move covers the text it was given, and leaves the rest. -/
theorem Mode.move_lossless (p : Profile) (m : Mode) (c : Char) (r : List Char) :
    lexemes (m.move p c r).pieces ++ (m.move p c r).rest = c :: r := by
  cases m with
  | code fresh => exact codeMove_lossless p fresh c r
  | comment e due => exact commentMove_lossless p e due c r

/-- Every move reads something. -/
theorem Mode.move_ne_nil (p : Profile) (m : Mode) (c : Char) (r : List Char) :
    lexemes (m.move p c r).pieces ≠ [] := by
  have hb : (breakFrom c r).1 ≠ [] := by
    unfold breakFrom
    split
    · simp
    · split <;> simp
  cases m with
  | code fresh =>
    simp only [Mode.move, codeMove]
    split
    · simpa using hb
    split
    · unfold slashMove
      split <;> simp [Move.text]
    split
    · simp [literalMove]
    split
    · unfold lineMove
      split <;> simp [Move.text]
    split
    · unfold lineMove
      split <;> simp [Move.text]
    · simp [Move.text]
  | comment e due =>
    simp only [Mode.move, commentMove]
    split
    · unfold commentBreakMove
      split <;> simpa using hb
    split
    · unfold atomMove
      dsimp only
      split <;> simp [Move.text]
    split
    · simp [Move.text]
    split
    · unfold delimiterMove
      split
      · split <;> simp [Move.text]
      · split <;> simp [Move.text]
      · split <;> simp [Move.text]
      · simp [Move.text]
    split <;> simp [Move.text]

theorem Mode.move_length (p : Profile) (m : Mode) (c : Char) (r : List Char) :
    (m.move p c r).rest.length ≤ r.length := by
  have h := congrArg List.length (m.move_lossless p c r)
  have h' := List.length_pos_iff.2 (m.move_ne_nil p c r)
  simp only [List.length_append, List.length_cons] at h
  omega

/-! ### Scanning -/

/-- The pieces at the end of a source.  A line comment closes there; any other
    comment stays open. -/
def Mode.finish : Mode → List Piece
  | .code _ => [⟨.eof, [], .code⟩]
  | .comment .line _ => [⟨.blockClose, [], .comment⟩, ⟨.eof, [], .code⟩]
  | .comment e _ => [⟨.eof, [], e.context⟩]

/-- Cut a text into pieces, lexeme by lexeme. -/
def scan (p : Profile) (m : Mode) : List Char → List Piece
  | [] => m.finish
  | c :: r => (m.move p c r).pieces ++ scan p (m.move p c r).mode (m.move p c r).rest
termination_by cs => cs.length
decreasing_by
  simp only [List.length_cons]
  exact Nat.lt_succ_of_le (m.move_length p c r)

/-- Cut a source into tokens.  Neighbouring text is one token, and the last
    token is the end of the source. -/
def tokenize (p : Profile) (source : String) : List Token :=
  locate .start (coalesce (scan p (.code true) source.toList))

end FeatureCut
