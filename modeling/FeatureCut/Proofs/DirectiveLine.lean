/-
  FeatureCut/Proofs/DirectiveLine.lean
  ====================================
  **Directives on lines of their own.**

  What the scanner makes of a block comment that holds a directive, with a space
  after its opening delimiter and one before the closing one, and a line break
  after it.  The comment is read whatever stands behind it, as long as the break
  does not grow: a carriage return would belong to it.
-/
import FeatureCut.Proofs.CommentText
import FeatureCut.Proofs.ForestEvaluation
import FeatureCut.Proofs.Places

namespace FeatureCut

/-! ### One lexeme -/

theorem scan_blockOpener {p : Profile} (hp : p.blockComments = true) (fresh : Bool) {r : List Char}
    (hr : r.head? ≠ some '*') :
    scan p (.code fresh) ('/' :: '*' :: r) =
      ⟨.blockOpen, ['/', '*'], .code⟩ :: scan p (.comment .block false) r := by
  have hslash : slashMove ('*' :: r) =
      ⟨[⟨.blockOpen, ['/', '*'], .code⟩], r, .comment .block false⟩ := by
    cases r with
    | nil => rfl
    | cons c t =>
      have hc : c ≠ '*' := by
        rintro rfl
        exact hr rfl
      simp [slashMove, hc]
  have hmove : Mode.move p (.code fresh) '/' ('*' :: r) =
      ⟨[⟨.blockOpen, ['/', '*'], .code⟩], r, .comment .block false⟩ := by
    simp [Mode.move, codeMove, isBreak, hp, hslash]
  rw [scan, hmove]
  rfl

theorem scan_blockOpen {p : Profile} (hp : p.blockComments = true) (fresh : Bool) (r : List Char) :
    scan p (.code fresh) ('/' :: '*' :: ' ' :: r) =
      ⟨.blockOpen, ['/', '*'], .code⟩ :: scan p (.comment .block false) (' ' :: r) :=
  scan_blockOpener hp fresh (by simp)

theorem scan_docOpener {p : Profile} (hp : p.blockComments = true) (fresh : Bool) {r : List Char}
    (hr : r.head? ≠ some '/') :
    scan p (.code fresh) ('/' :: '*' :: '*' :: r) =
      ⟨.docOpen, ['/', '*', '*'], .code⟩ :: scan p (.comment .block false) r := by
  have hslash : slashMove ('*' :: '*' :: r) =
      ⟨[⟨.docOpen, ['/', '*', '*'], .code⟩], r, .comment .block false⟩ := by
    cases r with
    | nil => rfl
    | cons c t =>
      have hc : c ≠ '/' := by
        rintro rfl
        exact hr rfl
      simp [slashMove, hc]
  have hmove : Mode.move p (.code fresh) '/' ('*' :: '*' :: r) =
      ⟨[⟨.docOpen, ['/', '*', '*'], .code⟩], r, .comment .block false⟩ := by
    simp [Mode.move, codeMove, isBreak, hp, hslash]
  rw [scan, hmove]
  rfl

theorem breakFrom_newline {r : List Char} (hr : r.head? ≠ some '\r') :
    breakFrom '\n' r = (['\n'], r) := by
  cases r with
  | nil => rfl
  | cons d t =>
    have hd : d ≠ '\r' := by
      rintro rfl
      exact hr rfl
    have hpair : isBreakPair '\n' d = false := by
      by_cases hn : d = '\n'
      · simp [isBreakPair, hn]
      · simp [isBreakPair, isBreak, hd, hn]
    simp [breakFrom, hpair]

theorem scan_newline (p : Profile) (fresh : Bool) {r : List Char} (hr : r.head? ≠ some '\r') :
    scan p (.code fresh) ('\n' :: r) = ⟨.eol, ['\n'], .code⟩ :: scan p (.code true) r := by
  have hmove : Mode.move p (.code fresh) '\n' r = ⟨[⟨.eol, ['\n'], .code⟩], r, .code true⟩ := by
    simp [Mode.move, codeMove, isBreak, breakFrom_newline hr]
  rw [scan, hmove]
  rfl

/-! ### Lines of their own -/

/-- A comment on a line of its own. -/
def directiveLine (words : String) : String := "/* " ++ words ++ " */\n"

theorem toList_directiveLine (words : String) :
    (directiveLine words).toList =
      '/' :: '*' :: ' ' :: (words.toList ++ [' ', '*', '/', '\n']) := by
  simp [directiveLine]

def spacePiece : Piece := ⟨.text, [' '], .comment⟩

def newlineToken : Token := Piece.bare ⟨.eol, ['\n'], .code⟩

def bareComment (inner : List Piece) (h : ∀ q ∈ inner, q.kind ≠ .blockClose) :
    Comment .blockOpen where
  opener := Piece.bare ⟨.blockOpen, ['/', '*'], .code⟩
  inner := inner.map Piece.bare
  closer := Piece.bare ⟨.blockClose, ['*', '/'], .comment⟩
  opener_kind := rfl
  inner_kind := by
    intro t ht
    obtain ⟨q, hq, rfl⟩ := List.mem_map.1 ht
    exact h q hq
  closer_kind := rfl

theorem bareTokens_directiveLine {p : Profile} (hp : p.blockComments = true) {words : List Char}
    {inner : List Piece} (h : ∀ q ∈ inner, q.kind ≠ .blockClose)
    (hscan : ∀ r, scan p (.comment .block false) (' ' :: (words ++ ' ' :: '*' :: '/' :: r)) =
      inner ++ ⟨.blockClose, ['*', '/'], .comment⟩ :: scan p (.code false) r)
    (hinner : coalesce inner = inner) {r : List Char} (hr : r.head? ≠ some '\r') :
    bareTokens p ((directiveLine (String.ofList words)).toList ++ r) =
      (bareComment inner h).tokens ++ newlineToken :: bareTokens p r := by
  have hpieces : scan p (.code true) ((directiveLine (String.ofList words)).toList ++ r) =
      ⟨.blockOpen, ['/', '*'], .code⟩ :: (inner ++ ⟨.blockClose, ['*', '/'], .comment⟩ ::
        ⟨.eol, ['\n'], .code⟩ :: scan p (.code true) r) := by
    rw [toList_directiveLine, String.toList_ofList]
    simp only [List.cons_append, List.append_assoc, List.nil_append]
    rw [scan_blockOpen hp, hscan, scan_newline p false hr]
  rw [bareTokens, hpieces, coalesce_cons_of_ne Kind.noConfusion,
    coalesce_append_cons inner Kind.noConfusion, hinner, coalesce_cons_of_ne Kind.noConfusion]
  simp [bareComment, Comment.tokens, Comment.tail, bareTokens, newlineToken]

def atomPieces (a : Atom) : List Piece :=
  [spacePiece, ⟨.atom a, a.name.toList, .comment⟩, spacePiece]

def keyedPieces (a : Atom) (key : KeyExpr) : List Piece :=
  [spacePiece, ⟨.atom a, a.name.toList, .comment⟩, spacePiece, ⟨.key, key.text.toList, .comment⟩,
    spacePiece]

theorem keyedPieces_kind (a : Atom) (key : KeyExpr) :
    ∀ q ∈ keyedPieces a key, q.kind ≠ .blockClose := by
  simp [keyedPieces, spacePiece]

theorem scan_keyed (p : Profile) {a : Atom} (ha : a.takesKey = true) {key : KeyExpr}
    (hkey : key.text ≠ "") (hchars : ∀ c ∈ key.text.toList, isBoundary c = false)
    (r : List Char) :
    scan p (.comment .block false)
        (' ' :: (a.name.toList ++ ' ' :: (key.text.toList ++ ' ' :: '*' :: '/' :: r))) =
      keyedPieces a key ++ ⟨.blockClose, ['*', '/'], .comment⟩ :: scan p (.code false) r := by
  rw [scan_space, scan_atom, ha, scan_space, scan_key p (by simpa using hkey) hchars, scan_space,
    scan_blockClose]
  rfl

def openingPieces (p : Polarity) (key : KeyExpr) : List Piece := keyedPieces p.atom key

def alternativeSaying : Saying .alternative where
  toComment := bareComment (atomPieces .alternative) (by decide)
  classified := by rfl

def closingSaying : Saying .closing where
  toComment := bareComment (atomPieces .ending) (by decide)
  classified := by rfl

theorem classify_openingPieces (p : Polarity) (key : KeyExpr) :
    classify ((openingPieces p key).map Piece.bare) = .ok (.opening p key) := by
  have h : classify ((openingPieces p key).map Piece.bare) =
      .ok (.opening p ⟨String.ofList key.text.toList⟩) := by
    cases p <;> rfl
  rwa [String.ofList_toList] at h

def openingSaying (p : Polarity) (key : KeyExpr) : Saying (.opening p key) where
  toComment := bareComment (openingPieces p key) (keyedPieces_kind p.atom key)
  classified := classify_openingPieces p key

theorem bareTokens_atomLine {p : Profile} (hp : p.blockComments = true) (a : Atom) {r : List Char}
    (hr : r.head? ≠ some '\r') :
    bareTokens p ((directiveLine a.name).toList ++ r) =
      (bareComment (atomPieces a) (by simp [atomPieces, spacePiece])).tokens ++
        newlineToken :: bareTokens p r := by
  have hscan : ∀ r, scan p (.comment .block false)
      (' ' :: (a.name.toList ++ ' ' :: '*' :: '/' :: r)) =
      atomPieces a ++ ⟨.blockClose, ['*', '/'], .comment⟩ :: scan p (.code false) r := by
    intro r
    rw [scan_space, scan_atom, scan_space, scan_blockClose]
    rfl
  have hline := bareTokens_directiveLine hp (by simp [atomPieces, spacePiece]) hscan rfl hr
  rwa [String.ofList_toList] at hline

theorem bareTokens_openingLine {p : Profile} (hp : p.blockComments = true) (q : Polarity)
    {key : KeyExpr} (hkey : key.text ≠ "") (hchars : ∀ c ∈ key.text.toList, isBoundary c = false)
    {r : List Char} (hr : r.head? ≠ some '\r') :
    bareTokens p ((directiveLine (q.atom.name ++ " " ++ key.text)).toList ++ r) =
      (openingSaying q key).tokens ++ newlineToken :: bareTokens p r := by
  have hscan : ∀ r, scan p (.comment .block false)
      (' ' :: ((q.atom.name ++ " " ++ key.text).toList ++ ' ' :: '*' :: '/' :: r)) =
      openingPieces q key ++ ⟨.blockClose, ['*', '/'], .comment⟩ :: scan p (.code false) r := by
    intro r
    have hwords : (q.atom.name ++ " " ++ key.text).toList ++ ' ' :: '*' :: '/' :: r =
        q.atom.name.toList ++ ' ' :: (key.text.toList ++ ' ' :: '*' :: '/' :: r) := by
      simp
    have htakes : q.atom.takesKey = true := by cases q <;> rfl
    rw [hwords, scan_keyed p htakes hkey hchars, openingPieces]
  have hline := bareTokens_directiveLine hp (keyedPieces_kind q.atom key) hscan rfl hr
  rwa [String.ofList_toList] at hline

end FeatureCut
