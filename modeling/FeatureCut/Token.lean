/-
  FeatureCut/Token.lean
  =====================
  **Tokens.**

  A source is a list of tokens: text, comment delimiters, the `@` atoms of
  directives, their keys, and line breaks.  A `Piece` is a token whose place is
  not known yet; a `Token` has its place too.  Nothing is dropped, so the
  lexemes of a document put together are its source.
-/
import FeatureCut.Text.Blank
import FeatureCut.Source.Position

namespace FeatureCut

/-! ### Kinds -/

/-- The words that open a directive. -/
inductive Atom where
  | includeIf
  | excludeIf
  | fileExcludeIf
  | alternative
  | ending
  | license
deriving DecidableEq, Repr

def Atom.name : Atom → String
  | .includeIf => "@include-if"
  | .excludeIf => "@exclude-if"
  | .fileExcludeIf => "@file-exclude-if"
  | .alternative => "@else"
  | .ending => "@end"
  | .license => "@license"

def Atom.all : List Atom :=
  [.includeIf, .excludeIf, .fileExcludeIf, .alternative, .ending, .license]

def Atom.ofLexeme? (lexeme : List Char) : Option Atom :=
  Atom.all.find? fun a => a.name.toList == lexeme

/-- The atoms that a key may follow. -/
def Atom.takesKey : Atom → Bool
  | .includeIf | .excludeIf | .fileExcludeIf | .license => true
  | .alternative | .ending => false

/-- What a token is.  The marker of a line comment that holds a directive is a `blockOpen`
    too, and its empty end a `blockClose`.  The last token of a source is its `eof`. -/
inductive Kind where
  | text
  | blockOpen
  | blockClose
  | docOpen
  | htmlOpen
  | htmlClose
  | atom (a : Atom)
  | key
  | eol
  | eof
deriving DecidableEq, Repr

def Kind.isAtom : Kind → Bool
  | .atom _ => true
  | _ => false

/-- Where a token stands. -/
inductive Context where
  | code
  | comment
  | html
deriving DecidableEq, Repr

/-! ### Pieces and tokens -/

/-- A lexeme of the source, what it is, and where it stands. -/
structure Piece where
  kind : Kind
  lexeme : List Char
  context : Context
deriving DecidableEq, Repr

/-- A piece with its place in the source. -/
structure Token extends Piece where
  extent : Extent
deriving DecidableEq, Repr

def Token.isBlankText (t : Token) : Bool :=
  t.kind = .text && t.lexeme.all isBlank

/-- The blanks of a comment: blank text and line breaks. -/
def Token.isGap (t : Token) : Bool :=
  t.isBlankText || t.kind = .eol

def textOf (ts : List Token) : List Char := ts.flatMap fun t => t.lexeme

@[simp] theorem textOf_nil : textOf [] = [] := rfl

@[simp] theorem textOf_cons (t : Token) (ts : List Token) :
    textOf (t :: ts) = t.lexeme ++ textOf ts := rfl

@[simp] theorem textOf_append (a b : List Token) : textOf (a ++ b) = textOf a ++ textOf b := by
  simp [textOf]

/-! ### Windows -/

/-- The blank text at both ends of a window: how many tokens to leave out at the
    start, and the size without them. -/
def trimWindow (n : Nat) (ts : List Token) : Nat × Nat :=
  let lead := ((ts.take n).takeWhile Token.isBlankText).length
  let trail := (((ts.take n).drop lead).reverse.takeWhile Token.isBlankText).length
  (lead, n - lead - trail)

/-! ### Assembling a document -/

/-- Join neighbouring pieces of text.  The joined text stands where its first
    piece stands. -/
def coalesce : List Piece → List Piece
  | [] => []
  | p :: ps =>
    match p.kind, coalesce ps with
    | .text, q :: qs =>
      if q.kind = .text then ⟨.text, p.lexeme ++ q.lexeme, p.context⟩ :: qs else p :: q :: qs
    | _, qs => p :: qs

/-- The point after a piece that starts at `p`: a line break leads to the next
    line, all else stays on the line. -/
def Piece.next (q : Piece) (p : Point) : Point :=
  if q.kind = .eol then p.newLine q.lexeme else p.advance q.lexeme

def locate (p : Point) : List Piece → List Token
  | [] => []
  | q :: qs => ⟨q, ⟨p, q.next p⟩⟩ :: locate (q.next p) qs

end FeatureCut
