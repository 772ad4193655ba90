/-
  FeatureCut/Inspect.lean
  =======================
  **Inspecting a document by index.**

  The questions that the evaluator asks while it walks over a document, asked
  for any place of it: where a comment closes, what it says, and which region
  starts after it.  `findings` answers them for every comment.
-/
import FeatureCut.Region

namespace FeatureCut

/-! ### Tokens by index -/

/-- The tokens strictly between two indices. -/
def between (ts : List Token) (first last : Nat) : List Token :=
  (ts.drop (first + 1)).take (last - (first + 1))

def slice (ts : List Token) (start stop : Nat) : List Token := (ts.drop start).take (stop - start)

/-- The index of the first token of a kind from `start` on, below `limit`. -/
def indexOf? (ts : List Token) (kind : Kind) (start limit : Nat) : Option Nat :=
  (((ts.take limit).drop start).findIdx? fun t => t.kind = kind).map (start + ·)

/-- The range from `start` up to `stop` without the blank text at its ends. -/
def trimRange (ts : List Token) (start stop : Nat) : Nat × Nat :=
  let window := trimWindow (stop - start) (ts.drop start)
  (start + window.1, start + window.1 + window.2)

/-! ### Comments by index -/

def CommentKind.close : CommentKind → Kind
  | .block | .doc => .blockClose
  | .html => .htmlClose

def CommentKind.ofOpener? : Kind → Option CommentKind
  | .blockOpen => some .block
  | .docOpen => some .doc
  | .htmlOpen => some .html
  | _ => none

/-- Where the comment opened at an index closes, below `limit`. -/
def closeBelow (ts : List Token) (first : Nat) (kind : CommentKind) (limit : Nat) :
    Except Error Nat :=
  match indexOf? ts kind.close (first + 1) limit with
  | some i => .ok i
  | none =>
    let place := (ts[first]?.map fun t => t.extent.start).getD .start
    .error (.unterminatedComment kind place.line place.column)

def closeOf (ts : List Token) (first : Nat) (kind : CommentKind) : Except Error Nat :=
  closeBelow ts first kind ts.length

def classifyAt (ts : List Token) (first last : Nat) : Except Error Directive :=
  classify (between ts first last)

/-- An html comment says what a block comment could say. -/
def HtmlDirective.toDirective : HtmlDirective → Directive
  | .plain => .plain
  | .opening p key => .opening p key
  | .alternative => .alternative
  | .closing => .closing

def classifyHtmlAt (ts : List Token) (first last : Nat) : Except Error Directive :=
  (classifyHtml (between ts first last)).map HtmlDirective.toDirective

def regionAt (ts : List Token) (start : Nat) : Except Error (Option Region) :=
  findRegion start (ts.drop start)

def htmlRegionAt (ts : List Token) (start limit : Nat) : Except Error (Option Region) :=
  findHtmlRegion start ((ts.take limit).drop start)

/-! ### Findings -/

/-- What is known of a comment that closes. -/
structure Reading where
  close : Nat
  directive : Except Error Directive
  region : Except Error (Option Region)

structure Finding where
  index : Nat
  kind : CommentKind
  reading : Except Error Reading

/-- What is known of the comment that opens at an index.  An html comment has to
    close before the block comment around it does. -/
def readingAt (ts : List Token) (first : Nat) (kind : CommentKind) : Except Error Reading :=
  match kind with
  | .html =>
    let limit := (indexOf? ts .blockClose first ts.length).getD ts.length
    (closeBelow ts first .html limit).map fun close =>
      ⟨close, classifyHtmlAt ts first close, htmlRegionAt ts (close + 1) limit⟩
  | kind =>
    (closeOf ts first kind).map fun close =>
      ⟨close, classifyAt ts first close, regionAt ts (close + 1)⟩

def findings (ts : List Token) : List Finding :=
  ts.zipIdx.filterMap fun (t, i) =>
    (CommentKind.ofOpener? t.kind).map fun kind => ⟨i, kind, readingAt ts i kind⟩

end FeatureCut
