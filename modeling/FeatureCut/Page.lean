/-
  FeatureCut/Page.lean
  ====================
  **The page a document is written on.**

  Output is written line by line, so that a line left with nothing but a
  directive can be dropped together with its break.  A `Step` is one thing to
  write; steps do not look at the page, so a whole document can be described by
  a list of steps first and be written afterwards.  `docSteps` are the steps for
  the body of a doc comment, where a line left with only its star is dropped.
-/
import FeatureCut.Text.Break

namespace FeatureCut

/-! ### Pages -/

/-- A page: the complete lines with their breaks, the last one first, the line that is
    being written, and whether that line carries a directive. -/
structure Page where
  lines : List (List Char)
  line : List Char
  marked : Bool
deriving DecidableEq, Repr

def Page.written (p : Page) : List Char := p.lines.reverse.flatten

def Page.empty : Page := ⟨[], [], false⟩

/-- The current line has content when it holds more than spaces and tabs. -/
def Page.hasContent (p : Page) : Bool := p.line.any fun c => !isIndent c

/-- A line is kept unless it carries a directive and has no content. -/
def Page.keepsLine (p : Page) : Bool := !p.marked || p.hasContent

def Page.resetLine (p : Page) : Page := ⟨p.lines, [], false⟩

def Page.text (p : Page) (cs : List Char) : Page := { p with line := p.line ++ cs }

def Page.eol (p : Page) (cs : List Char) : Page :=
  if p.keepsLine then ⟨(p.line ++ cs) :: p.lines, [], false⟩ else p.resetLine

/-- Ending a line adds it to the complete lines, or leaves them as they are. -/
theorem Page.written_eol (p : Page) (cs : List Char) :
    (p.eol cs).written = p.written ++ if p.keepsLine then p.line ++ cs else [] := by
  unfold Page.eol
  split <;> simp [Page.written, Page.resetLine]

def Page.segment (p : Page) : Segment → Page
  | .text cs => p.text cs
  | .eol cs => p.eol cs

/-- Write a text that may hold line breaks of any style. -/
def Page.fragment (p : Page) (cs : List Char) : Page := (segments cs).foldl Page.segment p

def Page.mark (p : Page) : Page := { p with marked := true }

def Page.discard (p : Page) : Page := if p.hasContent then p else p.resetLine

/-- End a line at the break after a directive: a line without content vanishes
    with its break, any other ends as usual. -/
def Page.settle (p : Page) (cs : List Char) : Page :=
  if p.hasContent then p.eol cs else p.resetLine

def Page.contents (p : Page) : List Char :=
  if p.keepsLine then p.written ++ p.line else p.written

/-! ### Steps -/

inductive Step where
  | text (cs : List Char)
  | eol (cs : List Char)
  | fragment (cs : List Char)
  | mark
  | discard
  | settle (cs : List Char)
deriving DecidableEq, Repr

def Page.step (p : Page) : Step → Page
  | .text cs => p.text cs
  | .eol cs => p.eol cs
  | .fragment cs => p.fragment cs
  | .mark => p.mark
  | .discard => p.discard
  | .settle cs => p.settle cs

def Page.steps (p : Page) (ss : List Step) : Page := ss.foldl Page.step p

/-- What a list of steps writes on an empty page. -/
def render (ss : List Step) : List Char := (Page.empty.steps ss).contents

/-- What is written of an inline body: nothing if it has not `ended`. -/
def bodySteps (ss : List Step) (ended : Bool) : List Step :=
  if ended then [.fragment (render ss)] else []

@[simp] theorem Page.steps_nil (p : Page) : p.steps [] = p := rfl

@[simp] theorem Page.steps_cons (p : Page) (s : Step) (ss : List Step) :
    p.steps (s :: ss) = (p.step s).steps ss := rfl

@[simp] theorem Page.steps_append (p : Page) (a b : List Step) :
    p.steps (a ++ b) = (p.steps a).steps b := by
  simp [Page.steps]

/-! ### Lines of a doc comment -/

/-- Spaces or tabs, a star and a space, and nothing but spaces or tabs. -/
def isStarOnly (line : List Char) : Bool :=
  match line.dropWhile isIndent with
  | '*' :: ' ' :: r => r.all isIndent
  | _ => false

/-- The steps for the body of a doc comment, where `line` is what stands on the
    current line so far.  A line with only a star is dropped with its break.  The last
    line is written only if the body has `ended`. -/
def docSteps (line : List Char) (ss : List Segment) (ended : Bool := true) : List Step :=
  match ss with
  | [] => if !ended || line = [] || isStarOnly line then [] else [.text line]
  | .text cs :: r => docSteps (line ++ cs) r ended
  | .eol cs :: r =>
    if isStarOnly line then docSteps [] r ended
    else .text line :: .eol cs :: docSteps [] r ended

end FeatureCut
