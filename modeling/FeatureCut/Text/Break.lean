/-
  FeatureCut/Text/Break.lean
  ==========================
  **Line breaks.**

  A line ends at `\n`, at `\r`, or at one of the two-character breaks `\r\n` and
  `\n\r`, which are taken greedily from the left.  `breakFrom` reads one break,
  `firstLine` and `fromBreak` are what stands before the first break and from it on,
  `segments` cuts a whole text into breaks and the runs between them, and
  `flatten_segments` says that nothing is lost on the way.
-/

namespace FeatureCut

/-! ### Break characters -/

def isBreak (c : Char) : Bool := c == '\r' || c == '\n'

/-- Two different break characters in a row are one break. -/
def isBreakPair (c d : Char) : Bool := isBreak c && isBreak d && c != d

/-- Spaces and tabs, the characters that may indent a line. -/
def isIndent (c : Char) : Bool := c == ' ' || c == '\t'

theorem isBreak_iff {c : Char} : isBreak c = true ↔ c = '\r' ∨ c = '\n' := by
  simp [isBreak]

theorem isIndent_iff {c : Char} : isIndent c = true ↔ c = ' ' ∨ c = '\t' := by
  simp [isIndent]

/-- The break that starts with the break character `c`, and what follows it: the
    next character belongs to the break exactly when it is the other one. -/
def breakFrom (c : Char) : List Char → List Char × List Char
  | [] => ([c], [])
  | d :: r => if isBreakPair c d then ([c, d], r) else ([c], d :: r)

theorem breakFrom_append (c : Char) (r : List Char) :
    (breakFrom c r).1 ++ (breakFrom c r).2 = c :: r := by
  cases r with
  | nil => rfl
  | cons d r => by_cases h : isBreakPair c d <;> simp [breakFrom, h]

theorem breakFrom_length (c : Char) (r : List Char) :
    (breakFrom c r).2.length ≤ r.length := by
  cases r with
  | nil => simp [breakFrom]
  | cons d r => by_cases h : isBreakPair c d <;> simp [breakFrom, h]

/-- The first line of a text, without its break. -/
def firstLine (cs : List Char) : List Char := cs.takeWhile fun c => !isBreak c

def fromBreak (cs : List Char) : List Char := cs.dropWhile fun c => !isBreak c

@[simp] theorem firstLine_append_fromBreak (cs : List Char) : firstLine cs ++ fromBreak cs = cs :=
  List.takeWhile_append_dropWhile

theorem mem_firstLine {cs : List Char} : ∀ c ∈ firstLine cs, isBreak c = false := by
  intro c hc
  have hall : (firstLine cs).all (fun d => !isBreak d) = true := List.all_takeWhile
  simpa using List.all_eq_true.1 hall c hc

theorem head?_fromBreak (cs : List Char) : ∀ c ∈ (fromBreak cs).head?, isBreak c = true := by
  intro c hc
  have h := List.head?_dropWhile_not (fun c => !isBreak c) cs
  rw [← fromBreak, hc] at h
  simpa using h

/-! ### Segments -/

/-- A run of text without line breaks, or one line break. -/
inductive Segment where
  | text (chars : List Char)
  | eol (chars : List Char)
deriving DecidableEq, Repr

def Segment.chars : Segment → List Char
  | .text cs => cs
  | .eol cs => cs

/-- Put one character in front of a segmented text.  A break character is a
    segment of its own; any other joins the text that follows it. -/
def Segment.attach (c : Char) (ss : List Segment) : List Segment :=
  if isBreak c then .eol [c] :: ss
  else match ss with
    | .text cs :: rest => .text (c :: cs) :: rest
    | ss => .text [c] :: ss

/-- Cut a text into its line breaks and the nonempty runs between them. -/
def segments : List Char → List Segment
  | [] => []
  | [c] => Segment.attach c []
  | c :: d :: r =>
    if isBreakPair c d then .eol [c, d] :: segments r
    else Segment.attach c (segments (d :: r))

theorem Segment.flatten_attach (c : Char) (ss : List Segment) :
    (Segment.attach c ss).flatMap Segment.chars = c :: ss.flatMap Segment.chars := by
  unfold Segment.attach
  split
  · simp [Segment.chars]
  · split <;> simp [Segment.chars]

/-- The segments of a text, put together again, are the text. -/
theorem flatten_segments (cs : List Char) :
    (segments cs).flatMap Segment.chars = cs := by
  fun_induction segments cs with
  | case1 => rfl
  | case2 c => simp [Segment.flatten_attach]
  | case3 c d r h ih => simp [Segment.chars, ih]
  | case4 c d r h ih => simp [Segment.flatten_attach, ih]

end FeatureCut
