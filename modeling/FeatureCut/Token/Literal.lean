/-
  FeatureCut/Token/Literal.lean
  =============================
  **String literals.**

  How far a literal reaches after its opening quotes.  Nothing inside a literal
  is a comment, so the scanner has to know where it ends.  Both readers give the
  body with its closing quotes, and what follows; `quotedBody_append` and
  `tripleBody_append` say that the two are the whole text.
-/
import FeatureCut.Text.Break

namespace FeatureCut

def extendFirst (cs : List Char) (p : List Char × List Char) : List Char × List Char :=
  (cs ++ p.1, p.2)

@[simp] theorem extendFirst_fst (cs : List Char) (p : List Char × List Char) :
    (extendFirst cs p).1 = cs ++ p.1 := rfl

@[simp] theorem extendFirst_snd (cs : List Char) (p : List Char × List Char) :
    (extendFirst cs p).2 = p.2 := rfl

/-! ### Literals of one line -/

/-- The body of a literal opened by the quote `q`.  A backslash takes the next
    character with it, or the next break as a whole.  A break of its own ends
    the literal before the break, and the quote closes it. -/
def quotedBody (q : Char) : List Char → List Char × List Char
  | [] => ([], [])
  | c :: r =>
    if c = '\\' then
      match r with
      | d :: e :: t =>
        if isBreakPair d e then extendFirst [c, d, e] (quotedBody q t)
        else extendFirst [c, d] (quotedBody q (e :: t))
      | r => (c :: r, [])
    else if isBreak c then ([], c :: r)
    else if c = q then ([c], r)
    else extendFirst [c] (quotedBody q r)
termination_by structural cs => cs

theorem quotedBody_append (q : Char) (cs : List Char) :
    (quotedBody q cs).1 ++ (quotedBody q cs).2 = cs := by
  fun_induction quotedBody q cs <;> simp_all

/-! ### Literals of several lines -/

/-- The body of a literal opened by three quotes `q`.  A backslash takes the
    next character with it.  The first run of at least three quotes closes the
    literal as a whole; without one it runs to the end of the text. -/
def tripleBody (q : Char) : List Char → List Char × List Char
  | [] => ([], [])
  | c :: r =>
    if c = '\\' then
      match r with
      | d :: t => extendFirst [c, d] (tripleBody q t)
      | [] => ([c], [])
    else if c = q && (r.takeWhile (· == q)).length ≥ 2 then
      (c :: r.takeWhile (· == q), r.dropWhile (· == q))
    else extendFirst [c] (tripleBody q r)
termination_by structural cs => cs

theorem tripleBody_append (q : Char) (cs : List Char) :
    (tripleBody q cs).1 ++ (tripleBody q cs).2 = cs := by
  fun_induction tripleBody q cs <;> simp_all [List.takeWhile_append_dropWhile]

end FeatureCut
