/-
  FeatureCut/Evaluate.lean
  ========================
  **Evaluating a document.**

  The evaluator walks over a window of the document's tokens and describes what
  is to be written as a list of steps.  A window is given by its size and by the
  document from its first token on, because the end of a region is looked for in
  the whole document.  The branch of a region is a window of its own, and the
  body of an inline directive is a document of its own; both are evaluated one
  level deeper, and `Level.ofDepth` gives out the levels one by one until none is
  left.
-/
import FeatureCut.Options
import FeatureCut.Region
import FeatureCut.Token.Scan
import FeatureCut.Trail

namespace FeatureCut

/-! ### Levels -/

/-- The evaluators that a window may call for what is nested in it: a branch of a region,
    a branch of an html region inside a doc comment, and the body of an inline directive. -/
structure Level where
  branch : Nat → List Token → Trail Step
  htmlBranch : Nat → List Token → Trail Segment
  document : List Char → Trail Step

/-- What a part of a window gives, and how many tokens after the first it
    takes. -/
structure Item (σ : Type) where
  trail : Trail σ
  taken : Nat

/-- Walk over a window of `n` tokens, item by item. -/
def walk {σ : Type} (item : Nat → Token → List Token → Item σ) (n : Nat) (ts : List Token) :
    Trail σ :=
  match n, ts with
  | 0, _ => .nothing
  | _, [] => .nothing
  | n + 1, t :: r =>
    let i := item n t r
    i.trail.andThen (walk item (n - i.taken) (r.drop i.taken))
termination_by n

theorem walk_nil {σ : Type} (item : Nat → Token → List Token → Item σ) (n : Nat) :
    walk item n [] = .nothing := by
  cases n with
  | zero => rw [walk]
  | succ n =>
    rw [walk]
    exact Nat.succ_ne_zero n

/-- Only what follows an item counts for it. -/
theorem walk_eq_of_suffix {σ : Type} {item item' : Nat → Token → List Token → Item σ}
    {ts : List Token} (h : ∀ n t r, t :: r <:+ ts → item n t r = item' n t r) (n : Nat) :
    walk item n ts = walk item' n ts := by
  induction n using Nat.strongRecOn generalizing ts with
  | ind n ih =>
    cases n with
    | zero => rw [walk, walk]
    | succ n =>
      cases ts with
      | nil => rw [walk_nil, walk_nil]
      | cons t r =>
        have hrest : ∀ k n u s, u :: s <:+ r.drop k → item n u s = item' n u s := by
          intro k n u s hs
          exact h n u s ((hs.trans (r.drop_suffix k)).trans (List.suffix_cons t r))
        rw [walk, walk, h n t r List.suffix_rfl, ih _ (by omega) (hrest _)]

/-! ### Branches -/

/-- The branch of a region that is evaluated, as an offset and a size: the first
    part when the region is active, else the second part if it has one. -/
def Region.branch? (r : Region) (active : Bool) : Option (Nat × Nat) :=
  if active then some (0, r.thenEnd)
  else r.elseRange?.map fun range => (range.1, range.2 - range.1)

def Token.unclosed (t : Token) (p : Polarity) (key : KeyExpr) : Error :=
  .unclosedDirective p.atom key.text t.extent.start.line t.extent.start.column

/-! ### Doc comments -/

/-- Evaluate the region that the html comment at `t` opens, where `rest` is what
    follows the comment in the doc comment. -/
def htmlRegionItem (o : Options) (inner : Level) (t : Token) (size : Nat) (p : Polarity)
    (key : KeyExpr) (rest : List Token) : Item Segment :=
  match findHtmlRegion 0 rest with
  | .error e => ⟨.fail e, 0⟩
  | .ok none => ⟨.fail (t.unclosed p key), 0⟩
  | .ok (some region) =>
    let active := p.selects key o.keys
    let branch :=
      match region.branch? active with
      | some (start, n) => inner.htmlBranch n (rest.drop start)
      | none => .nothing
    ⟨(Trail.report (.htmlRegionResolved key p active t.extent.start.line)).andThen branch,
      size + region.ending.after⟩

def docItem (o : Options) (inner : Level) (_n : Nat) (t : Token) (r : List Token) :
    Item Segment :=
  match t.kind with
  | .eol => ⟨.write [.eol t.lexeme], 0⟩
  | .htmlOpen =>
    match cutAt .htmlClose r with
    | none => ⟨.fail (t.unterminated .html), 0⟩
    | some cut =>
      match classifyHtml cut.inner with
      | .error e => ⟨.fail e, 0⟩
      | .ok (.opening p key) =>
        htmlRegionItem o inner t (cut.inner.length + 1) p key cut.rest
      | .ok _ =>
        ⟨.write [.text (t.lexeme ++ textOf cut.inner ++ cut.mark.lexeme)], cut.inner.length + 1⟩
  | _ => ⟨.write [.text t.lexeme], 0⟩

def docCommentItem (o : Options) (inner : Level) (t : Token) (r : List Token) : Item Step :=
  match cutAt .blockClose r with
  | none => ⟨.fail (t.unterminated .doc), 0⟩
  | some cut =>
    ⟨(Trail.write [.text t.lexeme]).andThen
        (((walk (docItem o inner) cut.inner.length cut.inner).mapSteps (@docSteps [])).andThen
          (.write [.text cut.mark.lexeme])),
      cut.inner.length + 1⟩

/-! ### Block comments -/

/-- The line break that stands `taken` tokens into a window of `n`, at the top
    level of a document. -/
def breakAfter? (top : Bool) (n taken : Nat) (r : List Token) : Option Token :=
  if top && taken < n then (r.drop taken).head?.filter fun t => t.kind = .eol else none

/-- Finish a directive at the top level, where the break after it goes with
    it. -/
def Item.settled (top : Bool) (n : Nat) (r : List Token) (i : Item Step) : Item Step :=
  match breakAfter? top n i.taken r with
  | some t => ⟨i.trail.andThen (.write [.settle t.lexeme]), i.taken + 1⟩
  | none => i

def regionItem (o : Options) (inner : Level) (t : Token) (size : Nat) (p : Polarity)
    (key : KeyExpr) (rest : List Token) : Item Step :=
  match findRegion 0 rest with
  | .error e => ⟨(Trail.write [.mark]).andThen (.fail e), 0⟩
  | .ok none => ⟨(Trail.write [.mark]).andThen (.fail (t.unclosed p key)), 0⟩
  | .ok (some region) =>
    let active := p.selects key o.keys
    let branch :=
      match region.branch? active with
      | some (start, n) =>
        -- blank text at both ends belongs to the comments around the branch
        let trimmed := trimWindow n (rest.drop start)
        inner.branch trimmed.2 (rest.drop (start + trimmed.1))
      | none => .nothing
    ⟨(Trail.write [.mark]).andThen
        ((Trail.report (.regionResolved key p active region.alternative.isSome
            t.extent.start.line)).andThen
          (branch.andThen (.write [.mark]))),
      size + region.ending.after⟩

/-- Leave out one space at each end of a text. -/
def stripSpace (cs : List Char) : List Char :=
  let tail := match cs with
    | ' ' :: r => r
    | cs => cs
  if tail.getLast? = some ' ' then tail.dropLast else tail

/-- Evaluate an inline body as a document, and write what comes out of it in the end. -/
def inlineTrail (inner : Level) (body : List Char) : Trail Step :=
  (Trail.report (.inlineEntered body)).andThen
    ((inner.document body).mapSteps bodySteps)

def exclusionTrail (o : Options) (t : Token) (key : KeyExpr) : Trail Step :=
  (Trail.write [.mark]).andThen
    (if key.holdsOrDefault o.keys then
      (Trail.report (.fileExclusionMatched key t.extent.start.line)).andThen (.halt .excluded)
    else .nothing)

def licenseTrail (o : Options) (key : Option String) : Trail Step :=
  (Trail.write [.mark]).andThen
    ((Trail.report (.licenseRequested key)).andThen
      (match resolveLicense o.licenses o.keys with
        | .ok text => .write [.fragment text.toList, .mark]
        | .error e => .fail e))

/-- Evaluate the block comment that opens at `t`, in a window with `n` more
    tokens. -/
def blockItem (o : Options) (inner : Level) (top : Bool) (n : Nat) (t : Token) (r : List Token) :
    Item Step :=
  match cutAt .blockClose r with
  | none => ⟨.fail (t.unterminated .block), 0⟩
  | some cut =>
    let size := cut.inner.length + 1
    let verbatim := t.lexeme ++ textOf cut.inner ++ cut.mark.lexeme
    match classify cut.inner with
    | .error e => ⟨.fail e, 0⟩
    | .ok .plain => ⟨.write [.text verbatim], size⟩
    -- a stray one is text, but its line counts as one with a directive
    | .ok .alternative | .ok .closing => ⟨.write [.mark, .text verbatim], size⟩
    | .ok (.opening p key) => (regionItem o inner t size p key cut.rest).settled top n r
    | .ok (.inline p key _ body) =>
      ⟨(Trail.write [.mark]).andThen
          ((if p.selects key o.keys then inlineTrail inner (stripSpace (textOf body))
            else .nothing).andThen (.write [.mark])),
        size⟩
    | .ok (.fileExclusion key) =>
      Item.settled top n r ⟨exclusionTrail o t key, size⟩
    | .ok (.license key) =>
      -- the break is taken along even if the license does not end its line
      match breakAfter? top n size r with
      | some _ => ⟨(licenseTrail o key).andThen (.write [.discard]), size + 1⟩
      | none => ⟨licenseTrail o key, size⟩

def codeItem (o : Options) (inner : Level) (top : Bool) (n : Nat) (t : Token) (r : List Token) :
    Item Step :=
  match t.kind with
  | .eol => ⟨.write [.eol t.lexeme], 0⟩
  | .eof => ⟨.nothing, 0⟩
  | .docOpen => docCommentItem o inner t r
  | .blockOpen => blockItem o inner top n t r
  | _ => ⟨.write [.text t.lexeme], 0⟩

/-! ### Documents -/

/-- The deepest nesting of regions and inline bodies that a document may have. -/
def maxDepth : Nat := 256

def evaluateTokens (o : Options) (inner : Level) (ts : List Token) : Trail Step :=
  walk (codeItem o inner true) ts.length ts

def Options.header (o : Options) : Trail Step :=
  if o.autoHeader then
    match resolveLicense o.licenses o.keys with
    | .ok text => .write [.fragment text.toList]
    | .error e => .fail e
  else .nothing

theorem Options.header_of_no_header {o : Options} (h : o.autoHeader = false) :
    o.header = .nothing := by
  simp [Options.header, h]

def evaluateDocument (o : Options) (inner : Level) (source : String) : Trail Step :=
  o.header.andThen (evaluateTokens o inner (tokenize o.language.profile source))

/-- The evaluators with the given number of levels left.  Without any left,
    everything fails; `limit` is the number that the failure names. -/
def Level.ofDepth (o : Options) (limit : Nat) : Nat → Level
  | 0 =>
    ⟨fun _ _ => .fail (.nestingTooDeep limit), fun _ _ => .fail (.nestingTooDeep limit),
      fun _ => .fail (.nestingTooDeep limit)⟩
  | n + 1 =>
    let inner := Level.ofDepth o limit n
    let body := o.forInlineBody
    ⟨walk (codeItem o inner false), walk (docItem o inner),
      fun source => evaluateDocument body (Level.ofDepth body limit n) (String.ofList source)⟩

/-- No evaluator looks at the header, apart from that of a document. -/
theorem Level.ofDepth_forInlineBody (o : Options) (limit n : Nat) :
    Level.ofDepth o.forInlineBody limit n = Level.ofDepth o limit n := by
  induction n with
  | zero => rfl
  | succ n ih =>
    have hcode : codeItem o.forInlineBody = codeItem o := rfl
    have hdoc : docItem o.forInlineBody = docItem o := rfl
    have hbody : o.forInlineBody.forInlineBody = o.forInlineBody := rfl
    rw [Level.ofDepth, Level.ofDepth, hbody, ih, hcode, hdoc]

/-- An inline body is evaluated for its tokens alone. -/
theorem Level.ofDepth_succ (o : Options) (limit n : Nat) :
    Level.ofDepth o limit (n + 1) =
      ⟨walk (codeItem o (Level.ofDepth o limit n) false),
        walk (docItem o (Level.ofDepth o limit n)),
        fun source => evaluateTokens o (Level.ofDepth o limit n)
          (tokenize o.language.profile (String.ofList source))⟩ := by
  have hheader : o.forInlineBody.header = .nothing := Options.header_of_no_header rfl
  have htokens : evaluateTokens o.forInlineBody = evaluateTokens o := rfl
  have hprofile : o.forInlineBody.language.profile = o.language.profile := rfl
  simp only [Level.ofDepth, evaluateDocument, Level.ofDepth_forInlineBody, hheader, htokens,
    hprofile, Trail.nothing_andThen]

/-- Evaluate a document, with the license in front of it if that is asked for. -/
def evaluate (o : Options) (source : String) : Trail Step :=
  evaluateDocument o (Level.ofDepth o maxDepth maxDepth) source

/-- The variant of a source that the options select. -/
def transform (o : Options) (source : String) : Except Error String :=
  match o.validate with
  | .error e => .error e
  | .ok () => (evaluate o source).result

def eventsOf (o : Options) (source : String) : List Event :=
  .started o.language o.keys.size ::
    match o.validate with
    | .error _ => []
    | .ok () => (evaluate o source).allEvents

/-- Transform a source again and again; a step that fails leaves the text as it
    was. -/
def pipeline (source : String) : List Options → List (Except Error String)
  | [] => []
  | o :: rest =>
    match transform o source with
    | .ok out => .ok out :: pipeline out rest
    | .error e => .error e :: pipeline source rest

end FeatureCut
