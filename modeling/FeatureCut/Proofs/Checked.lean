/-
  FeatureCut/Proofs/Checked.lean
  ==============================
  **Evaluation by index, with every access checked.**

  The evaluator takes lists of tokens apart, which cannot go wrong.  A program that
  keeps the tokens of a document in one array and hands around indices can: it may
  read a token that is not there, take a range that ends before it starts, count
  below zero, stand still, or run out of the range it works on.

  Everything in the namespace `Checked` does by index what its namesake does with
  lists, and gives a `Fault` as soon as one of these things happens.  The end of a
  region is looked for up to the end of the document (of the doc comment, for html
  regions), and each step is checked against the range that is being evaluated.
  That there never is a fault is shown in `FeatureCut.Proofs.Safety`.
-/
import FeatureCut.Evaluate
import FeatureCut.Proofs.Nesting

namespace FeatureCut

/-- What can go wrong with indices: a token is read where there is none, a range ends
    before it starts or behind the last token, more regions close than are open, a step does
    not lead on or leads out of the range, and something is taken for code that stands only
    in comments. -/
inductive Fault where
  | index (i : Nat)
  | range (start stop : Nat)
  | depth
  | progress (i next stop : Nat)
  | place (kind : Kind)
deriving DecidableEq, Repr

abbrev Checked := Except Fault

namespace Checked

/-! ### Reading tokens -/

def tokenAt (ts : List Token) (i : Nat) : Checked Token :=
  match ts[i]? with
  | some t => .ok t
  | none => .error (.index i)

def slice (ts : List Token) (start stop : Nat) : Checked (List Token) :=
  if start ≤ stop ∧ stop ≤ ts.length then .ok (FeatureCut.slice ts start stop)
  else .error (.range start stop)

/-- The first index from `i` up to `limit` whose token is looked for. -/
def seek (p : Token → Bool) (ts : List Token) (i limit : Nat) : Checked (Option Nat) :=
  if i < limit then do
    let t ← tokenAt ts i
    if p t then .ok (some i) else seek p ts (i + 1) limit
  else .ok none
termination_by limit - i

def trimStop (ts : List Token) (start : Nat) : Nat → Checked Nat
  | 0 => .ok 0
  | stop + 1 =>
    if start ≤ stop then do
      let t ← tokenAt ts stop
      if t.isBlankText then trimStop ts start stop else .ok (stop + 1)
    else .ok (stop + 1)

def trimRange (ts : List Token) (start stop : Nat) : Checked (Nat × Nat) := do
  let first ← seek (fun t => !t.isBlankText) ts start stop
  let start := first.getD stop
  let stop ← trimStop ts start stop
  .ok (start, stop)

/-! ### Directives -/

/-- Read the key that has to follow the atom at `first`; gives the key and the index
    after it. -/
def readKey (a : Atom) (ts : List Token) (first close : Nat) :
    Checked (Except Error (KeyExpr × Nat)) := do
  let t ← tokenAt ts first
  match ← seek (fun u => !u.isGap) ts (first + 1) close with
  | none => .ok (.error (.missingKey a t.extent.start.line t.extent.start.column))
  | some i =>
    let k ← tokenAt ts i
    .ok (if k.kind = .key then .ok (⟨String.ofList k.lexeme⟩, i + 1)
      else .error (.missingKey a t.extent.start.line t.extent.start.column))

def onlyGaps (ts : List Token) (i close : Nat) : Checked Bool := do
  let first ← seek (fun u => !u.isGap) ts i close
  .ok first.isNone

def classifyConditional (p : Polarity) (ts : List Token) (start first close : Nat) :
    Checked (Except Error Directive) := do
  let t ← tokenAt ts first
  match ← readKey p.atom ts first close with
  | .error e => .ok (.error e)
  | .ok (key, next) =>
    match ← seek (fun u => u.kind = .atom .ending) ts next close with
    | some ending =>
      let body ← slice ts next ending
      .ok (.ok (.inline p key (next - start) body))
    | none =>
      let gaps ← onlyGaps ts next close
      .ok (if gaps then .ok (.opening p key)
        else .error (.missingEnd p.atom key.text t.extent.start.line t.extent.start.column))

def classify (ts : List Token) (start close : Nat) : Checked (Except Error Directive) := do
  match ← seek (fun u => !u.isGap) ts start close with
  | none => .ok (.ok .plain)
  | some first =>
    let t ← tokenAt ts first
    match t.kind with
    | .atom .includeIf => classifyConditional .positive ts start first close
    | .atom .excludeIf => classifyConditional .negative ts start first close
    | .atom .fileExcludeIf =>
      match ← readKey .fileExcludeIf ts first close with
      | .error e => .ok (.error e)
      | .ok (key, next) =>
        let gaps ← onlyGaps ts next close
        .ok (.ok (if gaps then .fileExclusion key else .plain))
    | .atom .alternative =>
      let gaps ← onlyGaps ts (first + 1) close
      .ok (.ok (if gaps then .alternative else .plain))
    | .atom .ending =>
      let gaps ← onlyGaps ts (first + 1) close
      .ok (.ok (if gaps then .closing else .plain))
    | .atom .license =>
      match ← seek (fun u => !u.isGap) ts (first + 1) close with
      | none => .ok (.ok (.license none))
      | some i =>
        let k ← tokenAt ts i
        .ok (.ok (.license (if k.kind = .key then some (String.ofList k.lexeme) else none)))
    | _ => .ok (.ok .plain)

def classifyHtml (ts : List Token) (start close : Nat) :
    Checked (Except Error HtmlDirective) := do
  match ← seek (fun u => !u.isGap) ts start close with
  | none => .ok (.ok .plain)
  | some first =>
    let t ← tokenAt ts first
    match t.kind with
    | .atom .includeIf =>
      let found ← readKey .includeIf ts first close
      .ok (found.map fun found => .opening .positive found.1)
    | .atom .excludeIf =>
      let found ← readKey .excludeIf ts first close
      .ok (found.map fun found => .opening .negative found.1)
    | .atom .alternative => .ok (.ok .alternative)
    | .atom .ending => .ok (.ok .closing)
    | _ => .ok (.ok .plain)

/-! ### Regions -/

/-- The state of a search: the regions that are open, its own among them, and the
    first division met outside of the others. -/
structure Counter where
  depth : Nat
  alternative : Option Boundary
deriving DecidableEq, Repr

def Counter.close (c : Counter) (b : Boundary) : Checked (Region ⊕ Counter) :=
  match c.depth with
  | 0 => .error .depth
  | 1 => .ok (.inl ⟨b, c.alternative⟩)
  | n + 2 => .ok (.inr { c with depth := n + 1 })

def Counter.feed (c : Counter) (m : Remark) : Checked (Region ⊕ Counter) :=
  match m.role with
  | .neutral => .ok (.inr c)
  | .opening => .ok (.inr { c with depth := c.depth + 1 })
  | .alternative =>
    .ok (.inr (if c.depth = 1 && c.alternative.isNone then { c with alternative := some m.bounds }
      else c))
  | .closing => c.close m.bounds

def role (ts : List Token) (start close : Nat) : CommentKind → Checked (Except Error Role)
  | .block => do
    let d ← classify ts start close
    .ok (d.map Directive.role)
  | .doc => .ok (.ok .neutral)
  | .html => do
    let d ← classifyHtml ts start close
    .ok (d.map HtmlDirective.role)

/-- Search the comments from `i` up to `limit` for the end of the region. -/
def search (y : Layer) (ts : List Token) (limit : Nat) (c : Counter) (i : Nat) :
    Checked (Except Error (Option Region)) :=
  if i < limit then do
    let t ← tokenAt ts i
    match y.comment? t.kind with
    | none => search y ts limit c (i + 1)
    | some comment =>
      match ← seek (fun u => u.kind = comment.close) ts (i + 1) limit with
      | none => .ok (.error (t.unterminated comment))
      | some close =>
        match ← role ts (i + 1) close comment with
        | .error e => .ok (.error e)
        | .ok role =>
          match ← c.feed ⟨role, ⟨i, close + 1⟩⟩ with
          | .inl region => .ok (.ok (some region))
          | .inr c =>
            if i < close then search y ts limit c (close + 1)
            else .error (.progress i (close + 1) limit)
  else .ok (.ok none)
termination_by limit - i

/-- The part of a region that is evaluated.  Whichever it is, both have to be
    ranges. -/
def branch? (ts : List Token) (start : Nat) (region : Region) (active : Bool) :
    Checked (Option (Nat × Nat)) := do
  let _ ← slice ts start region.thenEnd
  match region.elseRange? with
  | none => .ok (if active then some (start, region.thenEnd) else none)
  | some (first, stop) =>
    let _ ← slice ts first stop
    .ok (if active then some (start, region.thenEnd) else some (first, stop))

/-! ### Walking over a range -/

/-- What a part of a range gives, and the index after it. -/
structure Visit (σ : Type) where
  trail : Trail σ
  next : Nat

/-- Walk from `i` up to `stop`, until something stops the evaluation. -/
def walk {σ : Type} (visit : Nat → Checked (Visit σ)) (stop i : Nat) : Checked (Trail σ) :=
  if i < stop then do
    let v ← visit i
    if v.trail.stop.isSome then .ok v.trail
    else if i < v.next ∧ v.next ≤ stop then do
      let rest ← walk visit stop v.next
      .ok (v.trail.andThen rest)
    else .error (.progress i v.next stop)
  else .ok .nothing
termination_by stop - i

/-- The evaluators that a range may call for what is nested in it.  The first index of an
    html branch is the end of the doc comment's body. -/
structure Level where
  branch : List Token → Nat → Nat → Checked (Trail Step)
  htmlBranch : List Token → Nat → Nat → Nat → Checked (Trail Segment)
  document : List Char → Checked (Trail Step)

/-! ### Doc comments -/

/-- Evaluate the html region that starts at `start`, in a doc comment whose body ends
    at `limit`. -/
def htmlRegionItem (o : Options) (inner : Level) (ts : List Token) (limit : Nat) (t : Token)
    (p : Polarity) (key : KeyExpr) (start : Nat) : Checked (Visit Segment) := do
  match ← search .html ts limit ⟨1, none⟩ start with
  | .error e => .ok ⟨.fail e, start⟩
  | .ok none => .ok ⟨.fail (t.unclosed p key), start⟩
  | .ok (some region) =>
    let active := p.selects key o.keys
    let branch ← match ← branch? ts start region active with
      | some (first, stop) => inner.htmlBranch ts limit first stop
      | none => .ok .nothing
    .ok ⟨(Trail.report (.htmlRegionResolved key p active t.extent.start.line)).andThen branch,
      region.ending.after⟩

def docItem (o : Options) (inner : Level) (ts : List Token) (limit i : Nat) :
    Checked (Visit Segment) := do
  let t ← tokenAt ts i
  match t.kind with
  | .eol => .ok ⟨.write [.eol t.lexeme], i + 1⟩
  | .htmlOpen =>
    match ← seek (fun u => u.kind = .htmlClose) ts (i + 1) limit with
    | none => .ok ⟨.fail (t.unterminated .html), i⟩
    | some close =>
      match ← classifyHtml ts (i + 1) close with
      | .error e => .ok ⟨.fail e, i⟩
      | .ok (.opening p key) => htmlRegionItem o inner ts limit t p key (close + 1)
      | .ok _ =>
        let comment ← slice ts i (close + 1)
        .ok ⟨.write [.text (textOf comment)], close + 1⟩
  | _ => .ok ⟨.write [.text t.lexeme], i + 1⟩

def docCommentItem (o : Options) (inner : Level) (ts : List Token) (i : Nat) (t : Token) :
    Checked (Visit Step) := do
  match ← seek (fun u => u.kind = .blockClose) ts (i + 1) ts.length with
  | none => .ok ⟨.fail (t.unterminated .doc), i⟩
  | some close =>
    let body ← walk (docItem o inner ts close) close (i + 1)
    let mark ← tokenAt ts close
    .ok ⟨(Trail.write [.text t.lexeme]).andThen
        ((body.mapSteps (@docSteps [])).andThen (.write [.text mark.lexeme])),
      close + 1⟩

/-! ### Block comments -/

/-- The line break at `i`, in a range at the top level of a document. -/
def breakAfter? (top : Bool) (ts : List Token) (i stop : Nat) : Checked (Option Token) :=
  if top && i < stop then do
    let t ← tokenAt ts i
    .ok (if t.kind = .eol then some t else none)
  else .ok none

/-- Finish a directive, if it has not stopped the evaluation. -/
def Visit.settled (top : Bool) (ts : List Token) (stop : Nat) (v : Visit Step) :
    Checked (Visit Step) :=
  if v.trail.stop.isSome then .ok v
  else do
    match ← breakAfter? top ts v.next stop with
    | some t => .ok ⟨v.trail.andThen (.write [.settle t.lexeme]), v.next + 1⟩
    | none => .ok v

def regionItem (o : Options) (inner : Level) (ts : List Token) (t : Token) (p : Polarity)
    (key : KeyExpr) (start : Nat) : Checked (Visit Step) := do
  match ← search .block ts ts.length ⟨1, none⟩ start with
  | .error e => .ok ⟨(Trail.write [.mark]).andThen (.fail e), start⟩
  | .ok none => .ok ⟨(Trail.write [.mark]).andThen (.fail (t.unclosed p key)), start⟩
  | .ok (some region) =>
    let active := p.selects key o.keys
    let branch ← match ← branch? ts start region active with
      | some (first, stop) => do
        let (first, stop) ← trimRange ts first stop
        inner.branch ts first stop
      | none => .ok .nothing
    .ok ⟨(Trail.write [.mark]).andThen
        ((Trail.report (.regionResolved key p active region.alternative.isSome
            t.extent.start.line)).andThen
          (branch.andThen (.write [.mark]))),
      region.ending.after⟩

def inlineTrail (inner : Level) (body : List Char) : Checked (Trail Step) := do
  let trail ← inner.document body
  .ok ((Trail.report (.inlineEntered body)).andThen
    (trail.mapSteps bodySteps))

/-- Evaluate the block comment that opens at `i`, in a range that ends at `stop`. -/
def blockItem (o : Options) (inner : Level) (top : Bool) (ts : List Token) (stop i : Nat)
    (t : Token) : Checked (Visit Step) := do
  match ← seek (fun u => u.kind = .blockClose) ts (i + 1) ts.length with
  | none => .ok ⟨.fail (t.unterminated .block), i⟩
  | some close =>
    match ← classify ts (i + 1) close with
    | .error e => .ok ⟨.fail e, i⟩
    | .ok .plain =>
      let comment ← slice ts i (close + 1)
      .ok ⟨.write [.text (textOf comment)], close + 1⟩
    | .ok .alternative | .ok .closing =>
      let comment ← slice ts i (close + 1)
      .ok ⟨.write [.mark, .text (textOf comment)], close + 1⟩
    | .ok (.opening p key) =>
      let v ← regionItem o inner ts t p key (close + 1)
      v.settled top ts stop
    | .ok (.inline p key _ body) =>
      let trail ← if p.selects key o.keys then inlineTrail inner (stripSpace (textOf body))
        else .ok .nothing
      .ok ⟨(Trail.write [.mark]).andThen (trail.andThen (.write [.mark])), close + 1⟩
    | .ok (.fileExclusion key) => Visit.settled top ts stop ⟨exclusionTrail o t key, close + 1⟩
    | .ok (.license key) =>
      match ← breakAfter? top ts (close + 1) stop with
      | some _ => .ok ⟨(licenseTrail o key).andThen (.write [.discard]), close + 2⟩
      | none => .ok ⟨licenseTrail o key, close + 1⟩

def codeItem (o : Options) (inner : Level) (top : Bool) (ts : List Token) (stop i : Nat) :
    Checked (Visit Step) := do
  let t ← tokenAt ts i
  match t.kind with
  | .text => .ok ⟨.write [.text t.lexeme], i + 1⟩
  | .eol => .ok ⟨.write [.eol t.lexeme], i + 1⟩
  | .eof => .ok ⟨.nothing, i + 1⟩
  | .docOpen => docCommentItem o inner ts i t
  | .blockOpen => blockItem o inner top ts stop i t
  | kind => .error (.place kind)

-- The range ends inside of the region that starts in it, and so the step leads out.
example :
    let ts := tokenize Language.generic.profile "/* @include-if A */a/* @end */"
    (walk (codeItem {} ⟨fun _ _ _ => .ok .nothing, fun _ _ _ _ => .ok .nothing,
      fun _ => .ok .nothing⟩ false ts 8) 8 0).toOption.isNone := by
  decide +kernel

/-! ### Documents -/

def evaluateTokens (o : Options) (inner : Level) (ts : List Token) : Checked (Trail Step) :=
  walk (codeItem o inner true ts ts.length) ts.length 0

def evaluateDocument (o : Options) (inner : Level) (source : String) : Checked (Trail Step) := do
  let body ← evaluateTokens o inner (tokenize o.language.profile source)
  .ok (o.header.andThen body)

def Level.ofDepth (o : Options) (limit : Nat) : Nat → Level
  | 0 =>
    ⟨fun _ _ _ => .ok (.fail (.nestingTooDeep limit)),
      fun _ _ _ _ => .ok (.fail (.nestingTooDeep limit)),
      fun _ => .ok (.fail (.nestingTooDeep limit))⟩
  | n + 1 =>
    let inner := Level.ofDepth o limit n
    let body := o.forInlineBody
    ⟨fun ts start stop => walk (codeItem o inner false ts stop) stop start,
      fun ts limit start stop => walk (docItem o inner ts limit) stop start,
      fun source => evaluateDocument body (Level.ofDepth body limit n) (String.ofList source)⟩

def evaluate (o : Options) (source : String) : Checked (Trail Step) :=
  evaluateDocument o (Level.ofDepth o maxDepth maxDepth) source

/-- The variant of a source that the options select, or the first fault on the way to
    it. -/
def transform (o : Options) (source : String) : Checked (Except Error String) :=
  match o.validate with
  | .error e => .ok (.error e)
  | .ok () => do
    let trail ← evaluate o source
    .ok trail.result

end Checked

end FeatureCut
