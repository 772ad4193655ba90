/-
  FeatureCut/Directive.lean
  =========================
  **Directives.**

  A comment may hold a directive.  `classify` decides what the tokens between
  the delimiters of a block comment say, `classifyHtml` does so for an html
  comment.  Blank text and line breaks between the parts of a directive do not
  count.
-/
import FeatureCut.Error
import FeatureCut.Key

namespace FeatureCut

/-! ### What a comment can say -/

/-- Whether a region is for active keys or against them. -/
inductive Polarity where
  | positive
  | negative
deriving DecidableEq, Repr

def Polarity.atom : Polarity → Atom
  | .positive => .includeIf
  | .negative => .excludeIf

def Polarity.selects (p : Polarity) (key : KeyExpr) (keys : ActiveKeys) : Bool :=
  match p with
  | .positive => key.holds keys
  | .negative => !key.holds keys

/-- What a block comment says.  An inline directive holds a whole region, whose `body`
    stands after `lead` tokens of the comment; the key of a license is only a remark. -/
inductive Directive where
  | plain
  | opening (polarity : Polarity) (key : KeyExpr)
  | inline (polarity : Polarity) (key : KeyExpr) (lead : Nat) (body : List Token)
  | fileExclusion (key : KeyExpr)
  | alternative
  | closing
  | license (key : Option String)
deriving DecidableEq, Repr

/-- What an html comment inside a doc comment says. -/
inductive HtmlDirective where
  | plain
  | opening (polarity : Polarity) (key : KeyExpr)
  | alternative
  | closing
deriving DecidableEq, Repr

/-! ### Reading tokens -/

/-- A list of tokens cut at the first one of a kind. -/
structure Cut where
  inner : List Token
  mark : Token
  rest : List Token

def cutAt (kind : Kind) : List Token → Option Cut
  | [] => none
  | t :: r =>
    if t.kind = kind then some ⟨[], t, r⟩
    else (cutAt kind r).map fun cut => { cut with inner := t :: cut.inner }

/-- A cut takes nothing away. -/
theorem cutAt_append {kind : Kind} {ts : List Token} {cut : Cut} (h : cutAt kind ts = some cut) :
    ts = cut.inner ++ cut.mark :: cut.rest := by
  induction ts generalizing cut with
  | nil => simp [cutAt] at h
  | cons t r ih =>
    simp only [cutAt] at h
    split at h
    · cases h
      rfl
    · obtain ⟨cut', hc, rfl⟩ := Option.map_eq_some_iff.1 h
      simp [ih hc]

/-- The token at the cut has the kind that was looked for. -/
theorem cutAt_kind {kind : Kind} {ts : List Token} {cut : Cut} (h : cutAt kind ts = some cut) :
    cut.mark.kind = kind := by
  induction ts generalizing cut with
  | nil => simp [cutAt] at h
  | cons t r ih =>
    simp only [cutAt] at h
    split at h
    · rename_i hk
      cases h
      exact hk
    · obtain ⟨cut', hc, rfl⟩ := Option.map_eq_some_iff.1 h
      exact (ih hc : cut'.mark.kind = kind)

theorem cutAt_length {kind : Kind} {ts : List Token} {cut : Cut} (h : cutAt kind ts = some cut) :
    cut.inner.length + cut.rest.length + 1 = ts.length := by
  have := congrArg List.length (cutAt_append h)
  simp at this
  omega

/-- Before the cut there is no token of the kind that was looked for. -/
theorem cutAt_inner {kind : Kind} {ts : List Token} {cut : Cut} (h : cutAt kind ts = some cut) :
    ∀ t ∈ cut.inner, t.kind ≠ kind := by
  induction ts generalizing cut with
  | nil => simp [cutAt] at h
  | cons t r ih =>
    simp only [cutAt] at h
    split at h
    · cases h
      simp
    · rename_i hk
      obtain ⟨cut', hc, rfl⟩ := Option.map_eq_some_iff.1 h
      intro u hu
      rcases List.mem_cons.1 hu with rfl | hu
      · exact hk
      · exact ih hc u hu

/-- A list is cut at the first token of a kind, wherever that is. -/
theorem cutAt_append_cons {kind : Kind} {inner : List Token} {mark : Token}
    (hinner : ∀ t ∈ inner, t.kind ≠ kind) (hmark : mark.kind = kind) (rest : List Token) :
    cutAt kind (inner ++ mark :: rest) = some ⟨inner, mark, rest⟩ := by
  induction inner with
  | nil => simp [cutAt, hmark]
  | cons t r ih =>
    have ht : t.kind ≠ kind := hinner t (by simp)
    have hr : ∀ u ∈ r, u.kind ≠ kind := fun u hu => hinner u (by simp [hu])
    simp [cutAt, ht, ih hr]

theorem cutAt_eq_none {kind : Kind} {ts : List Token} (h : ∀ t ∈ ts, t.kind ≠ kind) :
    cutAt kind ts = none := by
  cases hc : cutAt kind ts with
  | none => rfl
  | some cut =>
    refine absurd (cutAt_kind hc) (h cut.mark ?_)
    rw [cutAt_append hc]
    simp

def skipGaps (ts : List Token) : List Token := ts.dropWhile Token.isGap

/-- Read the key that has to follow an atom; gives the key and what follows
    it. -/
def readKey (a : Atom) (t : Token) (r : List Token) : Except Error (KeyExpr × List Token) :=
  match skipGaps r with
  | k :: tail =>
    if k.kind = .key then .ok (⟨String.ofList k.lexeme⟩, tail)
    else .error (.missingKey a t.extent.start.line t.extent.start.column)
  | [] => .error (.missingKey a t.extent.start.line t.extent.start.column)

/-! ### Classification -/

/-- What a comment with `size` tokens says if its first token `t` is an atom of
    the given polarity, followed by `r`.  With an ending after its key it holds
    a whole region, with nothing but gaps it opens one. -/
def classifyConditional (size : Nat) (p : Polarity) (t : Token) (r : List Token) :
    Except Error Directive := do
  let (key, tail) ← readKey p.atom t r
  match cutAt (.atom .ending) tail with
  | some cut => .ok (.inline p key (size - tail.length) cut.inner)
  | none =>
    if tail.all Token.isGap then .ok (.opening p key)
    else .error (.missingEnd p.atom key.text t.extent.start.line t.extent.start.column)

def classify (inner : List Token) : Except Error Directive :=
  match skipGaps inner with
  | [] => .ok .plain
  | t :: r =>
    match t.kind with
    | .atom .includeIf => classifyConditional inner.length .positive t r
    | .atom .excludeIf => classifyConditional inner.length .negative t r
    | .atom .fileExcludeIf => do
      let (key, tail) ← readKey .fileExcludeIf t r
      .ok (if tail.all Token.isGap then .fileExclusion key else .plain)
    | .atom .alternative => .ok (if r.all Token.isGap then .alternative else .plain)
    | .atom .ending => .ok (if r.all Token.isGap then .closing else .plain)
    | .atom .license =>
      match skipGaps r with
      | k :: _ => .ok (.license (if k.kind = .key then some (String.ofList k.lexeme) else none))
      | [] => .ok (.license none)
    | _ => .ok .plain

/-- What the tokens between the delimiters of an html comment say.  Only the
    first token counts, and the key after it. -/
def classifyHtml (inner : List Token) : Except Error HtmlDirective :=
  match skipGaps inner with
  | [] => .ok .plain
  | t :: r =>
    match t.kind with
    | .atom .includeIf => (readKey .includeIf t r).map fun found => .opening .positive found.1
    | .atom .excludeIf => (readKey .excludeIf t r).map fun found => .opening .negative found.1
    | .atom .alternative => .ok .alternative
    | .atom .ending => .ok .closing
    | _ => .ok .plain

end FeatureCut
