/-
  FeatureCut/Region.lean
  ======================
  **Regions.**

  A comment that opens a region is closed by a later comment at the same depth,
  and may be divided by one in between.  A `Search` goes through the comments
  that follow and counts the regions that open and close on the way.  The
  comments of a list of tokens are its remarks, and `searchBlocks_eq_run` and
  `searchHtml_eq_run` say that a search depends on nothing else.
-/
import FeatureCut.Directive

namespace FeatureCut

/-! ### Roles -/

/-- What a comment does for the nesting of regions. -/
inductive Role where
  | neutral
  | opening
  | alternative
  | closing
deriving DecidableEq, Repr

def Directive.role : Directive → Role
  | .opening .. => .opening
  | .alternative => .alternative
  | .closing => .closing
  | .plain | .inline .. | .fileExclusion .. | .license .. => .neutral

def HtmlDirective.role : HtmlDirective → Role
  | .opening .. => .opening
  | .alternative => .alternative
  | .closing => .closing
  | .plain => .neutral

/-! ### Searching -/

/-- The place of a comment in a list of tokens: `before` is the index of its
    opening delimiter, `after` comes just past its closing one. -/
structure Boundary where
  before : Nat
  after : Nat
deriving DecidableEq, Repr

/-- Where a region ends, and where it is divided. -/
structure Region where
  ending : Boundary
  alternative : Option Boundary
deriving DecidableEq, Repr

def Region.thenEnd (r : Region) : Nat :=
  match r.alternative with
  | some b => b.before
  | none => r.ending.before

def Region.elseRange? (r : Region) : Option (Nat × Nat) :=
  r.alternative.map fun b => (b.after, r.ending.before)

/-- A comment that takes part in the nesting. -/
structure Remark where
  role : Role
  bounds : Boundary
deriving DecidableEq, Repr

/-- The state of a search: the inner regions that are open, and the first
    division met outside of them. -/
structure Search where
  nested : Nat
  alternative : Option Boundary
deriving DecidableEq, Repr

def Search.start : Search := ⟨0, none⟩

/-- What a search comes to after one more remark: the region, or a search that
    goes on. -/
def Search.feed (s : Search) (m : Remark) : Region ⊕ Search :=
  match m.role with
  | .neutral => .inr s
  | .opening => .inr { s with nested := s.nested + 1 }
  -- a second division of the same region changes nothing
  | .alternative =>
    .inr (if s.nested = 0 && s.alternative.isNone then { s with alternative := some m.bounds }
      else s)
  | .closing =>
    match s.nested with
    | 0 => .inl ⟨m.bounds, s.alternative⟩
    | n + 1 => .inr { s with nested := n }

/-- Go through a list of remarks up to the end of the region.  An error counts
    only if the search gets to it. -/
def Search.run (s : Search) : List (Except Error Remark) → Except Error (Option Region)
  | [] => .ok none
  | .error e :: _ => .error e
  | .ok m :: ms =>
    match s.feed m with
    | .inl region => .ok (some region)
    | .inr s => s.run ms

/-! ### The comments of a document -/

/-- The roles of the block comments in a list of tokens whose first index is
    `pos`.  Doc comments are passed over.  A comment without its close is an
    error and ends the list. -/
def blockRemarks (pos : Nat) : List Token → List (Except Error Remark)
  | [] => []
  | t :: r =>
    match t.kind with
    | .blockOpen =>
      match _h : cutAt .blockClose r with
      | none => [.error (t.unterminated .block)]
      | some cut =>
        (classify cut.inner).map (fun d => ⟨d.role, ⟨pos, pos + cut.inner.length + 2⟩⟩) ::
          blockRemarks (pos + cut.inner.length + 2) cut.rest
    | .docOpen =>
      match _h : cutAt .blockClose r with
      | none => [.error (t.unterminated .doc)]
      | some cut => blockRemarks (pos + cut.inner.length + 2) cut.rest
    | _ => blockRemarks (pos + 1) r
termination_by ts => ts.length
decreasing_by
  · have := cutAt_length _h
    simp only [List.length_cons]
    omega
  · have := cutAt_length _h
    simp only [List.length_cons]
    omega
  · simp

theorem blockRemarks_of_block {t : Token} {r : List Token} {cut : Cut} (hk : t.kind = .blockOpen)
    (hc : cutAt .blockClose r = some cut) (pos : Nat) :
    blockRemarks pos (t :: r) =
      (classify cut.inner).map (fun d => ⟨d.role, ⟨pos, pos + cut.inner.length + 2⟩⟩) ::
        blockRemarks (pos + cut.inner.length + 2) cut.rest := by
  rw [blockRemarks, hk]
  dsimp only
  rw [hc]

theorem blockRemarks_of_doc {t : Token} {r : List Token} {cut : Cut} (hk : t.kind = .docOpen)
    (hc : cutAt .blockClose r = some cut) (pos : Nat) :
    blockRemarks pos (t :: r) = blockRemarks (pos + cut.inner.length + 2) cut.rest := by
  rw [blockRemarks, hk]
  dsimp only
  rw [hc]

theorem blockRemarks_token (pos : Nat) {t : Token}
    (ht : t.kind ≠ .blockOpen ∧ t.kind ≠ .docOpen) (rest : List Token) :
    blockRemarks pos (t :: rest) = blockRemarks (pos + 1) rest := by
  rw [blockRemarks]
  split
  · rename_i hk
    exact absurd hk ht.1
  · rename_i hk
    exact absurd hk ht.2
  · rfl

def htmlRemarks (pos : Nat) : List Token → List (Except Error Remark)
  | [] => []
  | t :: r =>
    if t.kind = .htmlOpen then
      match _h : cutAt .htmlClose r with
      | none => [.error (t.unterminated .html)]
      | some cut =>
        (classifyHtml cut.inner).map (fun d => ⟨d.role, ⟨pos, pos + cut.inner.length + 2⟩⟩) ::
          htmlRemarks (pos + cut.inner.length + 2) cut.rest
    else htmlRemarks (pos + 1) r
termination_by ts => ts.length
decreasing_by
  · have := cutAt_length _h
    simp only [List.length_cons]
    omega
  · simp

/-! ### Finding a region -/

/-- Search the block comments of a list of tokens whose first index is `pos`,
    and stop at the end of the region. -/
def searchBlocks (s : Search) (pos : Nat) : List Token → Except Error (Option Region)
  | [] => .ok none
  | t :: r =>
    match t.kind with
    | .blockOpen =>
      match _h : cutAt .blockClose r with
      | none => .error (t.unterminated .block)
      | some cut =>
        match classify cut.inner with
        | .error e => .error e
        | .ok d =>
          match s.feed ⟨d.role, ⟨pos, pos + cut.inner.length + 2⟩⟩ with
          | .inl region => .ok (some region)
          | .inr s => searchBlocks s (pos + cut.inner.length + 2) cut.rest
    | .docOpen =>
      match _h : cutAt .blockClose r with
      | none => .error (t.unterminated .doc)
      | some cut => searchBlocks s (pos + cut.inner.length + 2) cut.rest
    | _ => searchBlocks s (pos + 1) r
termination_by ts => ts.length
decreasing_by
  · have := cutAt_length _h
    simp only [List.length_cons]
    omega
  · have := cutAt_length _h
    simp only [List.length_cons]
    omega
  · simp

/-- A search is fed the block comment it stands at. -/
theorem searchBlocks_of_block {t : Token} {r : List Token} {cut : Cut} {d : Directive}
    (hk : t.kind = .blockOpen) (hc : cutAt .blockClose r = some cut)
    (hd : classify cut.inner = .ok d) (s : Search) (pos : Nat) :
    searchBlocks s pos (t :: r) =
      match s.feed ⟨d.role, ⟨pos, pos + cut.inner.length + 2⟩⟩ with
      | .inl region => .ok (some region)
      | .inr s => searchBlocks s (pos + cut.inner.length + 2) cut.rest := by
  rw [searchBlocks, hk]
  dsimp only
  rw [hc]
  dsimp only
  rw [hd]

/-- A search passes over a doc comment. -/
theorem searchBlocks_of_doc {t : Token} {r : List Token} {cut : Cut} (hk : t.kind = .docOpen)
    (hc : cutAt .blockClose r = some cut) (s : Search) (pos : Nat) :
    searchBlocks s pos (t :: r) = searchBlocks s (pos + cut.inner.length + 2) cut.rest := by
  rw [searchBlocks, hk]
  dsimp only
  rw [hc]

/-- A search passes over a token that opens no comment. -/
theorem searchBlocks_token (s : Search) (pos : Nat) {t : Token}
    (ht : t.kind ≠ .blockOpen ∧ t.kind ≠ .docOpen) (rest : List Token) :
    searchBlocks s pos (t :: rest) = searchBlocks s (pos + 1) rest := by
  rw [searchBlocks]
  split
  · rename_i hk
    exact absurd hk ht.1
  · rename_i hk
    exact absurd hk ht.2
  · rfl

def searchHtml (s : Search) (pos : Nat) : List Token → Except Error (Option Region)
  | [] => .ok none
  | t :: r =>
    if t.kind = .htmlOpen then
      match _h : cutAt .htmlClose r with
      | none => .error (t.unterminated .html)
      | some cut =>
        match classifyHtml cut.inner with
        | .error e => .error e
        | .ok d =>
          match s.feed ⟨d.role, ⟨pos, pos + cut.inner.length + 2⟩⟩ with
          | .inl region => .ok (some region)
          | .inr s => searchHtml s (pos + cut.inner.length + 2) cut.rest
    else searchHtml s (pos + 1) r
termination_by ts => ts.length
decreasing_by
  · have := cutAt_length _h
    simp only [List.length_cons]
    omega
  · simp

/-- Searching the tokens is searching the list of their remarks. -/
theorem searchBlocks_eq_run (s : Search) (pos : Nat) (ts : List Token) :
    searchBlocks s pos ts = s.run (blockRemarks pos ts) := by
  fun_induction searchBlocks s pos ts with
  | case1 s pos => rw [blockRemarks, Search.run]
  | case2 s pos t r hk hc =>
    rw [blockRemarks, hk, hc]
    rfl
  | case3 s pos t r hk cut hc e he =>
    rw [blockRemarks, hk, hc]
    simp only [he, Except.map, Search.run]
  | case4 s pos t r hk cut hc d hd region hf =>
    rw [blockRemarks, hk, hc]
    simp only [hd, Except.map, Search.run, hf]
  | case5 s pos t r hk cut hc d hd s' hf ih =>
    rw [blockRemarks, hk, hc]
    simp only [hd, Except.map, Search.run, hf, ih]
  | case6 s pos t r hk hc =>
    rw [blockRemarks, hk, hc]
    rfl
  | case7 s pos t r hk cut hc ih =>
    rw [blockRemarks, hk, hc]
    exact ih
  | case8 s pos t r hb hd ih =>
    rw [blockRemarks, ih]
    split <;> simp_all

/-- Searching the tokens of a doc comment is searching the list of their
    remarks. -/
theorem searchHtml_eq_run (s : Search) (pos : Nat) (ts : List Token) :
    searchHtml s pos ts = s.run (htmlRemarks pos ts) := by
  fun_induction searchHtml s pos ts with
  | case1 s pos => rw [htmlRemarks, Search.run]
  | case2 s pos t r hk hc =>
    rw [htmlRemarks, if_pos hk, hc]
    rfl
  | case3 s pos t r hk cut hc e he =>
    rw [htmlRemarks, if_pos hk, hc]
    simp only [he, Except.map, Search.run]
  | case4 s pos t r hk cut hc d hd region hf =>
    rw [htmlRemarks, if_pos hk, hc]
    simp only [hd, Except.map, Search.run, hf]
  | case5 s pos t r hk cut hc d hd s' hf ih =>
    rw [htmlRemarks, if_pos hk, hc]
    simp only [hd, Except.map, Search.run, hf, ih]
  | case6 s pos t r hk ih => rw [htmlRemarks, if_neg hk, ih]

/-- The region that a block comment opens, where `ts` is what follows the
    comment and its first index is `pos`.  There is none if the tokens end
    first. -/
def findRegion (pos : Nat) (ts : List Token) : Except Error (Option Region) :=
  searchBlocks .start pos ts

def findHtmlRegion (pos : Nat) (ts : List Token) : Except Error (Option Region) :=
  searchHtml .start pos ts

end FeatureCut
