/-
  FeatureCut/Proofs/ForestEvaluation.lean
  =======================================
  **Evaluating the forest is evaluating the document.**

  `Node.trail` goes over the tree by structural recursion and enters only the
  selected part of a region, without the blank text at its ends.  The evaluator
  goes over windows of the token list and looks for the end of every region in
  all that follows, far beyond the window it works on.

  The two agree because a search passes over a balanced forest unchanged
  (`Forest.searchBlocks_tokens`): whatever opens inside is closed inside.  So the
  search that starts after a comment stops at the end of its own node, one item
  of the evaluator covers one node (`Node.evaluates`), and
  `evaluateTokens_eq_trail` says it for whole documents, at every depth of
  nesting that the levels allow.
-/
import Mathlib.Data.List.DropRight
import FeatureCut.Evaluate
import FeatureCut.Proofs.Forest

namespace FeatureCut

/-! ### Joining and trimming -/

def Trail.join {σ : Type} (trails : List (Trail σ)) : Trail σ :=
  trails.foldr Trail.andThen .nothing

@[simp] theorem Trail.join_nil {σ : Type} : Trail.join ([] : List (Trail σ)) = .nothing := rfl

@[simp] theorem Trail.join_cons {σ : Type} (a : Trail σ) (as : List (Trail σ)) :
    Trail.join (a :: as) = a.andThen (Trail.join as) := rfl

/-- Leave out at both ends what has a property. -/
def trimEnds {α : Type} (p : α → Bool) (l : List α) : List α := (l.dropWhile p).rdropWhile p

theorem trimEnds_map {α β : Type} (p : β → Bool) (f : α → β) (l : List α) :
    trimEnds p (l.map f) = (trimEnds (p ∘ f) l).map f := by
  simp only [trimEnds, List.rdropWhile, List.dropWhile_map, ← List.map_reverse]

theorem trimEnds_subset {α : Type} (p : α → Bool) (l : List α) : trimEnds p l ⊆ l :=
  fun _ h => (l.dropWhile_suffix p).subset ((List.rdropWhile_prefix p _).subset h)

/-! ### What a node gives -/

def Node.isBlank : Node → Bool
  | .token t _ => t.isBlankText
  | .doc .. | .remark .. | .region .. | .divided .. => false

def tokenTrail (t : Token) : Trail Step :=
  match t.kind with
  | .eol => .write [.eol t.lexeme]
  | .eof => .nothing
  | _ => .write [.text t.lexeme]

def docTrail (o : Options) (inner : Level) (c : Comment .docOpen) : Trail Step :=
  (Trail.write [.text c.opener.lexeme]).andThen
    (((walk (docItem o inner) c.inner.length c.inner).mapSteps (@docSteps [])).andThen
      (.write [.text c.closer.lexeme]))

/-- What a block comment that says `d` gives where it stands for itself. -/
def remarkTrail (o : Options) (inner : Level) (d : Directive) (c : Comment .blockOpen) :
    Trail Step :=
  match d with
  | .alternative | .closing => .write [.mark, .text c.verbatim]
  | .inline p key _ body =>
    (Trail.write [.mark]).andThen
      ((if p.selects key o.keys then inlineTrail inner (stripSpace (textOf body))
        else .nothing).andThen (.write [.mark]))
  | .fileExclusion key => exclusionTrail o c.opener key
  | .license key => licenseTrail o key
  -- an opening comment never stands for itself
  | .plain | .opening _ _ => .write [.text c.verbatim]

/-- What a region gives around the part that is selected. -/
def regionTrail (p : Polarity) (key : KeyExpr) (active divided : Bool) (t : Token)
    (branch : Trail Step) : Trail Step :=
  (Trail.write [.mark]).andThen
    ((Trail.report (.regionResolved key p active divided t.extent.start.line)).andThen
      (branch.andThen (.write [.mark])))

/-- Enter a part of a region with `n` levels left.  `parts` are its nodes and what
    they give one level deeper. -/
def branchTrail (limit n : Nat) (parts : Nat → List (Node × Trail Step)) : Trail Step :=
  match n with
  | 0 => .fail (.nestingTooDeep limit)
  | m + 1 => Trail.join ((trimEnds (fun x => x.1.isBlank) (parts m)).map Prod.snd)

mutual

/-- What a node gives with `n` levels left for what is nested in it. -/
def Node.trail (o : Options) (limit : Nat) : Node → Nat → Trail Step
  | .token t _, _ => tokenTrail t
  | .doc c, n => docTrail o (Level.ofDepth o limit n) c
  | .remark d c _, n => remarkTrail o (Level.ofDepth o limit n) d c.toComment
  | .region p key head first _, n =>
    regionTrail p key (p.selects key o.keys) false head.opener
      (if p.selects key o.keys then branchTrail limit n fun m => Forest.trails o limit first m
      else .nothing)
  | .divided p key head first _ second _, n =>
    regionTrail p key (p.selects key o.keys) true head.opener
      (if p.selects key o.keys then branchTrail limit n fun m => Forest.trails o limit first m
      else branchTrail limit n fun m => Forest.trails o limit second m)

def Forest.trails (o : Options) (limit : Nat) : List Node → Nat → List (Node × Trail Step)
  | [], _ => []
  | x :: xs, n => (x, x.trail o limit n) :: Forest.trails o limit xs n

end

theorem Forest.trails_eq_map (o : Options) (limit : Nat) (xs : List Node) (n : Nat) :
    Forest.trails o limit xs n = xs.map fun x => (x, x.trail o limit n) := by
  induction xs with
  | nil => rfl
  | cons x xs ih => simp [Forest.trails, ih]

theorem branchTrail_succ (o : Options) (limit n : Nat) (xs : List Node) :
    branchTrail limit (n + 1) (fun m => Forest.trails o limit xs m) =
      Trail.join ((trimEnds Node.isBlank xs).map fun x => x.trail o limit n) := by
  simp only [branchTrail, Forest.trails_eq_map, trimEnds_map, List.map_map]
  rfl

/-- What becomes of the line break after a directive at the top level of a
    document, if it goes with the directive. -/
def Node.breakStep? : Node → List Char → Option Step
  | .region .., cs | .divided .., cs | .remark (.fileExclusion _) .., cs => some (.settle cs)
  | .remark (.license _) .., _ => some .discard
  | _, _ => none

def Node.settle? (x y : Node) : Option Step :=
  match y with
  | .token t _ => if t.kind = .eol then x.breakStep? t.lexeme else none
  | _ => none

/-- What a whole document gives: its nodes in order, where a directive takes the
    line break after it along. -/
def Forest.trail (o : Options) (limit n : Nat) : List Node → Trail Step
  | [] => .nothing
  | [x] => x.trail o limit n
  | x :: y :: xs =>
    match x.settle? y with
    | some step =>
      (x.trail o limit n).andThen ((Trail.write [step]).andThen (Forest.trail o limit n xs))
    | none => (x.trail o limit n).andThen (Forest.trail o limit n (y :: xs))

/-! ### Searching over a forest -/

/-- A search passes a role that neither closes nor divides the region looked
    for. -/
def Search.Passes (s : Search) : Role → Prop
  | .neutral => True
  | .alternative => s.nested ≠ 0 ∨ s.alternative ≠ none
  | .opening | .closing => False

/-- A search inside another region, or past the division of its own, passes all
    but closing comments. -/
theorem Search.passes_of_ne_closing {s : Search} (hs : s.nested ≠ 0 ∨ s.alternative ≠ none)
    {x : Node} (hx : x.role ≠ .closing) : s.Passes x.role := by
  cases hr : x.role with
  | neutral => exact trivial
  | alternative => exact hs
  | opening => exact absurd hr x.role_ne_opening
  | closing => exact absurd hr hx

theorem Search.passes_of_neutral (s : Search) {x : Node} (hx : x.role = .neutral) :
    s.Passes x.role := by
  rw [hx]
  exact trivial

theorem searchBlocks_saying (s : Search) (pos : Nat) {d : Directive} (c : Saying d)
    (rest : List Token) :
    searchBlocks s pos (c.tokens ++ rest) =
      match s.feed ⟨d.role, ⟨pos, pos + c.tokens.length⟩⟩ with
      | .inl region => .ok (some region)
      | .inr s => searchBlocks s (pos + c.tokens.length) rest := by
  rw [c.length_tokens, ← Nat.add_assoc, Comment.tokens, List.cons_append]
  exact searchBlocks_of_block c.opener_kind (c.cutAt_tail rest) c.classified s pos

theorem searchBlocks_doc (s : Search) (pos : Nat) (c : Comment .docOpen) (rest : List Token) :
    searchBlocks s pos (c.tokens ++ rest) = searchBlocks s (pos + c.tokens.length) rest := by
  rw [c.length_tokens, ← Nat.add_assoc, Comment.tokens, List.cons_append]
  exact searchBlocks_of_doc c.opener_kind (c.cutAt_tail rest) s pos

theorem searchBlocks_remark {s : Search} {d : Directive} (hs : s.Passes d.role) (pos : Nat)
    (c : Saying d) (rest : List Token) :
    searchBlocks s pos (c.tokens ++ rest) = searchBlocks s (pos + c.tokens.length) rest := by
  rw [searchBlocks_saying]
  cases hrole : d.role with
  | neutral => rfl
  | opening => rw [hrole] at hs; exact absurd hs id
  | closing => rw [hrole] at hs; exact absurd hs id
  | alternative =>
    rw [hrole] at hs
    have hfeed : (s.nested = 0 && s.alternative.isNone) = false := by
      rcases hs with h | h
      · simp [h]
      · simp [Option.isSome_iff_ne_none, h]
    simp [Search.feed, hfeed]

mutual

theorem Node.searchBlocks_tokens (s : Search) (pos : Nat) (rest : List Token) (x : Node)
    (hx : x.Balanced) (hs : s.Passes x.role) :
    searchBlocks s pos (x.tokens ++ rest) = searchBlocks s (pos + x.tokens.length) rest := by
  cases x with
  | token t ht => exact searchBlocks_token s pos ht rest
  | doc c => exact searchBlocks_doc s pos c rest
  | remark d c hd => exact searchBlocks_remark hs pos c rest
  | region p key head first last =>
    obtain ⟨hrole, hfirst⟩ := hx
    rw [Node.tokens, List.append_assoc, List.append_assoc, searchBlocks_saying]
    -- inside the region one more closing comment is due
    change searchBlocks ⟨s.nested + 1, s.alternative⟩ _ _ = _
    rw [Forest.searchBlocks_tokens _ _ _ first hfirst fun x hx =>
        Search.passes_of_neutral _ (hrole x hx),
      searchBlocks_saying]
    simp [Search.feed, Directive.role, Nat.add_assoc]
  | divided p key head first middle second last =>
    obtain ⟨hrole, hfirst, hrole', hsecond⟩ := hx
    rw [Node.tokens, List.append_assoc, List.append_assoc, List.append_assoc, List.append_assoc,
      searchBlocks_saying]
    change searchBlocks ⟨s.nested + 1, s.alternative⟩ _ _ = _
    have hinside : (⟨s.nested + 1, s.alternative⟩ : Search).nested ≠ 0 := Nat.succ_ne_zero _
    have hmiddle : Search.Passes ⟨s.nested + 1, s.alternative⟩ (Directive.role .alternative) :=
      Or.inl hinside
    rw [Forest.searchBlocks_tokens _ _ _ first hfirst fun x hx =>
        Search.passes_of_neutral _ (hrole x hx),
      searchBlocks_remark hmiddle,
      Forest.searchBlocks_tokens _ _ _ second hsecond fun x hx =>
        Search.passes_of_ne_closing (Or.inl hinside) (hrole' x hx),
      searchBlocks_saying]
    simp [Search.feed, Directive.role, Nat.add_assoc]

/-- A search passes over a balanced forest that has only roles it passes. -/
theorem Forest.searchBlocks_tokens (s : Search) (pos : Nat) (rest : List Token) (xs : List Node)
    (hxs : Forest.Balanced xs) (hs : ∀ x ∈ xs, s.Passes x.role) :
    searchBlocks s pos (Forest.tokens xs ++ rest) =
      searchBlocks s (pos + (Forest.tokens xs).length) rest := by
  cases xs with
  | nil => rfl
  | cons x xs =>
    obtain ⟨hx, hxs⟩ := hxs
    rw [Forest.tokens_cons, List.append_assoc,
      Node.searchBlocks_tokens s pos _ x hx (hs x (by simp)),
      Forest.searchBlocks_tokens s _ rest xs hxs fun y hy => hs y (by simp [hy])]
    simp [Nat.add_assoc]

end

theorem findRegion_region {first : List Node} (hrole : ∀ x ∈ first, x.role = .neutral)
    (hfirst : Forest.Balanced first) (last : Saying .closing) (rest : List Token) :
    findRegion 0 (Forest.tokens first ++ (last.tokens ++ rest)) =
      .ok (some ⟨⟨(Forest.tokens first).length,
        (Forest.tokens first).length + last.tokens.length⟩, none⟩) := by
  rw [findRegion, Forest.searchBlocks_tokens _ _ _ first hfirst fun x hx =>
      Search.passes_of_neutral _ (hrole x hx),
    searchBlocks_saying, Nat.zero_add]
  rfl

/-- The region that ends after two parts which the search passes over. -/
theorem findRegion_of_passes {first second : List Token}
    (hfirst : ∀ pos x, searchBlocks .start pos (first ++ x) =
      searchBlocks .start (pos + first.length) x)
    (hsecond : ∀ b pos x, searchBlocks ⟨0, some b⟩ pos (second ++ x) =
      searchBlocks ⟨0, some b⟩ (pos + second.length) x)
    (middle : Saying .alternative) (last : Saying .closing) (rest : List Token) :
    findRegion 0 (first ++ (middle.tokens ++ (second ++ (last.tokens ++ rest)))) =
      .ok (some
        ⟨⟨first.length + middle.tokens.length + second.length,
          first.length + middle.tokens.length + second.length + last.tokens.length⟩,
        some ⟨first.length, first.length + middle.tokens.length⟩⟩) := by
  rw [findRegion, hfirst, searchBlocks_saying, Nat.zero_add]
  -- the middle comment is the first division, so the search goes on behind it
  change searchBlocks ⟨0, some _⟩ _ _ = _
  rw [hsecond, searchBlocks_saying]
  rfl

/-! ### Trimming a window -/

theorem drop_length_takeWhile {α : Type} (p : α → Bool) (l rest : List α) :
    (l ++ rest).drop (l.takeWhile p).length = l.dropWhile p ++ rest := by
  have hsplit : l ++ rest = l.takeWhile p ++ (l.dropWhile p ++ rest) := by
    rw [← List.append_assoc, List.takeWhile_append_dropWhile]
  rw [hsplit, List.drop_left]

theorem trimWindow_append (ts rest : List Token) :
    trimWindow ts.length (ts ++ rest) =
      ((ts.takeWhile Token.isBlankText).length, (trimEnds Token.isBlankText ts).length) := by
  have hlead := drop_length_takeWhile Token.isBlankText ts []
  simp only [List.append_nil] at hlead
  have hsplit := congrArg List.length
    (List.takeWhile_append_dropWhile (p := Token.isBlankText) (l := ts))
  have hsplit' := congrArg List.length
    (List.rdropWhile_append_rtakeWhile (p := Token.isBlankText)
      (l := ts.dropWhile Token.isBlankText))
  simp only [List.length_append, List.rtakeWhile, List.length_reverse] at hsplit hsplit'
  simp only [trimWindow, List.take_left, hlead, trimEnds, Prod.mk.injEq, true_and]
  omega

theorem Node.exists_tokens_eq_cons (x : Node) :
    ∃ t tail, x.tokens = t :: tail ∧ (x.isBlank = false → t.isBlankText = false) := by
  cases x with
  | token t ht => exact ⟨t, [], rfl, id⟩
  | doc c => exact ⟨c.opener, c.tail, rfl, fun _ => by simp [Token.isBlankText, c.opener_kind]⟩
  | remark d c hd =>
    exact ⟨c.opener, c.tail, rfl, fun _ => by simp [Token.isBlankText, c.opener_kind]⟩
  | region p key head first last =>
    exact ⟨head.opener, _, rfl, fun _ => by simp [Token.isBlankText, head.opener_kind]⟩
  | divided p key head first middle second last =>
    exact ⟨head.opener, _, rfl, fun _ => by simp [Token.isBlankText, head.opener_kind]⟩

theorem Comment.tokens_eq_concat {kind : Kind} (c : Comment kind) :
    c.tokens = c.opener :: c.inner ++ [c.closer] := rfl

theorem Node.exists_tokens_eq_concat (x : Node) :
    ∃ init t, x.tokens = init ++ [t] ∧ (x.isBlank = false → t.isBlankText = false) := by
  cases x with
  | token t ht => exact ⟨[], t, rfl, id⟩
  | doc c =>
    exact ⟨_, c.closer, c.tokens_eq_concat, fun _ => by simp [Token.isBlankText, c.closer_kind]⟩
  | remark d c hd =>
    exact ⟨_, c.closer, c.tokens_eq_concat, fun _ => by simp [Token.isBlankText, c.closer_kind]⟩
  | region p key head first last =>
    refine ⟨head.tokens ++ (Forest.tokens first ++ last.opener :: last.inner), last.closer, ?_,
      fun _ => by simp [Token.isBlankText, last.closer_kind]⟩
    simp [Node.tokens, last.tokens_eq_concat]
  | divided p key head first middle second last =>
    refine ⟨head.tokens ++ (Forest.tokens first ++
      (middle.tokens ++ (Forest.tokens second ++ last.opener :: last.inner))), last.closer, ?_,
      fun _ => by simp [Token.isBlankText, last.closer_kind]⟩
    simp [Node.tokens, last.tokens_eq_concat]

theorem Node.eq_token_of_isBlank {x : Node} (hx : x.isBlank = true) :
    ∃ t, x.tokens = [t] ∧ t.isBlankText = true := by
  cases x with
  | token t ht => exact ⟨t, rfl, hx⟩
  | doc c => cases hx
  | remark d c hd => cases hx
  | region p key head first last => cases hx
  | divided p key head first middle second last => cases hx

theorem Forest.tokens_dropWhile (xs : List Node) :
    (Forest.tokens xs).dropWhile Token.isBlankText = Forest.tokens (xs.dropWhile Node.isBlank) := by
  induction xs with
  | nil => rfl
  | cons x xs ih =>
    cases hx : x.isBlank with
    | true =>
      obtain ⟨t, hxt, ht⟩ := x.eq_token_of_isBlank hx
      simp [hxt, ht, hx, ih]
    | false =>
      obtain ⟨t, tail, hxt, ht⟩ := x.exists_tokens_eq_cons
      simp [hxt, ht hx, hx]

theorem Forest.tokens_rdropWhile (xs : List Node) :
    (Forest.tokens xs).rdropWhile Token.isBlankText =
      Forest.tokens (xs.rdropWhile Node.isBlank) := by
  induction xs using List.reverseRecOn with
  | nil => rfl
  | append_singleton xs x ih =>
    rw [Forest.tokens_append, Forest.tokens_cons, Forest.tokens_nil, List.append_nil]
    cases hx : x.isBlank with
    | true =>
      obtain ⟨t, hxt, ht⟩ := x.eq_token_of_isBlank hx
      rw [hxt, List.rdropWhile_concat_pos _ _ _ ht, List.rdropWhile_concat_pos _ _ _ hx, ih]
    | false =>
      obtain ⟨init, t, hxt, ht⟩ := x.exists_tokens_eq_concat
      rw [List.rdropWhile_concat_neg _ _ _ (by simp [hx]), hxt, ← List.append_assoc,
        List.rdropWhile_concat_neg _ _ _ (by simp [ht hx])]
      simp [hxt]

theorem Forest.tokens_trimEnds (xs : List Node) :
    trimEnds Token.isBlankText (Forest.tokens xs) = Forest.tokens (trimEnds Node.isBlank xs) := by
  rw [trimEnds, Forest.tokens_dropWhile, Forest.tokens_rdropWhile, trimEnds]

/-! ### Items and nodes -/

/-- The item that covers a node, in a window with `k` tokens after the node's
    first.  `r` is what follows that first token. -/
def Node.item (o : Options) (limit n : Nat) (top : Bool) (k : Nat) (x : Node) (r : List Token) :
    Item Step :=
  match (breakAfter? top k (x.tokens.length - 1) r).bind fun b => x.breakStep? b.lexeme with
  | some step => ⟨(x.trail o limit n).andThen (.write [step]), x.tokens.length⟩
  | none => ⟨x.trail o limit n, x.tokens.length - 1⟩

/-- The evaluator takes the tokens of a node for one item, and gives what the node
    gives. -/
def Node.Evaluates (o : Options) (limit : Nat) (x : Node) : Prop :=
  ∀ (n : Nat) (top : Bool) (k : Nat) (t : Token) (tail rest : List Token),
    x.tokens = t :: tail →
      codeItem o (Level.ofDepth o limit n) top k t (tail ++ rest) =
        x.item o limit n top k (tail ++ rest)

theorem Node.item_of_none {o : Options} {limit n : Nat} {top : Bool} {k : Nat} {x : Node}
    {r : List Token} (h : ∀ cs, x.breakStep? cs = none) :
    x.item o limit n top k r = ⟨x.trail o limit n, x.tokens.length - 1⟩ := by
  simp [Node.item, h]

theorem Node.item_of_settle {o : Options} {limit n : Nat} {top : Bool} {k m : Nat} {x : Node}
    {r : List Token} (h : ∀ cs, x.breakStep? cs = some (.settle cs))
    (hlength : x.tokens.length = m + 1) :
    x.item o limit n top k r = Item.settled top k r ⟨x.trail o limit n, m⟩ := by
  simp only [Node.item, Item.settled, h, hlength, Nat.add_sub_cancel]
  cases breakAfter? top k m r with
  | none => rfl
  | some b => rfl

theorem Node.walk_tokens {o : Options} {limit : Nat} {x : Node} (hx : x.Evaluates o limit)
    (n : Nat) (top : Bool) (k : Nat) (rest : List Token) :
    walk (codeItem o (Level.ofDepth o limit n) top) (x.tokens.length + k) (x.tokens ++ rest) =
      match (breakAfter? top k 0 rest).bind fun b => x.breakStep? b.lexeme with
      | some step =>
        ((x.trail o limit n).andThen (.write [step])).andThen
          (walk (codeItem o (Level.ofDepth o limit n) top) (k - 1) (rest.drop 1))
      | none =>
        (x.trail o limit n).andThen
          (walk (codeItem o (Level.ofDepth o limit n) top) k rest) := by
  obtain ⟨t, tail, htokens, -⟩ := x.exists_tokens_eq_cons
  have hbreak : breakAfter? top (tail.length + k) tail.length (tail ++ rest) =
      breakAfter? top k 0 rest := by
    simp [breakAfter?]
  have hitem := hx n top (tail.length + k) t tail rest htokens
  have hlength : (t :: tail).length + k = tail.length + k + 1 := by
    rw [List.length_cons]
    omega
  rw [htokens, List.cons_append, hlength, walk, hitem, Node.item, htokens, List.length_cons,
    Nat.add_sub_cancel, hbreak]
  cases (breakAfter? top k 0 rest).bind fun b => x.breakStep? b.lexeme with
  | none => simp
  | some step =>
    dsimp only
    rw [show tail.length + k - (tail.length + 1) = k - 1 by omega, ← List.drop_drop, List.drop_left]

theorem Forest.walk_tokens {o : Options} {limit : Nat} (n : Nat) {xs : List Node}
    (hxs : ∀ x ∈ xs, x.Evaluates o limit) (rest : List Token) :
    walk (codeItem o (Level.ofDepth o limit n) false) (Forest.tokens xs).length
        (Forest.tokens xs ++ rest) =
      Trail.join (xs.map fun x => x.trail o limit n) := by
  induction xs with
  | nil => simp [walk]
  | cons x xs ih =>
    rw [Forest.tokens_cons, List.length_append, List.append_assoc,
      Node.walk_tokens (hxs x (by simp)), ih fun y hy => hxs y (by simp [hy])]
    simp [breakAfter?]

/-- Enter a part of a region that has `rest` after it. -/
def Level.enter (inner : Level) (part rest : List Token) : Trail Step :=
  inner.branch (trimWindow part.length (part ++ rest)).2
    ((part ++ rest).drop (trimWindow part.length (part ++ rest)).1)

/-- Entering the part of a region is entering its nodes, wherever the part stands
    in the document. -/
theorem Level.enter_tokens {o : Options} {limit : Nat} (n : Nat) {xs : List Node}
    (hxs : ∀ x ∈ xs, x.Evaluates o limit) (rest : List Token) :
    (Level.ofDepth o limit n).enter (Forest.tokens xs) rest =
      branchTrail limit n fun m => Forest.trails o limit xs m := by
  cases n with
  | zero => rfl
  | succ n =>
    have hsplit := List.rdropWhile_append_rtakeWhile (p := Token.isBlankText)
      (l := (Forest.tokens xs).dropWhile Token.isBlankText)
    rw [Level.enter, branchTrail_succ, trimWindow_append, drop_length_takeWhile,
      ← hsplit, ← trimEnds, Forest.tokens_trimEnds, List.append_assoc]
    exact Forest.walk_tokens n (fun x hx => hxs x (trimEnds_subset _ _ hx)) _

theorem regionItem_region {o : Options} {limit : Nat} (n : Nat) (t : Token) (size : Nat)
    (p : Polarity) (key : KeyExpr) {first : List Node} (hrole : ∀ x ∈ first, x.role = .neutral)
    (hfirst : Forest.Balanced first) (heval : ∀ x ∈ first, x.Evaluates o limit)
    (last : Saying .closing) (rest : List Token) :
    regionItem o (Level.ofDepth o limit n) t size p key
        (Forest.tokens first ++ (last.tokens ++ rest)) =
      ⟨regionTrail p key (p.selects key o.keys) false t
          (if p.selects key o.keys then branchTrail limit n fun m => Forest.trails o limit first m
          else .nothing),
        size + ((Forest.tokens first).length + last.tokens.length)⟩ := by
  rw [regionItem, findRegion_region hrole hfirst]
  dsimp only
  cases p.selects key o.keys with
  | false => rfl
  | true =>
    rw [if_pos rfl, ← Level.enter_tokens n heval (last.tokens ++ rest)]
    simp only [Level.enter, Region.branch?, Region.thenEnd, List.drop_zero, Nat.zero_add, if_true]
    rfl

theorem regionItem_of_passes (o : Options) (inner : Level) (t : Token) (size : Nat) (p : Polarity)
    (key : KeyExpr) {first second : List Token}
    (hfirst : ∀ pos x, searchBlocks .start pos (first ++ x) =
      searchBlocks .start (pos + first.length) x)
    (hsecond : ∀ b pos x, searchBlocks ⟨0, some b⟩ pos (second ++ x) =
      searchBlocks ⟨0, some b⟩ (pos + second.length) x)
    (middle : Saying .alternative) (last : Saying .closing) (rest : List Token) :
    regionItem o inner t size p key
        (first ++ (middle.tokens ++ (second ++ (last.tokens ++ rest)))) =
      ⟨regionTrail p key (p.selects key o.keys) true t
          (if p.selects key o.keys then
            inner.enter first (middle.tokens ++ (second ++ (last.tokens ++ rest)))
          else inner.enter second (last.tokens ++ rest)),
        size + (first.length + middle.tokens.length + second.length + last.tokens.length)⟩ := by
  have hskip : (first ++ (middle.tokens ++ (second ++ (last.tokens ++ rest)))).drop
      (first.length + middle.tokens.length) = second ++ (last.tokens ++ rest) := by
    rw [← List.drop_drop, List.drop_left, List.drop_left]
  rw [regionItem, findRegion_of_passes hfirst hsecond]
  dsimp only
  cases p.selects key o.keys with
  | true =>
    simp only [Level.enter, Region.branch?, Region.thenEnd, List.drop_zero, Nat.zero_add, if_true]
    rfl
  | false =>
    simp only [Level.enter, Region.branch?, Region.elseRange?, Option.map_some,
      Nat.add_sub_cancel_left, ← List.drop_drop, hskip, Bool.false_eq_true, if_false]
    rfl

theorem regionItem_divided {o : Options} {limit : Nat} (n : Nat) (t : Token) (size : Nat)
    (p : Polarity) (key : KeyExpr) {first second : List Node}
    (hrole : ∀ x ∈ first, x.role = .neutral) (hfirst : Forest.Balanced first)
    (heval : ∀ x ∈ first, x.Evaluates o limit) (middle : Saying .alternative)
    (hrole' : ∀ x ∈ second, x.role ≠ .closing) (hsecond : Forest.Balanced second)
    (heval' : ∀ x ∈ second, x.Evaluates o limit) (last : Saying .closing) (rest : List Token) :
    regionItem o (Level.ofDepth o limit n) t size p key
        (Forest.tokens first ++
          (middle.tokens ++ (Forest.tokens second ++ (last.tokens ++ rest)))) =
      ⟨regionTrail p key (p.selects key o.keys) true t
          (if p.selects key o.keys then branchTrail limit n fun m => Forest.trails o limit first m
          else branchTrail limit n fun m => Forest.trails o limit second m),
        size + ((Forest.tokens first).length + middle.tokens.length +
          (Forest.tokens second).length + last.tokens.length)⟩ := by
  rw [regionItem_of_passes, Level.enter_tokens n heval, Level.enter_tokens n heval']
  · exact fun pos x => Forest.searchBlocks_tokens _ pos x first hfirst fun y hy =>
      Search.passes_of_neutral _ (hrole y hy)
  · exact fun b pos x => Forest.searchBlocks_tokens _ pos x second hsecond fun y hy =>
      Search.passes_of_ne_closing (Or.inr (Option.some_ne_none _)) (hrole' y hy)

theorem codeItem_token {t : Token} (ht : t.kind ≠ .blockOpen ∧ t.kind ≠ .docOpen) (o : Options)
    (inner : Level) (top : Bool) (k : Nat) (r : List Token) :
    codeItem o inner top k t r = ⟨tokenTrail t, 0⟩ := by
  unfold codeItem tokenTrail
  split
  · rename_i hk
    simp [hk]
  · rename_i hk
    simp [hk]
  · rename_i hk
    exact absurd hk ht.2
  · rename_i hk
    exact absurd hk ht.1
  · rename_i h₁ h₂ h₃ h₄
    split <;> simp_all

theorem codeItem_doc (c : Comment .docOpen) (o : Options) (inner : Level) (top : Bool) (k : Nat)
    (rest : List Token) :
    codeItem o inner top k c.opener (c.tail ++ rest) = ⟨docTrail o inner c, c.tail.length⟩ := by
  rw [codeItem, c.opener_kind]
  dsimp only
  rw [docCommentItem, c.cutAt_tail, c.length_tail]
  rfl

def Comment.item (o : Options) (inner : Level) (top : Bool) (k : Nat) (c : Comment .blockOpen)
    (d : Directive) (rest : List Token) : Item Step :=
  match d with
  | .opening p key =>
    (regionItem o inner c.opener c.tail.length p key rest).settled top k (c.tail ++ rest)
  | .fileExclusion key =>
    Item.settled top k (c.tail ++ rest) ⟨exclusionTrail o c.opener key, c.tail.length⟩
  | .license key =>
    match breakAfter? top k c.tail.length (c.tail ++ rest) with
    | some _ => ⟨(licenseTrail o key).andThen (.write [.discard]), c.tail.length + 1⟩
    | none => ⟨licenseTrail o key, c.tail.length⟩
  | d => ⟨remarkTrail o inner d c, c.tail.length⟩

theorem codeItem_comment {d : Directive} (c : Saying d) (o : Options) (inner : Level) (top : Bool)
    (k : Nat) (rest : List Token) :
    codeItem o inner top k c.opener (c.tail ++ rest) = c.item o inner top k d rest := by
  rw [codeItem, c.opener_kind]
  dsimp only
  rw [blockItem, c.cutAt_tail]
  dsimp only
  rw [c.classified]
  cases d <;> simp only [Comment.item, Comment.length_tail] <;> rfl

theorem Node.evaluates_token (o : Options) (limit : Nat) (u : Token)
    (hu : u.kind ≠ .blockOpen ∧ u.kind ≠ .docOpen) : (Node.token u hu).Evaluates o limit := by
  intro n top k t tail rest htokens
  obtain ⟨rfl, rfl⟩ := List.cons.inj htokens
  rw [codeItem_token hu, Node.item_of_none fun _ => rfl]
  rfl

theorem Node.evaluates_doc (o : Options) (limit : Nat) (c : Comment .docOpen) :
    (Node.doc c).Evaluates o limit := by
  intro n top k t tail rest htokens
  obtain ⟨rfl, rfl⟩ := List.cons.inj htokens
  rw [codeItem_doc, Node.item_of_none fun _ => rfl]
  rfl

theorem Node.evaluates_remark (o : Options) (limit : Nat) (d : Directive) (c : Saying d)
    (hd : d.role ≠ .opening) : (Node.remark d c hd).Evaluates o limit := by
  intro n top k t tail rest htokens
  obtain ⟨rfl, rfl⟩ := List.cons.inj htokens
  rw [codeItem_comment]
  cases d with
  | opening p key => exact absurd rfl hd
  | fileExclusion key =>
    rw [Node.item_of_settle (fun _ => rfl) rfl]
    rfl
  | license key =>
    have hlength : (Node.remark (.license key) c hd).tokens.length - 1 = c.tail.length := rfl
    rw [Node.item, Comment.item, hlength]
    cases breakAfter? top k c.tail.length (c.tail ++ rest) <;> rfl
  | plain =>
    rw [Node.item_of_none fun _ => rfl]
    rfl
  | inline p key lead body =>
    rw [Node.item_of_none fun _ => rfl]
    rfl
  | alternative =>
    rw [Node.item_of_none fun _ => rfl]
    rfl
  | closing =>
    rw [Node.item_of_none fun _ => rfl]
    rfl

theorem Node.evaluates_region {o : Options} {limit : Nat} (p : Polarity) (key : KeyExpr)
    (head : Saying (.opening p key)) {first : List Node} (last : Saying .closing)
    (hx : (Node.region p key head first last).Balanced)
    (heval : ∀ x ∈ first, x.Evaluates o limit) :
    (Node.region p key head first last).Evaluates o limit := by
  intro n top k t tail rest htokens
  obtain ⟨rfl, rfl⟩ : head.opener = t ∧ head.tail ++ (Forest.tokens first ++ last.tokens) = tail :=
    List.cons.inj htokens
  rw [List.append_assoc, List.append_assoc, codeItem_comment, Comment.item,
    regionItem_region n _ _ p key hx.1 hx.2 heval last rest, Node.item_of_settle (fun _ => rfl) rfl]
  simp [Node.trail]

theorem Node.evaluates_divided {o : Options} {limit : Nat} (p : Polarity) (key : KeyExpr)
    (head : Saying (.opening p key)) {first : List Node} (middle : Saying .alternative)
    {second : List Node} (last : Saying .closing)
    (hx : (Node.divided p key head first middle second last).Balanced)
    (heval : ∀ x ∈ first, x.Evaluates o limit) (heval' : ∀ x ∈ second, x.Evaluates o limit) :
    (Node.divided p key head first middle second last).Evaluates o limit := by
  intro n top k t tail rest htokens
  obtain ⟨rfl, rfl⟩ : head.opener = t ∧ head.tail ++ (Forest.tokens first ++
      (middle.tokens ++ (Forest.tokens second ++ last.tokens))) = tail :=
    List.cons.inj htokens
  obtain ⟨hrole, hfirst, hrole', hsecond⟩ := hx
  simp only [List.append_assoc]
  rw [codeItem_comment, Comment.item,
    regionItem_divided n _ _ p key hrole hfirst heval middle hrole' hsecond heval' last rest,
    Node.item_of_settle (fun _ => rfl) rfl]
  simp [Node.trail, Nat.add_assoc]

mutual

theorem Node.evaluates (o : Options) (limit : Nat) (x : Node) (hx : x.Balanced) :
    x.Evaluates o limit := by
  cases x with
  | token t ht => exact Node.evaluates_token o limit t ht
  | doc c => exact Node.evaluates_doc o limit c
  | remark d c hd => exact Node.evaluates_remark o limit d c hd
  | region p key head first last =>
    exact Node.evaluates_region p key head last hx (Forest.evaluates o limit first hx.2)
  | divided p key head first middle second last =>
    exact Node.evaluates_divided p key head middle last hx
      (Forest.evaluates o limit first hx.2.1) (Forest.evaluates o limit second hx.2.2.2)
termination_by structural x

theorem Forest.evaluates (o : Options) (limit : Nat) (xs : List Node) (hxs : Forest.Balanced xs) :
    ∀ x ∈ xs, x.Evaluates o limit := by
  cases xs with
  | nil => simp
  | cons x xs =>
    have hhead := Node.evaluates o limit x hxs.1
    have htail := Forest.evaluates o limit xs hxs.2
    intro y hy
    rcases List.mem_cons.1 hy with rfl | hy
    · exact hhead
    · exact htail y hy
termination_by structural xs

end

/-! ### Documents -/

theorem Comment.breakAfter?_tokens {kind : Kind} (hkind : kind ≠ .eol) (c : Comment kind) (k : Nat)
    (rest : List Token) : breakAfter? true k 0 (c.tokens ++ rest) = none := by
  simp [breakAfter?, Comment.tokens, Option.filter, c.opener_kind, hkind]

/-- Only a line break of its own is taken along by the directive before it. -/
theorem Node.settle?_eq (x y : Node) (k : Nat) (rest : List Token) :
    ((breakAfter? true (y.tokens.length + k) 0 (y.tokens ++ rest)).bind fun b =>
      x.breakStep? b.lexeme) = x.settle? y := by
  cases y with
  | token t ht =>
    simp only [Node.tokens, Node.settle?, breakAfter?]
    by_cases hk : t.kind = .eol
    · simp [Option.filter, hk, Nat.add_comm 1 k]
    · simp [Option.filter, hk]
  | doc c => rw [Node.tokens, c.breakAfter?_tokens Kind.noConfusion]; rfl
  | remark d c hd => rw [Node.tokens, c.breakAfter?_tokens Kind.noConfusion]; rfl
  | region p key head first last =>
    rw [Node.tokens, List.append_assoc, head.breakAfter?_tokens Kind.noConfusion]
    rfl
  | divided p key head first middle second last =>
    rw [Node.tokens, List.append_assoc, head.breakAfter?_tokens Kind.noConfusion]
    rfl

theorem Forest.walk_tokens_top {o : Options} {limit : Nat} (n : Nat) {xs : List Node}
    (hxs : ∀ x ∈ xs, x.Evaluates o limit) (rest : List Token) :
    walk (codeItem o (Level.ofDepth o limit n) true) (Forest.tokens xs).length
        (Forest.tokens xs ++ rest) =
      Forest.trail o limit n xs := by
  fun_induction Forest.trail o limit n xs with
  | case1 => simp [walk]
  | case2 x =>
    rw [Forest.tokens_cons, List.length_append, List.append_assoc,
      Node.walk_tokens (hxs x (by simp))]
    simp [breakAfter?, walk]
  | case3 x y xs step hstep ih =>
    have htail := ih fun z hz => hxs z (by simp [hz])
    rw [Forest.tokens_cons, List.length_append, List.append_assoc,
      Node.walk_tokens (hxs x (by simp)), Forest.tokens_cons, List.length_append,
      List.append_assoc, x.settle?_eq y, hstep]
    -- the break is one token, which is skipped
    cases y with
    | token t ht => simp [Node.tokens, htail, Trail.andThen_assoc]
    | doc c => cases hstep
    | remark d c hd => cases hstep
    | region p key head first last => cases hstep
    | divided p key head first middle second last => cases hstep
  | case4 x y xs hstep ih =>
    have htail := ih fun z hz => hxs z (by simp [hz])
    rw [Forest.tokens_cons, List.length_append, List.append_assoc,
      Node.walk_tokens (hxs x (by simp)), htail, Forest.tokens_cons, List.length_append,
      List.append_assoc, x.settle?_eq y, hstep]

theorem evaluateTokens_tokens {o : Options} {limit : Nat} (n : Nat) {xs : List Node}
    (hxs : Forest.Balanced xs) :
    evaluateTokens o (Level.ofDepth o limit n) (Forest.tokens xs) = Forest.trail o limit n xs := by
  have h := Forest.walk_tokens_top n (Forest.evaluates o limit xs hxs) []
  rwa [List.append_nil] at h

/-- **Evaluating a document is evaluating its forest.**  There is a forest exactly
    if every comment closes and is sound and every region is closed.  Then the
    evaluator takes the same steps, reports the same events and stops for the same
    reason as the recursion over the tree. -/
theorem evaluateTokens_eq_trail (o : Options) (source : String) :
    (parse (tokenize o.language.profile source)).isSome =
        closes 0 (blockRemarks 0 (tokenize o.language.profile source)) ∧
      ∀ xs, parse (tokenize o.language.profile source) = some xs →
        evaluateTokens o (Level.ofDepth o maxDepth maxDepth) (tokenize o.language.profile source) =
          Forest.trail o maxDepth maxDepth xs := by
  refine ⟨parse_isSome _, ?_⟩
  intro xs hxs
  obtain ⟨htokens, hbalanced⟩ := parse_sound hxs
  rw [← htokens]
  exact evaluateTokens_tokens maxDepth hbalanced

/-- A divided region that holds another one with a second division, blank text
    before a division, and a closing comment without a region. -/
def nestedSource : String :=
  "a/* @include-if A */x/* @exclude-if B */y/* @else */z/* @else */w/* @end */ " ++
    "/* @else */v/* @end */\nc/* @end */"

theorem evaluateTokens_eq_trail_nested :
    ∃ xs, parse (tokenize Language.generic.profile nestedSource) = some xs ∧
      evaluateTokens {} (Level.ofDepth {} maxDepth maxDepth)
          (tokenize Language.generic.profile nestedSource) =
        Forest.trail {} maxDepth maxDepth xs ∧
      Forest.trail {} maxDepth maxDepth xs =
        ⟨[.text ['a'], .mark, .text ['v'], .mark, .settle ['\n'], .text ['c'], .mark,
          .text "/* @end */".toList], [.regionResolved ⟨"A"⟩ .positive false true 1], none⟩ := by
  obtain ⟨hparses, htrail⟩ := evaluateTokens_eq_trail {} nestedSource
  have hcloses : closes 0 (blockRemarks 0 (tokenize Language.generic.profile nestedSource)) =
      true := by
    decide +kernel
  obtain ⟨xs, hxs⟩ := Option.isSome_iff_exists.1 (hparses.trans hcloses)
  refine ⟨xs, hxs, htrail xs hxs, ?_⟩
  rw [← htrail xs hxs]
  decide +kernel

end FeatureCut
