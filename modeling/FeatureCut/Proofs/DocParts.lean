/-
  FeatureCut/Proofs/DocParts.lean
  ===============================
  **Parts of a doc comment.**

  `Gives` says what is known of some tokens in the body of a doc comment: the search for
  the end of a region passes over them, and a walk over them writes segments with a given
  property, whatever follows.  It holds of text and of breaks, it is composed by
  `Gives.append`, and a region around a part gives what the part gives if it is selected,
  at the price of one level (`Gives.region`, `Gives.divided`).

  The property that lines are after is `AreLines`: the segments make up whole lines, which
  are written as a given text.  An html comment in the middle of a line is skipped, and
  what stands before it on its line stays.  A region that is skipped takes the line on to
  the star of the directive line that ends it, and one that is entered starts with the
  break behind the comment that opens it.  Either way each star that is left is on a line
  with nothing else, and such a line is dropped (`FillsLines`).
-/
import FeatureCut.Proofs.ForestEvaluation
import FeatureCut.Proofs.Nesting
import FeatureCut.Proofs.Places
import FeatureCut.Proofs.Verbatim

namespace FeatureCut

/-! ### Walks -/

/-- A walk over some tokens leaves a trail behind, whatever follows them. -/
def Walks {σ : Type} (item : Nat → Token → List Token → Item σ) (ts : List Token)
    (a : Trail σ) : Prop :=
  ∀ k rest, walk item (ts.length + k) (ts ++ rest) = a.andThen (walk item k rest)

section

variable {σ : Type} {item : Nat → Token → List Token → Item σ}

theorem Walks.nil : Walks item [] .nothing := by
  intro k rest
  rw [List.length_nil, Nat.zero_add]
  rfl

theorem Walks.append {ts us : List Token} {a b : Trail σ} (ha : Walks item ts a)
    (hb : Walks item us b) : Walks item (ts ++ us) (a.andThen b) := by
  intro k rest
  rw [List.length_append, Nat.add_assoc, List.append_assoc, ha, hb, Trail.andThen_assoc]

/-- What one item of a walk takes. -/
theorem Walks.single {t : Token} {ts : List Token} {a : Trail σ}
    (h : ∀ n rest, item n t (ts ++ rest) = ⟨a, ts.length⟩) : Walks item (t :: ts) a := by
  intro k rest
  have hlength : (t :: ts).length + k = ts.length + k + 1 := by
    rw [List.length_cons]
    omega
  rw [hlength, List.cons_append, walk, h]
  dsimp only
  rw [Nat.add_sub_cancel_left, List.drop_left]

theorem Walks.all {ts : List Token} {a : Trail σ} (h : Walks item ts a) (rest : List Token) :
    walk item ts.length (ts ++ rest) = a := by
  have hall := h 0 rest
  rwa [Nat.add_zero, walk, Trail.andThen_nothing] at hall

end

/-! ### Html comments -/

structure HtmlSaying (d : HtmlDirective) where
  opener : Token
  inner : List Token
  closer : Token
  opener_kind : opener.kind = .htmlOpen
  inner_kind : ∀ t ∈ inner, t.kind ≠ .htmlClose ∧ t.kind ≠ .blockClose
  closer_kind : closer.kind = .htmlClose
  classified : classifyHtml inner = .ok d

section

variable {d : HtmlDirective} (c : HtmlSaying d)

def HtmlSaying.tail : List Token := c.inner ++ [c.closer]

def HtmlSaying.tokens : List Token := c.opener :: c.tail

theorem HtmlSaying.cutAt_tail (rest : List Token) :
    cutAt .htmlClose (c.tail ++ rest) = some ⟨c.inner, c.closer, rest⟩ := by
  rw [HtmlSaying.tail, List.append_assoc, List.singleton_append]
  exact cutAt_append_cons (fun t ht => (c.inner_kind t ht).1) c.closer_kind rest

theorem HtmlSaying.searchHtml_tokens (s : Search) (pos : Nat) (rest : List Token) :
    searchHtml s pos (c.tokens ++ rest) =
      match s.feed ⟨d.role, ⟨pos, pos + c.tokens.length⟩⟩ with
      | .inl region => .ok (some region)
      | .inr s => searchHtml s (pos + c.tokens.length) rest := by
  have hkind : Layer.html.comment? c.opener.kind = some .html := by
    rw [c.opener_kind]
    rfl
  have hcomment : Layer.html.IsComment d.role c.tokens :=
    .mk hkind (fun t ht => (c.inner_kind t ht).1) c.closer_kind (Layer.role_html c.classified)
  rw [← Layer.search_html, hcomment.search]
  cases s.feed ⟨d.role, ⟨pos, pos + c.tokens.length⟩⟩ with
  | inl region => rfl
  | inr s => exact Layer.search_html s _ rest

end

/-! ### What a part gives -/

/-- A search for the end of a region passes over some tokens. -/
def Passed (ts : List Token) : Prop :=
  ∀ s pos rest, searchHtml s pos (ts ++ rest) = searchHtml s (pos + ts.length) rest

theorem Passed.append {ts us : List Token} (ha : Passed ts) (hb : Passed us) :
    Passed (ts ++ us) := by
  intro s pos rest
  rw [List.append_assoc, ha, hb, List.length_append, Nat.add_assoc]

/-- Some tokens in the body of a doc comment, and what is written for them if at least `d`
    levels are left. -/
structure Gives (o : Options) (limit d : Nat) (P : List Segment → Prop) (ts : List Token) :
    Prop where
  kinds : ∀ t ∈ ts, t.kind ≠ .blockClose
  passed : Passed ts
  walks : ∀ n, d ≤ n → ∃ a, Walks (docItem o (Level.ofDepth o limit n)) ts a ∧
    a.stop = none ∧ P a.steps

section

variable {o : Options} {limit d : Nat} {P Q : List Segment → Prop} {a b : List Token}

theorem Gives.mono {e : Nat} (h : Gives o limit d P a) (hd : d ≤ e) (hP : ∀ ss, P ss → Q ss) :
    Gives o limit e Q a := by
  refine ⟨h.kinds, h.passed, ?_⟩
  intro n hn
  obtain ⟨trail, hwalks, hstop, hsteps⟩ := h.walks n (hd.trans hn)
  exact ⟨trail, hwalks, hstop, hP _ hsteps⟩

theorem Gives.nil (hP : P []) : Gives o limit d P [] := by
  refine ⟨by simp, fun s pos rest => rfl, ?_⟩
  intro n _
  exact ⟨.nothing, .nil, rfl, hP⟩

theorem Gives.append {R : List Segment → Prop} (ha : Gives o limit d P a)
    (hb : Gives o limit d Q b) (hR : ∀ ss us, P ss → Q us → R (ss ++ us)) :
    Gives o limit d R (a ++ b) := by
  refine ⟨List.forall_mem_append.2 ⟨ha.kinds, hb.kinds⟩, ha.passed.append hb.passed, ?_⟩
  intro n hn
  obtain ⟨s, hs, hstop, hP⟩ := ha.walks n hn
  obtain ⟨t, ht, hstop', hQ⟩ := hb.walks n hn
  refine ⟨s.andThen t, hs.append ht, ?_, ?_⟩
  · rw [Trail.stop_andThen hstop, hstop']
  · rw [Trail.steps_andThen hstop]
    exact hR _ _ hP hQ

/-- A token that is written by itself. -/
theorem Gives.token {t : Token} (hopen : t.kind ≠ .htmlOpen) (hclose : t.kind ≠ .blockClose)
    {s : Segment} (hitem : ∀ inner n r, docItem o inner n t r = ⟨.write [s], 0⟩) (hP : P [s]) :
    Gives o limit d P [t] := by
  refine ⟨by simpa using hclose, ?_, ?_⟩
  · intro s pos rest
    rw [List.singleton_append, searchHtml, if_neg hopen]
    rfl
  · intro n _
    exact ⟨.write [s], .single fun k rest => hitem _ k rest, rfl, hP⟩

/-! ### Regions -/

theorem findHtmlRegion_region (ha : Passed a) (last : HtmlSaying .closing) (rest : List Token) :
    findHtmlRegion 0 (a ++ (last.tokens ++ rest)) =
      .ok (some ⟨⟨a.length, a.length + last.tokens.length⟩, none⟩) := by
  rw [findHtmlRegion, ha, last.searchHtml_tokens, Nat.zero_add]
  rfl

theorem findHtmlRegion_divided (ha : Passed a) (hb : Passed b) (middle : HtmlSaying .alternative)
    (last : HtmlSaying .closing) (rest : List Token) :
    findHtmlRegion 0 (a ++ (middle.tokens ++ (b ++ (last.tokens ++ rest)))) =
      .ok (some ⟨⟨a.length + middle.tokens.length + b.length,
        a.length + middle.tokens.length + b.length + last.tokens.length⟩,
        some ⟨a.length, a.length + middle.tokens.length⟩⟩) := by
  rw [findHtmlRegion, ha, middle.searchHtml_tokens, Nat.zero_add]
  -- it is the first division, so the search goes on behind it
  change searchHtml ⟨0, some _⟩ _ _ = _
  rw [hb, last.searchHtml_tokens]
  rfl

theorem docItem_opening {inner : Level} {p : Polarity} {key : KeyExpr}
    (c : HtmlSaying (.opening p key)) (n : Nat) (rest : List Token) :
    docItem o inner n c.opener (c.tail ++ rest) =
      htmlRegionItem o inner c.opener c.tail.length p key rest := by
  have hlength : c.tail.length = c.inner.length + 1 := by simp [HtmlSaying.tail]
  rw [docItem, c.opener_kind]
  dsimp only
  rw [c.cutAt_tail]
  dsimp only
  rw [c.classified, hlength]

/-- No region is left open by one that is closed. -/
theorem Passed.region {p : Polarity} {key : KeyExpr} (head : HtmlSaying (.opening p key))
    (last : HtmlSaying .closing) (ha : Passed a) :
    Passed (head.tokens ++ (a ++ last.tokens)) := by
  intro s pos rest
  rw [List.append_assoc, List.append_assoc, head.searchHtml_tokens]
  change searchHtml ⟨s.nested + 1, s.alternative⟩ _ _ = _
  rw [ha, last.searchHtml_tokens]
  simp [Search.feed, HtmlDirective.role, Nat.add_assoc]

theorem Passed.divided {p : Polarity} {key : KeyExpr} (head : HtmlSaying (.opening p key))
    (middle : HtmlSaying .alternative) (last : HtmlSaying .closing) (ha : Passed a)
    (hb : Passed b) : Passed (head.tokens ++ (a ++ (middle.tokens ++ (b ++ last.tokens)))) := by
  intro s pos rest
  simp only [List.append_assoc]
  rw [head.searchHtml_tokens]
  change searchHtml ⟨s.nested + 1, s.alternative⟩ _ _ = _
  rw [ha, middle.searchHtml_tokens]
  -- the division belongs to the inner region
  change searchHtml ⟨s.nested + 1, s.alternative⟩ _ _ = _
  rw [hb, last.searchHtml_tokens]
  simp [Search.feed, HtmlDirective.role, Nat.add_assoc]

theorem HtmlSaying.kind_ne_blockClose {e : HtmlDirective} (c : HtmlSaying e) :
    ∀ t ∈ c.tokens, t.kind ≠ .blockClose := by
  intro t ht
  rcases List.mem_cons.1 ht with rfl | ht
  · rw [c.opener_kind]
    exact Kind.noConfusion
  rcases List.mem_append.1 ht with ht | ht
  · exact (c.inner_kind t ht).2
  · rw [List.mem_singleton.1 ht, c.closer_kind]
    exact Kind.noConfusion

/-- What the html comment gives that opens a region, with the trail of the part that is
    selected. -/
def htmlRegionTrail (p : Polarity) (key : KeyExpr) (active : Bool) (t : Token)
    (branch : Trail Segment) : Trail Segment :=
  (Trail.report (.htmlRegionResolved key p active t.extent.start.line)).andThen branch

theorem walks_region {n : Nat} {p : Polarity} {key : KeyExpr}
    (head : HtmlSaying (.opening p key)) (last : HtmlSaying .closing) (hpassed : Passed a)
    {s : Trail Segment} (ha : Walks (docItem o (Level.ofDepth o limit n)) a s) :
    Walks (docItem o (Level.ofDepth o limit (n + 1))) (head.tokens ++ (a ++ last.tokens))
      (htmlRegionTrail p key (p.selects key o.keys) head.opener
        (if p.selects key o.keys then s else .nothing)) := by
  rw [HtmlSaying.tokens, List.cons_append]
  apply Walks.single
  intro k rest
  rw [List.append_assoc, List.append_assoc, docItem_opening, htmlRegionItem,
    findHtmlRegion_region hpassed]
  dsimp only
  cases p.selects key o.keys with
  | false => simp [Region.branch?, Region.elseRange?, htmlRegionTrail]
  | true =>
    have hbranch : (Level.ofDepth o limit (n + 1)).htmlBranch a.length
        (a ++ (last.tokens ++ rest)) = s := ha.all _
    simp [Region.branch?, Region.thenEnd, htmlRegionTrail, hbranch]

theorem walks_divided {n : Nat} {p : Polarity} {key : KeyExpr}
    (head : HtmlSaying (.opening p key)) (middle : HtmlSaying .alternative)
    (last : HtmlSaying .closing) (hpassed : Passed a) (hpassed' : Passed b)
    {s t : Trail Segment} (ha : Walks (docItem o (Level.ofDepth o limit n)) a s)
    (hb : Walks (docItem o (Level.ofDepth o limit n)) b t) :
    Walks (docItem o (Level.ofDepth o limit (n + 1)))
      (head.tokens ++ (a ++ (middle.tokens ++ (b ++ last.tokens))))
      (htmlRegionTrail p key (p.selects key o.keys) head.opener
        (if p.selects key o.keys then s else t)) := by
  rw [HtmlSaying.tokens, List.cons_append]
  apply Walks.single
  intro k rest
  simp only [List.append_assoc]
  rw [docItem_opening, htmlRegionItem, findHtmlRegion_divided hpassed hpassed']
  dsimp only
  cases p.selects key o.keys with
  | true =>
    have hbranch : (Level.ofDepth o limit (n + 1)).htmlBranch a.length
        (a ++ (middle.tokens ++ (b ++ (last.tokens ++ rest)))) = s := ha.all _
    simp [Region.branch?, Region.thenEnd, htmlRegionTrail, hbranch, Nat.add_assoc]
  | false =>
    have hskip : (a ++ (middle.tokens ++ (b ++ (last.tokens ++ rest)))).drop
        (a.length + middle.tokens.length) = b ++ (last.tokens ++ rest) := by
      rw [← List.drop_drop, List.drop_left, List.drop_left]
    have hbranch : (Level.ofDepth o limit (n + 1)).htmlBranch b.length
        (b ++ (last.tokens ++ rest)) = t := hb.all _
    simp only [Region.branch?, Region.elseRange?, Option.map_some, Bool.false_eq_true, if_false,
      Nat.add_sub_cancel_left, hskip, hbranch]
    simp [htmlRegionTrail, Nat.add_assoc]

/-- A region gives what its part gives, if that is selected, and needs one level more. -/
theorem Gives.region {p : Polarity} {key : KeyExpr} (head : HtmlSaying (.opening p key))
    (last : HtmlSaying .closing) (ha : Gives o limit d P a) :
    Gives o limit (d + 1) (fun ss => if p.selects key o.keys then P ss else ss = [])
      (head.tokens ++ (a ++ last.tokens)) := by
  refine ⟨?_, ha.passed.region head last, ?_⟩
  · simp only [List.forall_mem_append]
    exact ⟨head.kind_ne_blockClose, ha.kinds, last.kind_ne_blockClose⟩
  · intro n hn
    obtain ⟨n, rfl⟩ : ∃ m, n = m + 1 := ⟨n - 1, by omega⟩
    obtain ⟨s, hwalks, hstop, hP⟩ := ha.walks n (by omega)
    refine ⟨_, walks_region head last ha.passed hwalks, ?_⟩
    cases p.selects key o.keys with
    | true => exact ⟨hstop, hP⟩
    | false => exact ⟨rfl, rfl⟩

theorem Gives.divided {p : Polarity} {key : KeyExpr} (head : HtmlSaying (.opening p key))
    (middle : HtmlSaying .alternative) (last : HtmlSaying .closing) (ha : Gives o limit d P a)
    (hb : Gives o limit d Q b) :
    Gives o limit (d + 1) (fun ss => if p.selects key o.keys then P ss else Q ss)
      (head.tokens ++ (a ++ (middle.tokens ++ (b ++ last.tokens)))) := by
  refine ⟨?_, ha.passed.divided head middle last hb.passed, ?_⟩
  · simp only [List.forall_mem_append]
    exact ⟨head.kind_ne_blockClose, ha.kinds, middle.kind_ne_blockClose, hb.kinds,
      last.kind_ne_blockClose⟩
  · intro n hn
    obtain ⟨n, rfl⟩ : ∃ m, n = m + 1 := ⟨n - 1, by omega⟩
    obtain ⟨s, hwalks, hstop, hP⟩ := ha.walks n (by omega)
    obtain ⟨t, hwalks', hstop', hQ⟩ := hb.walks n (by omega)
    refine ⟨_, walks_divided head middle last ha.passed hb.passed hwalks hwalks', ?_⟩
    cases p.selects key o.keys with
    | true => exact ⟨hstop, hP⟩
    | false => exact ⟨hstop', hQ⟩

end

/-! ### The lines that are written -/

/-- Segments that make up whole lines, which are written as `cs`. -/
def AreLines (ss : List Segment) (cs : List Char) : Prop :=
  ∃ steps, Copies steps cs ∧ ∀ more,
    docSteps [] (ss ++ more) = steps ++ docSteps [] more

theorem AreLines.nil : AreLines [] [] := ⟨[], .nil, fun _ => rfl⟩

theorem AreLines.append {ss us : List Segment} {cs ds : List Char} (hs : AreLines ss cs)
    (hu : AreLines us ds) : AreLines (ss ++ us) (cs ++ ds) := by
  obtain ⟨a, ha, hss⟩ := hs
  obtain ⟨b, hb, hus⟩ := hu
  refine ⟨a ++ b, ha.append hb, ?_⟩
  intro more
  rw [List.append_assoc, hss, hus, List.append_assoc]

def textSegments (ts : List Token) : List Segment := ts.map fun t => .text t.lexeme

def newlinePiece : Piece := ⟨.eol, ['\n'], .comment⟩

theorem docSteps_textSegments (line : List Char) (ts : List Token) (more : List Segment)
    (ended : Bool) :
    docSteps line (textSegments ts ++ more) ended = docSteps (line ++ textOf ts) more ended := by
  induction ts generalizing line with
  | nil => simp [textSegments]
  | cons t ts ih =>
    have htail := ih (line ++ t.lexeme)
    rw [List.append_assoc, ← textOf_cons] at htail
    exact htail

theorem AreLines.kept {ts : List Token} (h : isStarOnly (textOf ts) = false) :
    AreLines (textSegments ts ++ [.eol ['\n']]) (textOf ts ++ ['\n']) := by
  refine ⟨_, (Copies.text (textOf ts)).append (Copies.eol ['\n']), ?_⟩
  intro more
  rw [List.append_assoc, docSteps_textSegments, List.nil_append, List.singleton_append, docSteps,
    if_neg (by simp [h])]
  rfl

/-- A line with only a star leaves nothing. -/
theorem AreLines.dropped {ts : List Token} (h : isStarOnly (textOf ts) = true) :
    AreLines (textSegments ts ++ [.eol ['\n']]) [] := by
  refine ⟨[], .nil, ?_⟩
  intro more
  rw [List.append_assoc, docSteps_textSegments, List.nil_append, List.singleton_append, docSteps,
    if_pos h]
  rfl

/-- A token that is written as text. -/
def Token.IsPlain (t : Token) : Prop :=
  t.kind ≠ .eol ∧ t.kind ≠ .htmlOpen ∧ t.kind ≠ .blockClose

/-- The tokens before the html comment on a directive line. -/
structure IsMargin (ts : List Token) : Prop where
  plain : ∀ t ∈ ts, t.IsPlain
  star : isStarOnly (textOf ts) = true

/-- What is written between the star of a directive line and the break at the end of the
    next one, so that in all the lines with a directive are dropped. -/
def FillsLines (ss : List Segment) (cs : List Char) : Prop :=
  ∀ ts, IsMargin ts → AreLines (textSegments ts ++ (ss ++ [.eol ['\n']])) cs

theorem FillsLines.nil : FillsLines [] [] := fun _ h => .dropped h.star

theorem FillsLines.lines {ss : List Segment} {cs : List Char} (h : AreLines ss cs)
    {ts : List Token} (hts : IsMargin ts) :
    FillsLines (.eol ['\n'] :: (ss ++ textSegments ts)) cs := by
  intro us hus
  have hall := (AreLines.dropped hus.star).append (h.append (.dropped hts.star))
  simpa using hall

section

variable {o : Options} {limit d : Nat} {a m : List Token} {cs : List Char}

theorem Gives.plain {ts : List Token} (hts : ∀ t ∈ ts, t.IsPlain) :
    Gives o limit d (· = textSegments ts) ts := by
  induction ts with
  | nil => exact .nil rfl
  | cons t ts ih =>
    obtain ⟨⟨heol, hopen, hclose⟩, hrest⟩ := List.forall_mem_cons.1 hts
    have hhead : Gives o limit d (· = [.text t.lexeme]) [t] :=
      .token hopen hclose (fun _ n r => docItem_token hopen heol n r) rfl
    refine hhead.append (ih hrest) ?_
    rintro _ _ rfl rfl
    rfl

theorem Gives.newline : Gives o limit d (· = [.eol ['\n']]) [newlinePiece.bare] :=
  .token Kind.noConfusion Kind.noConfusion (fun _ _ _ => rfl) rfl

theorem Gives.line {ts : List Token} (hts : ∀ t ∈ ts, t.IsPlain)
    (hkept : isStarOnly (textOf ts) = false) :
    Gives o limit d (AreLines · (textOf ts ++ ['\n'])) (ts ++ [newlinePiece.bare]) := by
  refine (Gives.plain hts).append .newline ?_
  rintro _ _ rfl rfl
  exact .kept hkept

/-- The tokens of a part, from the break behind the comment before it to the star before
    the one behind it. -/
def partTokens (a m : List Token) : List Token := newlinePiece.bare :: (a ++ m)

theorem Gives.part (ha : Gives o limit d (AreLines · cs) a) (hm : IsMargin m) :
    Gives o limit d (FillsLines · cs) (partTokens a m) := by
  have hlines : Gives o limit d (fun ss => ∃ us, AreLines us cs ∧ ss = us ++ textSegments m)
      (a ++ m) := by
    refine ha.append (.plain hm.plain) ?_
    rintro us _ hus rfl
    exact ⟨us, hus, rfl⟩
  refine Gives.newline.append hlines ?_
  rintro _ _ rfl ⟨us, hus, rfl⟩
  exact .lines hus hm

/-- A region between its margin and the break at its end. -/
theorem Gives.lines (hm : IsMargin m) (ha : Gives o limit d (FillsLines · cs) a) :
    Gives o limit d (AreLines · cs) (m ++ (a ++ [newlinePiece.bare])) := by
  have hend : Gives o limit d (fun ss => ∃ us, FillsLines us cs ∧ ss = us ++ [.eol ['\n']])
      (a ++ [newlinePiece.bare]) := by
    refine ha.append .newline ?_
    rintro us _ hus rfl
    exact ⟨us, hus, rfl⟩
  refine (Gives.plain hm.plain).append hend ?_
  rintro _ _ rfl ⟨us, hus, rfl⟩
  exact hus m hm

end

/-! ### Documents -/

theorem Trail.Copies.result {a : Trail Step} {cs : List Char} (h : a.Copies cs) :
    a.result = .ok (String.ofList cs) := by
  rw [Trail.result, h.stop]
  dsimp only
  rw [render_of_copies h.steps]

def bareDoc (ts : List Token) (h : ∀ t ∈ ts, t.kind ≠ .blockClose) : Comment .docOpen where
  opener := Piece.bare ⟨.docOpen, ['/', '*', '*'], .code⟩
  inner := ts
  closer := blockCloser.bare
  opener_kind := rfl
  inner_kind := h
  closer_kind := rfl

/-- A document that is one doc comment is evaluated as this comment. -/
theorem evaluate_bare_doc {o : Options} (hheader : o.autoHeader = false) {source : String}
    {c : Comment .docOpen} {e : Token} (he : e.kind = .eof)
    (h : bareTokens o.language.profile source.toList = c.tokens ++ [e]) :
    (evaluate o source).bare = (docTrail o (Level.ofDepth o maxDepth maxDepth) c).bare := by
  have hkind : e.kind ≠ .blockOpen ∧ e.kind ≠ .docOpen := by simp [he]
  have hforest : c.tokens ++ [e] = Forest.tokens [.doc c, .token e hkind] := by simp [Node.tokens]
  have htrail : Forest.trail o maxDepth maxDepth [.doc c, .token e hkind] =
      (docTrail o (Level.ofDepth o maxDepth maxDepth) c).andThen .nothing := by
    simp [Forest.trail, Node.settle?, Node.trail, tokenTrail, he]
  rw [evaluate_of_no_header hheader, ← evaluateTokens_bare, bare_tokenize, h, hforest,
    evaluateTokens_tokens maxDepth (by simp [Forest.Balanced, Node.Balanced]), htrail,
    Trail.andThen_nothing]

end FeatureCut
