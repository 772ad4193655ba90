/-
  FeatureCut/Proofs/DocComment.lean
  =================================
  **A doc comment stays a doc comment.**

  A source that is nothing but one doc comment is written line by line: lines with only a
  star go, and so do html directives and the parts that are not selected.  What is left is
  again one doc comment, with two exceptions.  If a slash comes to stand right behind the
  `/**`, that is no opener any more.  And where an html comment has gone, the text before it
  and the text behind it meet, and may weld to a `*/` or `<!--` (`Unwelded` rules this out).

  The pieces that are written are bodies one by one, for they come from the tokens of a body
  (`walk_writes`).  A line that is dropped ends with a break, and so does what stands before
  it, so dropping lines welds nothing together (`bodyText_docSteps`).
-/
import FeatureCut.Proofs.BodyText
import FeatureCut.Proofs.DirectiveLine
import FeatureCut.Proofs.DocParts
import FeatureCut.Proofs.Lines
import FeatureCut.Proofs.Subsequence

namespace FeatureCut

/-- A source that is one doc comment. -/
def IsDocComment (p : Profile) (source : String) : Prop :=
  ∃ kinds : List Kind,
    (tokenize p source).map (fun t => t.kind) = .docOpen :: (kinds ++ [.blockClose, .eof]) ∧
      .blockClose ∉ kinds

theorem isDocComment_iff {p : Profile} {source : String} :
    IsDocComment p source ↔
      (tokenize p source).map (fun t => t.kind) = .docOpen ::
          (((tokenize p source).map fun t => t.kind).tail.dropLast.dropLast ++
            [.blockClose, .eof]) ∧
        .blockClose ∉ ((tokenize p source).map fun t => t.kind).tail.dropLast.dropLast := by
  constructor
  · rintro ⟨kinds, hkinds, hnone⟩
    have hinner : ((tokenize p source).map fun t => t.kind).tail.dropLast.dropLast = kinds := by
      simp [hkinds, List.dropLast_append_of_ne_nil]
    rw [hinner]
    exact ⟨hkinds, hnone⟩
  · rintro ⟨hkinds, hnone⟩
    exact ⟨_, hkinds, hnone⟩

instance (p : Profile) (source : String) : Decidable (IsDocComment p source) :=
  decidable_of_iff _ isDocComment_iff.symm

/-- What is written for the body of the doc comment at the start of a source, before lines
    with only a star are dropped. -/
def docSegments (o : Options) (source : String) : List Segment :=
  match cutAt .blockClose (tokenize o.language.profile source).tail with
  | some cut =>
    (walk (docItem o (Level.ofDepth o maxDepth maxDepth)) cut.inner.length cut.inner).steps
  | none => []

/-- No delimiter stands across a place where two segments meet. -/
def Unwelded (p : Profile) (ss : List Segment) : Prop :=
  ∀ a b, ss = a ++ b → ¬Welds p (a.flatMap Segment.chars) (b.flatMap Segment.chars)

theorem unwelded_iff {p : Profile} {ss : List Segment} :
    Unwelded p ss ↔ ∀ k ∈ List.range (ss.length + 1),
      ¬Welds p ((ss.take k).flatMap Segment.chars) ((ss.drop k).flatMap Segment.chars) := by
  constructor
  · intro h k _
    exact h _ _ (ss.take_append_drop k).symm
  · rintro h a b rfl
    have hplace : a.length < (a ++ b).length + 1 := by
      rw [List.length_append]
      omega
    have hmeet := h a.length (List.mem_range.2 hplace)
    rwa [List.take_left, List.drop_left] at hmeet

instance (p : Profile) (ss : List Segment) : Decidable (Unwelded p ss) :=
  decidable_of_iff _ unwelded_iff.symm

/-! ### What a walk writes -/

/-- A segment of the body of a comment. -/
def Segment.IsBody (p : Profile) : Segment → Prop
  | .text cs => BodyText p cs
  | .eol cs => IsLineBreak cs

/-- A trail writes segments of a body, and does not empty the document. -/
structure Trail.WritesBody (p : Profile) (a : Trail Segment) : Prop where
  steps : ∀ s ∈ a.steps, s.IsBody p
  stop : a.stop ≠ some .excluded

namespace Trail.WritesBody

variable {p : Profile}

theorem single {s : Segment} (h : s.IsBody p) : (Trail.write [s]).WritesBody p :=
  ⟨by simpa [Trail.write] using h, by simp [Trail.write]⟩

theorem nothing : (Trail.nothing : Trail Segment).WritesBody p :=
  ⟨by simp [Trail.nothing], by simp [Trail.nothing]⟩

theorem report (event : Event) : (Trail.report event : Trail Segment).WritesBody p :=
  ⟨by simp [Trail.report], by simp [Trail.report]⟩

theorem fail (e : Error) : (Trail.fail e : Trail Segment).WritesBody p :=
  ⟨by simp [Trail.fail, Trail.halt], by simp [Trail.fail, Trail.halt]⟩

theorem andThen {a b : Trail Segment} (ha : a.WritesBody p) (hb : a.stop = none → b.WritesBody p) :
    (a.andThen b).WritesBody p := by
  cases hstop : a.stop with
  | none =>
    obtain ⟨hsteps, hb⟩ := hb hstop
    refine ⟨?_, ?_⟩
    · rw [Trail.steps_andThen hstop]
      exact List.forall_mem_append.2 ⟨ha.steps, hsteps⟩
    · rw [Trail.stop_andThen hstop]
      exact hb
  | some s =>
    rw [Trail.andThen_of_stop hstop]
    exact ha

end Trail.WritesBody

section

variable {p : Profile} {o : Options} {inner : Level}
  (hinner : ∀ n ts, IsBodyTokens p ts → (inner.htmlBranch n ts).WritesBody p)

/-- The parts of a region start where a body can start. -/
theorem IsBodyTokens.region {ts : List Token} (h : IsBodyTokens p ts) {region : Region}
    (hfind : findHtmlRegion 0 ts = .ok (some region)) :
    IsBodyTokens p (ts.drop region.ending.after) ∧
      ∀ active range, region.branch? active = some range → IsBodyTokens p (ts.drop range.1) := by
  rw [findHtmlRegion, ← Layer.search_html] at hfind
  cases Layer.spans_of_search hfind with
  | @whole body last rest hbody hlast =>
    have hend : (body ++ (last ++ rest)).drop (0 + body.length + last.length) = rest := by
      rw [Nat.zero_add, ← List.drop_drop, List.drop_left, List.drop_left]
    refine ⟨?_, ?_⟩
    · rw [hend]
      exact (h.passes hbody).comment hlast
    · intro active range hrange
      cases active with
      | true =>
        cases hrange
        exact h
      | false => cases hrange
  | @divided first middle second last rest hs hfirst hmiddle hsecond hlast =>
    have helse : (first ++ (middle ++ (second ++ (last ++ rest)))).drop
        (0 + first.length + middle.length) = second ++ (last ++ rest) := by
      rw [Nat.zero_add, ← List.drop_drop, List.drop_left, List.drop_left]
    have hsecondTokens := (h.passes hfirst).comment hmiddle
    refine ⟨?_, ?_⟩
    · dsimp only
      rw [← List.drop_drop, ← List.drop_drop, helse, List.drop_left, List.drop_left]
      exact (hsecondTokens.passes hsecond).comment hlast
    · intro active range hrange
      cases active with
      | true =>
        cases hrange
        exact h
      | false =>
        cases hrange
        dsimp only
        rw [helse]
        exact hsecondTokens

include hinner in
theorem htmlRegionItem_writes {ts : List Token} (h : IsBodyTokens p ts) (t : Token) (size : Nat)
    (q : Polarity) (key : KeyExpr) :
    (htmlRegionItem o inner t size q key ts).trail.WritesBody p ∧
      ((htmlRegionItem o inner t size q key ts).trail.stop = none →
        ∃ k, (htmlRegionItem o inner t size q key ts).taken = size + k ∧
          IsBodyTokens p (ts.drop k)) := by
  unfold htmlRegionItem
  rcases hfind : findHtmlRegion 0 ts with e | (_ | region)
  · exact ⟨.fail e, fun hstop => by cases hstop⟩
  · exact ⟨.fail _, fun hstop => by cases hstop⟩
  · obtain ⟨hend, hbranch⟩ := h.region hfind
    dsimp only
    refine ⟨(Trail.WritesBody.report _).andThen fun _ => ?_, fun _ => ⟨_, rfl, hend⟩⟩
    cases hrange : region.branch? (q.selects key o.keys) with
    | none => exact .nothing
    | some range => exact hinner _ _ (hbranch _ _ hrange)

include hinner in
/-- What one item writes, and where it leads to. -/
theorem docItem_writes {t : Token} {r : List Token} (h : IsBodyTokens p (t :: r)) (n : Nat) :
    (docItem o inner n t r).trail.WritesBody p ∧
      ((docItem o inner n t r).trail.stop = none →
        IsBodyTokens p (r.drop (docItem o inner n t r).taken)) := by
  by_cases hopen : t.kind = .htmlOpen
  · obtain ⟨cut, hcut, htext, hrest⟩ := h.cut hopen
    have hdrop : ∀ k, r.drop (cut.inner.length + 1 + k) = cut.rest.drop k := by
      intro k
      have hskip := drop_of_cutAt (t := t) hcut k
      have hplace : cut.inner.length + 2 + k = cut.inner.length + 1 + k + 1 := by omega
      rw [hplace, List.drop_succ_cons] at hskip
      exact hskip
    rw [docItem, hopen]
    dsimp only
    rw [hcut]
    dsimp only
    cases hd : classifyHtml cut.inner with
    | error e => exact ⟨.fail e, fun hstop => by cases hstop⟩
    | ok d =>
      have hkept :
          (Trail.write [.text (t.lexeme ++ textOf cut.inner ++ cut.mark.lexeme)]).WritesBody p ∧
            IsBodyTokens p (r.drop (cut.inner.length + 1)) := by
        refine ⟨.single htext, ?_⟩
        rw [hdrop 0]
        exact hrest
      cases d with
      | opening q key =>
        obtain ⟨hwrites, hnext⟩ :=
          htmlRegionItem_writes hinner (o := o) hrest t (cut.inner.length + 1) q key
        refine ⟨hwrites, ?_⟩
        intro hstop
        obtain ⟨k, htaken, hk⟩ := hnext hstop
        rw [htaken, hdrop]
        exact hk
      | plain => exact ⟨hkept.1, fun _ => hkept.2⟩
      | alternative => exact ⟨hkept.1, fun _ => hkept.2⟩
      | closing => exact ⟨hkept.1, fun _ => hkept.2⟩
  · obtain ⟨hquiet, hbreak, hrest⟩ := h.tail hopen
    by_cases heol : t.kind = .eol
    · have hitem : docItem o inner n t r = ⟨.write [.eol t.lexeme], 0⟩ := by
        rw [docItem, heol]
      rw [hitem]
      exact ⟨.single (hbreak heol), fun _ => hrest⟩
    · rw [docItem_token hopen heol]
      exact ⟨.single (.quiet hquiet), fun _ => hrest⟩

include hinner in
theorem walk_docItem_writes (n : Nat) {ts : List Token} (h : IsBodyTokens p ts) :
    (walk (docItem o inner) n ts).WritesBody p := by
  induction n using Nat.strongRecOn generalizing ts with
  | ind n ih =>
    cases n with
    | zero =>
      rw [walk]
      exact .nothing
    | succ n =>
      cases ts with
      | nil =>
        rw [walk_nil]
        exact .nothing
      | cons t r =>
        obtain ⟨hwrites, hnext⟩ := docItem_writes (o := o) hinner h n
        rw [walk]
        exact hwrites.andThen fun hstop => ih _ (by omega) (hnext hstop)

end

/-- **All that is written of a body are bodies**, at every level. -/
theorem walk_writes {p : Profile} (o : Options) (limit n k : Nat) {ts : List Token}
    (h : IsBodyTokens p ts) :
    (walk (docItem o (Level.ofDepth o limit n)) k ts).WritesBody p := by
  induction n generalizing k ts with
  | zero => exact walk_docItem_writes (fun _ _ _ => .fail _) k h
  | succ n ih => exact walk_docItem_writes (fun k ts hts => ih k hts) k h

/-! ### Dropping lines -/

/-- The body that is written: what stands on the lines, without those with only a star. -/
theorem bodyText_docSteps {p : Profile} {line : List Char} {ss : List Segment}
    (hline : BodyText p line) (hss : ∀ s ∈ ss, s.IsBody p)
    (hwelds : ∀ a b, ss = a ++ b →
      ¬Welds p (line ++ a.flatMap Segment.chars) (b.flatMap Segment.chars)) :
    BodyText p ((docSteps line ss).flatMap Step.chars) := by
  induction ss generalizing line with
  | nil =>
    rw [docSteps]
    split
    · exact .nil p
    · simpa [Step.chars] using hline
  | cons s ss ih =>
    obtain ⟨hs, hrest⟩ := List.forall_mem_cons.1 hss
    cases s with
    | text cs =>
      rw [docSteps]
      apply ih
      · apply hline.append hs
        intro h
        have hmeet := hwelds [] (.text cs :: ss) rfl
        rw [List.flatMap_nil, List.append_nil] at hmeet
        exact hmeet (h.mono List.suffix_rfl (List.prefix_append _ _))
      · exact hrest
      · intro a b hsplit
        have hmeet := hwelds (.text cs :: a) b (by rw [hsplit, List.cons_append])
        rwa [List.flatMap_cons, ← List.append_assoc] at hmeet
    | eol cs =>
      have hafter : BodyText p ((docSteps [] ss).flatMap Step.chars) := by
        apply ih (.nil p) hrest
        intro a b hsplit h
        have hmeet := hwelds (.eol cs :: a) b (by rw [hsplit, List.cons_append])
        refine hmeet (h.mono ?_ List.prefix_rfl)
        exact ⟨line ++ cs, by simp [Segment.chars]⟩
      rw [docSteps]
      split
      · exact hafter
      · have hbreak : BodyText p (line ++ cs) := by
          apply hline.append (.quiet (IsLineBreak.isQuiet hs))
          have hnone := IsLineBreak.not_welds_right (p := p) hs line []
          rwa [List.append_nil] at hnone
        have hall := hbreak.append hafter (IsLineBreak.not_welds_left hs line _)
        simpa [Step.chars] using hall

theorem copies_docSteps (line : List Char) (ss : List Segment) :
    Copies (docSteps line ss) ((docSteps line ss).flatMap Step.chars) := by
  induction ss generalizing line with
  | nil =>
    rw [docSteps]
    split
    · exact .nil
    · simpa [Step.chars] using Copies.text line
  | cons s ss ih =>
    cases s with
    | text cs => exact ih (line ++ cs)
    | eol cs =>
      rw [docSteps]
      split
      · exact ih []
      · exact (Copies.text line).append ((Copies.eol cs).append (ih []))

/-! ### Reading a doc comment -/

theorem IsBody.kind_ne_blockClose {ps : List Piece} (h : IsBody ps) :
    ∀ q ∈ ps, q.kind ≠ .blockClose := by
  induction h with
  | nil => simp
  | inner hq _ ih => exact List.forall_mem_cons.2 ⟨hq.kind_ne_blockClose, ih⟩
  | html hinner _ ih =>
    refine List.forall_mem_cons.2 ⟨Kind.noConfusion, List.forall_mem_append.2 ⟨?_, ?_⟩⟩
    · exact fun q hq => (hinner q hq).kind_ne_blockClose
    · exact List.forall_mem_cons.2 ⟨Kind.noConfusion, ih⟩

/-- A comment that closes has a body before the first `*/`. -/
theorem BlockRest.isBody_of_closer {body qs : List Piece} {c : Piece}
    (h : BlockRest (body ++ c :: qs)) (hbody : ∀ q ∈ body, q.kind ≠ .blockClose)
    (hc : c.kind = .blockClose) : IsBody body ∧ c = blockCloser := by
  generalize hl : body ++ c :: qs = l at h
  have hmem : c ∈ l := by simp [← hl]
  cases h with
  | @closed body' qs' hbody' hqs =>
    obtain ⟨rfl, rfl, -⟩ := append_cons_inj_of_not (P := fun q => q.kind = .blockClose) hbody hc
      hbody'.kind_ne_blockClose rfl hl
    exact ⟨hbody', rfl⟩
  | unclosed hbody' =>
    exfalso
    rcases List.mem_append.1 hmem with hmem | hmem
    · exact hbody'.kind_ne_blockClose c hmem hc
    · rw [List.mem_singleton.1 hmem] at hc
      cases hc
  | unclosedHtml hbody' hinner =>
    exfalso
    rcases List.mem_append.1 hmem with hmem | hmem
    · exact hbody'.kind_ne_blockClose c hmem hc
    rcases List.mem_cons.1 hmem with rfl | hmem
    · cases hc
    rcases List.mem_append.1 hmem with hmem | hmem
    · exact (hinner c hmem).kind_ne_blockClose hc
    · rw [List.mem_singleton.1 hmem] at hc
      cases hc

theorem Reads.docOpen {a b : Place} {q : Piece} (h : Reads a q b) (hq : q.kind = .docOpen) :
    q = ⟨.docOpen, ['/', '*', '*'], .code⟩ ∧ b = .comment .block false := by
  cases h with
  | blockOpen hdelimits =>
    cases hdelimits with
    | block => cases hq
    | doc => exact ⟨rfl, rfl⟩
  | lineOpen hdelimits => cases hdelimits <;> cases hq
  | _ => cases hq

/-- The pieces of a source that is one doc comment. -/
theorem IsDocComment.exists_body {p : Profile} {source : String} (h : IsDocComment p source) :
    ∃ body e, coalesce (scan p (.code true) source.toList) =
        ⟨.docOpen, ['/', '*', '*'], .code⟩ :: (body ++ [blockCloser, e]) ∧
      IsBody body ∧ e.kind = .eof ∧ ∀ q ∈ body, q.Spelled := by
  obtain ⟨kinds, hkinds, hnone⟩ := h
  have haccepts := tokenize_accepts p source
  have hmap : ((tokenize p source).map Token.toPiece).map (fun q => q.kind) =
      .docOpen :: (kinds ++ [.blockClose, .eof]) := by
    rw [← hkinds, List.map_map]
    rfl
  rw [toPiece_tokenize] at haccepts hmap
  generalize coalesce (scan p (.code true) source.toList) = ps at haccepts hmap
  obtain ⟨q, rest, rfl, hq, hrest⟩ := List.map_eq_cons_iff.1 hmap
  obtain ⟨body, ends, rfl, rfl, hends⟩ := List.map_eq_append_iff.1 hrest
  obtain ⟨c, ends, rfl, hc, hends⟩ := List.map_eq_cons_iff.1 hends
  obtain ⟨e, ends, rfl, he, hends⟩ := List.map_eq_cons_iff.1 hends
  obtain rfl := List.map_eq_nil_iff.1 hends
  obtain ⟨b, hread, hafter⟩ := haccepts.exists_reads (by simp [hq])
  obtain ⟨rfl, rfl⟩ := hread.docOpen hq
  have hshape : BlockRest (body ++ c :: [e]) := hafter.shape
  obtain ⟨hbody, rfl⟩ := hshape.isBody_of_closer
    (fun q hq hkind => hnone (List.mem_map.2 ⟨q, hq, hkind⟩)) hc
  exact ⟨body, e, rfl, hbody, he, fun q hq => haccepts.spelled q (by simp [hq])⟩

theorem isBodyTokens_of_doc {p : Profile} {cs : List Char} {body : List Piece} {e : Piece}
    (h : coalesce (scan p (.code true) cs) =
      ⟨.docOpen, ['/', '*', '*'], .code⟩ :: (body ++ [blockCloser, e]))
    (hbody : IsBody body) (hspelled : ∀ q ∈ body, q.Spelled) :
    IsBodyTokens p (body.map Piece.bare) := by
  have hfirst : coalesce (scan p (.code true) cs) =
      [] ++ ⟨.docOpen, ['/', '*', '*'], .code⟩ :: (body ++ [blockCloser, e]) := h
  obtain ⟨as, bs, hscan, -, hbs⟩ := coalesce_split hfirst Kind.noConfusion
  obtain ⟨x, -, rfl⟩ := scan_split hscan rfl
  have hnone : ∀ r ∈ ([] : List Piece), IsInner .comment r := by simp
  exact (isBodyTokens_of_scan hbody hnone hbs Kind.noConfusion hspelled).1

theorem docSegments_of_bare {o : Options} {source : String} {c : Comment .docOpen} {e : Token}
    (h : bareTokens o.language.profile source.toList = c.tokens ++ [e]) :
    docSegments o source =
      (walk (docItem o (Level.ofDepth o maxDepth maxDepth)) c.inner.length c.inner).steps := by
  rw [← bare_tokenize] at h
  have htail : (tokenize o.language.profile source).tail.map Token.bare =
      c.inner ++ c.closer :: [e] := by
    rw [List.map_tail, h]
    simp [Comment.tokens, Comment.tail]
  have hcut : (cutAt .blockClose (tokenize o.language.profile source).tail).map Cut.bare =
      some ⟨c.inner, c.closer, [e]⟩ := by
    rw [← cutAt_bare, htail]
    exact cutAt_append_cons c.inner_kind c.closer_kind _
  obtain ⟨cut, hfound, hsame⟩ := Option.map_eq_some_iff.1 hcut
  have hinner : cut.inner.map Token.bare = c.inner := congrArg Cut.inner hsame
  have hwalk := walk_bare (docItem_bare (Level.blind_ofDepth o maxDepth maxDepth) o)
    cut.inner.length cut.inner
  rw [docSegments, hfound, ← hinner, List.length_map]
  exact (congrArg Trail.steps hwalk).symm

/-! ### Writing a doc comment -/

theorem docTrail_result {o : Options} {inner : Level} {ts : List Token}
    {h : ∀ t ∈ ts, t.kind ≠ .blockClose} {out : String}
    (hout : (docTrail o inner (bareDoc ts h)).result = .ok out)
    (hexcluded : (walk (docItem o inner) ts.length ts).stop ≠ some .excluded) :
    out.toList = '/' :: '*' :: '*' ::
      ((docSteps [] (walk (docItem o inner) ts.length ts).steps).flatMap Step.chars ++
        ['*', '/']) := by
  change ((Trail.write [.text ['/', '*', '*']]).andThen
    (((walk (docItem o inner) ts.length ts).mapSteps (@docSteps [])).andThen
      (.write [.text ['*', '/']]))).result = .ok out at hout
  generalize walk (docItem o inner) ts.length ts = a at hout hexcluded ⊢
  cases hstop : a.stop with
  | none =>
    have hinner : (a.mapSteps (@docSteps [])).Copies ((docSteps [] a.steps).flatMap Step.chars) :=
      .mapSteps hstop (copies_docSteps [] a.steps)
    have hall := (Trail.Copies.write (.text ['/', '*', '*'])).andThen
      (hinner.andThen (.write (.text ['*', '/'])))
    obtain rfl := Except.ok.inj (hall.result.symm.trans hout)
    exact String.toList_ofList
  | some s =>
    -- a body that stops stops the comment
    have hmapped : (a.mapSteps (@docSteps [])).stop = some s := hstop
    have hnone := Trail.stop_eq_none_of_result hout
    rw [Trail.andThen_of_stop hmapped, Trail.stop_andThen rfl, hmapped, ← hstop] at hnone
    exact absurd (hnone hexcluded) (by simp [hstop])

/-- A body between the delimiters is one doc comment again. -/
theorem isDocComment_of_bodyText {p : Profile} (hp : p.blockComments = true) {w : List Char}
    (h : BodyText p w) (hopen : w.head? ≠ some '/') {source : String}
    (hsource : source.toList = '/' :: '*' :: '*' :: (w ++ ['*', '/'])) :
    IsDocComment p source := by
  obtain ⟨ps, hscan, hps⟩ := h.scan false []
  have hhead : (w ++ ['*', '/']).head? ≠ some '/' := by
    cases w with
    | nil => simp
    | cons c w => exact hopen
  have hpieces : coalesce (scan p (.code true) source.toList) =
      ⟨.docOpen, ['/', '*', '*'], .code⟩ :: (coalesce ps ++ [blockCloser, ⟨.eof, [], .code⟩]) := by
    rw [hsource, scan_docOpener hp true hhead, hscan, coalesce_cons_of_ne Kind.noConfusion,
      coalesce_append_cons ps Kind.noConfusion, scan]
    rfl
  have hnone : ∀ q ∈ coalesce ps, q.kind ≠ .blockClose :=
    forall_mem_coalesce (fun _ _ _ _ _ _ => Kind.noConfusion) hps
  rw [← toPiece_tokenize] at hpieces
  refine ⟨(coalesce ps).map fun q => q.kind, ?_, ?_⟩
  · have hkinds := congrArg (List.map fun q => q.kind) hpieces
    rw [List.map_map] at hkinds
    refine hkinds.trans ?_
    simp [blockCloser]
  · intro hmem
    obtain ⟨q, hq, hkind⟩ := List.mem_map.1 hmem
    exact hnone q hq hkind

theorem IsDocComment.blockComments {p : Profile} {source : String} (h : IsDocComment p source) :
    p.blockComments = true := by
  obtain ⟨body, e, hpieces, -⟩ := h.exists_body
  by_contra hp
  have hnone : ∀ q ∈ coalesce (scan p (.code true) source.toList), q.kind ≠ .docOpen :=
    forall_mem_coalesce (fun _ _ _ _ _ _ => Kind.noConfusion)
      (scan_docOpen (by simpa using hp) (.code true) source.toList)
  rw [hpieces] at hnone
  exact hnone _ (List.mem_cons_self ..) rfl

/-! ### The main statement -/

/-- **A doc comment stays a doc comment.**  If a source is one doc comment, so is what it
    is transformed to, unless a slash comes to stand behind the opening delimiter, or a
    delimiter is put together where an html comment has gone. -/
theorem isDocComment_transform {o : Options} {source out : String}
    (hheader : o.autoHeader = false) (hdoc : IsDocComment o.language.profile source)
    (hout : transform o source = .ok out) (hopen : ¬"/**/".toList <+: out.toList)
    (hwelds : Unwelded o.language.profile (docSegments o source)) :
    IsDocComment o.language.profile out := by
  obtain ⟨body, e, hpieces, hbody, he, hspelled⟩ := hdoc.exists_body
  have hkinds : ∀ t ∈ body.map Piece.bare, t.kind ≠ .blockClose := by
    intro t ht
    obtain ⟨q, hq, rfl⟩ := List.mem_map.1 ht
    exact hbody.kind_ne_blockClose q hq
  have hbare : bareTokens o.language.profile source.toList =
      (bareDoc _ hkinds).tokens ++ [e.bare] := by
    rw [bareTokens, hpieces]
    simp [bareDoc, Comment.tokens, Comment.tail]
  obtain ⟨hsteps, hexcluded⟩ := walk_writes o maxDepth maxDepth (body.map Piece.bare).length
    (isBodyTokens_of_doc hpieces hbody hspelled)
  have hresult : (evaluate o source).result = .ok out := by
    rw [transform] at hout
    split at hout
    · cases hout
    · exact hout
  rw [Trail.result_of_bare (evaluate_bare_doc hheader he hbare)] at hresult
  have htext := docTrail_result hresult hexcluded
  rw [docSegments_of_bare hbare] at hwelds
  have hwritten := bodyText_docSteps (.nil _) hsteps hwelds
  refine isDocComment_of_bodyText hdoc.blockComments hwritten ?_ htext
  intro hslash
  apply hopen
  obtain ⟨w, hw⟩ := List.head?_eq_some_iff.1 hslash
  rw [htext, hw]
  exact ⟨w ++ ['*', '/'], by simp⟩

/-- A first line with only a star, an html comment that stays, a region on lines of its own
    and one in the middle of a line. -/
def thinnedDoc : String :=
  "/** * \n * <!--a-->\n * <!-- @include-if A -->\n * <!-- @end -->\n" ++
    " * b<!-- @include-if A -->c<!-- @end -->d */"

theorem isDocComment_transform_thinnedDoc :
    transform {} thinnedDoc = .ok "/** * <!--a-->\n * bd */" ∧
      IsDocComment ({} : Options).language.profile "/** * <!--a-->\n * bd */" := by
  have hout : transform {} thinnedDoc = .ok "/** * <!--a-->\n * bd */" := by
    decide +kernel
  exact ⟨hout, isDocComment_transform rfl (by decide +kernel) hout (by decide) (by decide +kernel)⟩

/-- A doc comment that is transformed to something else. -/
def EndsEarly (o : Options) (source out : String) : Prop :=
  IsDocComment o.language.profile source ∧ transform o source = .ok out ∧
    ¬IsDocComment o.language.profile out

instance (o : Options) (source out : String) : Decidable (EndsEarly o source out) :=
  inferInstanceAs (Decidable (_ ∧ _ ∧ _))

/-- Neither condition can be left out: what an html comment has parted comes together as
    `*/` and as `<!--`, and a line that is dropped leaves a slash behind the opening
    delimiter. -/
theorem doc_ends_early :
    EndsEarly {} "/** *<!-- @include-if A -->x<!-- @end -->/ /* @license */"
        "/** */ /* @license */" ∧
      EndsEarly {} "/** <<!-- @include-if A -->x<!-- @end -->!-- */" "/** <!-- */" ∧
      EndsEarly {} "/** * \n/ /* @license */" "/**/ /* @license */" := by
  refine ⟨?_, ?_, ?_⟩
  · decide +kernel
  · decide +kernel
  · decide +kernel

end FeatureCut
