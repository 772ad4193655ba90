/-
  FeatureCut/Proofs/Verbatim.lean
  ===============================
  **A document with nothing to decide stays as it is.**

  Where no comment asks for anything, each character of the source is written
  again.  The tokens take different routes to the page.  Text and line breaks are
  written one by one, a comment as a whole, a stray `@else` or `@end` marks its
  line first, and the body of a doc comment is cut into lines of its own.  On every
  route the page copies the text (`Copies`): nothing of it is missing, and the line
  that is being written will be kept.

  In the body of a doc comment a line with only a star would be dropped.  What
  counts there is the line as it is written, which with an html comment on it may
  reach over several lines of the source.  Such a line is never one with only a
  star (`isStarOnly_of_mem`).
-/
import FeatureCut.Proofs.Rejection
import FeatureCut.Proofs.Subsequence

namespace FeatureCut

/-! ### What stays as it is -/

/-- The lines of the body of a doc comment, where `line` is what stands on the first
    one so far. -/
def bodyLines (line : List Char) : List Token → List (List Char)
  | [] => [line]
  | t :: r => if t.kind = .eol then line :: bodyLines [] r else bodyLines (line ++ t.lexeme) r

/-- Whether the body of a doc comment starts with something that stays as it is: an
    html comment opens no region. -/
def startsFixedHtml : List Token → Bool
  | [] => true
  | t :: r =>
    if t.kind = .htmlOpen then
      match cutAt .htmlClose r with
      | none => true
      | some cut =>
        match classifyHtml cut.inner with
        | .ok .plain | .ok .alternative | .ok .closing => true
        | _ => false
    else true

/-- Whether a document starts with something that stays as it is.  A comment has to
    close.  A block comment is no directive, or a stray one that belongs to a region;
    a doc comment opens no region and has no line with only a star. -/
def startsFixed : List Token → Bool
  | [] => true
  | t :: r =>
    match t.kind with
    | .blockOpen =>
      match cutAt .blockClose r with
      | none => false
      | some cut =>
        match classify cut.inner with
        | .ok .plain | .ok .alternative | .ok .closing => true
        | _ => false
    | .docOpen =>
      match cutAt .blockClose r with
      | none => false
      | some cut =>
        cut.inner.tails.all startsFixedHtml &&
          (bodyLines [] cut.inner).all fun line => !isStarOnly line
    | _ => true

/-! ### Pages -/

/-- Steps copy a text to every page whose current line is kept, and keep the line
    they leave. -/
def Copies (ss : List Step) (cs : List Char) : Prop :=
  ∀ p : Page, p.keepsLine = true →
    (p.steps ss).keepsLine = true ∧ (p.steps ss).total = p.total ++ cs

theorem Copies.nil : Copies [] [] := by
  intro p hp
  exact ⟨hp, (List.append_nil _).symm⟩

theorem Copies.append {a b : List Step} {cs ds : List Char} (ha : Copies a cs)
    (hb : Copies b ds) : Copies (a ++ b) (cs ++ ds) := by
  intro p hp
  obtain ⟨hkeeps, htotal⟩ := ha p hp
  obtain ⟨hkeeps', htotal'⟩ := hb _ hkeeps
  rw [Page.steps_append, htotal', htotal, List.append_assoc]
  exact ⟨hkeeps', rfl⟩

theorem Copies.text (cs : List Char) : Copies [.text cs] cs := by
  intro p hp
  refine ⟨?_, p.total_text cs⟩
  change (p.text cs).keepsLine = true
  simp only [Page.keepsLine, Page.hasContent, Page.text, Bool.or_eq_true, List.any_append] at hp ⊢
  tauto

theorem Copies.eol (cs : List Char) : Copies [.eol cs] cs := by
  intro p hp
  have hline : (p.eol cs).line = [] ∧ (p.eol cs).marked = false := p.isClean_eol cs
  refine ⟨?_, ?_⟩
  · change (p.eol cs).keepsLine = true
    simp [Page.keepsLine, hline.2]
  · change (p.eol cs).total = _
    rw [Page.total, Page.written_eol, if_pos hp, hline.1, Page.total]
    simp

/-- A directive that is left in the text keeps its own line. -/
theorem Copies.remark {cs : List Char} (hcs : ∃ c ∈ cs, isIndent c = false) :
    Copies [.mark, .text cs] cs := by
  obtain ⟨c, hc, hindent⟩ := hcs
  intro p _
  refine ⟨?_, p.mark.total_text cs⟩
  change (p.mark.text cs).keepsLine = true
  have hcontent : (p.mark.text cs).hasContent = true := by
    simp only [Page.hasContent, Page.text, List.any_append, Bool.or_eq_true, List.any_eq_true]
    exact Or.inr ⟨c, hc, by simp [hindent]⟩
  simp [Page.keepsLine, hcontent]

theorem render_of_copies {ss : List Step} {cs : List Char} (h : Copies ss cs) :
    render ss = cs := by
  obtain ⟨hkeeps, htotal⟩ := h Page.empty rfl
  rw [render, Page.contents, if_pos hkeeps]
  exact htotal

/-! ### Lines of a doc comment -/

/-- A line with only a star has nothing else on it. -/
theorem isStarOnly_of_mem {line : List Char} (h : '<' ∈ line) : isStarOnly line = false := by
  rw [← List.takeWhile_append_dropWhile (p := isIndent) (l := line)] at h
  unfold isStarOnly
  split
  · rename_i r hr
    rw [hr] at h
    rcases List.mem_append.1 h with h | h
    · have hindent : isIndent '<' = true := List.mem_takeWhile_imp h
      cases hindent
    · by_contra hall
      have hall : ∀ c ∈ r, isIndent c = true := by simpa using hall
      have hr : '<' ∈ r := by simpa using h
      cases hall _ hr
  · rfl

/-- The lines of a doc comment as they are written. -/
def segmentLines (line : List Char) : List Segment → List (List Char)
  | [] => [line]
  | .text cs :: r => segmentLines (line ++ cs) r
  | .eol _ :: r => line :: segmentLines [] r

theorem docSteps_copies {line : List Char} {ss : List Segment}
    (h : ∀ l ∈ segmentLines line ss, isStarOnly l = false) :
    Copies (docSteps line ss) (line ++ ss.flatMap Segment.chars) := by
  induction ss generalizing line with
  | nil =>
    have hline : isStarOnly line = false := h line (by simp [segmentLines])
    rw [docSteps, hline, List.flatMap_nil, List.append_nil]
    by_cases hnil : line = []
    · simpa [hnil] using Copies.nil
    · simpa [hnil] using Copies.text line
  | cons s ss ih =>
    cases s with
    | text cs =>
      rw [docSteps, List.flatMap_cons, ← List.append_assoc]
      exact ih h
    | eol cs =>
      have hline : isStarOnly line = false := h line (by simp [segmentLines])
      have hrest : Copies (docSteps [] ss) ([] ++ ss.flatMap Segment.chars) :=
        ih fun l hl => h l (by simp [segmentLines, hl])
      rw [docSteps, hline, if_neg Bool.false_ne_true, List.flatMap_cons]
      exact (Copies.text line).append ((Copies.eol cs).append hrest)

/-- What stands before a line with a `<` on it does not count. -/
theorem bodyLines_of_mem {line line' : List Char} (hline' : '<' ∈ line') {a ts : List Token}
    (h : ∀ l ∈ bodyLines line (a ++ ts), isStarOnly l = false) :
    ∀ l ∈ bodyLines line' ts, isStarOnly l = false := by
  induction a generalizing line with
  | nil =>
    rw [List.nil_append] at h
    induction ts generalizing line line' with
    | nil =>
      intro l hl
      rw [bodyLines, List.mem_singleton] at hl
      exact hl ▸ isStarOnly_of_mem hline'
    | cons t ts ih =>
      rw [bodyLines] at h ⊢
      by_cases heol : t.kind = .eol
      · rw [if_pos heol] at h ⊢
        intro l hl
        rcases List.mem_cons.1 hl with rfl | hl
        · exact isStarOnly_of_mem hline'
        · exact h l (List.mem_cons_of_mem _ hl)
      · rw [if_neg heol] at h ⊢
        exact ih (List.mem_append_left _ hline') h
  | cons t a ih =>
    rw [List.cons_append, bodyLines] at h
    split at h
    · exact ih fun l hl => h l (List.mem_cons_of_mem _ hl)
    · exact ih h

section

variable {o : Options} {inner : Level}

/-- What is written of the body of a doc comment is its text, on lines that are
    kept. -/
structure CopiesBody (line : List Char) (ts : List Token) (a : Trail Segment) : Prop where
  stop : a.stop = none
  chars : a.steps.flatMap Segment.chars = textOf ts
  lines : ∀ l ∈ segmentLines line a.steps, isStarOnly l = false

theorem CopiesBody.text {line cs : List Char} (ts : List Token) {rest : List Token}
    {a : Trail Segment} (hcs : cs = textOf ts) (h : CopiesBody (line ++ cs) rest a) :
    CopiesBody line (ts ++ rest) ((Trail.write [.text cs]).andThen a) := by
  refine ⟨h.stop, ?_, h.lines⟩
  rw [textOf_append, ← hcs, ← h.chars]
  rfl

/-- An html comment that opens no region is written as a whole. -/
theorem docItem_html {t : Token} {r : List Token} {cut : Cut} (ht : t.kind = .htmlOpen)
    (hc : cutAt .htmlClose r = some cut) (hfixed : startsFixedHtml (t :: r) = true) (n : Nat) :
    docItem o inner n t r =
      ⟨.write [.text (t.lexeme ++ textOf cut.inner ++ cut.mark.lexeme)], cut.inner.length + 1⟩ := by
  rw [startsFixedHtml, if_pos ht, hc] at hfixed
  rw [docItem, ht]
  dsimp only at hfixed ⊢
  rw [hc]
  dsimp only
  cases hd : classifyHtml cut.inner with
  | error e =>
    rw [hd] at hfixed
    cases hfixed
  | ok d =>
    rw [hd] at hfixed
    cases d with
    | opening p key => cases hfixed
    | _ => rfl

theorem docItem_token {t : Token} (ht : t.kind ≠ .htmlOpen) (heol : t.kind ≠ .eol) (n : Nat)
    (r : List Token) : docItem o inner n t r = ⟨.write [.text t.lexeme], 0⟩ := by
  unfold docItem
  split
  · contradiction
  · contradiction
  · rfl

theorem walk_docItem_copies {ts : List Token}
    (hopen : ∀ t ∈ ts, t.kind = .htmlOpen → '<' ∈ t.lexeme)
    (hclose : ∀ t r, t :: r <:+ ts → t.kind = .htmlOpen → ∃ cut, cutAt .htmlClose r = some cut)
    (hfixed : ∀ u, u <:+ ts → startsFixedHtml u = true) {line : List Char}
    (hlines : ∀ l ∈ bodyLines line ts, isStarOnly l = false) {n : Nat} (hn : ts.length ≤ n) :
    CopiesBody line ts (walk (docItem o inner) n ts) := by
  induction n using Nat.strongRecOn generalizing ts line with
  | ind n ih =>
    cases ts with
    | nil =>
      rw [walk_nil]
      exact ⟨rfl, rfl, hlines⟩
    | cons t r =>
      obtain ⟨n, rfl⟩ : ∃ m, n = m + 1 := ⟨n - 1, by simp at hn; omega⟩
      simp only [List.length_cons, Nat.add_le_add_iff_right] at hn
      -- past some tokens all that is known of the body is known of the rest
      have hrest : ∀ {a ts' : List Token} {line' : List Char} {m : Nat}, t :: r = a ++ ts' → m ≤ n →
          ts'.length ≤ m → (∀ l ∈ bodyLines line' ts', isStarOnly l = false) →
          CopiesBody line' ts' (walk (docItem o inner) m ts') := by
        intro a ts' line' m hsplit hm hlen hlines'
        have hsuffix : ts' <:+ t :: r := ⟨a, hsplit.symm⟩
        exact ih m (by omega) (fun u hu => hopen u (hsuffix.subset hu))
          (fun u v huv => hclose u v (huv.trans hsuffix)) (fun u hu => hfixed u (hu.trans hsuffix))
          hlines' hlen
      rw [walk]
      by_cases hhtml : t.kind = .htmlOpen
      · obtain ⟨cut, hc⟩ := hclose t r (List.suffix_refl _) hhtml
        have hsplit : t :: r = (t :: (cut.inner ++ [cut.mark])) ++ cut.rest := by
          simp [cutAt_append hc]
        have hdrop : r.drop (cut.inner.length + 1) = cut.rest := by
          simpa using drop_of_cutAt (t := t) hc 0
        have hlen := cutAt_length hc
        have hopener : '<' ∈ t.lexeme := hopen t (by simp) hhtml
        rw [docItem_html hhtml hc (hfixed _ (List.suffix_refl _)), hdrop, hsplit]
        apply CopiesBody.text (t :: (cut.inner ++ [cut.mark]))
        · simp
        · have hroom : cut.rest.length ≤ n - (cut.inner.length + 1) := by omega
          apply hrest hsplit (Nat.sub_le _ _) hroom
          rw [hsplit] at hlines
          exact bodyLines_of_mem (by simp [hopener]) hlines
      · by_cases heol : t.kind = .eol
        · have hitem : docItem o inner n t r = ⟨.write [.eol t.lexeme], 0⟩ := by
            rw [docItem, heol]
          rw [bodyLines, if_pos heol] at hlines
          have hafter := hrest (a := [t]) rfl (Nat.le_refl _) hn fun l hl =>
            hlines l (List.mem_cons_of_mem _ hl)
          rw [hitem]
          refine ⟨hafter.stop, congrArg (t.lexeme ++ ·) hafter.chars, ?_⟩
          intro l hl
          rcases List.mem_cons.1 hl with rfl | hl
          · exact hlines l (List.mem_cons_self ..)
          · exact hafter.lines l hl
        · rw [docItem_token hhtml heol]
          rw [bodyLines, if_neg heol] at hlines
          apply CopiesBody.text [t]
          · simp
          · exact hrest (a := [t]) rfl (Nat.le_refl _) hn hlines

/-! ### Code -/

omit o inner

theorem exists_cutAt {kind : Kind} {ts : List Token} (h : ∃ t ∈ ts, t.kind = kind) :
    ∃ cut, cutAt kind ts = some cut := by
  induction ts with
  | nil => simp at h
  | cons t r ih =>
    rw [cutAt]
    by_cases ht : t.kind = kind
    · rw [if_pos ht]
      exact ⟨_, rfl⟩
    · rw [if_neg ht]
      obtain ⟨u, hu, hkind⟩ := h
      rcases List.mem_cons.1 hu with rfl | hu
      · exact absurd hkind ht
      · obtain ⟨cut, hc⟩ := ih ⟨u, hu, hkind⟩
        exact ⟨_, by rw [hc, Option.map_some]⟩

/-- An html comment is closed by the end of the comment around it. -/
theorem Accepts.exists_htmlCut {a : Place} {l v rest : List Token} {u k : Token}
    (h : Accepts a ((l ++ u :: (v ++ k :: rest)).map Token.toPiece)) (hu : u.kind = .htmlOpen)
    (hk : k.kind = .blockClose) : ∃ cut, cutAt .htmlClose v = some cut := by
  simp only [List.map_append, List.map_cons] at h
  obtain ⟨q, hq, hqkind⟩ := h.htmlCloses hu hk
  obtain ⟨t, ht, rfl⟩ := List.mem_map.1 hq
  exact exists_cutAt ⟨t, ht, hqkind⟩

theorem Accepts.eq_htmlOpener {a : Place} {ps : List Piece} (h : Accepts a ps) {q : Piece}
    (hq : q ∈ ps) (hkind : q.kind = .htmlOpen) : q = htmlOpener := by
  obtain ⟨l, r, rfl⟩ := List.append_of_mem hq
  obtain ⟨b, -, hrest⟩ := h.exists_readsAll (by simp)
  obtain ⟨c, hread, -⟩ := hrest.exists_reads (by simp [hkind])
  cases hread with
  | htmlOpen => rfl
  | blockOpen h => cases h <;> cases hkind
  | lineOpen h => cases h <;> cases hkind
  | _ => cases hkind

/-- The delimiter that opens a comment is no indent. -/
theorem Reads.opener_content {b : Place} {q : Piece} (h : Reads .code q b)
    (hq : q.kind = .blockOpen) : ∃ c ∈ q.lexeme, isIndent c = false := by
  cases h with
  | blockOpen h => exact h.content
  | lineOpen h => exact h.content
  | _ => cases hq

end

/-- An evaluation comes to its end and has copied a text. -/
structure Trail.Copies (a : Trail Step) (cs : List Char) : Prop where
  stop : a.stop = none
  steps : FeatureCut.Copies a.steps cs

theorem Trail.Copies.write {ss : List Step} {cs : List Char} (h : FeatureCut.Copies ss cs) :
    (Trail.write ss).Copies cs := ⟨rfl, h⟩

theorem Trail.Copies.mapSteps {σ : Type} {f : List σ → Bool → List Step} {a : Trail σ}
    {cs : List Char} (hstop : a.stop = none) (h : FeatureCut.Copies (f a.steps true) cs) :
    (a.mapSteps f).Copies cs where
  stop := hstop
  steps := by
    rw [Trail.mapSteps, hstop]
    exact h

theorem Trail.Copies.andThen {a b : Trail Step} {cs ds : List Char} (ha : a.Copies cs)
    (hb : b.Copies ds) : (a.andThen b).Copies (cs ++ ds) := by
  refine ⟨?_, ?_⟩
  · rw [Trail.stop_andThen ha.stop, hb.stop]
  · rw [Trail.steps_andThen ha.stop]
    exact ha.steps.append hb.steps

section

variable (o : Options) (inner : Level)

/-- A doc comment in which no line is dropped. -/
theorem docCommentItem_copies {t : Token} {r : List Token} {cut : Cut}
    (hc : cutAt .blockClose r = some cut)
    (haccepts : Accepts .code ((t :: r).map Token.toPiece))
    (hhtml : ∀ u, u <:+ cut.inner → startsFixedHtml u = true)
    (hlines : ∀ l ∈ bodyLines [] cut.inner, isStarOnly l = false) :
    ∃ a, docCommentItem o inner t r = ⟨a, cut.inner.length + 1⟩ ∧
      a.Copies (t.lexeme ++ (textOf cut.inner ++ cut.mark.lexeme)) := by
  have hopen : ∀ u ∈ cut.inner, u.kind = .htmlOpen → '<' ∈ u.lexeme := by
    intro u hu hkind
    have hmem : u.toPiece ∈ (t :: r).map Token.toPiece := by
      rw [cutAt_append hc]
      simp [List.mem_map_of_mem hu]
    have hopener := congrArg Piece.lexeme (haccepts.eq_htmlOpener hmem hkind)
    simp [hopener, htmlOpener]
  have hclose : ∀ u v, u :: v <:+ cut.inner → u.kind = .htmlOpen →
      ∃ c, cutAt .htmlClose v = some c := by
    rintro u v ⟨w, hw⟩ hkind
    have hsplit : t :: r = (t :: w) ++ u :: (v ++ cut.mark :: cut.rest) := by
      simp [cutAt_append hc, ← hw]
    rw [hsplit] at haccepts
    exact haccepts.exists_htmlCut hkind (cutAt_kind hc)
  have hbody : CopiesBody [] cut.inner (walk (docItem o inner) cut.inner.length cut.inner) :=
    walk_docItem_copies hopen hclose hhtml hlines (Nat.le_refl _)
  rw [docCommentItem, hc]
  dsimp only
  refine ⟨_, rfl, ?_⟩
  have hsteps := docSteps_copies hbody.lines
  rw [hbody.chars, List.nil_append] at hsteps
  have hmapped : ((walk (docItem o inner) cut.inner.length cut.inner).mapSteps
      (@docSteps [])).Copies (textOf cut.inner) := .mapSteps hbody.stop hsteps
  exact (Trail.Copies.write (.text _)).andThen (hmapped.andThen (.write (.text _)))

/-- A block comment that is no directive, or a stray one. -/
theorem blockItem_copies {t : Token} {r : List Token} {cut : Cut}
    (hc : cutAt .blockClose r = some cut) (ht : t.kind = .blockOpen)
    (haccepts : Accepts .code ((t :: r).map Token.toPiece))
    (hfixed : startsFixed (t :: r) = true) (top : Bool) (n : Nat) :
    ∃ a d, classify cut.inner = .ok d ∧
      blockItem o inner top n t r = ⟨a, cut.inner.length + 1⟩ ∧
      a.Copies (t.lexeme ++ (textOf cut.inner ++ cut.mark.lexeme)) := by
  obtain ⟨b, hread, -⟩ := Accepts.exists_reads haccepts (by simp [ht])
  obtain ⟨c, hmem, hindent⟩ := hread.opener_content ht
  rw [startsFixed, ht] at hfixed
  rw [blockItem, ← List.append_assoc]
  dsimp only at hfixed
  rw [hc] at hfixed ⊢
  dsimp only at hfixed ⊢
  have hremark : FeatureCut.Copies
      [.mark, .text (t.lexeme ++ textOf cut.inner ++ cut.mark.lexeme)]
      (t.lexeme ++ textOf cut.inner ++ cut.mark.lexeme) :=
    .remark ⟨c, by simp [hmem], hindent⟩
  cases hd : classify cut.inner with
  | error e =>
    rw [hd] at hfixed
    cases hfixed
  | ok d =>
    rw [hd] at hfixed
    cases d with
    | plain => exact ⟨_, _, rfl, rfl, .write (.text _)⟩
    | alternative => exact ⟨_, _, rfl, rfl, .write hremark⟩
    | closing => exact ⟨_, _, rfl, rfl, .write hremark⟩
    | _ => cases hfixed

/-- A document goes on behind the tokens that an item takes, and these are copied. -/
structure CopiesItem (t : Token) (r : List Token) (i : Item Step) : Prop where
  copies : i.trail.Copies (textOf (t :: r.take i.taken))
  taken_le : i.taken ≤ r.length
  reached : Layer.block.Reached (r.drop i.taken)
  suffixes : codeSuffixes (t :: r) = (t :: r) :: codeSuffixes (r.drop i.taken)

theorem CopiesItem.token {t : Token} {r : List Token} {a : Trail Step}
    (hreached : Layer.block.Reached (t :: r)) (ha : a.Copies t.lexeme)
    (hkind : t.kind ≠ .blockOpen ∧ t.kind ≠ .docOpen) : CopiesItem t r ⟨a, 0⟩ := by
  have hnone : Layer.block.comment? t.kind = none := by
    cases hk : t.kind <;> first | rfl | exact absurd hk hkind.1 | exact absurd hk hkind.2
  refine ⟨?_, Nat.zero_le _, hreached.token hnone, codeSuffixes_token hkind r⟩
  simpa using ha

theorem CopiesItem.comment {t : Token} {r : List Token} {a : Trail Step} {cut : Cut}
    {c : CommentKind} {role : Role} (hreached : Layer.block.Reached (t :: r))
    (ha : a.Copies (t.lexeme ++ (textOf cut.inner ++ cut.mark.lexeme)))
    (hkind : t.kind = .blockOpen ∨ t.kind = .docOpen)
    (hcomment : Layer.block.comment? t.kind = some c) (hc : cutAt .blockClose r = some cut)
    (hclose : c.close = .blockClose) (hrole : Layer.role c cut.inner = .ok role) :
    CopiesItem t r ⟨a, cut.inner.length + 1⟩ := by
  have hdrop : r.drop (cut.inner.length + 1) = cut.rest := by
    simpa using drop_of_cutAt (t := t) hc 0
  have htake : r.take (cut.inner.length + 1) = cut.inner ++ [cut.mark] := by
    rw [cutAt_append hc, List.take_length_add_append]
    rfl
  have hlen := cutAt_length hc
  obtain ⟨l, hl, hsplit, -⟩ := Layer.IsComment.of_cutAt hcomment (hclose ▸ hc) hrole
  refine ⟨?_, ?_, ?_, ?_⟩
  · rw [htake]
    simpa using ha
  · dsimp only
    omega
  · rw [hdrop]
    rw [hsplit] at hreached
    exact hreached.comment hl
  · rw [hdrop]
    exact codeSuffixes_comment hkind hc

theorem codeItem_copies {t : Token} {r : List Token} (hreached : Layer.block.Reached (t :: r))
    (hfixed : startsFixed (t :: r) = true) (top : Bool) (n : Nat) :
    CopiesItem t r (codeItem o inner top n t r) := by
  have haccepts : Accepts .code ((t :: r).map Token.toPiece) := by
    rcases hreached with h | h
    · cases h
    · exact h
  rw [codeItem]
  rcases hreached.kind with hk | hk | hk | hk | hk
  · rw [hk]
    exact .token hreached (.write (.text _)) (by simp [hk])
  · rw [hk]
    exact .token hreached (.write (.eol _)) (by simp [hk])
  · have hnil : t.lexeme = [] := by
      generalize hl : (t :: r).map Token.toPiece = l at haccepts
      cases haccepts with
      | code => exact congrArg Piece.lexeme (List.cons.inj hl).1
      | cons hread _ =>
        obtain ⟨rfl, -⟩ := List.cons.inj hl
        exact absurd hk hread.kind_ne_eof
    rw [hk]
    exact .token hreached (hnil ▸ ⟨rfl, .nil⟩) (by simp [hk])
  · cases hc : cutAt .blockClose r with
    | none => simp [startsFixed, hk, hc] at hfixed
    | some cut =>
      obtain ⟨a, d, hd, hitem, ha⟩ :=
        blockItem_copies o inner hc hk haccepts hfixed top n
      rw [hk]
      dsimp only
      rw [hitem]
      exact .comment hreached ha (Or.inl hk) (by rw [hk, Layer.comment?]) hc rfl
        (Layer.role_block hd)
  · cases hc : cutAt .blockClose r with
    | none => simp [startsFixed, hk, hc] at hfixed
    | some cut =>
      obtain ⟨hhtml, hlines⟩ : (∀ u, u <:+ cut.inner → startsFixedHtml u = true) ∧
          ∀ l ∈ bodyLines [] cut.inner, isStarOnly l = false := by
        simpa [startsFixed, hk, hc] using hfixed
      obtain ⟨a, hitem, ha⟩ :=
        docCommentItem_copies o inner hc haccepts hhtml hlines
      rw [hk]
      dsimp only
      rw [hitem]
      exact .comment hreached ha (Or.inr hk) (by rw [hk, Layer.comment?]) hc rfl rfl

theorem walk_codeItem_copies {ts : List Token} (hreached : Layer.block.Reached ts)
    (hfixed : ∀ u ∈ codeSuffixes ts, startsFixed u = true) (top : Bool) {n : Nat}
    (hn : ts.length ≤ n) : (walk (codeItem o inner top) n ts).Copies (textOf ts) := by
  induction n using Nat.strongRecOn generalizing ts with
  | ind n ih =>
    cases ts with
    | nil =>
      rw [walk_nil]
      exact ⟨rfl, .nil⟩
    | cons t r =>
      obtain ⟨n, rfl⟩ : ∃ m, n = m + 1 := ⟨n - 1, by simp at hn; omega⟩
      have hstart : startsFixed (t :: r) = true := hfixed _ (by rw [codeSuffixes]; simp)
      have hitem := codeItem_copies o inner hreached hstart top n
      have htaken := hitem.taken_le
      rw [hitem.suffixes] at hfixed
      have hrest := ih (n - (codeItem o inner top n t r).taken) (by omega) hitem.reached
        (fun u hu => hfixed u (List.mem_cons_of_mem _ hu))
        (by simp only [List.length_cons, List.length_drop] at hn ⊢; omega)
      have htext : textOf (t :: r) = textOf (t :: r.take (codeItem o inner top n t r).taken) ++
          textOf (r.drop (codeItem o inner top n t r).taken) := by
        rw [← textOf_append, List.cons_append, List.take_append_drop]
      rw [walk, htext]
      exact hitem.copies.andThen hrest

end

/-- **A document with nothing to decide stays as it is**, whatever the language and the
    keys: its line breaks and blanks, its comments and its last line too. -/
theorem transform_fixed {o : Options} (hvalid : o.validate = .ok ())
    (hheader : o.autoHeader = false) {source : String}
    (hfixed : ∀ u ∈ codeSuffixes (tokenize o.language.profile source), startsFixed u = true) :
    transform o source = .ok source := by
  have hcopies := walk_codeItem_copies o (Level.ofDepth o maxDepth maxDepth)
    (Checked.reached_tokenize o.language.profile source) hfixed true (Nat.le_refl _)
  rw [transform_eq_ok_iff hheader]
  refine ⟨hvalid, ?_⟩
  rw [evaluateTokens, Trail.result_of_none hcopies.stop, render_of_copies hcopies.steps,
    textOf_tokenize, String.ofList_toList]

/-- Four styles of line breaks, stray directives, and an html comment that starts on one
    line of its doc comment and ends on the next. -/
def fixedSource : String :=
  "a \r\n\t/* @else */ \n\r/** b\r * <!-- @end\n * --> c\n */'/* @end */'\n/* d */ # e\t"

theorem transform_fixed_strays :
    (∀ u ∈ codeSuffixes (tokenize Language.generic.profile fixedSource), startsFixed u = true) ∧
      transform {} fixedSource = .ok fixedSource := by
  have hfixed : ∀ u ∈ codeSuffixes (tokenize Language.generic.profile fixedSource),
      startsFixed u = true := by decide +kernel
  exact ⟨hfixed, transform_fixed (o := {}) (by decide +kernel) rfl hfixed⟩

-- a line with only a star would not stay
example : transform {} "/** a\n * \n */" = .ok "/** a\n */" := by decide +kernel

end FeatureCut
