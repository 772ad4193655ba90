/-
  FeatureCut/Proofs/BodyText.lean
  ===============================
  **Text that can be the body of a comment.**

  A text can be the body of a block comment if no delimiter is seen in it outside of html
  comments, and each html comment in it closes (`BodyText`).  Such a text is read up to the
  `*/` behind it (`BodyText.scan`).  Two of them make a third, unless they weld: a delimiter
  stands across the place where they meet (`BodyText.append`).

  What the scanner has read as a body is of this kind piece by piece, with an html comment
  for one piece (`isBodyTokens_of_scan`).  The text between two html comments is quiet as a
  whole, so each token in it is.  An html comment closes at the first place where it can, so
  it does so in any other context.
-/
import FeatureCut.Proofs.HtmlClose
import FeatureCut.Proofs.Nesting
import FeatureCut.Proofs.Places

namespace FeatureCut

/-! ### Texts that meet -/

/-- A delimiter of a block comment stands across the place where two texts meet. -/
def Welds (p : Profile) (u v : List Char) : Prop :=
  ∃ d ∈ Enclosure.block.delimiters p, ∃ x y, d = x ++ y ∧ x ≠ [] ∧ y ≠ [] ∧ x <:+ u ∧ y <+: v

theorem welds_iff {p : Profile} {u v : List Char} :
    Welds p u v ↔ ∃ d ∈ Enclosure.block.delimiters p, ∃ k ∈ List.range d.length,
      k ≠ 0 ∧ d.take k <:+ u ∧ d.drop k <+: v := by
  constructor
  · rintro ⟨d, hd, x, y, rfl, hx, hy, hxu, hyv⟩
    have hpos := List.length_pos_iff.2 hx
    have hlong := List.length_pos_iff.2 hy
    refine ⟨x ++ y, hd, x.length, ?_, by omega, ?_, ?_⟩
    · rw [List.mem_range, List.length_append]
      omega
    · rwa [List.take_left]
    · rwa [List.drop_left]
  · rintro ⟨d, hd, k, hk, hpos, hxu, hyv⟩
    rw [List.mem_range] at hk
    refine ⟨d, hd, d.take k, d.drop k, (d.take_append_drop k).symm, ?_, ?_, hxu, hyv⟩
    · rw [ne_eq, List.take_eq_nil_iff]
      rintro (hnone | rfl)
      · exact hpos hnone
      · cases hk
    · rw [ne_eq, List.drop_eq_nil_iff]
      omega

instance (p : Profile) (u v : List Char) : Decidable (Welds p u v) :=
  decidable_of_iff _ welds_iff.symm

theorem Welds.mono {p : Profile} {u u' v v' : List Char} (hu : u <:+ u') (hv : v <+: v')
    (h : Welds p u v) : Welds p u' v' := by
  obtain ⟨d, hd, x, y, hsplit, hx, hy, hxu, hyv⟩ := h
  exact ⟨d, hd, x, y, hsplit, hx, hy, hxu.trans hu, hyv.trans hv⟩

theorem isQuiet_block_iff {p : Profile} {w : List Char} :
    Enclosure.block.IsQuiet p w ↔ ∀ d ∈ Enclosure.block.delimiters p, ¬d <:+: w := by
  constructor
  · rintro h d hd ⟨a, b, hw⟩
    obtain ⟨rfl, -⟩ := h d hd a b (by rw [← hw, List.append_assoc])
    rw [Enclosure.delimiters] at hd
    split at hd <;> simp [blockCloser, htmlOpener, htmlCloser] at hd
  · exact Enclosure.isQuiet_of_not_infix

theorem isQuiet_nil (p : Profile) : Enclosure.block.IsQuiet p [] := by
  rw [isQuiet_block_iff]
  intro d hd hstands
  exact (CommentLexeme.delimiter (r := []) (Enclosure.block.delimiters_subset p d hd)).ne_nil
    (List.infix_nil.1 hstands)

theorem isQuiet_of_isInfix {p : Profile} {u w : List Char} (hu : u <:+: w)
    (hw : Enclosure.block.IsQuiet p w) : Enclosure.block.IsQuiet p u := by
  rw [isQuiet_block_iff] at hw ⊢
  intro d hd hstands
  exact hw d hd (hstands.trans hu)

theorem isQuiet_append {p : Profile} {u v : List Char} (hu : Enclosure.block.IsQuiet p u)
    (hv : Enclosure.block.IsQuiet p v) (h : ¬Welds p u v) :
    Enclosure.block.IsQuiet p (u ++ v) := by
  rw [isQuiet_block_iff] at hu hv ⊢
  rintro d hd ⟨a, b, hsplit⟩
  rw [List.append_assoc] at hsplit
  rcases List.append_eq_append_iff.1 hsplit.symm with ⟨c, rfl, hrest⟩ | ⟨c, rfl, hrest⟩
  · exact hv d hd ⟨c, b, by rw [hrest, List.append_assoc]⟩
  · -- the delimiter starts in the first text
    rcases List.append_eq_append_iff.1 hrest with ⟨e, rfl, -⟩ | ⟨e, rfl, rfl⟩
    · exact hu d hd ⟨a, e, by simp⟩
    · by_cases hc : c = []
      · subst hc
        exact hv e hd ⟨[], b, rfl⟩
      by_cases he : e = []
      · subst he
        rw [List.append_nil] at hd
        exact hu c hd ⟨a, [], by simp⟩
      exact h ⟨c ++ e, hd, c, e, rfl, hc, he, ⟨a, rfl⟩, ⟨b, rfl⟩⟩

/-- There are no breaks in a delimiter. -/
theorem isBreak_of_mem_delimiters {p : Profile} {d : List Char}
    (hd : d ∈ Enclosure.block.delimiters p) : ∀ c ∈ d, isBreak c = false := by
  have hdelimiter := Enclosure.block.delimiters_subset p d hd
  simp only [commentDelimiters, List.mem_cons, List.not_mem_nil, or_false] at hdelimiter
  rcases hdelimiter with rfl | rfl | rfl <;> simp [blockCloser, htmlOpener, htmlCloser, isBreak]

theorem IsLineBreak.isBreak {cs : List Char} (h : IsLineBreak cs) :
    cs ≠ [] ∧ ∀ c ∈ cs, isBreak c = true := by
  rcases h with rfl | rfl | rfl | rfl <;> simp [FeatureCut.isBreak]

theorem IsLineBreak.not_welds_left {p : Profile} {cs : List Char} (h : IsLineBreak cs)
    (u v : List Char) : ¬Welds p (u ++ cs) v := by
  rintro ⟨d, hd, x, y, rfl, hx, -, hxu, -⟩
  -- the text before ends with a break character
  obtain ⟨hne, hall⟩ := h.isBreak
  obtain ⟨x, c, rfl⟩ := List.eq_nil_or_concat' x |>.resolve_left hx
  obtain ⟨cs, e, rfl⟩ := List.eq_nil_or_concat' cs |>.resolve_left hne
  obtain ⟨a, ha⟩ := hxu
  rw [← List.append_assoc, ← List.append_assoc] at ha
  obtain rfl : c = e := List.singleton_inj.1 (List.append_inj' ha rfl).2
  have hbreak := isBreak_of_mem_delimiters hd c (by simp)
  rw [hall c (by simp)] at hbreak
  cases hbreak

theorem IsLineBreak.not_welds_right {p : Profile} {cs : List Char} (h : IsLineBreak cs)
    (u v : List Char) : ¬Welds p u (cs ++ v) := by
  rintro ⟨d, hd, x, y, rfl, -, hy, -, hyv⟩
  obtain ⟨hne, hall⟩ := h.isBreak
  obtain ⟨c, y, rfl⟩ := List.exists_cons_of_ne_nil hy
  obtain ⟨e, cs, rfl⟩ := List.exists_cons_of_ne_nil hne
  obtain ⟨rfl, -⟩ := List.cons_prefix_cons.1 hyv
  have hbreak := isBreak_of_mem_delimiters hd c (by simp)
  rw [hall c (by simp)] at hbreak
  cases hbreak

theorem IsLineBreak.isQuiet {p : Profile} {cs : List Char} (h : IsLineBreak cs) :
    Enclosure.block.IsQuiet p cs := by
  rw [isQuiet_block_iff]
  intro d hd hstands
  obtain ⟨c, d, rfl⟩ := List.exists_cons_of_ne_nil
    (CommentLexeme.delimiter (r := []) (Enclosure.block.delimiters_subset p d hd)).ne_nil
  have hbreak := isBreak_of_mem_delimiters hd c (by simp)
  rw [h.isBreak.2 c (hstands.subset (by simp))] at hbreak
  cases hbreak

/-! ### The body of a comment -/

/-- Quiet text, and html comments that close. -/
inductive BodyText (p : Profile) : List Char → Prop
  | quiet {w : List Char} (hw : Enclosure.block.IsQuiet p w) : BodyText p w
  | html {w inner rest : List Char} (hp : p.htmlComments = true)
      (hw : Enclosure.block.IsQuiet p w) (hseen : takesHyphen inner = false)
      (hinner : Enclosure.html.IsQuiet p inner) (hrest : BodyText p rest) :
      BodyText p (w ++ (htmlOpener.lexeme ++ (inner ++ (htmlCloser.lexeme ++ rest))))

theorem BodyText.nil (p : Profile) : BodyText p [] := .quiet (isQuiet_nil p)

theorem BodyText.append {p : Profile} {u v : List Char} (hu : BodyText p u) (hv : BodyText p v)
    (h : ¬Welds p u v) : BodyText p (u ++ v) := by
  induction hu with
  | quiet hw =>
    cases hv with
    | quiet hw' => exact .quiet (isQuiet_append hw hw' h)
    | html hp hw' hseen hinner hrest =>
      rw [← List.append_assoc]
      refine .html hp (isQuiet_append hw hw' ?_) hseen hinner hrest
      intro hwelds
      exact h (hwelds.mono List.suffix_rfl (List.prefix_append _ _))
  | @html w inner rest hp hw hseen hinner hrest ih =>
    have htail : BodyText p (rest ++ v) := by
      apply ih
      intro hwelds
      refine h (hwelds.mono ?_ List.prefix_rfl)
      exact ⟨w ++ (htmlOpener.lexeme ++ (inner ++ htmlCloser.lexeme)), by simp⟩
    have hall := BodyText.html hp hw hseen hinner htail
    simpa only [List.append_assoc] using hall

/-- **Such a text is read up to the `*/` behind it.** -/
theorem BodyText.scan {p : Profile} {w : List Char} (h : BodyText p w) (due : Bool)
    (r : List Char) :
    ∃ ps, FeatureCut.scan p (.comment .block due) (w ++ '*' :: '/' :: r) =
        ps ++ blockCloser :: FeatureCut.scan p (.code false) r ∧
      ∀ q ∈ ps, q.kind ≠ .blockClose := by
  induction h generalizing due with
  | quiet hw =>
    obtain ⟨ps, due', hscan, -, hps⟩ :=
      scan_inner Enclosure.noConfusion hw (.mark (c := '*') (r := '/' :: r) rfl) due
    rw [scan_blockClose] at hscan
    exact ⟨ps, hscan, fun q hq => (hps q hq).kind_ne_blockClose⟩
  | @html w inner rest hp hw hseen hinner hrest ih =>
    obtain ⟨rs, hafter, hrs⟩ := ih false
    have hclose : FirstClose p (inner ++ (htmlCloser.lexeme ++ (rest ++ '*' :: '/' :: r))) inner
        (rest ++ '*' :: '/' :: r) := ⟨rfl, hseen, hinner⟩
    obtain ⟨qs, hhtml, -, hqs⟩ := hclose.scan false
    obtain ⟨ps, due', hscan, -, hps⟩ := scan_inner Enclosure.noConfusion hw (.mark (c := '<')
      (r := '!' :: '-' :: '-' :: (inner ++ (htmlCloser.lexeme ++ (rest ++ '*' :: '/' :: r)))) rfl)
      due
    have hopen := scan_htmlOpen hp due' (inner ++ (htmlCloser.lexeme ++ (rest ++ '*' :: '/' :: r)))
    rw [hhtml, hafter] at hopen
    refine ⟨ps ++ htmlOpener :: (qs ++ htmlCloser :: rs), ?_, ?_⟩
    · simp only [List.append_assoc, List.cons_append]
      exact hscan.trans (congrArg (ps ++ ·) hopen)
    · intro q hq
      rcases List.mem_append.1 hq with hq | hq
      · exact (hps q hq).kind_ne_blockClose
      rcases List.mem_cons.1 hq with rfl | hq
      · exact Kind.noConfusion
      rcases List.mem_append.1 hq with hq | hq
      · exact (hqs q hq).kind_ne_blockClose
      rcases List.mem_cons.1 hq with rfl | hq
      · exact Kind.noConfusion
      · exact hrs q hq

/-! ### The tokens of a body -/

/-- The tokens of the body of a comment: text that is quiet, breaks, and html comments,
    each of which is such a body of its own. -/
inductive IsBodyTokens (p : Profile) : List Token → Prop
  | nil : IsBodyTokens p []
  | token {t : Token} {ts : List Token} (hopen : t.kind ≠ .htmlOpen)
      (hquiet : Enclosure.block.IsQuiet p t.lexeme) (heol : t.kind = .eol → IsLineBreak t.lexeme)
      (hts : IsBodyTokens p ts) : IsBodyTokens p (t :: ts)
  | html {t c : Token} {inner ts : List Token} (ht : t.kind = .htmlOpen)
      (hinner : ∀ u ∈ inner, u.kind ≠ .htmlClose) (hc : c.kind = .htmlClose)
      (htext : BodyText p (t.lexeme ++ textOf inner ++ c.lexeme)) (hts : IsBodyTokens p ts) :
      IsBodyTokens p (t :: (inner ++ c :: ts))

section

variable {p : Profile}

theorem IsBodyTokens.tail {t : Token} {ts : List Token} (h : IsBodyTokens p (t :: ts))
    (ht : t.kind ≠ .htmlOpen) :
    Enclosure.block.IsQuiet p t.lexeme ∧ (t.kind = .eol → IsLineBreak t.lexeme) ∧
      IsBodyTokens p ts := by
  cases h with
  | token hopen hquiet heol hts => exact ⟨hquiet, heol, hts⟩
  | html hopen => exact absurd hopen ht

theorem IsBodyTokens.cut {t : Token} {r : List Token} (h : IsBodyTokens p (t :: r))
    (ht : t.kind = .htmlOpen) :
    ∃ cut, cutAt .htmlClose r = some cut ∧
      BodyText p (t.lexeme ++ textOf cut.inner ++ cut.mark.lexeme) ∧ IsBodyTokens p cut.rest := by
  cases h with
  | token hopen => exact absurd ht hopen
  | html _ hinner hc htext hts => exact ⟨_, cutAt_append_cons hinner hc _, htext, hts⟩

theorem IsBodyTokens.comment {role : Role} {l r : List Token} (h : IsBodyTokens p (l ++ r))
    (hl : Layer.html.IsComment role l) : IsBodyTokens p r := by
  cases hl with
  | @mk t mark c inner ht hinner hmark hrole =>
    obtain ⟨hopen, rfl⟩ : t.kind = .htmlOpen ∧ c = .html := by
      revert ht
      cases t.kind <;> intro ht <;> cases ht
      exact ⟨rfl, rfl⟩
    rw [List.cons_append, List.append_assoc, List.singleton_append] at h
    obtain ⟨cut, hcut, -, hrest⟩ := h.cut hopen
    have hsame : cutAt .htmlClose (inner ++ mark :: r) = some ⟨inner, mark, r⟩ :=
      cutAt_append_cons hinner hmark r
    obtain rfl := Option.some.inj (hcut.symm.trans hsame)
    exact hrest

theorem IsBodyTokens.passes {n m : Nat} {l r : List Token} (h : IsBodyTokens p (l ++ r))
    (hl : Layer.html.Passes n l m) : IsBodyTokens p r := by
  induction hl with
  | nil => exact h
  | token ht _ ih =>
    refine ih (h.tail ?_).2.2
    intro hopen
    rw [hopen] at ht
    cases ht
  | comment hcomment _ _ ih =>
    rw [List.append_assoc] at h
    exact ih (h.comment hcomment)

/-! ### Reading a body -/

theorem isQuiet_of_coalesce {e : Enclosure} (he : e ≠ .line) {cs : List Char} {due : Bool}
    {as bs : List Piece} {q : Piece} {context : Context}
    (h : coalesce (scan p (.comment e due) cs) = as ++ q :: bs) (hq : q.kind ≠ .text)
    (has : ∀ r ∈ as, IsInner context r) : e.IsQuiet p (lexemes as) := by
  obtain ⟨ps, qs, hscan, rfl, -⟩ := coalesce_split h hq
  rw [lexemes_coalesce]
  apply isQuiet_of_scan he hscan
  intro r hr
  obtain ⟨s, hs, hkind⟩ := exists_mem_coalesce hr
  exact ⟨r.context, hkind ▸ (has s hs).kind, rfl⟩

/-- A list is split in one way at the first element with a property. -/
theorem append_cons_inj_of_not {α : Type} {P : α → Prop} {as bs as' bs' : List α} {a a' : α}
    (has : ∀ x ∈ as, ¬P x) (ha : P a) (has' : ∀ x ∈ as', ¬P x) (ha' : P a')
    (h : as ++ a :: bs = as' ++ a' :: bs') : as = as' ∧ a = a' ∧ bs = bs' := by
  induction as generalizing as' with
  | nil =>
    cases as' with
    | nil => simpa using h
    | cons b as' =>
      obtain ⟨rfl, -⟩ := List.cons.inj h
      exact absurd ha (has' a (by simp))
  | cons b as ih =>
    cases as' with
    | nil =>
      obtain ⟨rfl, -⟩ := List.cons.inj h
      exact absurd ha' (has b (by simp))
    | cons b' as' =>
      obtain ⟨rfl, htail⟩ := List.cons.inj h
      obtain ⟨rfl, rest⟩ :=
        ih (fun x hx => has x (by simp [hx])) (fun x hx => has' x (by simp [hx])) htail
      exact ⟨rfl, rest⟩

/-- The text of an html comment is what stands before the first place to close. -/
theorem firstClose_of_coalesce {x : List Char} {inner rest : List Piece}
    (h : coalesce (scan p (.comment .html false) x) = inner ++ htmlCloser :: rest)
    (hinner : ∀ q ∈ inner, IsInner .html q) :
    ∃ post, FirstClose p x (lexemes inner) post ∧
      rest = coalesce (scan p (.comment .block false) post) := by
  rcases exists_firstClose_or_quiet p x with ⟨pre, post, hfirst⟩ | hquiet
  · obtain ⟨ps, hscan, rfl, hps⟩ := hfirst.scan false
    rw [hscan, coalesce_append_cons ps Kind.noConfusion] at h
    have hnone : ∀ q ∈ coalesce ps, ¬q.kind = .htmlClose :=
      kind_ne_htmlClose_of_coalesce fun q hq => (hps q hq).kind_ne_htmlClose
    obtain ⟨rfl, -, rfl⟩ := append_cons_inj_of_not (P := fun q => q.kind = .htmlClose) hnone rfl
      (fun q hq => (hinner q hq).kind_ne_htmlClose) rfl h
    rw [lexemes_coalesce]
    exact ⟨post, hfirst, rfl⟩
  · obtain ⟨ps, hscan, hps⟩ := scan_html_of_quiet hquiet false
    have hnone : ∀ q ∈ coalesce (ps ++ [⟨.eof, [], .html⟩]), q.kind ≠ .htmlClose := by
      apply kind_ne_htmlClose_of_coalesce
      intro q hq
      rcases List.mem_append.1 hq with hq | hq
      · exact (hps q hq).kind_ne_htmlClose
      · rw [List.mem_singleton.1 hq]
        exact Kind.noConfusion
    rw [← hscan, h] at hnone
    exact absurd rfl (hnone htmlCloser (by simp))

theorem Mode.move_htmlOpen (hp : p.htmlComments = false) (m : Mode) (c : Char) (r : List Char) :
    ∀ q ∈ (m.move p c r).pieces, q.kind ≠ .htmlOpen := by
  cases m with
  | code fresh =>
    intro q hq
    rcases codeMove_kind q hq with h | h | h | h <;> simp [h]
  | comment e due =>
    simp only [Mode.move, commentMove]
    split
    · unfold commentBreakMove
      split <;> simp
    split
    · unfold atomMove
      dsimp only
      split <;> simp [Move.text]
    split
    · simp [Move.text]
    split
    · fun_cases delimiterMove p e c r <;> simp_all [Move.text]
    split <;> simp [Move.text]

/-- Html comments are read only where there are any. -/
theorem htmlComments_of_scan {m : Mode} {cs : List Char} {q : Piece} (hq : q ∈ scan p m cs)
    (hkind : q.kind = .htmlOpen) : p.htmlComments = true := by
  by_contra hp
  have hp : p.htmlComments = false := by simpa using hp
  fun_induction scan p m cs with
  | case1 m =>
    have hnone := m.finish_mode? q hq
    rw [hkind] at hnone
    cases hnone
  | case2 m c r ih =>
    rcases List.mem_append.1 hq with hq | hq
    · exact m.move_htmlOpen hp c r q hq hkind
    · exact ih hq

/-- **What has been read as a body is a body piece by piece.**  `run` is what stands before
    it since the last html comment. -/
theorem isBodyTokens_of_scan {l : List Piece} (hl : IsBody l) {x : List Char} {due : Bool}
    {run rest : List Piece} {q : Piece} (hrun : ∀ r ∈ run, IsInner .comment r)
    (h : coalesce (scan p (.comment .block due) x) = run ++ (l ++ q :: rest))
    (hq : q.kind ≠ .text) (hspelled : ∀ r ∈ l, r.Spelled) :
    IsBodyTokens p (l.map Piece.bare) ∧ Enclosure.block.IsQuiet p (lexemes run) := by
  induction hl generalizing x due run with
  | nil => exact ⟨.nil, isQuiet_of_coalesce Enclosure.noConfusion h hq hrun⟩
  | @inner s qs hs _ ih =>
    obtain ⟨hspell, hspells⟩ := List.forall_mem_cons.1 hspelled
    have hlonger : ∀ r ∈ run ++ [s], IsInner .comment r := by
      intro r hr
      rcases List.mem_append.1 hr with hr | hr
      · exact hrun r hr
      · rw [List.mem_singleton.1 hr]
        exact hs
    have hshift : run ++ (s :: qs ++ q :: rest) = (run ++ [s]) ++ (qs ++ q :: rest) := by simp
    rw [hshift] at h
    obtain ⟨htokens, hquiet⟩ := ih hlonger h hspells
    have hopen : s.kind ≠ .htmlOpen := by
      rcases hs.kind with hk | hk | hk | ⟨a, hk⟩ <;> simp [hk]
    rw [lexemes_append] at hquiet
    refine ⟨.token hopen (isQuiet_of_isInfix ?_ hquiet) hspell.eol htokens,
      isQuiet_of_isInfix (List.prefix_append _ _).isInfix hquiet⟩
    exact ⟨lexemes run, [], by simp [Piece.bare]⟩
  | @html inner qs hinner _ ih =>
    have hspells : ∀ r ∈ qs, r.Spelled := fun r hr => hspelled r (by simp [hr])
    simp only [List.cons_append, List.append_assoc] at h
    refine ⟨?_, isQuiet_of_coalesce Enclosure.noConfusion h Kind.noConfusion hrun⟩
    obtain ⟨as, bs, hscan, -, hbs⟩ := coalesce_split h Kind.noConfusion
    obtain ⟨y, -, rfl⟩ := scan_split hscan rfl
    have hp : p.htmlComments = true := htmlComments_of_scan (q := htmlOpener)
      (by rw [hscan]; simp) rfl
    obtain ⟨post, hfirst, hrest⟩ := firstClose_of_coalesce hbs hinner
    have hnone : ∀ r ∈ ([] : List Piece), IsInner .comment r := by simp
    obtain ⟨htokens, -⟩ := ih hnone hrest.symm hspells
    have htext : BodyText p (htmlOpener.lexeme ++ lexemes inner ++ htmlCloser.lexeme) := by
      have hall := BodyText.html hp (isQuiet_nil p) hfirst.seen hfirst.quiet (.nil p)
      simpa using hall
    rw [← textOf_map_bare] at htext
    have hkinds : ∀ u ∈ inner.map Piece.bare, u.kind ≠ .htmlClose := by
      intro u hu
      obtain ⟨r, hr, rfl⟩ := List.mem_map.1 hu
      exact (hinner r hr).kind_ne_htmlClose
    have hbody := IsBodyTokens.html (t := htmlOpener.bare) (c := htmlCloser.bare) rfl hkinds rfl
      htext htokens
    simpa using hbody

end

end FeatureCut
