/-
  FeatureCut/Proofs/LineComment.lean
  ==================================
  **Comments to the end of the line.**

  A `#` or `--` marks a line comment if it is the first thing on a line of code.  The
  scanner keeps a flag for that, and looks no further back.  What the flag stands for is a
  fact about the source: the text before the marker is a text that ends in a line break at
  the level of code, or nothing at all, and then spaces and tabs (`LineMarker.Marks`).

  The rest of the line is scanned as a comment if it starts with a directive word.
  `tokenize_lineComment` says that opening tokens with a marker stand at these places and
  nowhere else, that such a comment takes the whole rest of its line and closes there, and
  that without a directive word the line is one piece of text, whatever is on it.

  Inside a comment only its delimiters tell the enclosures apart.  So the pieces of a text
  without line breaks are the same in a line comment and in a block comment in which it is
  quiet (`scan_unbroken`).
-/
import FeatureCut.Proofs.CommentText
import FeatureCut.Proofs.Lines

namespace FeatureCut

/-! ### Moves that do not look behind a text -/

/-- Whatever lexeme stands before this text, it ends there. -/
def StopsLexeme (s : List Char) : Prop := ∀ c ∈ s.head?, startsAlways c = true ∨ isBreak c = true

theorem StopsLexeme.endsKey {s : List Char} (hs : StopsLexeme s) : EndsKey s := by
  intro c hc
  rcases hs c hc with hstarts | hbreak
  · exact isBoundary_of_startsAlways hstarts
  · exact isBoundary_of_isBreak hbreak

theorem StopsLexeme.endsWord {s : List Char} (hs : StopsLexeme s) : EndsWord s := by
  intro c hc
  rcases hs c hc with hstarts | hbreak
  · refine ⟨?_, ?_⟩
    · by_contra halpha
      rw [startsAlways_of_isAlpha (Or.inl (by simpa using halpha))] at hstarts
      cases hstarts
    · rintro rfl
      cases hstarts
  · refine ⟨?_, ?_⟩
    · by_contra halpha
      rw [isBreak_of_isAlpha (by simpa using halpha)] at hbreak
      cases hbreak
    · rintro rfl
      cases hbreak

theorem StopsLexeme.starts {s w : List Char} (hs : StopsLexeme s)
    (hw : ∀ c ∈ w, isBreak c = false) : StartsLexeme w s := by
  cases s with
  | nil => exact .nil
  | cons c r =>
    rcases hs c rfl with hstarts | hbreak
    · exact .mark hstarts
    · exact .eol hbreak fun b hb => hw b (List.mem_of_getLast? hb)

/-- No delimiter is put together from the end of a text and what follows it. -/
theorem StopsLexeme.eq_append {s : List Char} (hs : StopsLexeme s) {r d t : List Char}
    (hd : ∀ c ∈ d, startsAlways c = false ∧ isBreak c = false) (h : r ++ s = d ++ t) :
    ∃ t', r = d ++ t' := by
  rcases List.append_eq_append_iff.1 h with ⟨a, rfl, hsplit⟩ | ⟨a, hr, -⟩
  · cases a with
    | nil => exact ⟨[], by simp⟩
    | cons c a =>
      obtain ⟨hstarts, hbreak⟩ := hd c (by simp)
      rcases hs c (by simp [hsplit]) with h | h
      · rw [hstarts] at h
        cases h
      · rw [hbreak] at h
        cases h
  · exact ⟨a, hr⟩

section

variable {s : List Char} (hs : StopsLexeme s) (p : Profile) (e : Enclosure)
include hs

theorem atomMove_extend_of_stops (r : List Char) :
    atomMove e (r ++ s) = (atomMove e r).extend s := by
  unfold atomMove
  rw [atomTail_append_of_endsWord r hs.endsWord]
  dsimp only
  split <;> rfl

theorem delimiterMove_extend_of_stops (c : Char) (r : List Char) :
    delimiterMove p e c (r ++ s) = (delimiterMove p e c r).extend s := by
  have hchars : ∀ d ∈ [['/'], ['!', '-', '-'], ['-', '>']],
      ∀ c ∈ d, startsAlways c = false ∧ isBreak c = false := by simp [startsAlways, isBreak]
  exact delimiterMove_append (fun d hd t heq => hs.eq_append (hchars d hd) heq) p e c

theorem commentMove_extend_of_stops (due : Bool) {c : Char} (hc : isBreak c = false)
    (r : List Char) : commentMove p e due c (r ++ s) = (commentMove p e due c r).extend s := by
  unfold commentMove
  simp only [hc, Bool.false_eq_true, if_false, hs.endsKey.takeWhile_append,
    hs.endsKey.dropWhile_append]
  split
  · exact atomMove_extend_of_stops hs e r
  split
  · rfl
  split
  · exact delimiterMove_extend_of_stops hs p e c r
  split <;> rfl

end

/-! ### Text that enclosures read alike -/

theorem delimiterMove_of_line {p : Profile} {e : Enclosure} {c : Char} {r : List Char}
    (hnext : ∀ d ∈ e.delimiters p, ¬d <+: c :: r) :
    ∃ cs r', delimiterMove p .line c r = .text .comment cs r' (.comment .line false) ∧
      delimiterMove p e c r = .text e.context cs r' (.comment e false) := by
  fun_cases delimiterMove p e c r with
  | case1 t he =>
    subst he
    exact absurd ⟨t, rfl⟩ (hnext blockCloser.lexeme (by simp [Enclosure.delimiters]))
  | case2 t he => exact ⟨['*', '/'], t, rfl, rfl⟩
  | case3 t he =>
    obtain ⟨rfl, hp⟩ : e = .block ∧ p.htmlComments = true := by simpa using he
    exact absurd ⟨t, rfl⟩ (hnext htmlOpener.lexeme (by simp [Enclosure.delimiters, hp]))
  | case4 t he => exact ⟨['<', '!', '-', '-'], t, rfl, rfl⟩
  | case5 t he =>
    subst he
    exact absurd ⟨t, rfl⟩ (hnext htmlCloser.lexeme (by simp [Enclosure.delimiters]))
  | case6 t he => exact ⟨['-', '-', '>'], t, rfl, rfl⟩
  | case7 =>
    refine ⟨[c], r, ?_, rfl⟩
    fun_cases delimiterMove p .line c r with
    | case7 => rfl
    | _ => simp_all

/-- Where no delimiter of an enclosure is next, a move in it is the one in a line comment. -/
theorem commentMove_of_line {p : Profile} {e : Enclosure} (he : e.context = .comment)
    {due due' : Bool} {c : Char} (hc : isBreak c = false) {r r' : List Char} {q : Piece}
    (hnext : ∀ d ∈ e.delimiters p, ¬d <+: c :: r)
    (h : commentMove p .line due c r = ⟨[q], r', .comment .line due'⟩) :
    commentMove p e due c r = ⟨[q], r', .comment e due'⟩ := by
  unfold commentMove at h ⊢
  rw [hc, if_neg Bool.false_ne_true] at h ⊢
  split
  · rename_i hat
    rw [if_pos hat] at h
    unfold atomMove at h ⊢
    dsimp only at h ⊢
    split at h <;> cases h <;> rw [he] <;> rfl
  rename_i hat
  rw [if_neg hat] at h
  split
  · rename_i hindent
    rw [if_pos hindent] at h
    cases h
    rw [he]
    rfl
  rename_i hindent
  rw [if_neg hindent] at h
  split
  · rename_i hboundary
    rw [if_pos hboundary] at h
    obtain ⟨cs, x, hline, henclosed⟩ := delimiterMove_of_line hnext
    rw [hline] at h
    cases h
    rw [henclosed, he]
    rfl
  rename_i hboundary
  rw [if_neg hboundary] at h
  split
  · rename_i hdue
    rw [if_pos hdue] at h
    cases h
    rw [he]
    rfl
  · rename_i hdue
    rw [if_neg hdue] at h
    cases h
    rw [he]
    rfl

/-- **A text without line breaks is cut into the same pieces in every enclosure** that
    finds none of its delimiters there, whatever ends the comment. -/
theorem scan_unbroken (p : Profile) {w : List Char} (hw : ∀ c ∈ w, isBreak c = false)
    (due : Bool) :
    ∃ ps due', lexemes ps = w ∧ (∀ q ∈ ps, IsInner .comment q ∧ q.kind ≠ .eol) ∧
      ∀ e : Enclosure, e.context = .comment → e.IsQuiet p w → ∀ s, StopsLexeme s →
        scan p (.comment e due) (w ++ s) = ps ++ scan p (.comment e due') s := by
  induction hn : w.length using Nat.strongRecOn generalizing w due with
  | ind n ih =>
    subst hn
    cases w with
    | nil => exact ⟨[], due, rfl, by simp, fun e he hquiet s hs => rfl⟩
    | cons c t =>
      obtain ⟨hc, ht⟩ := List.forall_mem_cons.1 hw
      have hnone : ∀ d ∈ Enclosure.line.delimiters p, ¬d <+: c :: t := by
        intro d hd
        cases hd
      obtain ⟨q, r, due', hmove, hq, hlexeme⟩ := commentMove_inner (fun _ => hc) due hnone
      have hread := commentMove_lossless p .line due c t
      have hkind : q.kind ≠ .eol := by
        have hmem : q ∈ (commentMove p .line due c t).pieces := by simp [hmove]
        exact (commentMove_kind hc t q hmem).1
      rw [hmove] at hread
      simp only [lexemes_cons, lexemes_nil, List.append_nil] at hread
      have hlen : r.length < (c :: t).length := by
        have hpos := List.length_pos_iff.2 hlexeme.ne_nil
        rw [← hread, List.length_append]
        omega
      have hr : ∀ d ∈ r, isBreak d = false := by
        intro d hd
        apply hw
        rw [← hread]
        exact List.mem_append_right _ hd
      obtain ⟨ps, due'', hlexemes, hps, hscan⟩ := ih r.length hlen hr due' rfl
      refine ⟨q :: ps, due'', by rw [lexemes_cons, hlexemes, hread],
        List.forall_mem_cons.2 ⟨⟨hq, hkind⟩, hps⟩, ?_⟩
      intro e he hquiet s hs
      have hnext : ∀ d ∈ e.delimiters p, ¬d <+: c :: (t ++ s) :=
        hquiet.not_prefix (hs.starts hw) (by simp)
      have hstep : Mode.move p (.comment e due) c (t ++ s) = ⟨[q], r ++ s, .comment e due'⟩ := by
        apply commentMove_of_line he hc hnext
        rw [commentMove_extend_of_stops hs p .line due hc t, hmove]
        rfl
      have hquiet' : e.IsQuiet p r := by
        rw [← hread] at hquiet
        exact hquiet.of_lexeme (s := []) (by rwa [List.append_nil])
      rw [List.cons_append, scan, hstep]
      simp only [List.cons_append, List.nil_append, hscan e he hquiet' s hs]

/-! ### Ends of lines -/

/-- A text that starts with a line break, or is empty. -/
def AtLineEnd (s : List Char) : Prop := ∀ c ∈ s.head?, isBreak c = true

theorem atLineEnd_fromBreak (cs : List Char) : AtLineEnd (fromBreak cs) := head?_fromBreak cs

/-- What follows starts with the end of a line or of the source. -/
def LineEnds (us : List Piece) : Prop :=
  ∃ u rest, us = u :: rest ∧ (u.kind = .eol ∨ u.kind = .eof)

/-- No text is joined over the end of a line. -/
theorem LineEnds.coalesce_append {us : List Piece} (h : LineEnds us) (ps : List Piece) :
    FeatureCut.coalesce (ps ++ us) = FeatureCut.coalesce ps ++ FeatureCut.coalesce us ∧
      LineEnds (FeatureCut.coalesce us) := by
  obtain ⟨u, rest, rfl, hkind⟩ := h
  have htext : u.kind ≠ .text := by
    rcases hkind with hkind | hkind <;> simp [hkind]
  rw [coalesce_append_cons ps htext, coalesce_cons_of_ne htext]
  exact ⟨rfl, u, _, rfl, hkind⟩

theorem scan_atLineEnd (p : Profile) (fresh : Bool) {s : List Char} (hs : AtLineEnd s) :
    LineEnds (scan p (.code fresh) s) := by
  cases s with
  | nil =>
    rw [scan]
    exact ⟨_, _, rfl, Or.inr rfl⟩
  | cons c r =>
    have hc : isBreak c = true := hs c rfl
    have hmove : Mode.move p (.code fresh) c r =
        ⟨[⟨.eol, (breakFrom c r).1, .code⟩], (breakFrom c r).2, .code true⟩ := by
      simp [Mode.move, codeMove, hc]
    rw [scan, hmove]
    exact ⟨_, _, rfl, Or.inl rfl⟩

/-- A line comment closes where its line ends. -/
theorem scan_lineClose (p : Profile) (due : Bool) {s : List Char} (hs : AtLineEnd s) :
    scan p (.comment .line due) s = lineCloser :: scan p (.code false) s := by
  cases s with
  | nil =>
    rw [scan, scan]
    rfl
  | cons c r =>
    have hc : isBreak c = true := hs c rfl
    have hmove : Mode.move p (.comment .line due) c r =
        ⟨[lineCloser, ⟨.eol, (breakFrom c r).1, .code⟩], (breakFrom c r).2, .code true⟩ := by
      simp [Mode.move, commentMove, hc, commentBreakMove, lineCloser]
    have hmove' : Mode.move p (.code false) c r =
        ⟨[⟨.eol, (breakFrom c r).1, .code⟩], (breakFrom c r).2, .code true⟩ := by
      simp [Mode.move, codeMove, hc]
    rw [scan, scan, hmove, hmove']
    rfl

/-- A line comment is read over the rest of its line, and closes there. -/
theorem scan_lineComment (p : Profile) (due : Bool) (cs : List Char) :
    ∃ ps us, scan p (.comment .line due) cs = ps ++ lineCloser :: us ∧
      lexemes ps = firstLine cs ∧ (∀ q ∈ ps, IsInner .comment q ∧ q.kind ≠ .eol) ∧
      LineEnds us := by
  have hends : AtLineEnd (fromBreak cs) := atLineEnd_fromBreak cs
  have hline : ∀ c ∈ firstLine cs, isBreak c = false := mem_firstLine
  obtain ⟨ps, due', hlexemes, hps, hscan⟩ := scan_unbroken p hline due
  have hquiet : Enclosure.line.IsQuiet p (firstLine cs) := by
    intro d hd
    cases hd
  refine ⟨ps, scan p (.code false) (fromBreak cs), ?_, hlexemes, hps,
    scan_atLineEnd p false hends⟩
  rw [← scan_lineClose p due' hends, ← hscan .line rfl hquiet _ fun c hc => Or.inr (hends c hc),
    firstLine_append_fromBreak]

/-! ### Markers -/

/-- What marks a line comment. -/
inductive LineMarker where
  | hash
  | hyphens
deriving DecidableEq, Repr

def LineMarker.lexeme : LineMarker → List Char
  | .hash => ['#']
  | .hyphens => ['-', '-']

def LineMarker.isKnown (p : Profile) : LineMarker → Bool
  | .hash => p.hashComments
  | .hyphens => p.doubleHyphenComments

/-- A known marker on a fresh line is read as one. -/
theorem scan_marker {p : Profile} {k : LineMarker} (hk : k.isKnown p = true) (x : List Char) :
    scan p (.code true) (k.lexeme ++ x) = (lineMove k.lexeme x).pieces ++
      scan p (lineMove k.lexeme x).mode (lineMove k.lexeme x).rest := by
  cases k with
  | hash =>
    have hp : p.hashComments = true := hk
    have hmove : Mode.move p (.code true) '#' x = lineMove ['#'] x := by
      simp [Mode.move, codeMove, isBreak, hp]
    have hlexeme : LineMarker.hash.lexeme ++ x = '#' :: x := rfl
    rw [hlexeme, scan, hmove]
    rfl
  | hyphens =>
    have hp : p.doubleHyphenComments = true := hk
    have hmove : Mode.move p (.code true) '-' ('-' :: x) = lineMove ['-', '-'] x := by
      simp [Mode.move, codeMove, isBreak, hp]
    have hlexeme : LineMarker.hyphens.lexeme ++ x = '-' :: '-' :: x := rfl
    rw [hlexeme, scan, hmove]
    rfl

def LineMarker.opener (k : LineMarker) : Piece := ⟨.blockOpen, k.lexeme, .code⟩

theorem scan_marker_directive {p : Profile} {k : LineMarker} (hk : k.isKnown p = true)
    {x : List Char} (hx : OpensDirective x) :
    scan p (.code true) (k.lexeme ++ x) = k.opener :: scan p (.comment .line false) x := by
  rw [scan_marker hk, lineMove, if_pos (startsWithAtom_iff.2 hx)]
  rfl

theorem scan_marker_text {p : Profile} {k : LineMarker} (hk : k.isKnown p = true)
    {x : List Char} (hx : ¬OpensDirective x) :
    ∃ us, scan p (.code true) (k.lexeme ++ x) = ⟨.text, k.lexeme ++ firstLine x, .code⟩ :: us ∧
      LineEnds us := by
  refine ⟨_, ?_, scan_atLineEnd p false (atLineEnd_fromBreak x)⟩
  rw [scan_marker hk, lineMove, if_neg (mt startsWithAtom_iff.1 hx)]
  rfl

/-! ### Starts of lines -/

/-- A line of code starts behind a text: it is empty, or ends in a line break that stands
    neither in a literal nor in a delimited comment. -/
def StartsLine (p : Profile) (l : List Char) : Prop := l = [] ∨ endsLine p (.code true) l = true

theorem scan_startsLine {p : Profile} {l : List Char} (h : StartsLine p l) :
    ∃ as, lexemes as = l ∧ (∀ e ∈ as.getLast?, e.kind ≠ .text) ∧
      ∀ y : List Char, (∀ c ∈ y.head?, isBreak c = false) →
        scan p (.code true) (l ++ y) = as ++ scan p (.code true) y := by
  rcases h with rfl | hend
  · exact ⟨[], rfl, by simp, fun y hy => rfl⟩
  · obtain ⟨ps, e, he, hscan⟩ := scan_seam hend
    have hread := congrArg lexemes (hscan [] (by simp))
    simp only [lexemes_scan, lexemes_append, lexemes_cons, List.append_nil] at hread
    refine ⟨ps ++ [e], by simpa using hread.symm, by simp [he], ?_⟩
    intro y hy
    rw [hscan y hy, List.append_assoc, List.singleton_append]

/-- Text is not joined over a piece that is none. -/
theorem coalesce_append_of_last {as : List Piece} (h : ∀ e ∈ as.getLast?, e.kind ≠ .text)
    (bs : List Piece) : coalesce (as ++ bs) = coalesce as ++ coalesce bs := by
  rcases List.eq_nil_or_concat' as with rfl | ⟨ps, e, rfl⟩
  · rfl
  · have he : e.kind ≠ .text := h e (by simp)
    rw [List.append_assoc, List.singleton_append, coalesce_append_cons ps he,
      coalesce_append_cons ps he, List.append_assoc]
    rfl

theorem scan_indent (p : Profile) {i : List Char} (hi : ∀ c ∈ i, isIndent c = true)
    (y : List Char) :
    ∃ ps, scan p (.code true) (i ++ y) = ps ++ scan p (.code true) y ∧ lexemes ps = i ∧
      ∀ q ∈ ps, q.kind = .text ∧ q.context = .code := by
  induction i with
  | nil => exact ⟨[], rfl, rfl, by simp⟩
  | cons c i ih =>
    obtain ⟨hc, hrest⟩ := List.forall_mem_cons.1 hi
    obtain ⟨ps, hscan, hlexemes, hps⟩ := ih hrest
    have hmove : Mode.move p (.code true) c (i ++ y) = .text .code [c] (i ++ y) (.code true) := by
      rcases isIndent_iff.1 hc with rfl | rfl <;> simp [Mode.move, codeMove, isBreak, isIndent]
    refine ⟨⟨.text, [c], .code⟩ :: ps, ?_, by simp [hlexemes], ?_⟩
    · rw [List.cons_append, scan, hmove]
      simp only [Move.text, hscan, List.cons_append, List.nil_append]
    · exact List.forall_mem_cons.2 ⟨⟨rfl, rfl⟩, hps⟩

/-- Where the line is fresh: since the last line break at the level of code, or since the
    start if the line was fresh there, only spaces and tabs have been read. -/
def FreshBehind (p : Profile) (m : Mode) (w : List Char) : Prop :=
  (m = .code true ∧ ∀ c ∈ w, isIndent c = true) ∨
    ∃ l i, w = l ++ i ∧ endsLine p m l = true ∧ ∀ c ∈ i, isIndent c = true

theorem freshBehind_start {p : Profile} {w : List Char} (h : FreshBehind p (.code true) w) :
    ∃ l i, w = l ++ i ∧ StartsLine p l ∧ ∀ c ∈ i, isIndent c = true := by
  rcases h with ⟨-, hw⟩ | ⟨l, i, rfl, hl, hi⟩
  · exact ⟨[], w, rfl, Or.inl rfl, hw⟩
  · exact ⟨l, i, rfl, Or.inr hl, hi⟩

theorem lineMove_mode (marker r : List Char) : (lineMove marker r).mode ≠ .code true := by
  unfold lineMove
  split <;> simp [Move.text]

theorem codeMove_fresh {p : Profile} {fresh : Bool} {c : Char} {r : List Char}
    (h : (codeMove p fresh c r).mode = .code true) :
    isBreak c = true ∨
      fresh = true ∧ isIndent c = true ∧ lexemes (codeMove p fresh c r).pieces = [c] := by
  unfold codeMove at h ⊢
  split at h
  · rename_i hbreak
    exact Or.inl hbreak
  rename_i hbreak
  split at h
  · unfold slashMove at h
    split at h <;> cases h
  rename_i hslash
  split at h
  · cases h
  rename_i hquote
  split at h
  · exact absurd h (lineMove_mode _ _)
  rename_i hhash
  split at h
  · exact absurd h (lineMove_mode _ _)
  rename_i hyphens
  obtain ⟨rfl, hindent⟩ : fresh = true ∧ isIndent c = true := by simpa [Move.text] using h
  refine Or.inr ⟨rfl, hindent, ?_⟩
  rw [if_neg hbreak, if_neg hslash, if_neg hquote, if_neg hhash, if_neg hyphens]
  rfl

/-- A comment is left on a fresh line only where a line break closes it. -/
theorem commentMove_fresh {p : Profile} {e : Enclosure} {due : Bool} {c : Char} {r : List Char}
    (h : (commentMove p e due c r).mode = .code true) : e = .line ∧ isBreak c = true := by
  unfold commentMove at h
  split at h
  · rename_i hbreak
    cases e with
    | line => exact ⟨rfl, hbreak⟩
    | block => cases h
    | html => cases h
  split at h
  · unfold atomMove at h
    dsimp only at h
    split at h <;> cases h
  split at h
  · cases h
  split at h
  · unfold delimiterMove at h
    split at h
    · split at h <;> cases h
    · split at h <;> cases h
    · split at h <;> cases h
    · cases h
  split at h <;> cases h

/-- A line is fresh behind a line break and behind spaces and tabs on a fresh line. -/
theorem Mode.move_fresh {p : Profile} {m : Mode} {c : Char} {r : List Char}
    (h : (m.move p c r).mode = .code true) :
    (isBreak c = true ∧ m.endsLines = true) ∨
      m = .code true ∧ isIndent c = true ∧ lexemes (m.move p c r).pieces = [c] := by
  cases m with
  | code fresh =>
    rcases codeMove_fresh h with hbreak | ⟨rfl, hindent, hread⟩
    · exact Or.inl ⟨hbreak, rfl⟩
    · exact Or.inr ⟨rfl, hindent, hread⟩
  | comment e due =>
    obtain ⟨rfl, hbreak⟩ := commentMove_fresh h
    exact Or.inl ⟨hbreak, rfl⟩

/-- A line break at the level of code ends a line. -/
theorem Mode.endsLine_break (p : Profile) {m : Mode} (hm : m.endsLines = true) {c : Char}
    (hc : isBreak c = true) (r : List Char) :
    endsLine p m (lexemes (m.move p c r).pieces) = true := by
  obtain ⟨t, x, hbreak⟩ := exists_breakFrom c r
  have hrest : (breakFrom c t).2 = [] := by
    cases r with
    | nil =>
      cases hbreak
      rfl
    | cons d r =>
      by_cases hpair : isBreakPair c d = true
      · rw [breakFrom, if_pos hpair] at hbreak
        cases hbreak
        simp [breakFrom, hpair]
      · rw [breakFrom, if_neg hpair] at hbreak
        cases hbreak
        rfl
  have hread : lexemes (m.move p c r).pieces = c :: t ∧ (m.move p c t).rest = [] := by
    cases m with
    | code fresh => simp [Mode.move, codeMove, hc, hbreak, hrest]
    | comment e due =>
      cases e with
      | line => simp [Mode.move, commentMove, hc, commentBreakMove, hbreak, hrest]
      | block => cases hm
      | html => cases hm
  rw [hread.1, endsLine, hread.2]
  simp [hm, hc]

/-- What is read before a place where the line is fresh does not matter to it. -/
theorem FreshBehind.move {p : Profile} {m : Mode} {c : Char} {r w y : List Char}
    (h : FreshBehind p (m.move p c r).mode w) (hrest : (m.move p c r).rest = w ++ y) :
    FreshBehind p m (lexemes (m.move p c r).pieces ++ w) := by
  rcases h with ⟨hmode, hw⟩ | ⟨l, i, rfl, hl, hi⟩
  · rcases Mode.move_fresh hmode with ⟨hbreak, hm⟩ | ⟨hm, hindent, hread⟩
    · exact Or.inr ⟨_, w, rfl, m.endsLine_break p hm hbreak r, hw⟩
    · rw [hread]
      exact Or.inl ⟨hm, List.forall_mem_cons.2 ⟨hindent, hw⟩⟩
  · -- the move stops before the line ends, so it is the same without what follows that line
    right
    refine ⟨_, i, (List.append_assoc ..).symm, ?_, hi⟩
    obtain ⟨d, t, ht⟩ := List.exists_cons_of_ne_nil (m.move_ne_nil p c r)
    have hsplit := m.move_lossless p c r
    rw [ht, hrest, List.cons_append] at hsplit
    obtain ⟨rfl, hr⟩ := List.cons.inj hsplit
    have hlong : r = t ++ l ++ (i ++ y) := by
      rw [← hr]
      simp
    obtain ⟨b, hb, hbreak⟩ := hasBreak_of_endsLine hl
    have hbreaks : HasBreak (t ++ l) := ⟨b, List.mem_append_right t hb, hbreak⟩
    have hne : l ≠ [] := List.ne_nil_of_mem hb
    have hmoved : (m.move p d (t ++ l ++ (i ++ y))).rest = l ++ (i ++ y) := by
      rw [← hlong, hrest, List.append_assoc]
    obtain ⟨hleft, hextend⟩ := Mode.move_truncate hbreaks hne hmoved
    have hmode : (m.move p d r).mode = (m.move p d (t ++ l)).mode := by
      rw [hlong, hextend]
      rfl
    rw [ht, List.cons_append, endsLine, hleft, ← hmode, if_neg (by simpa using hne)]
    exact hl

/-! ### Openers and the lines they stand on -/

theorem lineMove_opener {marker r : List Char} {q : Piece} (hq : q ∈ (lineMove marker r).pieces)
    (hkind : q.kind = .blockOpen) :
    q.lexeme = marker ∧ OpensDirective r ∧ lineMove marker r = ⟨[q], r, .comment .line false⟩ := by
  unfold lineMove at hq ⊢
  split at hq
  · rename_i hatom
    obtain rfl := List.mem_singleton.1 hq
    exact ⟨rfl, startsWithAtom_iff.1 hatom, if_pos hatom⟩
  · rw [List.mem_singleton.1 hq] at hkind
    cases hkind

theorem codeMove_opener {p : Profile} {fresh : Bool} {c : Char} {r : List Char} {q : Piece}
    {k : LineMarker} (hq : q ∈ (codeMove p fresh c r).pieces) (hkind : q.kind = .blockOpen)
    (hlexeme : q.lexeme = k.lexeme) :
    fresh = true ∧ k.isKnown p = true ∧
      ∃ x, OpensDirective x ∧ codeMove p fresh c r = ⟨[q], x, .comment .line false⟩ := by
  unfold codeMove at hq ⊢
  split at hq
  · rw [List.mem_singleton.1 hq] at hkind
    cases hkind
  rename_i hbreak
  split at hq
  · -- a block comment opens here too, but not with a marker
    exfalso
    unfold slashMove at hq
    split at hq
    all_goals rw [List.mem_singleton.1 hq] at hkind hlexeme
    · cases hkind
    · cases hkind
    · cases k <;> cases hlexeme
    · cases hkind
  rename_i hslash
  split at hq
  · rcases literalPieces_kind q hq with h | h <;> rw [h] at hkind <;> cases hkind
  rename_i hquote
  split at hq
  · rename_i hhash
    obtain ⟨hmarker, hx, hmove⟩ := lineMove_opener hq hkind
    rw [if_neg hbreak, if_neg hslash, if_neg hquote, if_pos hhash]
    simp only [Bool.and_eq_true, beq_iff_eq] at hhash
    obtain ⟨⟨hknown, rfl⟩, rfl⟩ := hhash
    rw [hlexeme] at hmarker
    cases k with
    | hash => exact ⟨rfl, hknown, r, hx, hmove⟩
    | hyphens => cases hmarker
  rename_i hhash
  split at hq
  · rename_i hyphens
    obtain ⟨hmarker, hx, hmove⟩ := lineMove_opener hq hkind
    rw [if_neg hbreak, if_neg hslash, if_neg hquote, if_neg hhash, if_pos hyphens]
    simp only [Bool.and_eq_true, beq_iff_eq] at hyphens
    obtain ⟨⟨⟨hknown, rfl⟩, rfl⟩, -⟩ := hyphens
    rw [hlexeme] at hmarker
    cases k with
    | hash => cases hmarker
    | hyphens => exact ⟨rfl, hknown, _, hx, hmove⟩
  · rw [List.mem_singleton.1 hq] at hkind
    cases hkind

/-- No block comment opens in a comment. -/
theorem commentMove_kind_ne_blockOpen (p : Profile) (e : Enclosure) (due : Bool) (c : Char)
    (r : List Char) : ∀ q ∈ (commentMove p e due c r).pieces, q.kind ≠ .blockOpen := by
  unfold commentMove
  split
  · unfold commentBreakMove
    split <;> simp
  split
  · unfold atomMove
    dsimp only
    split <;> simp [Move.text]
  split
  · simp [Move.text]
  split
  · fun_cases delimiterMove p e c r <;> simp [Move.text]
  split <;> simp [Move.text]

/-- A marker is read as an opener on a fresh line only, and if a directive follows. -/
theorem Mode.move_opener {p : Profile} {m : Mode} {c : Char} {r : List Char} {q : Piece}
    {k : LineMarker} (hq : q ∈ (m.move p c r).pieces) (hkind : q.kind = .blockOpen)
    (hlexeme : q.lexeme = k.lexeme) :
    m = .code true ∧ k.isKnown p = true ∧
      ∃ x, OpensDirective x ∧ m.move p c r = ⟨[q], x, .comment .line false⟩ := by
  cases m with
  | code fresh =>
    obtain ⟨rfl, hknown, hmove⟩ := codeMove_opener hq hkind hlexeme
    exact ⟨rfl, hknown, hmove⟩
  | comment e due => exact absurd hkind (commentMove_kind_ne_blockOpen p e due c r q hq)

theorem Mode.finish_opener (m : Mode) : ∀ q ∈ m.finish, q.kind ≠ .blockOpen := by
  cases m with
  | code fresh => simp [Mode.finish]
  | comment e due => cases e <;> simp [Mode.finish]

/-- Where a line comment opens the line is fresh, the profile knows the marker, and a
    directive follows. -/
theorem exists_of_scan_opener {p : Profile} {m : Mode} {cs : List Char} {ps qs : List Piece}
    {q : Piece} (h : scan p m cs = ps ++ q :: qs) (hkind : q.kind = .blockOpen) {k : LineMarker}
    (hlexeme : q.lexeme = k.lexeme) :
    FreshBehind p m (lexemes ps) ∧ k.isKnown p = true ∧
      ∃ x, OpensDirective x ∧ qs = scan p (.comment .line false) x := by
  fun_induction scan p m cs generalizing ps with
  | case1 m => exact absurd hkind (m.finish_opener q (by simp [h]))
  | case2 m c r ih =>
    have hbehind : ∀ a, scan p (m.move p c r).mode (m.move p c r).rest = a ++ q :: qs →
        FreshBehind p m (lexemes (m.move p c r).pieces ++ lexemes a) ∧ k.isKnown p = true ∧
          ∃ x, OpensDirective x ∧ qs = scan p (.comment .line false) x := by
      intro a hscan
      obtain ⟨hfresh, hknown, x, hx, hqs⟩ := ih hscan
      refine ⟨hfresh.move (y := q.lexeme ++ x) ?_, hknown, x, hx, hqs⟩
      rw [← scan_after hscan hqs]
    rcases List.append_eq_append_iff.1 h with ⟨a, rfl, hscan⟩ | ⟨a, hpieces, hscan⟩
    · rw [lexemes_append]
      exact hbehind a hscan
    cases a with
    | nil =>
      rw [List.append_nil] at hpieces
      have hscan' : scan p (m.move p c r).mode (m.move p c r).rest = [] ++ q :: qs := hscan.symm
      simpa [hpieces] using hbehind [] hscan'
    | cons q' a =>
      obtain ⟨rfl, hrest⟩ := List.cons.inj hscan
      obtain ⟨rfl, hknown, x, hx, hmove⟩ :=
        Mode.move_opener (by rw [hpieces]; simp) hkind hlexeme
      rw [hmove] at hpieces hrest
      obtain ⟨rfl, rfl⟩ : ps = [] ∧ a = [] := by
        simpa [List.singleton_eq_append_iff] using hpieces
      exact ⟨Or.inl ⟨rfl, by simp⟩, hknown, x, hx, hrest⟩

/-! ### The main statement -/

/-- A line of code starts behind `l`: first an indent `i`, then a marker that the profile
    knows, and then `x`. -/
structure LineMarker.Marks (k : LineMarker) (p : Profile) (source : String) (l i x : List Char) :
    Prop where
  text : source.toList = l ++ (i ++ (k.lexeme ++ x))
  starts : StartsLine p l
  indented : ∀ c ∈ i, isIndent c = true
  known : k.isKnown p = true

/-- Behind the text `w` a token opens a line comment. -/
def LineMarker.OpensBehind (k : LineMarker) (ts : List Token) (w : List Char) : Prop :=
  ∃ before t after, ts = before ++ t :: after ∧ textOf before = w ∧ t.kind = .blockOpen ∧
    t.lexeme = k.lexeme

/-- What stands behind the opener of a line comment: `line`, in tokens that may stand in a
    comment and break no line, an empty closing token, and the end of the line. -/
def ClosesLine (line : List Char) (after : List Token) : Prop :=
  ∃ inner c rest, after = inner ++ c :: rest ∧ textOf inner = line ∧
    (∀ u ∈ inner, IsInner .comment u.toPiece ∧ u.kind ≠ .eol) ∧
    c.kind = .blockClose ∧ c.lexeme = [] ∧ LineEnds (rest.map Token.toPiece)

theorem LineMarker.Marks.scan {k : LineMarker} {p : Profile} {source : String} {l i x : List Char}
    (h : k.Marks p source l i x) :
    ∃ as bs, lexemes as = l ∧ (∀ e ∈ as.getLast?, e.kind ≠ .text) ∧ lexemes bs = i ∧
      (∀ q ∈ bs, q.kind = .text ∧ q.context = .code) ∧
      FeatureCut.scan p (.code true) source.toList =
        as ++ (bs ++ FeatureCut.scan p (.code true) (k.lexeme ++ x)) := by
  obtain ⟨as, has, hlast, hscan⟩ := scan_startsLine h.starts
  obtain ⟨bs, hindent, hbs, htexts⟩ := scan_indent p h.indented (k.lexeme ++ x)
  refine ⟨as, bs, has, hlast, hbs, htexts, ?_⟩
  rw [h.text, hscan, hindent]
  intro c hc
  cases i with
  | nil =>
    cases k with
    | hash =>
      obtain rfl : '#' = c := Option.some.inj hc
      rfl
    | hyphens =>
      obtain rfl : '-' = c := Option.some.inj hc
      rfl
  | cons d i =>
    obtain rfl : d = c := by simpa using hc
    rcases isIndent_iff.1 (h.indented d (by simp)) with rfl | rfl <;> rfl

/-- Tokens are found where the scanned pieces are, once text is joined. -/
theorem exists_token_of_coalesce {p : Profile} {source : String} {as bs : List Piece} {q : Piece}
    (h : coalesce (scan p (.code true) source.toList) = as ++ q :: bs) :
    ∃ before t after, tokenize p source = before ++ t :: after ∧ textOf before = lexemes as ∧
      t.toPiece = q ∧ after.map Token.toPiece = bs := by
  rw [← toPiece_tokenize] at h
  obtain ⟨before, rest, hts, hbefore, hrest⟩ := List.map_eq_append_iff.1 h
  obtain ⟨t, after, rfl, ht, hafter⟩ := List.map_eq_cons_iff.1 hrest
  exact ⟨before, t, after, hts, by rw [← lexemes_map_toPiece, hbefore], ht, hafter⟩

/-- The line that an opener stands on, and how the rest of it is scanned. -/
theorem exists_marks_of_opener {p : Profile} {source : String} {before after : List Token}
    {t : Token} {k : LineMarker} (h : tokenize p source = before ++ t :: after)
    (hkind : t.kind = .blockOpen) (hlexeme : t.lexeme = k.lexeme) :
    ∃ l i x, k.Marks p source l i x ∧ OpensDirective x ∧ textOf before = l ++ i ∧
      after.map Token.toPiece = coalesce (scan p (.comment .line false) x) := by
  have hpieces := toPiece_tokenize p source
  rw [h, List.map_append, List.map_cons] at hpieces
  obtain ⟨as, bs, hscan, has, hbs⟩ := coalesce_split hpieces.symm (by simp [hkind])
  obtain ⟨hfresh, hknown, x, hx, rfl⟩ := exists_of_scan_opener hscan hkind hlexeme
  obtain ⟨l, i, hsplit, hl, hi⟩ := freshBehind_start hfresh
  have hbefore : textOf before = lexemes as := by
    rw [← lexemes_map_toPiece, ← has, lexemes_coalesce]
  refine ⟨l, i, x, ⟨?_, hl, hi, hknown⟩, hx, hbefore.trans hsplit, hbs.symm⟩
  rw [scan_after hscan rfl, hsplit, hlexeme, List.append_assoc]

theorem LineMarker.Marks.opensBehind {k : LineMarker} {p : Profile} {source : String}
    {l i x : List Char} (h : k.Marks p source l i x) (hx : OpensDirective x) :
    k.OpensBehind (tokenize p source) (l ++ i) := by
  obtain ⟨as, bs, rfl, -, rfl, -, hscan⟩ := h.scan
  have hopener : k.opener.kind ≠ .text := Kind.noConfusion
  rw [scan_marker_directive h.known hx, ← List.append_assoc] at hscan
  have hpieces := congrArg coalesce hscan
  rw [coalesce_append_cons _ hopener] at hpieces
  obtain ⟨before, t, after, hts, hbefore, ht, -⟩ := exists_token_of_coalesce hpieces
  refine ⟨before, t, after, hts, ?_, congrArg Piece.kind ht, congrArg Piece.lexeme ht⟩
  rw [hbefore, lexemes_coalesce, lexemes_append]

theorem closesLine_of_scan {p : Profile} {x : List Char} {after : List Token}
    (h : after.map Token.toPiece = coalesce (scan p (.comment .line false) x)) :
    ClosesLine (firstLine x) after := by
  obtain ⟨ps, us, hscan, hlexemes, hps, hends⟩ := scan_lineComment p false x
  have hcloser : lineCloser.kind ≠ .text := Kind.noConfusion
  rw [hscan, coalesce_append_cons ps hcloser] at h
  obtain ⟨inner, rest, rfl, hinner, hrest⟩ := List.map_eq_append_iff.1 h
  obtain ⟨c, rest, rfl, hc, hends'⟩ := List.map_eq_cons_iff.1 hrest
  refine ⟨inner, c, rest, rfl, ?_, ?_, congrArg Piece.kind hc, congrArg Piece.lexeme hc, ?_⟩
  · rw [← lexemes_map_toPiece, hinner, lexemes_coalesce, hlexemes]
  · have hkinds : ∀ q ∈ coalesce ps, IsInner .comment q ∧ q.kind ≠ .eol := by
      refine forall_mem_coalesce ?_ hps
      rintro q r - ⟨hq, -⟩ - -
      exact ⟨⟨Or.inl rfl, hq.context⟩, Kind.noConfusion⟩
    intro u hu
    apply hkinds
    rw [← hinner]
    exact List.mem_map_of_mem hu
  · rw [hends']
    exact (hends.coalesce_append []).2

/-- A line with a marker and no directive behind it is one piece of text. -/
theorem LineMarker.Marks.exists_text {k : LineMarker} {p : Profile} {source : String}
    {l i x : List Char} (h : k.Marks p source l i x) (hx : ¬OpensDirective x) :
    ∃ before t after, tokenize p source = before ++ t :: after ∧ textOf before = l ∧
      t.toPiece = ⟨.text, i ++ (k.lexeme ++ firstLine x), .code⟩ ∧
      LineEnds (after.map Token.toPiece) := by
  obtain ⟨as, bs, rfl, hlast, rfl, hbs, hscan⟩ := h.scan
  obtain ⟨us, hmarker, hends⟩ := scan_marker_text h.known hx
  have htexts : ∀ q ∈ bs ++ [⟨.text, k.lexeme ++ firstLine x, .code⟩],
      q.kind = .text ∧ q.context = .code := by
    simpa [or_imp, forall_and] using hbs
  have hjoined : coalesce (bs ++ [⟨.text, k.lexeme ++ firstLine x, .code⟩]) =
      [⟨.text, lexemes bs ++ (k.lexeme ++ firstLine x), .code⟩] := by
    rw [coalesce_texts (by simp) htexts]
    simp
  obtain ⟨hsplit, hends⟩ := hends.coalesce_append (bs ++ [⟨.text, k.lexeme ++ firstLine x, .code⟩])
  have hpieces := congrArg coalesce hscan
  rw [coalesce_append_of_last hlast, hmarker, List.append_cons, hsplit, hjoined] at hpieces
  obtain ⟨before, t, after, hts, hbefore, ht, hafter⟩ := exists_token_of_coalesce hpieces
  refine ⟨before, t, after, hts, by rw [hbefore, lexemes_coalesce], ht, ?_⟩
  rwa [hafter]

/-- **Line comments are directives alone, and take their line.**  A token opens one exactly
    where a line of code starts with an indent, a known marker, and behind it a directive
    word.  Its comment takes the rest of the line and closes there.  Without a directive
    word the whole line is one piece of text. -/
theorem tokenize_lineComment (p : Profile) (source : String) (k : LineMarker) :
    (∀ w, k.OpensBehind (tokenize p source) w ↔
      ∃ l i x, k.Marks p source l i x ∧ OpensDirective x ∧ w = l ++ i) ∧
    (∀ before t after, tokenize p source = before ++ t :: after → t.kind = .blockOpen →
      t.lexeme = k.lexeme → ∃ x, source.toList = textOf before ++ (k.lexeme ++ x) ∧
        ClosesLine (firstLine x) after) ∧
    ∀ l i x, k.Marks p source l i x → ¬OpensDirective x →
      ∃ before t after, tokenize p source = before ++ t :: after ∧ textOf before = l ∧
        t.toPiece = ⟨.text, i ++ (k.lexeme ++ firstLine x), .code⟩ ∧
        LineEnds (after.map Token.toPiece) := by
  refine ⟨?_, ?_, ?_⟩
  · intro w
    constructor
    · rintro ⟨before, t, after, hts, rfl, hkind, hlexeme⟩
      obtain ⟨l, i, x, hmarks, hx, hbefore, -⟩ := exists_marks_of_opener hts hkind hlexeme
      exact ⟨l, i, x, hmarks, hx, hbefore⟩
    · rintro ⟨l, i, x, hmarks, hx, rfl⟩
      exact hmarks.opensBehind hx
  · intro before t after hts hkind hlexeme
    obtain ⟨l, i, x, hmarks, -, hbefore, hafter⟩ := exists_marks_of_opener hts hkind hlexeme
    refine ⟨x, ?_, closesLine_of_scan hafter⟩
    rw [hbefore, hmarks.text, List.append_assoc]
  · intro l i x hmarks hx
    exact hmarks.exists_text hx

/-- A directive on the second line, and quotes on the third one that open nothing. -/
theorem tokenize_lineComment_hyphens :
    LineMarker.hyphens.OpensBehind (tokenize Language.sql.profile "a\n  -- @end x\n--'/*\n")
        "a\n  ".toList ∧
      ∃ before t after, tokenize Language.sql.profile "a\n  -- @end x\n--'/*\n" =
          before ++ t :: after ∧ textOf before = "a\n  -- @end x\n".toList ∧
        t.toPiece = ⟨.text, "--'/*".toList, .code⟩ ∧ LineEnds (after.map Token.toPiece) := by
  obtain ⟨hopens, -, htext⟩ := tokenize_lineComment Language.sql.profile
    "a\n  -- @end x\n--'/*\n" .hyphens
  constructor
  · have hdirective : OpensDirective " @end x\n--'/*\n".toList :=
      startsWithAtom_iff.1 (by decide +kernel)
    refine (hopens _).2 ⟨"a\n".toList, "  ".toList, _, ?_, hdirective, by decide⟩
    exact ⟨by decide, Or.inr (by decide +kernel), by simp [isIndent], rfl⟩
  · have hnone : ¬OpensDirective "'/*\n".toList := mt startsWithAtom_iff.2 (by decide +kernel)
    refine htext "a\n  -- @end x\n".toList [] _ ?_ hnone
    exact ⟨by decide, Or.inr (by decide +kernel), by simp [isIndent], rfl⟩

end FeatureCut
