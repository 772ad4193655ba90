/-
  FeatureCut/Proofs/CommentReading.lean
  =====================================
  **What a comment says, read off its text.**

  `classify` looks at the tokens of a comment.  Which tokens there are is the scanner's
  business: it reads words as far as they go, looks for a key only right behind an atom, and
  joins what is left to pieces of text, and blanks are skipped token by token.
  `classify_iff_grammar` says that all this comes to the grammar: a comment is classified as
  something exactly if the grammar has it for its text.

  The grammar has a case for every text, so one direction is enough (`Says.classified`).
  A text is put together from blanks, words, keys and bodies, and `Inside` follows its
  pieces along.
-/
import FeatureCut.Proofs.CommentForms
import FeatureCut.Proofs.CommentGrammar

namespace FeatureCut

/-! ### The pieces inside a comment -/

/-- The text `w` at the end of a block comment is cut into the pieces `ps`, if a key may be
    due in front of it. -/
def Inside (p : Profile) (due : Bool) (w : List Char) (ps : List Piece) : Prop :=
  scan p (.comment .block due) (w ++ ['*', '/']) = ps ++ [blockCloser, ⟨.eof, [], .code⟩]

/-- Neither delimiter that is looked for in a block comment stands in the text. -/
structure Unclosed (w : List Char) : Prop where
  close : ¬blockCloser.lexeme <:+: w
  html : ¬htmlOpener.lexeme <:+: w

theorem Unclosed.of_isInfix {v w : List Char} (h : Unclosed w) (hv : v <:+: w) : Unclosed v :=
  ⟨fun hclose => h.close (hclose.trans hv), fun hopen => h.html (hopen.trans hv)⟩

theorem Unclosed.of_append {u v : List Char} (h : Unclosed (u ++ v)) : Unclosed u ∧ Unclosed v :=
  ⟨h.of_isInfix (List.prefix_append u v).isInfix, h.of_isInfix (List.suffix_append u v).isInfix⟩

section

variable {p : Profile} {due : Bool} {w : List Char} {ps : List Piece}

theorem inside_nil (p : Profile) (due : Bool) : Inside p due [] [] := by
  rw [Inside, List.nil_append, scan_blockClose, scan]
  rfl

theorem exists_inside (p : Profile) (due : Bool) (hw : Unclosed w) :
    ∃ ps, Inside p due w ps ∧ ∀ q ∈ ps, IsInner .comment q := by
  have hquiet := isQuiet_block (p := p) hw.close hw.html
  obtain ⟨ps, due', hscan, -, hps⟩ :=
    scan_inner Enclosure.noConfusion hquiet (.mark (c := '*') (r := ['/']) rfl) due
  have hnil : Inside p due' [] [] := inside_nil p due'
  rw [Inside, List.nil_append] at hnil
  rw [hnil] at hscan
  exact ⟨ps, hscan, hps⟩

theorem Inside.unique (h : Inside p due w ps) {qs : List Piece} (h' : Inside p due w qs) :
    ps = qs :=
  List.append_cancel_right (h.symm.trans h')

theorem Inside.lexemes_eq (h : Inside p due w ps) : lexemes ps = w := by
  have hread := congrArg lexemes h
  simp only [lexemes_scan, lexemes_append, lexemes_cons, lexemes_nil, blockCloser] at hread
  exact (List.append_cancel_right hread).symm

/-- A word at the start. -/
theorem Inside.word {a : Atom} (h : Inside p a.takesKey w ps) (hw : EndsWord w) (due : Bool) :
    Inside p due (a.name.toList ++ w) (⟨.atom a, a.name.toList, .comment⟩ :: ps) := by
  have hends : EndsWord (w ++ ['*', '/']) := by
    cases w with
    | nil => exact endsWord_cons rfl (by decide) ['/']
    | cons c w => exact hw
  rw [Inside, List.append_assoc, scan_word p due a hends, h]
  rfl

/-- A key at the start, where one is due. -/
theorem Inside.key (h : Inside p false w ps) {key : List Char} (hne : key ≠ [])
    (hkey : ∀ c ∈ key, isBoundary c = false) (hw : EndsKey w) :
    Inside p true (key ++ w) (⟨.key, key, .comment⟩ :: ps) := by
  have hends : EndsKey (w ++ ['*', '/']) := by
    cases w with
    | nil => exact endsKey_cons rfl ['/']
    | cons c w => exact hw
  rw [Inside, List.append_assoc, scan_key_append p hne hkey hends, h]
  rfl

/-! ### Blanks -/

/-- A piece that `classify` passes over. -/
def Piece.IsGap (q : Piece) : Prop := q.bare.isGap = true

theorem isGap_eol (cs : List Char) (context : Context) : (⟨.eol, cs, context⟩ : Piece).IsGap := by
  simp [Piece.IsGap, Token.isGap, Piece.bare]

theorem isGap_text {cs : List Char} (hcs : AllBlank cs) (context : Context) :
    (⟨.text, cs, context⟩ : Piece).IsGap := by
  have hall : cs.all isBlank = true := List.all_eq_true.2 hcs
  simp [Piece.IsGap, Token.isGap, Token.isBlankText, Piece.bare, hall]

theorem Piece.IsGap.cases {q : Piece} (h : q.IsGap) :
    q.kind = .eol ∨ q.kind = .text ∧ AllBlank q.lexeme := by
  simp only [Piece.IsGap, Token.isGap, Token.isBlankText, Piece.bare, Bool.or_eq_true,
    Bool.and_eq_true, List.all_eq_true] at h
  rcases h with ⟨htext, hblank⟩ | heol
  · exact Or.inr ⟨of_decide_eq_true htext, hblank⟩
  · exact Or.inl (of_decide_eq_true heol)

/-- Spaces and tabs at the start keep a key due. -/
theorem Inside.indent (h : Inside p due w ps) {i : List Char} (hi : ∀ c ∈ i, isIndent c = true) :
    ∃ gs, Inside p due (i ++ w) (gs ++ ps) ∧ ∀ q ∈ gs, q.IsGap ∧ q.kind = .text := by
  induction i with
  | nil => exact ⟨[], h, by simp⟩
  | cons c i ih =>
    obtain ⟨hc, hrest⟩ := List.forall_mem_cons.1 hi
    obtain ⟨gs, hinside, hgs⟩ := ih hrest
    have hblank : AllBlank [c] := by
      rcases isIndent_iff.1 hc with rfl | rfl <;> simp [AllBlank, isBlank, blankRanges]
    have hmove : ∀ r, Mode.move p (.comment .block due) c r =
        .text .comment [c] r (.comment .block due) := by
      intro r
      rcases isIndent_iff.1 hc with rfl | rfl <;>
        simp [Mode.move, commentMove, isBreak, isIndent, Enclosure.context]
    refine ⟨⟨.text, [c], .comment⟩ :: gs, ?_, ?_⟩
    · rw [Inside, List.cons_append, List.cons_append, scan, hmove]
      simp only [Move.text, List.cons_append, List.nil_append]
      rw [hinside]
    · exact List.forall_mem_cons.2 ⟨⟨isGap_text hblank .comment, rfl⟩, hgs⟩

/-- A blank is read as a break or as text, and no key is due behind it. -/
theorem commentMove_blank (p : Profile) {c : Char} (hc : isBlank c = true)
    (hbreak : isBreak c = false) (r : List Char) :
    Mode.move p (.comment .block false) c r =
      .text .comment [c] r (.comment .block false) := by
  have hat : c ≠ '@' := by
    rintro rfl
    exact absurd hc (by decide)
  have hplain : isIndent c = false → isBoundary c = false := by
    intro hindent
    -- no delimiter starts with a blank
    have hstarts : ∀ d ∈ ['*', '/', '<', '!', '-', '>', '@'], isBlank d = false := by
      simp [isBlank, blankRanges]
    rw [isBoundary, hindent, hbreak, Bool.false_or, Bool.false_or, ← Bool.not_eq_true,
      List.contains_iff_mem]
    intro hmem
    rw [hstarts c hmem] at hc
    cases hc
  simp only [Mode.move, commentMove, hbreak, Bool.false_eq_true, if_false, beq_iff_eq, hat]
  split
  · rfl
  · rename_i hindent
    rw [hplain (by simpa using hindent)]
    rfl

/-- A break takes nothing from a text that does not start with one. -/
theorem exists_breakFrom_append (c : Char) (t : List Char) {x : List Char}
    (hx : ∀ d ∈ x.head?, isBreak d = false) :
    ∃ e t', breakFrom c (t ++ x) = (e, t' ++ x) ∧ t' <:+ t := by
  match t with
  | [] =>
    refine ⟨[c], [], ?_, List.suffix_refl []⟩
    cases x with
    | nil => rfl
    | cons d x =>
      have hd : isBreak d = false := hx d rfl
      simp [breakFrom, isBreakPair, hd]
  | d :: t =>
    by_cases hpair : isBreakPair c d = true
    · exact ⟨[c, d], t, by simp [breakFrom, hpair], List.suffix_cons d t⟩
    · exact ⟨[c], d :: t, by simp [breakFrom, hpair], List.suffix_refl _⟩

/-- Blanks at the start, where no key is due. -/
theorem Inside.blank (h : Inside p false w ps) (hw : ∀ c ∈ w.head?, isBreak c = false)
    {lead : List Char} (hlead : AllBlank lead) :
    ∃ gs, Inside p false (lead ++ w) (gs ++ ps) ∧ ∀ q ∈ gs, q.IsGap := by
  have hstop : ∀ c ∈ (w ++ ['*', '/']).head?, isBreak c = false := by
    cases w with
    | nil => simp [isBreak]
    | cons c w => exact hw
  induction hn : lead.length using Nat.strongRecOn generalizing lead with
  | ind n ih =>
    subst hn
    cases lead with
    | nil => exact ⟨[], h, by simp⟩
    | cons c t =>
      obtain ⟨hc, ht⟩ := List.forall_mem_cons.1 hlead
      have hstep : ∃ q t', q.IsGap ∧ t' <:+ t ∧
          Mode.move p (.comment .block false) c (t ++ (w ++ ['*', '/'])) =
            ⟨[q], t' ++ (w ++ ['*', '/']), .comment .block false⟩ := by
        by_cases hbreak : isBreak c = true
        · obtain ⟨e, t', hfrom, hsuffix⟩ := exists_breakFrom_append c t hstop
          refine ⟨⟨.eol, e, .comment⟩, t', isGap_eol e .comment, hsuffix, ?_⟩
          simp [Mode.move, commentMove, hbreak, commentBreakMove, hfrom, Enclosure.context]
        · have hblank : AllBlank [c] := by simpa [AllBlank] using hc
          exact ⟨⟨.text, [c], .comment⟩, t, isGap_text hblank .comment, List.suffix_refl t,
            commentMove_blank p hc (by simpa using hbreak) _⟩
      obtain ⟨q, t', hq, hsuffix, hmove⟩ := hstep
      have hblank : AllBlank t' := fun d hd => ht d (hsuffix.subset hd)
      obtain ⟨gs, hinside, hgs⟩ :=
        ih t'.length (Nat.lt_succ_of_le hsuffix.length_le) hblank rfl
      refine ⟨q :: gs, ?_, List.forall_mem_cons.2 ⟨hq, hgs⟩⟩
      rw [Inside, List.append_assoc] at hinside ⊢
      rw [List.cons_append, scan, hmove]
      simp only [List.cons_append, List.nil_append]
      rw [hinside]

end

/-! ### Words -/

theorem atomMove_atom {e : Enclosure} {r : List Char} {q : Piece} {a : Atom}
    (hq : q ∈ (atomMove e r).pieces) (hkind : q.kind = .atom a) :
    (atomMove e r).pieces = [q] ∧ q.lexeme = a.name.toList ∧ EndsWord (atomMove e r).rest := by
  unfold atomMove at hq ⊢
  dsimp only at hq ⊢
  split at hq
  · rename_i a' ha
    obtain rfl := List.mem_singleton.1 hq
    obtain rfl : a' = a := Kind.atom.inj hkind
    obtain ⟨x, hx, hends⟩ := Atom.ofLexeme?_eq_some_iff.1 ha
    have hname := Atom.name_of_ofLexeme? ha
    rw [hname, List.cons_append] at hx
    have hsame : (atomTail r).1 ++ (atomTail r).2 = (atomTail r).1 ++ x :=
      (atomTail_append r).trans (List.cons.inj hx).2
    refine ⟨rfl, hname.symm, ?_⟩
    rwa [← List.append_cancel_left hsame] at hends
  · rw [List.mem_singleton.1 hq] at hkind
    cases hkind

/-- An atom is all that its move reads, and its word ends there. -/
theorem Mode.move_atom {p : Profile} {m : Mode} {c : Char} {r : List Char} {q : Piece} {a : Atom}
    (hq : q ∈ (m.move p c r).pieces) (hkind : q.kind = .atom a) :
    (m.move p c r).pieces = [q] ∧ q.lexeme = a.name.toList ∧ EndsWord (m.move p c r).rest := by
  cases m with
  | code fresh => rcases codeMove_kind q hq with h | h | h | h <;> rw [h] at hkind <;> cases hkind
  | comment e due =>
    by_cases hat : isBreak c = false ∧ c = '@'
    · obtain ⟨hbreak, rfl⟩ := hat
      have hmove : Mode.move p (.comment e due) '@' r = atomMove e r := by
        simp [Mode.move, commentMove, hbreak]
      rw [hmove] at hq ⊢
      exact atomMove_atom hq hkind
    · have hnone : ∀ q' ∈ (commentMove p e due c r).pieces, ∀ a', q'.kind ≠ .atom a' := by
        unfold commentMove
        split
        · unfold commentBreakMove
          split <;> simp
        rename_i hbreak
        split
        · rename_i hc
          exact absurd ⟨by simpa using hbreak, by simpa using hc⟩ hat
        split
        · simp [Move.text]
        split
        · fun_cases delimiterMove p e c r <;> simp [Move.text]
        split <;> simp [Move.text]
      exact absurd hkind (hnone q hq a)

/-- A directive word is read where its name stands and ends. -/
theorem scan_split_atom {p : Profile} {m : Mode} {cs : List Char} {ps qs : List Piece} {q : Piece}
    (h : scan p m cs = ps ++ q :: qs) {a : Atom} (hkind : q.kind = .atom a) :
    ∃ x, cs = lexemes ps ++ (a.name.toList ++ x) ∧ q.lexeme = a.name.toList ∧ EndsWord x := by
  rcases exists_move_of_scan h with ⟨m', hq⟩ | ⟨m', c, r, as, bs, hpieces, hqs⟩
  · have hfinish : ∀ q' ∈ m'.finish, q'.kind ≠ .atom a := by
      cases m' with
      | code fresh => simp [Mode.finish]
      | comment e due => cases e <;> simp [Mode.finish]
    exact absurd hkind (hfinish q hq)
  obtain ⟨hsingle, hlexeme, hends⟩ := Mode.move_atom (by rw [hpieces]; simp) hkind
  rw [hsingle] at hpieces
  obtain ⟨-, rfl⟩ : as = [] ∧ bs = [] := by
    simpa [List.singleton_eq_append_iff] using hpieces
  exact ⟨_, by rw [scan_after h hqs, hlexeme], hlexeme, hends⟩

/-- Behind the pieces of a word stands its text. -/
theorem Inside.split {p : Profile} {due : Bool} {t : List Char} {as bs : List Piece} {q : Piece}
    {a : Atom} (h : Inside p due t (as ++ q :: bs)) (hkind : q.kind = .atom a) :
    t = lexemes as ++ (a.name.toList ++ lexemes bs) ∧ q.lexeme = a.name.toList ∧
      EndsWord (lexemes bs) := by
  have hscan := h
  rw [Inside, List.append_assoc, List.cons_append] at hscan
  obtain ⟨x, htext, hlexeme, hends⟩ := scan_split_atom hscan hkind
  have hread := h.lexemes_eq
  rw [lexemes_append, lexemes_cons, hlexeme] at hread
  refine ⟨hread.symm, hlexeme, ?_⟩
  have hrest : lexemes bs ++ ['*', '/'] = x := by
    rw [← hread, List.append_assoc, List.append_assoc] at htext
    exact List.append_cancel_left (List.append_cancel_left htext)
  rw [← hrest] at hends
  intro c hc
  apply hends
  rw [List.head?_append, Option.mem_def.1 hc]
  rfl

/-! ### Joined text -/

/-- The tokens that pieces come to, at no particular place. -/
def joined (ps : List Piece) : List Token := (coalesce ps).map Piece.bare

theorem textOf_joined (ps : List Piece) : textOf (joined ps) = lexemes ps := by
  rw [joined, textOf_map_bare, lexemes_coalesce]

theorem joined_append_cons (as : List Piece) {q : Piece} (hq : q.kind ≠ .text) (bs : List Piece) :
    joined (as ++ q :: bs) = joined as ++ q.bare :: joined bs := by
  rw [joined, coalesce_append_cons as hq, List.map_append, List.map_cons]
  rfl

theorem joined_split {ps : List Piece} {us vs : List Token} {t : Token}
    (h : joined ps = us ++ t :: vs) (ht : t.kind ≠ .text) :
    ∃ as q bs, ps = as ++ q :: bs ∧ joined as = us ∧ q.bare = t ∧ joined bs = vs := by
  obtain ⟨as, rest, hps, has, hrest⟩ := List.map_eq_append_iff.1 h
  obtain ⟨q, bs, rfl, hq, hbs⟩ := List.map_eq_cons_iff.1 hrest
  have hkind : q.kind ≠ .text := by
    rw [← hq] at ht
    exact ht
  obtain ⟨as', bs', rfl, rfl, rfl⟩ := coalesce_split hps hkind
  exact ⟨as', q, bs', rfl, has, hq, hbs⟩

/-- What is passed over, and the first token behind it. -/
theorem joined_of_skipGaps {ps : List Piece} {t : Token} {r : List Token}
    (h : skipGaps (joined ps) = t :: r) (ht : t.kind ≠ .text) :
    ∃ as q bs, ps = as ++ q :: bs ∧ (∀ u ∈ joined as, u.isGap = true) ∧ q.bare = t := by
  have hsplit := List.takeWhile_append_dropWhile (p := Token.isGap) (l := joined ps)
  have hdrop : (joined ps).dropWhile Token.isGap = t :: r := h
  rw [hdrop] at hsplit
  obtain ⟨as, q, bs, hps, has, hq, -⟩ := joined_split hsplit.symm ht
  refine ⟨as, q, bs, hps, ?_, hq⟩
  rw [has]
  exact fun u hu => List.mem_takeWhile_imp hu

theorem kind_of_joined {kind : Kind} (htext : kind ≠ .text) {ps : List Piece}
    (h : ∀ q ∈ ps, q.kind ≠ kind) : ∀ t ∈ joined ps, t.kind ≠ kind := by
  have hjoined : ∀ q ∈ coalesce ps, q.kind ≠ kind :=
    forall_mem_coalesce (fun _ _ _ _ _ _ => htext.symm) h
  intro t ht
  obtain ⟨q, hq, rfl⟩ := List.mem_map.1 ht
  exact hjoined q hq

theorem isGap_joined {gs : List Piece} (h : ∀ q ∈ gs, q.IsGap) :
    ∀ t ∈ joined gs, t.isGap = true := by
  have hjoined : ∀ q ∈ coalesce gs, q.IsGap := by
    refine forall_mem_coalesce ?_ h
    intro q r hq hgap hgap' hr
    have hblank : ∀ s : Piece, s.kind = .text → s.IsGap → AllBlank s.lexeme := by
      intro s hs hgap
      rcases hgap.cases with heol | ⟨-, hblank⟩
      · rw [hs] at heol
        cases heol
      · exact hblank
    apply isGap_text
    intro c hc
    rcases List.mem_append.1 hc with hc | hc
    · exact hblank q hq hgap c hc
    · exact hblank r hr hgap' c hc
  intro t ht
  obtain ⟨q, hq, rfl⟩ := List.mem_map.1 ht
  exact hjoined q hq

/-- Gaps are passed over up to a word or a key. -/
theorem skipGaps_joined {gs : List Piece} (hgs : ∀ q ∈ gs, q.IsGap) {q : Piece}
    (hq : q.kind = .key ∨ ∃ a, q.kind = .atom a) (ps : List Piece) :
    skipGaps (joined (gs ++ q :: ps)) = q.bare :: joined ps := by
  have htext : q.kind ≠ .text := by
    rcases hq with hq | ⟨a, hq⟩ <;> simp [hq]
  have hword : q.bare.isGap = false := by
    by_contra hgap
    have hgap : q.IsGap := Bool.of_not_eq_false hgap
    rcases hgap.cases with heol | ⟨hkind, -⟩
    · rcases hq with hq | ⟨a, hq⟩ <;> rw [hq] at heol <;> cases heol
    · exact htext hkind
  rw [joined_append_cons gs htext, skipGaps, List.dropWhile_append_of_pos (isGap_joined hgs)]
  simp [hword]

theorem IsLineBreak.allBlank {cs : List Char} (h : IsLineBreak cs) : AllBlank cs := by
  rcases h with rfl | rfl | rfl | rfl <;> simp [AllBlank, isBlank, blankRanges]

theorem Inside.isLineBreak {p : Profile} {due : Bool} {w : List Char} {ps : List Piece}
    (h : Inside p due w ps) : ∀ q ∈ ps, q.kind = .eol → IsLineBreak q.lexeme := by
  intro q hq
  have haccepts := scan_accepts p (.comment .block due) (w ++ ['*', '/'])
  rw [h] at haccepts
  exact (haccepts.spelled q (by simp [hq])).eol

theorem allBlank_of_isGap {ps : List Piece} (heol : ∀ q ∈ ps, q.kind = .eol → IsLineBreak q.lexeme)
    (hall : ∀ t ∈ joined ps, t.isGap = true) : AllBlank (lexemes ps) := by
  have hjoined : ∀ q ∈ coalesce ps, q.kind = .eol → IsLineBreak q.lexeme :=
    forall_mem_coalesce (fun _ _ _ _ _ _ => Kind.noConfusion) heol
  intro c hc
  rw [← lexemes_coalesce] at hc
  obtain ⟨q, hq, hc⟩ := List.mem_flatMap.1 hc
  have hgap : q.IsGap := hall _ (List.mem_map_of_mem hq)
  rcases hgap.cases with hbreak | ⟨-, hblank⟩
  · exact (hjoined q hq hbreak).allBlank c hc
  · exact hblank c hc

/-- All tokens are gaps where all characters are blank. -/
theorem Inside.all_isGap_iff {p : Profile} {w : List Char} {ps : List Piece}
    (h : Inside p false w ps) : (joined ps).all Token.isGap = true ↔ AllBlank w := by
  constructor
  · intro hall
    rw [← h.lexemes_eq]
    exact allBlank_of_isGap h.isLineBreak (List.all_eq_true.1 hall)
  · intro hw
    obtain ⟨gs, hinside, hgs⟩ := (inside_nil p false).blank (by simp) hw
    rw [List.append_nil, List.append_nil] at hinside
    rw [h.unique hinside]
    exact List.all_eq_true.2 (isGap_joined hgs)

/-! ### Keys -/

theorem readKey_joined {gs : List Piece} (hgs : ∀ q ∈ gs, q.IsGap) (key : List Char)
    (ts : List Piece) (a : Atom) (t : Token) :
    readKey a t (joined (gs ++ ⟨.key, key, .comment⟩ :: ts)) =
      .ok (⟨String.ofList key⟩, joined ts) := by
  rw [readKey, skipGaps_joined hgs (Or.inl rfl)]
  rfl

theorem HasKey.inside {p : Profile} {r key tail : List Char} (h : HasKey r key tail)
    {ts : List Piece} (hts : Inside p false tail ts) :
    ∃ gs, Inside p true r (gs ++ ⟨.key, key, .comment⟩ :: ts) ∧ ∀ q ∈ gs, q.IsGap := by
  obtain ⟨indent, rfl, hindent⟩ := h.text
  obtain ⟨gs, hinside, hgs⟩ := (hts.key h.nonempty h.unbounded h.ends).indent hindent
  exact ⟨gs, hinside, fun q hq => (hgs q hq).1⟩

/-- Where no key is due, a key has its atom before it. -/
theorem exists_atom_before_key {p : Profile} {e : Enclosure} {cs : List Char} {as bs : List Piece}
    {q : Piece} (h : scan p (.comment e false) cs = as ++ q :: bs) (hq : q.kind = .key) :
    ∃ r ∈ as, ∃ a, r.kind = .atom a := by
  have haccepts := scan_accepts p (.comment e false) cs
  rw [h] at haccepts
  obtain ⟨place, hreads, haccepts⟩ := haccepts.exists_readsAll (by simp)
  obtain ⟨_, hread, -⟩ := haccepts.exists_reads (by simp [hq])
  have hdue : KeyDue ([] ++ as) :=
    hreads.keyDue (by simp [Mode.place, Place.due]) (hread.due_of_key hq)
  obtain ⟨l, r, ts, has, ⟨a, hkind, -⟩, -⟩ := hdue
  rw [List.nil_append] at has
  exact ⟨r, by simp [has], a, hkind⟩

/-- A key that is due is not found if something else comes first. -/
theorem scan_due {p : Profile} {y : List Char}
    (hy : ∀ c ∈ y.head?, isIndent c = false ∧ isBoundary c = true) :
    scan p (.comment .block true) (y ++ ['*', '/']) =
      scan p (.comment .block false) (y ++ ['*', '/']) := by
  cases y with
  | nil => rw [List.nil_append, scan_blockClose, scan_blockClose]
  | cons c r =>
    obtain ⟨hindent, hboundary⟩ := hy c rfl
    have hmove : Mode.move p (.comment .block true) c (r ++ ['*', '/']) =
        Mode.move p (.comment .block false) c (r ++ ['*', '/']) := by
      simp [Mode.move, commentMove, hindent, hboundary]
    rw [List.cons_append, scan, scan, hmove]

theorem Inside.keyless {p : Profile} {r : List Char} {ps : List Piece} (h : Inside p true r ps)
    (hr : Unclosed r) (hkey : ¬∃ key tail, HasKey r key tail) :
    ∀ k ∈ (skipGaps (joined ps)).head?, k.kind ≠ .key := by
  rcases exists_hasKey_or r with hkey' | ⟨i, y, rfl, hi, hy⟩
  · exact absurd hkey' hkey
  obtain ⟨ys, hys, -⟩ := exists_inside p false hr.of_append.2
  have hdue : Inside p true y ys := (scan_due hy).trans hys
  obtain ⟨gs, hinside, hgs⟩ := hdue.indent hi
  obtain rfl := h.unique hinside
  intro k hk hkind
  -- what is passed over before the key would hold an atom
  obtain ⟨as, q, bs, hpieces, has, rfl⟩ :=
    joined_of_skipGaps (List.eq_cons_of_mem_head? hk) (by simp [hkind])
  have hkind : q.kind = .key := hkind
  have hnot : q ∉ gs := by
    intro hq
    have htext := (hgs q hq).2
    rw [hkind] at htext
    cases htext
  obtain ⟨as', rfl, rfl⟩ : ∃ as', as = gs ++ as' ∧ ys = as' ++ q :: bs := by
    rcases List.append_eq_append_iff.1 hpieces with ⟨as', has', hrest⟩ | ⟨as', rfl, hrest⟩
    · exact ⟨as', has', hrest⟩
    · cases as' with
      | nil => exact ⟨[], by simp, hrest.symm⟩
      | cons q' as' =>
        obtain ⟨rfl, -⟩ := List.cons.inj hrest
        exact absurd (by simp) hnot
  have hscan := hys
  rw [Inside, List.append_assoc, List.cons_append] at hscan
  obtain ⟨r, hr, a, hatom⟩ := exists_atom_before_key hscan hkind
  obtain ⟨r', hr', hkind'⟩ := exists_mem_coalesce (List.mem_append_right gs hr)
  have hgap : r'.IsGap := has _ (List.mem_map_of_mem hr')
  rw [hatom] at hkind'
  rcases hgap.cases with heol | ⟨htext, -⟩
  · rw [hkind'] at heol
    cases heol
  · rw [hkind'] at htext
    cases htext

/-- Without a key, the one that is asked for is missing. -/
theorem Inside.readKey_keyless {p : Profile} {r : List Char} {ps : List Piece}
    (h : Inside p true r ps) (hr : Unclosed r) (hkey : ¬∃ key tail, HasKey r key tail) (a : Atom)
    (t : Token) : readKey a t (joined ps) =
      .error (.missingKey a t.extent.start.line t.extent.start.column) := by
  have hnone := h.keyless hr hkey
  unfold readKey
  cases hskip : skipGaps (joined ps) with
  | nil => rfl
  | cons k tail =>
    have hk : k.kind ≠ .key := hnone k (by simp [hskip])
    simp only [if_neg hk]

/-! ### Endings -/

/-- Where an ending word stands it is a token of its own. -/
theorem Inside.exists_ending {p : Profile} {t u : List Char} {ps : List Piece}
    (h : Inside p false t ps) (ht : Unclosed t) (hu : EndsBehind t u) :
    ∃ as q bs, ps = as ++ q :: bs ∧ q.kind = .atom .ending ∧ lexemes as = u := by
  obtain ⟨x, rfl, hx⟩ := hu
  obtain ⟨hbefore, hrest⟩ := ht.of_append
  obtain ⟨xs, hxs, -⟩ := exists_inside p false hrest.of_append.2
  have hstarts : StartsLexeme u (Atom.ending.name.toList ++ x ++ ['*', '/']) :=
    .mark (c := '@') rfl
  obtain ⟨as, due, hscan, has, -⟩ := scan_inner Enclosure.noConfusion
    (isQuiet_block (p := p) hbefore.close hbefore.html) hstarts false
  have hword := Inside.word (a := .ending) hxs hx due
  have hinside : Inside p false (u ++ (Atom.ending.name.toList ++ x))
      (as ++ ⟨.atom .ending, Atom.ending.name.toList, .comment⟩ :: xs) := by
    rw [Inside] at hword ⊢
    rw [List.append_assoc, hscan, hword, List.append_assoc]
  exact ⟨as, _, xs, h.unique hinside, rfl, has⟩

theorem Inside.endsBehind {p : Profile} {t : List Char} {as bs : List Piece} {q : Piece}
    (h : Inside p false t (as ++ q :: bs)) (hq : q.kind = .atom .ending) :
    EndsBehind t (lexemes as) := by
  obtain ⟨ht, -, hends⟩ := h.split hq
  exact ⟨lexemes bs, ht, hends⟩

/-- The tail of a comment is cut at its first ending word. -/
theorem Inside.cutAt_ending {p : Profile} {t body : List Char} {ps : List Piece}
    (h : Inside p false t ps) (ht : Unclosed t) (hbody : FirstEnding t body) :
    ∃ cut, cutAt (.atom .ending) (joined ps) = some cut ∧ textOf cut.inner = body := by
  obtain ⟨as, q, bs, rfl, hq, has⟩ := h.exists_ending ht hbody.ends
  have hfirst : ∀ r ∈ as, r.kind ≠ .atom .ending := by
    intro r hr hkind
    obtain ⟨as₁, as₂, rfl⟩ := List.append_of_mem hr
    rw [List.append_assoc, List.cons_append] at h
    have hlen := hbody.first _ (h.endsBehind hkind)
    have hlong : 0 < r.lexeme.length := by
      rw [(h.split hkind).2.1]
      decide
    rw [← has, lexemes_append, lexemes_cons, List.length_append, List.length_append] at hlen
    omega
  have htext : q.kind ≠ .text := by simp [hq]
  have hjoined := joined_append_cons as htext bs
  rw [hjoined, cutAt_append_cons (kind_of_joined Kind.noConfusion hfirst) hq]
  exact ⟨_, rfl, by rw [textOf_joined, has]⟩

theorem Inside.cutAt_none {p : Profile} {t : List Char} {ps : List Piece}
    (h : Inside p false t ps) (ht : ¬∃ body, EndsBehind t body) :
    cutAt (.atom .ending) (joined ps) = none := by
  apply cutAt_eq_none
  apply kind_of_joined Kind.noConfusion
  intro q hq hkind
  obtain ⟨as, bs, rfl⟩ := List.append_of_mem hq
  exact ht ⟨_, h.endsBehind hkind⟩

/-! ### Classification follows the grammar -/

def atomToken (a : Atom) : Token := Piece.bare ⟨.atom a, a.name.toList, .comment⟩

theorem StartsWith.skipGaps_eq {p : Profile} {b r : List Char} {a : Atom}
    (h : StartsWith b a r) {ps rs : List Piece} (hps : Inside p false b ps)
    (hrs : Inside p a.takesKey r rs) : skipGaps (joined ps) = atomToken a :: joined rs := by
  obtain ⟨lead, rfl, hlead, hends⟩ := h
  have hhead : ∀ c ∈ (a.name.toList ++ r).head?, isBreak c = false := by
    obtain ⟨w, hname, -, -⟩ := a.exists_name_eq
    intro c hc
    rw [hname] at hc
    obtain rfl : '@' = c := Option.some.inj hc
    rfl
  obtain ⟨gs, hinside, hgs⟩ := (hrs.word hends false).blank hhead hlead
  rw [hps.unique hinside, skipGaps_joined hgs (Or.inr ⟨a, rfl⟩)]
  rfl

/-- Where the first token that is no gap is a word, the text starts with it. -/
theorem Inside.startsWith {p : Profile} {b : List Char} {ps : List Piece}
    (h : Inside p false b ps) {t : Token} {r : List Token} (hskip : skipGaps (joined ps) = t :: r)
    {a : Atom} (ht : t.kind = .atom a) : ∃ x, StartsWith b a x := by
  obtain ⟨as, q, bs, rfl, hgaps, rfl⟩ := joined_of_skipGaps hskip (by simp [ht])
  obtain ⟨hb, -, hends⟩ := h.split ht
  have hblank : AllBlank (lexemes as) :=
    allBlank_of_isGap (fun r hr => h.isLineBreak r (by simp [hr])) hgaps
  exact ⟨lexemes bs, lexemes as, hb, hblank, hends⟩

theorem StartsWith.unclosed {b r : List Char} {a : Atom} (h : StartsWith b a r) (hb : Unclosed b) :
    Unclosed r := by
  obtain ⟨lead, rfl, -, -⟩ := h
  exact hb.of_append.2.of_append.2

theorem HasKey.exists_readKey {r key tail : List Char} (h : HasKey r key tail) (hr : Unclosed r)
    (p : Profile) :
    ∃ rs ts, Inside p true r rs ∧ Inside p false tail ts ∧ Unclosed tail ∧
      ∀ a t, readKey a t (joined rs) = .ok (⟨String.ofList key⟩, joined ts) := by
  have htail : Unclosed tail := by
    obtain ⟨indent, rfl, -⟩ := h.text
    exact hr.of_append.2.of_append.2
  obtain ⟨ts, hts, -⟩ := exists_inside p false htail
  obtain ⟨gs, hrs, hgs⟩ := h.inside hts
  exact ⟨_, ts, hrs, hts, htail, readKey_joined hgs key ts⟩

theorem classify_conditional {inner r : List Token} {pol : Polarity}
    (h : skipGaps inner = atomToken pol.atom :: r) :
    classify inner = classifyConditional inner.length pol (atomToken pol.atom) r := by
  unfold classify
  rw [h]
  cases pol <;> rfl

/-- Without a directive word at its start a comment is plain. -/
theorem classify_text {p : Profile} {b : List Char} {ps : List Piece} (hps : Inside p false b ps)
    (h : ¬∃ a r, StartsWith b a r) : classify (joined ps) = .ok .plain := by
  unfold classify
  cases hskip : skipGaps (joined ps) with
  | nil => rfl
  | cons t r =>
    cases hkind : t.kind with
    | atom a =>
      obtain ⟨x, hx⟩ := hps.startsWith hskip hkind
      exact absurd ⟨a, x, hx⟩ h
    | _ => simp only [hkind]

section

variable {p : Profile} {b r : List Char} {ps : List Piece} (hb : Unclosed b)
  (hps : Inside p false b ps)
include hb hps

/-- A region with its key. -/
theorem StartsWith.classify_region {pol : Polarity} (h : StartsWith b pol.atom r)
    {key tail : List Char} (hkey : HasKey r key tail) :
    ∃ ts, Inside p false tail ts ∧ Unclosed tail ∧ ∃ size,
      classify (joined ps) = match cutAt (.atom .ending) (joined ts) with
        | some cut => .ok (.inline pol ⟨String.ofList key⟩ (size - (joined ts).length) cut.inner)
        | none =>
          if (joined ts).all Token.isGap then .ok (.opening pol ⟨String.ofList key⟩)
          else .error (.missingEnd pol.atom (String.ofList key) 1 1) := by
  obtain ⟨rs, ts, hrs, hts, htail, hread⟩ := hkey.exists_readKey (h.unclosed hb) p
  have htakes : pol.atom.takesKey = true := by cases pol <;> rfl
  rw [← htakes] at hrs
  have hskip := h.skipGaps_eq hps hrs
  refine ⟨ts, hts, htail, (joined ps).length, ?_⟩
  rw [classify_conditional hskip, classifyConditional, hread]
  rfl

/-- An exclusion with its key. -/
theorem StartsWith.classify_exclusion (h : StartsWith b .fileExcludeIf r) {key tail : List Char}
    (hkey : HasKey r key tail) :
    ∃ ts, Inside p false tail ts ∧ classify (joined ps) =
      .ok (if (joined ts).all Token.isGap then .fileExclusion ⟨String.ofList key⟩ else .plain) := by
  obtain ⟨rs, ts, hrs, hts, -, hread⟩ := hkey.exists_readKey (h.unclosed hb) p
  have hskip := h.skipGaps_eq hps hrs
  refine ⟨ts, hts, ?_⟩
  unfold classify
  rw [hskip]
  simp only [atomToken, Piece.bare, hread]
  rfl

/-- A word that needs a key and has none. -/
theorem StartsWith.classify_keyless {a : Atom} (ha : a ∈ [.includeIf, .excludeIf, .fileExcludeIf])
    (h : StartsWith b a r) (hkey : ¬∃ key tail, HasKey r key tail) :
    classify (joined ps) = .error (.missingKey a 1 1) := by
  obtain ⟨rs, hrs, -⟩ := exists_inside p true (h.unclosed hb)
  have hread := hrs.readKey_keyless (h.unclosed hb) hkey
  simp only [List.mem_cons, List.not_mem_nil, or_false] at ha
  have hconditional : ∀ pol : Polarity, a = pol.atom →
      classify (joined ps) = .error (.missingKey a 1 1) := by
    rintro pol rfl
    have htakes : pol.atom.takesKey = true := by cases pol <;> rfl
    rw [← htakes] at hrs
    rw [classify_conditional (h.skipGaps_eq hps hrs), classifyConditional, hread]
    rfl
  rcases ha with rfl | rfl | rfl
  · exact hconditional .positive rfl
  · exact hconditional .negative rfl
  · have hskip := h.skipGaps_eq hps hrs
    unfold classify
    rw [hskip]
    simp only [atomToken, Piece.bare, hread]
    rfl

/-- A license with its key, or without one. -/
theorem StartsWith.classify_license (h : StartsWith b .license r) :
    (∀ key tail, HasKey r key tail →
        classify (joined ps) = .ok (.license (some (String.ofList key)))) ∧
      ((¬∃ key tail, HasKey r key tail) → classify (joined ps) = .ok (.license none)) := by
  obtain ⟨rs, hrs, -⟩ := exists_inside p true (h.unclosed hb)
  have hskip := h.skipGaps_eq hps hrs
  constructor
  · intro key tail hkey
    obtain ⟨rs', ts, -, hts, -⟩ := hkey.exists_readKey (h.unclosed hb) p
    obtain ⟨gs, hinside, hgs⟩ := hkey.inside hts
    have hword : skipGaps (joined (gs ++ ⟨.key, key, .comment⟩ :: ts)) =
        Piece.bare ⟨.key, key, .comment⟩ :: joined ts := skipGaps_joined hgs (Or.inl rfl) ts
    rw [hrs.unique hinside] at hskip
    unfold classify
    rw [hskip]
    simp only [atomToken, Piece.bare, hword]
    rfl
  · intro hkey
    have hnone := hrs.keyless (h.unclosed hb) hkey
    unfold classify
    rw [hskip]
    simp only [atomToken, Piece.bare]
    cases hrest : skipGaps (joined rs) with
    | nil => rfl
    | cons k t =>
      have hk : k.kind ≠ .key := hnone k (by simp [hrest])
      simp only [if_neg hk]

/-- A word that stands alone has nothing but blanks behind it. -/
theorem StartsWith.classify_alone {a : Atom} {d : Directive}
    (hd : (a, d) ∈ [(.alternative, .alternative), (.ending, .closing)]) (h : StartsWith b a r) :
    (AllBlank r → classify (joined ps) = .ok d) ∧
      (¬AllBlank r → classify (joined ps) = .ok .plain) := by
  obtain ⟨rs, hrs, -⟩ := exists_inside p false (h.unclosed hb)
  have hgaps := hrs.all_isGap_iff
  have hword : classify (joined ps) =
      .ok (if (joined rs).all Token.isGap then d else .plain) := by
    simp only [List.mem_cons, Prod.mk.injEq, List.not_mem_nil, or_false] at hd
    rcases hd with ⟨rfl, rfl⟩ | ⟨rfl, rfl⟩
    · have hskip := h.skipGaps_eq hps hrs
      unfold classify
      rw [hskip]
      rfl
    · have hskip := h.skipGaps_eq hps hrs
      unfold classify
      rw [hskip]
      rfl
  constructor
  · intro hr
    rw [hword, if_pos (hgaps.2 hr)]
  · intro hr
    rw [hword, if_neg (mt hgaps.1 hr)]

/-- **What the grammar says of a text, its comment is read as.** -/
theorem Says.classified {m : Meaning} (h : Says b m) :
    Meaning.of? (classify (joined ps)) = some m := by
  cases h with
  | closing h =>
    obtain ⟨r, hstarts, hr⟩ := startsWith_of_trimBlank h
    rw [(hstarts.classify_alone hb hps (d := .closing) (by simp)).1 hr]
    rfl
  | alternative h =>
    obtain ⟨r, hstarts, hr⟩ := startsWith_of_trimBlank h
    rw [(hstarts.classify_alone hb hps (d := .alternative) (by simp)).1 hr]
    rfl
  | keyless ha h hkey =>
    rw [h.classify_keyless hb hps ha hkey]
    rfl
  | inline h hkey hend =>
    obtain ⟨ts, hts, htail, size, hclassify⟩ := h.classify_region hb hps hkey
    obtain ⟨cut, hcut, hbody⟩ := hts.cutAt_ending htail hend
    rw [hclassify, hcut]
    simp [Meaning.of?, hbody]
  | opening h hkey hblank =>
    obtain ⟨ts, hts, htail, size, hclassify⟩ := h.classify_region hb hps hkey
    rw [hclassify, hts.cutAt_none (not_endsBehind_of_allBlank hblank)]
    simp [Meaning.of?, hts.all_isGap_iff.2 hblank]
  | endless h hkey hend hblank =>
    obtain ⟨ts, hts, htail, size, hclassify⟩ := h.classify_region hb hps hkey
    rw [hclassify, hts.cutAt_none hend]
    simp only [if_neg (mt hts.all_isGap_iff.1 hblank)]
    simp [Meaning.of?]
  | fileExclusion h hkey hblank =>
    obtain ⟨ts, hts, hclassify⟩ := h.classify_exclusion hb hps hkey
    rw [hclassify, if_pos (hts.all_isGap_iff.2 hblank)]
    simp [Meaning.of?]
  | strayExclusion h hkey hblank =>
    obtain ⟨ts, hts, hclassify⟩ := h.classify_exclusion hb hps hkey
    rw [hclassify, if_neg (mt hts.all_isGap_iff.1 hblank)]
    rfl
  | license h hkey =>
    rw [(h.classify_license hb hps).1 _ _ hkey]
    simp [Meaning.of?]
  | keylessLicense h hkey =>
    rw [(h.classify_license hb hps).2 hkey]
    rfl
  | text h =>
    rw [classify_text hps h]
    rfl
  | stray ha h hr =>
    simp only [List.mem_cons, List.not_mem_nil, or_false] at ha
    rcases ha with rfl | rfl
    · rw [(h.classify_alone hb hps (d := .alternative) (by simp)).2 hr]
      rfl
    · rw [(h.classify_alone hb hps (d := .closing) (by simp)).2 hr]
      rfl

end

/-! ### The main statement -/

theorem Meaning.of?_blur (result : Except Error Directive) :
    Meaning.of? (blur Directive.bare result) = Meaning.of? result := by
  cases result with
  | error e => cases e <;> rfl
  | ok d =>
    cases d with
    | inline pol key lead body =>
      simp only [blur, Directive.bare, Meaning.of?, textOf_bare]
    | _ => rfl

/-- **A comment is read as its text says.**  A body that is not empty, starts with no star and
    has none of the delimiters in it makes one closed block comment, and what that comment is
    classified as is what the grammar has for the body. -/
theorem classify_iff_grammar {p : Profile} (hp : p.blockComments = true) {b : String}
    (hne : b ≠ "") (hstar : b.toList.head? ≠ some '*')
    (hclose : ¬blockCloser.lexeme <:+: b.toList) (hopen : ¬htmlOpener.lexeme <:+: b.toList) :
    ∃ inner, IsSingleComment (tokenize p ("/*" ++ b ++ "*/")) ⟨.blockOpen, ['/', '*'], .code⟩
        blockCloser inner ∧ textOf inner = b.toList ∧
      ∀ m, Meaning.of? (classify inner) = some m ↔ Says b.toList m := by
  have hb : Unclosed b.toList := ⟨hclose, hopen⟩
  obtain ⟨ps, hps, hkinds⟩ := exists_inside p false hb
  have hhead : (b.toList ++ ['*', '/']).head? ≠ some '*' := by
    cases hlist : b.toList with
    | nil => exact absurd (by simpa using hlist) hne
    | cons c r => simpa [hlist] using hstar
  have htext : ("/*" ++ b ++ "*/").toList = '/' :: '*' :: (b.toList ++ ['*', '/']) := by simp
  have hscan := scan_blockOpener hp true hhead
  rw [hps, ← htext] at hscan
  obtain ⟨inner, hsingle, hinner⟩ := exists_inner_of_scan .block hkinds hscan
  have hjoined : inner.map Token.bare = joined ps := by
    rw [joined, ← hinner, List.map_map]
    rfl
  refine ⟨inner, hsingle, ?_, ?_⟩
  · rw [← lexemes_map_toPiece, hinner, lexemes_coalesce, hps.lexemes_eq]
  · have hsame : Meaning.of? (classify inner) = Meaning.of? (classify (joined ps)) := by
      rw [← hjoined, classify_bare, Meaning.of?_blur]
    intro m
    rw [hsame]
    constructor
    · intro hm
      obtain ⟨m', hsaid⟩ := exists_meaning b.toList
      have hm' := hsaid.classified hb hps
      rw [hm] at hm'
      rwa [Option.some.inj hm']
    · exact fun hsaid => hsaid.classified hb hps

/-- A wide space before the word, a tab before its key, and a line break behind it. -/
theorem classify_iff_grammar_opening :
    ∃ inner, IsSingleComment
        (tokenize Language.java.profile ("/*" ++ "\u2003@exclude-if\tA|B \n" ++ "*/"))
        ⟨.blockOpen, ['/', '*'], .code⟩ blockCloser inner ∧
      Meaning.of? (classify inner) = some (.opening .negative "A|B".toList) := by
  obtain ⟨inner, hsingle, -, hsaid⟩ := classify_iff_grammar (p := Language.java.profile)
    (b := "\u2003@exclude-if\tA|B \n") rfl (by decide +kernel) (by decide +kernel)
    (by decide +kernel) (by decide +kernel)
  have hstarts : StartsWith "\u2003@exclude-if\tA|B \n".toList Polarity.negative.atom
      "\tA|B \n".toList :=
    ⟨"\u2003".toList, by decide +kernel, by simp [isBlank, blankRanges, AllBlank],
      endsWord_cons (by decide) (by decide) _⟩
  have hkey : HasKey "\tA|B \n".toList "A|B".toList " \n".toList :=
    ⟨⟨"\t".toList, by decide +kernel, by simp [isIndent]⟩, by decide,
      by simp [isBoundary, isIndent, isBreak], endsKey_cons rfl _⟩
  have hblank : AllBlank " \n".toList := by simp [AllBlank, isBlank, blankRanges]
  exact ⟨inner, hsingle, (hsaid _).2 (.opening hstarts hkey hblank)⟩

end FeatureCut
