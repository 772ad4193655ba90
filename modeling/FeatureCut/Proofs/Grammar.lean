/-
  FeatureCut/Proofs/Grammar.lean
  ==============================
  **The grammar of token lists.**

  Searching, classification and evaluation take for granted that a list of tokens
  is not just any list: comments open and close in turn, html comments stand in
  comments and do not nest, a key has its atom before it.  `IsTokenList` says all
  of it, and `tokenize_isTokenList` that every source in every profile is cut into
  such a list.

  The scanner works lexeme by lexeme, so the proof does too.  A `Place` is what is
  left of the scanner's mode if only the grammar counts, and `Reads` lists all that
  one piece can be at a place (`Mode.move_readsAll`).  Joining neighbouring text
  keeps a list readable (`Accepts.coalesce`).  After that the scanner is out of
  sight: each part of the grammar is a fact about what one piece does, carried
  along the list.
-/
import Mathlib.Data.List.Chain
import FeatureCut.Proofs.Seam

namespace FeatureCut

/-! ### Lexemes -/

/-- Text that has something on it and stays on its line. -/
structure IsInline (cs : List Char) : Prop where
  ne_nil : cs ≠ []
  unbroken : ∀ c ∈ cs, isBreak c = false

theorem isInline_of_all {cs : List Char} (hne : cs.isEmpty = false)
    (h : cs.all (fun c => !isBreak c) = true) : IsInline cs :=
  ⟨by simpa using hne, by simpa using h⟩

def IsLineBreak (cs : List Char) : Prop :=
  cs = ['\n'] ∨ cs = ['\r'] ∨ cs = ['\r', '\n'] ∨ cs = ['\n', '\r']

theorem isLineBreak_singleton {c : Char} (hc : isBreak c = true) : IsLineBreak [c] := by
  rcases isBreak_iff.1 hc with rfl | rfl
  · exact Or.inr (Or.inl rfl)
  · exact Or.inl rfl

theorem isLineBreak_pair {c d : Char} (h : isBreakPair c d = true) : IsLineBreak [c, d] := by
  simp only [isBreakPair, Bool.and_eq_true, bne_iff_ne] at h
  obtain ⟨⟨hc, hd⟩, hne⟩ := h
  rcases isBreak_iff.1 hc with rfl | rfl <;> rcases isBreak_iff.1 hd with rfl | rfl
  · exact absurd rfl hne
  · exact Or.inr (Or.inr (Or.inl rfl))
  · exact Or.inr (Or.inr (Or.inr rfl))
  · exact absurd rfl hne

theorem isLineBreak_breakFrom {c : Char} (hc : isBreak c = true) (r : List Char) :
    IsLineBreak (breakFrom c r).1 := by
  cases r with
  | nil => exact isLineBreak_singleton hc
  | cons d r =>
    rw [breakFrom]
    split
    · rename_i hpair
      exact isLineBreak_pair hpair
    · exact isLineBreak_singleton hc

theorem exists_breakFrom (c : Char) (r : List Char) : ∃ t x, breakFrom c r = (c :: t, x) := by
  cases r with
  | nil => exact ⟨[], [], rfl⟩
  | cons d r =>
    by_cases hpair : isBreakPair c d = true
    · exact ⟨[d], r, by rw [breakFrom, if_pos hpair]⟩
    · exact ⟨[], d :: r, by rw [breakFrom, if_neg hpair]⟩

def Segment.IsProper : Segment → Prop
  | .text cs => IsInline cs
  | .eol cs => IsLineBreak cs

theorem Segment.isProper_attach (c : Char) {ss : List Segment} (h : ∀ s ∈ ss, s.IsProper) :
    ∀ s ∈ Segment.attach c ss, s.IsProper := by
  unfold Segment.attach
  by_cases hc : isBreak c = true
  · rw [if_pos hc]
    intro s hs
    rcases List.mem_cons.1 hs with rfl | hs
    · exact isLineBreak_singleton hc
    · exact h s hs
  · rw [if_neg hc]
    have hunbroken : isBreak c = false := by simpa using hc
    split
    · rename_i cs rest
      intro s hs
      rcases List.mem_cons.1 hs with rfl | hs
      · have hcs : IsInline cs := h (.text cs) (by simp)
        refine ⟨by simp, ?_⟩
        intro d hd
        rcases List.mem_cons.1 hd with rfl | hd
        · exact hunbroken
        · exact hcs.unbroken d hd
      · exact h s (by simp [hs])
    · intro s hs
      rcases List.mem_cons.1 hs with rfl | hs
      · exact ⟨by simp, by simpa using hunbroken⟩
      · exact h s hs

theorem Segment.isProper_segments (cs : List Char) : ∀ s ∈ segments cs, s.IsProper := by
  fun_induction segments cs with
  | case1 => simp
  | case2 c => exact Segment.isProper_attach c (by simp)
  | case3 c d r hpair ih =>
    intro s hs
    rcases List.mem_cons.1 hs with rfl | hs
    · exact isLineBreak_pair hpair
    · exact ih s hs
  | case4 c d r hpair ih => exact Segment.isProper_attach c ih

/-! ### Places and what is read there -/

/-- The scanner's mode as far as the grammar goes: whether the line is fresh does
    not count. -/
inductive Place where
  | code
  | comment (enclosure : Enclosure) (due : Bool)

def Mode.place : Mode → Place
  | .code _ => .code
  | .comment e due => .comment e due

def blockCloser : Piece := ⟨.blockClose, ['*', '/'], .comment⟩

/-- The end of a line comment, which has no characters of its own. -/
def lineCloser : Piece := ⟨.blockClose, [], .comment⟩

def htmlOpener : Piece := ⟨.htmlOpen, ['<', '!', '-', '-'], .comment⟩

def htmlCloser : Piece := ⟨.htmlClose, ['-', '-', '>'], .html⟩

/-- An opening delimiter and the closing one that goes with it. -/
inductive Delimits : Piece → Piece → Prop
  | block : Delimits ⟨.blockOpen, ['/', '*'], .code⟩ blockCloser
  | doc : Delimits ⟨.docOpen, ['/', '*', '*'], .code⟩ blockCloser
  | hash : Delimits ⟨.blockOpen, ['#'], .code⟩ lineCloser
  | hyphens : Delimits ⟨.blockOpen, ['-', '-'], .code⟩ lineCloser

/-- An opening delimiter is no indent. -/
theorem Delimits.content {o c : Piece} (h : Delimits o c) :
    ∃ d ∈ o.lexeme, isIndent d = false := by
  cases h with
  | block => exact ⟨'/', by simp, by decide⟩
  | doc => exact ⟨'/', by simp, by decide⟩
  | hash => exact ⟨'#', by simp, by decide⟩
  | hyphens => exact ⟨'-', by simp, by decide⟩

/-- All that one piece can be at a place, and the place after it.  Text keeps a key
    due as long as it holds only spaces and tabs. -/
inductive Reads : Place → Piece → Place → Prop
  | text {cs : List Char} (h : IsInline cs) : Reads .code ⟨.text, cs, .code⟩ .code
  | eol {cs : List Char} (h : IsLineBreak cs) : Reads .code ⟨.eol, cs, .code⟩ .code
  | blockOpen {opener : Piece} (h : Delimits opener blockCloser) :
      Reads .code opener (.comment .block false)
  | lineOpen {opener : Piece} (h : Delimits opener lineCloser) :
      Reads .code opener (.comment .line false)
  | blockClose {due : Bool} : Reads (.comment .block due) blockCloser .code
  | lineClose {due : Bool} : Reads (.comment .line due) lineCloser .code
  | htmlOpen {due : Bool} : Reads (.comment .block due) htmlOpener (.comment .html false)
  | htmlClose {due : Bool} : Reads (.comment .html due) htmlCloser (.comment .block false)
  | innerText {e : Enclosure} {due : Bool} {cs : List Char} (h : IsInline cs) :
      Reads (.comment e due) ⟨.text, cs, e.context⟩ (.comment e (due && cs.all isIndent))
  | innerEol {e : Enclosure} {due : Bool} {cs : List Char} (he : e ≠ .line)
      (h : IsLineBreak cs) : Reads (.comment e due) ⟨.eol, cs, e.context⟩ (.comment e false)
  | atom {e : Enclosure} {due : Bool} (a : Atom) :
      Reads (.comment e due) ⟨.atom a, a.name.toList, e.context⟩ (.comment e a.takesKey)
  | key {e : Enclosure} {cs : List Char} (h : IsInline cs) :
      Reads (.comment e true) ⟨.key, cs, e.context⟩ (.comment e false)

inductive ReadsAll : Place → List Piece → Place → Prop
  | nil {a : Place} : ReadsAll a [] a
  | cons {a b c : Place} {q : Piece} {qs : List Piece} :
      Reads a q b → ReadsAll b qs c → ReadsAll a (q :: qs) c

/-- A list that can be read to the end of the source.  The end may come in a
    comment, but never in a line comment. -/
inductive Accepts : Place → List Piece → Prop
  | code : Accepts .code [⟨.eof, [], .code⟩]
  | comment {e : Enclosure} {due : Bool} (he : e ≠ .line) :
      Accepts (.comment e due) [⟨.eof, [], e.context⟩]
  | cons {a b : Place} {q : Piece} {qs : List Piece} :
      Reads a q b → Accepts b qs → Accepts a (q :: qs)

theorem ReadsAll.single {a b : Place} {q : Piece} (h : Reads a q b) : ReadsAll a [q] b :=
  .cons h .nil

theorem ReadsAll.accepts_append {a b : Place} {ps qs : List Piece} (h : ReadsAll a ps b)
    (hqs : Accepts b qs) : Accepts a (ps ++ qs) := by
  induction h with
  | nil => exact hqs
  | cons hread _ ih => exact .cons hread (ih hqs)

theorem Accepts.exists_readsAll {a : Place} {ps qs : List Piece} (h : Accepts a (ps ++ qs))
    (hqs : qs ≠ []) : ∃ b, ReadsAll a ps b ∧ Accepts b qs := by
  induction ps generalizing a with
  | nil => exact ⟨a, .nil, h⟩
  | cons p ps ih =>
    have hlong : ps ++ qs ≠ [] := by simp [hqs]
    rw [List.cons_append] at h
    generalize hl : ps ++ qs = l at h hlong
    cases h with
    | code => exact absurd rfl hlong
    | comment he => exact absurd rfl hlong
    | cons hread hrest =>
      subst hl
      obtain ⟨b, hreads, haccepts⟩ := ih hrest
      exact ⟨b, .cons hread hreads, haccepts⟩

theorem Accepts.exists_reads {a : Place} {q : Piece} {qs : List Piece} (h : Accepts a (q :: qs))
    (hq : q.kind ≠ .eof) : ∃ b, Reads a q b ∧ Accepts b qs := by
  generalize hl : q :: qs = l at h
  cases h with
  | code =>
    cases hl
    exact absurd rfl hq
  | comment he =>
    cases hl
    exact absurd rfl hq
  | cons hread hrest =>
    cases hl
    exact ⟨_, hread, hrest⟩

/-! ### The scanner reads by these rules -/

theorem literalPieces_readsAll (body : List Char) :
    ReadsAll .code (literalPieces body) .code := by
  have hproper := Segment.isProper_segments body
  unfold literalPieces
  generalize segments body = ss at hproper
  induction ss with
  | nil => exact .nil
  | cons s ss ih =>
    have htail := ih fun t ht => hproper t (by simp [ht])
    have hhead := hproper s (by simp)
    cases s with
    | text cs => exact .cons (.text hhead) htail
    | eol cs => exact .cons (.eol hhead) htail

theorem slashMove_readsAll (r : List Char) :
    ReadsAll .code (slashMove r).pieces (slashMove r).mode.place := by
  unfold slashMove
  split
  · exact .single (.text (isInline_of_all rfl rfl))
  · exact .single (.blockOpen .doc)
  · exact .single (.blockOpen .block)
  · exact .single (.text (isInline_of_all rfl rfl))

theorem lineMove_readsAll {marker : List Char}
    (hmarker : Delimits ⟨.blockOpen, marker, .code⟩ lineCloser) (hinline : IsInline marker)
    (r : List Char) : ReadsAll .code (lineMove marker r).pieces (lineMove marker r).mode.place := by
  unfold lineMove
  split
  · exact .single (.lineOpen hmarker)
  · refine .single (.text ⟨by simp [hinline.ne_nil], ?_⟩)
    intro c hc
    rcases List.mem_append.1 hc with hc | hc
    · exact hinline.unbroken c hc
    · exact mem_firstLine c hc

theorem codeMove_readsAll (p : Profile) (fresh : Bool) (c : Char) (r : List Char) :
    ReadsAll .code (codeMove p fresh c r).pieces (codeMove p fresh c r).mode.place := by
  unfold codeMove
  split
  · rename_i hbreak
    exact .single (.eol (isLineBreak_breakFrom hbreak r))
  rename_i hbreak
  split
  · exact slashMove_readsAll r
  split
  · exact literalPieces_readsAll _
  split
  · exact lineMove_readsAll .hash (isInline_of_all rfl rfl) r
  split
  · exact lineMove_readsAll .hyphens (isInline_of_all rfl rfl) _
  · exact .single (.text ⟨by simp, by simpa using hbreak⟩)

theorem commentBreakMove_readsAll (e : Enclosure) (due : Bool) {c : Char}
    (hc : isBreak c = true) (r : List Char) :
    ReadsAll (.comment e due) (commentBreakMove e c r).pieces
      (commentBreakMove e c r).mode.place := by
  have hbreak := isLineBreak_breakFrom hc r
  cases e with
  | line => exact .cons .lineClose (.single (.eol hbreak))
  | block => exact .single (.innerEol Enclosure.noConfusion hbreak)
  | html => exact .single (.innerEol Enclosure.noConfusion hbreak)

theorem Atom.name_of_ofLexeme? {cs : List Char} {a : Atom} (h : Atom.ofLexeme? cs = some a) :
    a.name.toList = cs := by
  simpa using List.find?_some h

/-- Text that is not all spaces and tabs ends the wait for a key. -/
theorem Reads.idleText {e : Enclosure} {due : Bool} {cs : List Char} (h : IsInline cs)
    (hcs : cs.all isIndent = false) :
    Reads (.comment e due) ⟨.text, cs, e.context⟩ (.comment e false) := by
  have hread : Reads (.comment e due) ⟨.text, cs, e.context⟩
      (.comment e (due && cs.all isIndent)) := .innerText h
  rwa [hcs, Bool.and_false] at hread

theorem atomMove_readsAll (e : Enclosure) (due : Bool) (r : List Char) :
    ReadsAll (.comment e due) (atomMove e r).pieces (atomMove e r).mode.place := by
  unfold atomMove
  dsimp only
  split
  · rename_i a ha
    rw [← Atom.name_of_ofLexeme? ha]
    exact .single (.atom a)
  · refine .single (.idleText ⟨by simp, ?_⟩ (by simp [isIndent]))
    intro c hc
    rcases List.mem_cons.1 hc with rfl | hc
    · decide
    · exact isBreak_of_mem_atomTail c hc

theorem delimiterMove_readsAll (p : Profile) (e : Enclosure) (due : Bool) {c : Char}
    (hbreak : isBreak c = false) (hindent : isIndent c = false) (r : List Char) :
    ReadsAll (.comment e due) (delimiterMove p e c r).pieces
      (delimiterMove p e c r).mode.place := by
  fun_cases delimiterMove p e c r with
  | case1 t he =>
    subst he
    exact .single .blockClose
  | case2 t he => exact .single (.idleText (isInline_of_all rfl rfl) (by simp [isIndent]))
  | case3 t he =>
    obtain ⟨rfl, -⟩ : e = .block ∧ p.htmlComments = true := by simpa using he
    exact .single .htmlOpen
  | case4 t he => exact .single (.idleText (isInline_of_all rfl rfl) (by simp [isIndent]))
  | case5 t he =>
    subst he
    exact .single .htmlClose
  | case6 t he => exact .single (.idleText (isInline_of_all rfl rfl) (by simp [isIndent]))
  | case7 => exact .single (.idleText ⟨by simp, by simpa using hbreak⟩ (by simpa using hindent))

theorem commentMove_readsAll (p : Profile) (e : Enclosure) (due : Bool) (c : Char)
    (r : List Char) :
    ReadsAll (.comment e due) (commentMove p e due c r).pieces
      (commentMove p e due c r).mode.place := by
  unfold commentMove
  split
  · rename_i hbreak
    exact commentBreakMove_readsAll e due hbreak r
  rename_i hbreak
  have hunbroken : isBreak c = false := by simpa using hbreak
  have hinline : IsInline [c] := ⟨by simp, by simpa using hunbroken⟩
  split
  · exact atomMove_readsAll e due r
  split
  · rename_i hindent
    have hread : Reads (.comment e due) ⟨.text, [c], e.context⟩
        (.comment e (due && [c].all isIndent)) := .innerText hinline
    rw [List.all_cons, hindent, List.all_nil, Bool.and_self, Bool.and_true] at hread
    exact .single hread
  rename_i hindent
  have hword : isIndent c = false := by simpa using hindent
  split
  · exact delimiterMove_readsAll p e due hunbroken hword r
  split
  · rename_i hdue
    subst hdue
    refine .single (.key ⟨by simp, ?_⟩)
    intro d hd
    rcases List.mem_cons.1 hd with rfl | hd
    · exact hunbroken
    · have hboundary : isBoundary d = false := by simpa using List.mem_takeWhile_imp hd
      by_contra hbreak
      rw [isBoundary_of_isBreak (by simpa using hbreak)] at hboundary
      cases hboundary
  · exact .single (.idleText hinline (by simpa using hword))

/-- A move reads its pieces by the rules. -/
theorem Mode.move_readsAll (p : Profile) (m : Mode) (c : Char) (r : List Char) :
    ReadsAll m.place (m.move p c r).pieces (m.move p c r).mode.place := by
  cases m with
  | code fresh => exact codeMove_readsAll p fresh c r
  | comment e due => exact commentMove_readsAll p e due c r

theorem Mode.accepts_finish (m : Mode) : Accepts m.place m.finish := by
  cases m with
  | code fresh => exact .code
  | comment e due =>
    cases e with
    | line => exact .cons .lineClose .code
    | block => exact .comment Enclosure.noConfusion
    | html => exact .comment Enclosure.noConfusion

theorem scan_accepts (p : Profile) (m : Mode) (cs : List Char) : Accepts m.place (scan p m cs) := by
  fun_induction scan p m cs with
  | case1 m => exact m.accepts_finish
  | case2 m c r ih => exact (m.move_readsAll p c r).accepts_append ih

/-! ### Kinds that a move does not read -/

theorem lineMove_kind (marker r : List Char) :
    ∀ q ∈ (lineMove marker r).pieces, q.kind ≠ .eol ∧ q.kind ≠ .docOpen := by
  unfold lineMove
  split <;> simp [Move.text]

/-- In a comment, only a line break is read as one. -/
theorem commentMove_kind {p : Profile} {e : Enclosure} {due : Bool} {c : Char}
    (hc : isBreak c = false) (r : List Char) :
    ∀ q ∈ (commentMove p e due c r).pieces, q.kind ≠ .eol ∧ q.kind ≠ .docOpen := by
  unfold commentMove
  rw [hc, if_neg Bool.false_ne_true]
  split
  · unfold atomMove
    dsimp only
    split <;> simp [Move.text]
  split
  · simp [Move.text]
  split
  · fun_cases delimiterMove p e c r <;> simp [Move.text]
  split <;> simp [Move.text]

/-! ### Joining text -/

theorem IsInline.append {cs ds : List Char} (hcs : IsInline cs) (hds : IsInline ds) :
    IsInline (cs ++ ds) := by
  refine ⟨by simp [hcs.ne_nil], ?_⟩
  intro d hd
  rcases List.mem_append.1 hd with hd | hd
  · exact hcs.unbroken d hd
  · exact hds.unbroken d hd

theorem Reads.of_text {a b : Place} {q : Piece} (h : Reads a q b) (hkind : q.kind = .text) :
    IsInline q.lexeme ∧ (a = .code ∧ b = .code ∧ q.context = .code ∨
      ∃ e due, a = .comment e due ∧ b = .comment e (due && q.lexeme.all isIndent) ∧
        q.context = e.context) := by
  cases h with
  | text hcs => exact ⟨hcs, Or.inl ⟨rfl, rfl, rfl⟩⟩
  | innerText hcs => exact ⟨hcs, Or.inr ⟨_, _, rfl, rfl, rfl⟩⟩
  | blockOpen h => cases h <;> cases hkind
  | lineOpen h => cases h <;> cases hkind
  | _ => cases hkind

/-- Two pieces of text in a row can be read as one. -/
theorem Reads.join {a b c : Place} {q r : Piece} (hq : Reads a q b) (hr : Reads b r c)
    (hkind : q.kind = .text) (hkind' : r.kind = .text) :
    Reads a ⟨.text, q.lexeme ++ r.lexeme, q.context⟩ c := by
  obtain ⟨hcs, hplace⟩ := hq.of_text hkind
  obtain ⟨hds, hplace'⟩ := hr.of_text hkind'
  have hjoined := hcs.append hds
  rcases hplace with ⟨rfl, rfl, hcontext⟩ | ⟨e, due, rfl, rfl, hcontext⟩
  · rcases hplace' with ⟨-, rfl, -⟩ | ⟨e, due, hcode, -⟩
    · rw [hcontext]
      exact .text hjoined
    · cases hcode
  · rcases hplace' with ⟨hcomment, -⟩ | ⟨e', due', hcomment, rfl, -⟩
    · cases hcomment
    · cases hcomment
      rw [hcontext, Bool.and_assoc, ← List.all_append]
      exact .innerText hjoined

def Separate (q r : Piece) : Prop := ¬(q.kind = .text ∧ r.kind = .text)

theorem coalesce_cons (q : Piece) (qs : List Piece) :
    (coalesce (q :: qs) = q :: coalesce qs ∧ ∀ r ∈ (coalesce qs).head?, Separate q r) ∨
      ∃ r rs, coalesce qs = r :: rs ∧ q.kind = .text ∧ r.kind = .text ∧
        coalesce (q :: qs) = ⟨.text, q.lexeme ++ r.lexeme, q.context⟩ :: rs := by
  rw [coalesce]
  split
  · rename_i r rs hq hrs
    split
    · rename_i hr
      exact Or.inr ⟨r, rs, hrs, hq, hr, rfl⟩
    · rename_i hr
      refine Or.inl ⟨by rw [hrs], ?_⟩
      rw [hrs]
      rintro s hs ⟨-, hkind⟩
      cases hs
      exact hr hkind
  · rename_i hnot
    refine Or.inl ⟨rfl, ?_⟩
    rintro r hr ⟨hq, -⟩
    cases hqs : coalesce qs with
    | nil =>
      rw [hqs] at hr
      cases hr
    | cons s rs => exact hnot s rs hq hqs

theorem Accepts.coalesce {a : Place} {ps : List Piece} (h : Accepts a ps) :
    Accepts a (coalesce ps) := by
  induction h with
  | code => exact .code
  | comment he => exact .comment he
  | @cons a b q qs hread _ ih =>
    rcases coalesce_cons q qs with ⟨hsame, -⟩ | ⟨r, rs, hrs, hq, hr, hjoin⟩
    · rw [hsame]
      exact .cons hread ih
    · rw [hjoin]
      rw [hrs] at ih
      cases ih with
      | code => cases hr
      | comment he => cases hr
      | cons hnext hrest => exact .cons (hread.join hnext hq hr) hrest

theorem coalesce_isChain (ps : List Piece) : (coalesce ps).IsChain Separate := by
  induction ps with
  | nil => exact .nil
  | cons q qs ih =>
    rcases coalesce_cons q qs with ⟨hsame, hsep⟩ | ⟨r, rs, hrs, hq, hr, hjoin⟩
    · rw [hsame]
      exact List.isChain_cons.2 ⟨hsep, ih⟩
    · rw [hjoin]
      rw [hrs] at ih
      obtain ⟨hsep, htail⟩ := List.isChain_cons.1 ih
      refine List.isChain_cons.2 ⟨?_, htail⟩
      rintro s hs ⟨-, hkind⟩
      exact hsep s hs ⟨hr, hkind⟩

theorem forall_mem_coalesce {P : Piece → Prop} {ps : List Piece}
    (hjoin : ∀ q r, q.kind = .text → P q → P r → r.kind = .text →
      P ⟨.text, q.lexeme ++ r.lexeme, q.context⟩)
    (h : ∀ q ∈ ps, P q) : ∀ q ∈ coalesce ps, P q := by
  induction ps with
  | nil => simp [coalesce]
  | cons q ps ih =>
    have htail := ih fun r hr => h r (List.mem_cons_of_mem _ hr)
    have hq := h q (List.mem_cons_self ..)
    rcases coalesce_cons q ps with ⟨hsame, -⟩ | ⟨r, rs, hps, hqk, hrk, hjoined⟩
    · rw [hsame]
      intro r hr
      rcases List.mem_cons.1 hr with rfl | hr
      · exact hq
      · exact htail r hr
    · rw [hps] at htail
      rw [hjoined]
      intro u hu
      rcases List.mem_cons.1 hu with rfl | hu
      · exact hjoin q r hqk hq (htail r (List.mem_cons_self ..)) hrk
      · exact htail u (List.mem_cons_of_mem _ hu)

/-! ### Spelling -/

/-- How a piece is spelled: only a line break has break characters in it, and only
    the end of the source and of a line comment have no characters at all. -/
structure Piece.Spelled (q : Piece) : Prop where
  eol : q.kind = .eol → IsLineBreak q.lexeme
  unbroken : q.kind ≠ .eol → ∀ c ∈ q.lexeme, isBreak c = false
  ne_nil : q.lexeme = [] → q.kind = .eof ∨ q = lineCloser

theorem Piece.spelled_of_isInline {q : Piece} (hkind : q.kind ≠ .eol) (h : IsInline q.lexeme) :
    q.Spelled :=
  ⟨fun heol => absurd heol hkind, fun _ => h.unbroken, fun hnil => absurd hnil h.ne_nil⟩

theorem Piece.spelled_of_isLineBreak {q : Piece} (hkind : q.kind = .eol)
    (h : IsLineBreak q.lexeme) : q.Spelled := by
  refine ⟨fun _ => h, fun hne => absurd hkind hne, ?_⟩
  intro hnil
  rw [hnil] at h
  rcases h with h | h | h | h <;> cases h

theorem Atom.isInline_name (a : Atom) : IsInline a.name.toList := by
  cases a <;> exact isInline_of_all (by decide) (by decide)

theorem Reads.spelled {a b : Place} {q : Piece} (h : Reads a q b) : q.Spelled := by
  cases h with
  | text h => exact Piece.spelled_of_isInline Kind.noConfusion h
  | eol h => exact Piece.spelled_of_isLineBreak rfl h
  | blockOpen h =>
    cases h <;> exact Piece.spelled_of_isInline Kind.noConfusion (isInline_of_all rfl rfl)
  | lineOpen h =>
    cases h <;> exact Piece.spelled_of_isInline Kind.noConfusion (isInline_of_all rfl rfl)
  | blockClose =>
    exact Piece.spelled_of_isInline Kind.noConfusion (isInline_of_all rfl rfl)
  | lineClose => exact ⟨Kind.noConfusion, by simp [lineCloser], fun _ => Or.inr rfl⟩
  | htmlOpen =>
    exact Piece.spelled_of_isInline Kind.noConfusion (isInline_of_all rfl rfl)
  | htmlClose =>
    exact Piece.spelled_of_isInline Kind.noConfusion (isInline_of_all rfl rfl)
  | innerText h => exact Piece.spelled_of_isInline Kind.noConfusion h
  | innerEol he h => exact Piece.spelled_of_isLineBreak rfl h
  | atom a => exact Piece.spelled_of_isInline Kind.noConfusion a.isInline_name
  | key h => exact Piece.spelled_of_isInline Kind.noConfusion h

theorem Accepts.spelled {a : Place} {ps : List Piece} (h : Accepts a ps) :
    ∀ q ∈ ps, q.Spelled := by
  have hend : ∀ context, Piece.Spelled ⟨.eof, [], context⟩ := fun context =>
    ⟨Kind.noConfusion, by simp, fun _ => Or.inl rfl⟩
  induction h with
  | code => simpa using hend .code
  | comment he => simpa using hend _
  | cons hread _ ih =>
    intro q hq
    rcases List.mem_cons.1 hq with rfl | hq
    · exact hread.spelled
    · exact ih q hq

/-! ### Keys -/

def Piece.TakesKey (q : Piece) : Prop := ∃ a : Atom, q.kind = .atom a ∧ a.takesKey = true

def Piece.IsIndent (q : Piece) : Prop := q.kind = .text ∧ ∀ c ∈ q.lexeme, isIndent c = true

/-- The last thing read, but for spaces and tabs, is an atom that takes a key. -/
def KeyDue (ps : List Piece) : Prop :=
  ∃ l a ts, ps = l ++ a :: ts ∧ a.TakesKey ∧ ∀ t ∈ ts, t.IsIndent

def Place.due : Place → Bool
  | .code => false
  | .comment _ due => due

theorem Reads.keyDue {a b : Place} {q : Piece} (h : Reads a q b) {ps : List Piece}
    (hps : a.due = true → KeyDue ps) (hb : b.due = true) : KeyDue (ps ++ [q]) := by
  cases h with
  | @innerText e due cs hcs =>
    obtain ⟨hdue, hindent⟩ := Bool.and_eq_true_iff.1 hb
    obtain ⟨l, atom, ts, rfl, hatom, hts⟩ := hps hdue
    refine ⟨l, atom, ts ++ [⟨.text, cs, e.context⟩], by simp, hatom, ?_⟩
    intro t ht
    rcases List.mem_append.1 ht with ht | ht
    · exact hts t ht
    · rw [List.mem_singleton.1 ht]
      exact ⟨rfl, by simpa using hindent⟩
  | atom kind => exact ⟨ps, _, [], rfl, ⟨kind, rfl, hb⟩, by simp⟩
  | _ => cases hb

theorem ReadsAll.keyDue {a b : Place} {qs : List Piece} (h : ReadsAll a qs b) {ps : List Piece}
    (hps : a.due = true → KeyDue ps) (hb : b.due = true) : KeyDue (ps ++ qs) := by
  induction h generalizing ps with
  | nil =>
    rw [List.append_nil]
    exact hps hb
  | @cons a b c q qs hread _ ih =>
    have hrest : KeyDue (ps ++ [q] ++ qs) := ih (fun hdue => hread.keyDue hps hdue) hb
    rwa [List.append_assoc, List.singleton_append] at hrest

theorem Reads.due_of_key {a b : Place} {q : Piece} (h : Reads a q b) (hq : q.kind = .key) :
    a.due = true := by
  cases h with
  | key hcs => rfl
  | blockOpen h => cases h <;> cases hq
  | lineOpen h => cases h <;> cases hq
  | _ => cases hq

/-- An atom that takes a key stands at the end, or has one piece of spaces and tabs
    after it. -/
def EndsInKeyAtom (ps : List Piece) : Prop :=
  ∃ l a, a.TakesKey ∧ (ps = l ++ [a] ∨ ∃ t : Piece, t.IsIndent ∧ ps = l ++ [a, t])

/-- Where text is joined, the spaces and tabs before a key are one piece. -/
theorem KeyDue.endsInKeyAtom {ps : List Piece} (h : KeyDue ps) (hsep : ps.IsChain Separate) :
    EndsInKeyAtom ps := by
  obtain ⟨l, a, ts, rfl, ha, hts⟩ := h
  refine ⟨l, a, ha, ?_⟩
  match ts with
  | [] => exact Or.inl rfl
  | [t] => exact Or.inr ⟨t, hts t (by simp), rfl⟩
  | t :: u :: ts =>
    have hpair := (List.isChain_append.1 hsep).2.1
    rw [List.isChain_cons_cons, List.isChain_cons_cons] at hpair
    exact absurd ⟨(hts t (by simp)).1, (hts u (by simp)).1⟩ hpair.2.1

theorem Accepts.endsInKeyAtom {l r : List Piece} {k : Piece} (h : Accepts .code (l ++ k :: r))
    (hsep : (l ++ k :: r).IsChain Separate) (hk : k.kind = .key) : EndsInKeyAtom l := by
  obtain ⟨b, hreads, haccepts⟩ := h.exists_readsAll (by simp)
  obtain ⟨_, hread, -⟩ := haccepts.exists_reads (by simp [hk])
  have hdue : b.due = true := hread.due_of_key hk
  have hl : KeyDue ([] ++ l) := hreads.keyDue (by simp [Place.due]) hdue
  exact KeyDue.endsInKeyAtom hl (List.isChain_append.1 hsep).1

/-! ### Html comments -/

theorem Reads.html_of_htmlOpen {a b : Place} {q : Piece} (h : Reads a q b)
    (hq : q.kind = .htmlOpen) : b = .comment .html false := by
  cases h with
  | htmlOpen => rfl
  | blockOpen h => cases h <;> cases hq
  | lineOpen h => cases h <;> cases hq
  | _ => cases hq

theorem Reads.html {due : Bool} {b : Place} {q : Piece} (h : Reads (.comment .html due) q b) :
    q.kind = .htmlClose ∨ ∃ due', b = .comment .html due' := by
  cases h with
  | htmlClose => exact Or.inl rfl
  | innerText hcs => exact Or.inr ⟨_, rfl⟩
  | innerEol he hcs => exact Or.inr ⟨_, rfl⟩
  | atom a => exact Or.inr ⟨_, rfl⟩
  | key hcs => exact Or.inr ⟨_, rfl⟩

/-- Only its closing delimiter leads out of an html comment. -/
theorem ReadsAll.html {due : Bool} {b : Place} {qs : List Piece}
    (h : ReadsAll (.comment .html due) qs b) :
    (∃ q ∈ qs, q.kind = .htmlClose) ∨ ∃ due', b = .comment .html due' := by
  induction qs generalizing due with
  | nil =>
    cases h
    exact Or.inr ⟨due, rfl⟩
  | cons q qs ih =>
    cases h with
    | cons hread hrest =>
      rcases hread.html with hclose | ⟨due', rfl⟩
      · exact Or.inl ⟨q, by simp, hclose⟩
      · rcases ih hrest with ⟨r, hr, hclose⟩ | hinside
        · exact Or.inl ⟨r, by simp [hr], hclose⟩
        · exact Or.inr hinside

theorem Accepts.htmlCloses {a : Place} {l inner r : List Piece} {h c : Piece}
    (haccepts : Accepts a (l ++ h :: (inner ++ c :: r))) (hh : h.kind = .htmlOpen)
    (hc : c.kind = .blockClose) : ∃ q ∈ inner, q.kind = .htmlClose := by
  obtain ⟨_, -, hopen⟩ := haccepts.exists_readsAll (by simp)
  obtain ⟨b, hread, hrest⟩ := hopen.exists_reads (by simp [hh])
  rw [hread.html_of_htmlOpen hh] at hrest
  obtain ⟨b', hreads, hclose⟩ := hrest.exists_readsAll (by simp)
  rcases hreads.html with hfound | ⟨due, rfl⟩
  · exact hfound
  · -- the comment around an html comment cannot close inside of it
    obtain ⟨_, hread', -⟩ := hclose.exists_reads (by simp [hc])
    cases hread' <;> cases hc

/-! ### Comments -/

/-- What may stand in any comment: text, line breaks, atoms and keys. -/
structure IsInner (context : Context) (q : Piece) : Prop where
  kind : q.kind = .text ∨ q.kind = .eol ∨ q.kind = .key ∨ ∃ a, q.kind = .atom a
  context : q.context = context

theorem IsInner.kind_ne_htmlClose {context : Context} {q : Piece} (h : IsInner context q) :
    q.kind ≠ .htmlClose := by
  rcases h.kind with hk | hk | hk | ⟨a, hk⟩ <;> simp [hk]

theorem IsInner.kind_ne_blockClose {context : Context} {q : Piece} (h : IsInner context q) :
    q.kind ≠ .blockClose := by
  rcases h.kind with hk | hk | hk | ⟨a, hk⟩ <;> simp [hk]

/-- The body of a comment; the html comments in it close and do not nest. -/
inductive IsBody : List Piece → Prop
  | nil : IsBody []
  | inner {q : Piece} {qs : List Piece} : IsInner .comment q → IsBody qs → IsBody (q :: qs)
  | html {inner qs : List Piece} : (∀ q ∈ inner, IsInner .html q) → IsBody qs →
      IsBody (htmlOpener :: (inner ++ htmlCloser :: qs))

/-- Code: text, line breaks, and comments that close. -/
inductive IsCode : List Piece → Prop
  | nil : IsCode []
  | token {q : Piece} {qs : List Piece} : q.kind = .text ∨ q.kind = .eol → q.context = .code →
      IsCode qs → IsCode (q :: qs)
  | comment {opener closer : Piece} {body qs : List Piece} : Delimits opener closer →
      IsBody body → IsCode qs → IsCode (opener :: (body ++ closer :: qs))

/-- The end of the source, and before it the last comment if that does not close:
    a delimited comment, or one with an html comment that does not close either. -/
inductive IsEnding : List Piece → Prop
  | code : IsEnding [⟨.eof, [], .code⟩]
  | comment {opener : Piece} {body : List Piece} : Delimits opener blockCloser → IsBody body →
      IsEnding (opener :: (body ++ [⟨.eof, [], .comment⟩]))
  | html {opener : Piece} {body inner : List Piece} : Delimits opener blockCloser →
      IsBody body → (∀ q ∈ inner, IsInner .html q) →
      IsEnding (opener :: (body ++ htmlOpener :: (inner ++ [⟨.eof, [], .html⟩])))

def IsDocument (ps : List Piece) : Prop := ∃ a b, IsCode a ∧ IsEnding b ∧ ps = a ++ b

theorem IsDocument.token {q : Piece} {qs : List Piece} (hkind : q.kind = .text ∨ q.kind = .eol)
    (hcontext : q.context = .code) (h : IsDocument qs) : IsDocument (q :: qs) := by
  obtain ⟨a, b, ha, hb, rfl⟩ := h
  exact ⟨q :: a, b, .token hkind hcontext ha, hb, rfl⟩

theorem IsDocument.comment {opener closer : Piece} {body qs : List Piece}
    (hdelimits : Delimits opener closer) (hbody : IsBody body) (h : IsDocument qs) :
    IsDocument (opener :: (body ++ closer :: qs)) := by
  obtain ⟨a, b, ha, hb, rfl⟩ := h
  exact ⟨opener :: (body ++ closer :: a), b, .comment hdelimits hbody ha, hb, by simp⟩

/-- What follows the opener of a block or doc comment. -/
inductive BlockRest : List Piece → Prop
  | closed {body qs : List Piece} : IsBody body → IsDocument qs →
      BlockRest (body ++ blockCloser :: qs)
  | unclosed {body : List Piece} : IsBody body → BlockRest (body ++ [⟨.eof, [], .comment⟩])
  | unclosedHtml {body inner : List Piece} : IsBody body → (∀ q ∈ inner, IsInner .html q) →
      BlockRest (body ++ htmlOpener :: (inner ++ [⟨.eof, [], .html⟩]))

theorem BlockRest.isDocument {opener : Piece} (h : Delimits opener blockCloser)
    {ps : List Piece} (hps : BlockRest ps) : IsDocument (opener :: ps) := by
  cases hps with
  | closed hbody hqs => exact .comment h hbody hqs
  | unclosed hbody => exact ⟨[], _, .nil, .comment h hbody, rfl⟩
  | unclosedHtml hbody hinner => exact ⟨[], _, .nil, .html h hbody hinner, rfl⟩

theorem BlockRest.inner {q : Piece} {ps : List Piece} (hq : IsInner .comment q)
    (hps : BlockRest ps) : BlockRest (q :: ps) := by
  cases hps with
  | closed hbody hqs => exact .closed (.inner hq hbody) hqs
  | unclosed hbody => exact .unclosed (.inner hq hbody)
  | unclosedHtml hbody hinner => exact .unclosedHtml (.inner hq hbody) hinner

theorem BlockRest.html {inner ps : List Piece} (hinner : ∀ q ∈ inner, IsInner .html q)
    (hps : BlockRest ps) : BlockRest (htmlOpener :: (inner ++ htmlCloser :: ps)) := by
  cases hps with
  | @closed body qs hbody hqs =>
    have h := BlockRest.closed (.html hinner hbody) hqs
    simpa using h
  | @unclosed body hbody =>
    have h := BlockRest.unclosed (.html hinner hbody)
    simpa using h
  | @unclosedHtml body inner' hbody hinner' =>
    have h := BlockRest.unclosedHtml (.html hinner hbody) hinner'
    simpa using h

/-- What a list read at a place looks like: in a line comment the line goes on to
    its empty close, in an html comment to its close or to the end of the source. -/
def Place.Shape : Place → List Piece → Prop
  | .code, ps => IsDocument ps
  | .comment .line _, ps =>
    ∃ body qs, IsBody body ∧ IsDocument qs ∧ ps = body ++ lineCloser :: qs
  | .comment .block _, ps => BlockRest ps
  | .comment .html _, ps =>
    ∃ inner, (∀ q ∈ inner, IsInner .html q) ∧
      (ps = inner ++ [⟨.eof, [], .html⟩] ∨ ∃ qs, BlockRest qs ∧ ps = inner ++ htmlCloser :: qs)

/-- A piece that leaves the enclosure as it is. -/
theorem Place.Shape.inner {e : Enclosure} {due due' : Bool} {q : Piece} {qs : List Piece}
    (hq : IsInner e.context q) (h : (Place.comment e due').Shape qs) :
    (Place.comment e due).Shape (q :: qs) := by
  cases e with
  | line =>
    obtain ⟨body, rest, hbody, hrest, rfl⟩ := h
    exact ⟨q :: body, rest, .inner hq hbody, hrest, rfl⟩
  | block => exact BlockRest.inner hq h
  | html =>
    obtain ⟨inner, hinner, hend⟩ := h
    refine ⟨q :: inner, ?_, ?_⟩
    · intro r hr
      rcases List.mem_cons.1 hr with rfl | hr
      · exact hq
      · exact hinner r hr
    · rcases hend with rfl | ⟨rest, hrest, rfl⟩
      · exact Or.inl rfl
      · exact Or.inr ⟨rest, hrest, rfl⟩

theorem Reads.shape {a b : Place} {q : Piece} {qs : List Piece} (h : Reads a q b)
    (hqs : b.Shape qs) : a.Shape (q :: qs) := by
  cases h with
  | text hcs => exact IsDocument.token (Or.inl rfl) rfl hqs
  | eol hcs => exact IsDocument.token (Or.inr rfl) rfl hqs
  | blockOpen hdelimits => exact BlockRest.isDocument hdelimits hqs
  | lineOpen hdelimits =>
    obtain ⟨body, rest, hbody, hrest, rfl⟩ := hqs
    exact IsDocument.comment hdelimits hbody hrest
  | blockClose => exact BlockRest.closed .nil hqs
  | lineClose => exact ⟨[], qs, .nil, hqs, rfl⟩
  | htmlOpen =>
    obtain ⟨inner, hinner, rfl | ⟨rest, hrest, rfl⟩⟩ := hqs
    · exact BlockRest.unclosedHtml .nil hinner
    · exact BlockRest.html hinner hrest
  | htmlClose => exact ⟨[], by simp, Or.inr ⟨qs, hqs, rfl⟩⟩
  | innerText hcs => exact Place.Shape.inner ⟨Or.inl rfl, rfl⟩ hqs
  | innerEol he hcs => exact Place.Shape.inner ⟨Or.inr (Or.inl rfl), rfl⟩ hqs
  | atom kind => exact Place.Shape.inner ⟨Or.inr (Or.inr (Or.inr ⟨kind, rfl⟩)), rfl⟩ hqs
  | key hcs => exact Place.Shape.inner ⟨Or.inr (Or.inr (Or.inl rfl)), rfl⟩ hqs

theorem Accepts.shape {a : Place} {ps : List Piece} (h : Accepts a ps) : a.Shape ps := by
  induction h with
  | code => exact ⟨[], _, .nil, .code, rfl⟩
  | @comment e due he =>
    cases e with
    | line => exact absurd rfl he
    | block => exact BlockRest.unclosed .nil
    | html => exact ⟨[], by simp, Or.inl rfl⟩
  | cons hread _ ih => exact hread.shape ih

/-! ### The end of the source -/

theorem Reads.kind_ne_eof {a b : Place} {q : Piece} (h : Reads a q b) : q.kind ≠ .eof := by
  cases h with
  | blockOpen h => cases h <;> exact Kind.noConfusion
  | lineOpen h => cases h <;> exact Kind.noConfusion
  | _ => exact Kind.noConfusion

theorem Accepts.eof {a : Place} {ps : List Piece} (h : Accepts a ps) :
    ∃ l context, ps = l ++ [⟨.eof, [], context⟩] ∧ ∀ q ∈ l, q.kind ≠ .eof := by
  induction h with
  | code => exact ⟨[], .code, rfl, by simp⟩
  | @comment e due he => exact ⟨[], e.context, rfl, by simp⟩
  | @cons a b q qs hread _ ih =>
    obtain ⟨l, context, rfl, hl⟩ := ih
    refine ⟨q :: l, context, rfl, ?_⟩
    intro r hr
    rcases List.mem_cons.1 hr with rfl | hr
    · exact hread.kind_ne_eof
    · exact hl r hr

/-! ### The main statement -/

/-- What is to be expected of a list of tokens, places apart.  There is one end of the
    source, it comes last and has no characters.  Comments stand in code and html comments in
    comments, each piece in the context that its place calls for, and only the last comment
    may stay open (`document`).  No two pieces of text are neighbours, before a key stands
    the atom it belongs to, and an html comment closes before the comment around it does. -/
structure IsTokenList (ps : List Piece) : Prop where
  eof : ∃ l context, ps = l ++ [⟨.eof, [], context⟩] ∧ ∀ q ∈ l, q.kind ≠ .eof
  document : IsDocument ps
  spelled : ∀ q ∈ ps, q.Spelled
  separate : ps.IsChain Separate
  keys : ∀ l k r, ps = l ++ k :: r → k.kind = .key → EndsInKeyAtom l
  htmlCloses : ∀ l h inner c r, ps = l ++ h :: (inner ++ c :: r) → h.kind = .htmlOpen →
    c.kind = .blockClose → ∃ q ∈ inner, q.kind = .htmlClose

theorem toPiece_locate (pt : Point) (ps : List Piece) :
    (locate pt ps).map Token.toPiece = ps := by
  induction ps generalizing pt with
  | nil => rfl
  | cons q qs ih => rw [locate, List.map_cons, ih]

theorem toPiece_tokenize (p : Profile) (source : String) :
    (tokenize p source).map Token.toPiece = coalesce (scan p (.code true) source.toList) :=
  toPiece_locate _ _

theorem tokenize_accepts (p : Profile) (source : String) :
    Accepts .code ((tokenize p source).map Token.toPiece) := by
  rw [toPiece_tokenize]
  exact (scan_accepts p (.code true) source.toList).coalesce

/-- **Every source is cut into a list of the grammar**, whatever the profile. -/
theorem tokenize_isTokenList (p : Profile) (source : String) :
    IsTokenList ((tokenize p source).map Token.toPiece) := by
  have haccepts := tokenize_accepts p source
  have hseparate : ((tokenize p source).map Token.toPiece).IsChain Separate := by
    rw [toPiece_tokenize]
    exact coalesce_isChain _
  refine ⟨haccepts.eof, haccepts.shape, haccepts.spelled, hseparate, ?_, ?_⟩
  · intro l k r hsplit hk
    rw [hsplit] at haccepts hseparate
    exact haccepts.endsInKeyAtom hseparate hk
  · intro l h inner c r hsplit hh hc
    rw [hsplit] at haccepts
    exact haccepts.htmlCloses hh hc

end FeatureCut
