/-
  FeatureCut/Proofs/CommentText.lean
  ==================================
  **How the text of a comment is cut.**

  Inside a block comment the scanner looks for `*/` and `<!--`, inside an html comment for
  `-->`.  It reads one lexeme after the other, so a delimiter is seen only where a lexeme
  starts.  `CommentLexeme` lists what a lexeme can be, with the text that follows it, for
  whether it goes on depends on that.  A star, a `<`, an `@`, a space and a tab always
  start a lexeme; a hyphen may belong to the one before it, and `takesHyphen` says when.

  A text is quiet in an enclosure if none of its delimiters is seen in it.  It is read to
  its end whatever follows, as long as a lexeme starts there (`scan_inner`), and what the
  scanner has read without meeting a delimiter is quiet (`isQuiet_of_scan`).
-/
import FeatureCut.Proofs.Grammar
import FeatureCut.Proofs.Lossless
import FeatureCut.Proofs.Words

namespace FeatureCut

/-! ### Hyphens that are taken -/

/-- Letters, each with at most one hyphen after it, and a letter at the end. -/
def isOpenWord : List Char → Bool
  | [] => false
  | [c] => c.isAlpha
  | c :: '-' :: r => c.isAlpha && isOpenWord r
  | c :: d :: r => c.isAlpha && isOpenWord (d :: r)

/-- Whether a hyphen after a text belongs to the lexeme at its end.  The letters after an
    `@` take one, and `<!--` is read as a whole wherever it stands in a comment. -/
def takesHyphen : List Char → Bool
  | [] => false
  | c :: r =>
    c == '@' && isOpenWord r || c == '<' && (r == ['!'] || r == ['!', '-']) || takesHyphen r

theorem lt_length_atomTail_iff (w x : List Char) :
    w.length < (atomTail (w ++ '-' :: x)).1.length ↔ isOpenWord w = true := by
  fun_induction isOpenWord w with
  | case1 =>
    have hhyphen : atomTail ('-' :: x) = ([], '-' :: x) := by
      rw [atomTail.eq_def]
      rfl
    simp [hhyphen]
  | case2 c => by_cases hc : c.isAlpha = true <;> simp [atomTail, hc]
  | case3 c r ih => by_cases hc : c.isAlpha = true <;> simp [atomTail, hc, ← ih, Nat.add_assoc]
  | case4 c d r hd ih =>
    rw [List.cons_append] at ih
    by_cases hc : c.isAlpha = true
    · have hne : d ≠ '-' := hd
      simp [atomTail, hc, hne, ← ih]
    · simp [atomTail, hc]

theorem takesHyphen_append {u w : List Char} (h : takesHyphen w = true) :
    takesHyphen (u ++ w) = true := by
  induction u with
  | nil => exact h
  | cons c u ih => simp [takesHyphen, ih]

theorem takesHyphen_append_of_plain {u : List Char} (hu : ∀ c ∈ u, c ≠ '@' ∧ c ≠ '<')
    (w : List Char) : takesHyphen (u ++ w) = takesHyphen w := by
  induction u with
  | nil => rfl
  | cons c u ih =>
    obtain ⟨⟨hat, hless⟩, hrest⟩ := List.forall_mem_cons.1 hu
    simp [takesHyphen, hat, hless, ih hrest]

/-! ### Lexemes -/

def commentDelimiters : List (List Char) :=
  [blockCloser.lexeme, htmlOpener.lexeme, htmlCloser.lexeme]

/-- What one lexeme of a comment can be, where `r` stands after it. -/
inductive CommentLexeme : List Char → List Char → Prop
  | eol {w r : List Char} (hw : IsLineBreak w) : CommentLexeme w r
  | key {w r : List Char} (hne : w ≠ []) (hw : ∀ c ∈ w, isBoundary c = false) :
      CommentLexeme w r
  | word {w r : List Char} (hw : atomTail (w ++ r) = (w, r)) : CommentLexeme ('@' :: w) r
  | delimiter {d r : List Char} (hd : d ∈ commentDelimiters) : CommentLexeme d r
  | char {c : Char} {r : List Char} (hat : c ≠ '@')
      (hc : ∀ d ∈ commentDelimiters, ¬d <+: c :: r) : CommentLexeme [c] r

/-- The characters that start a lexeme wherever they stand. -/
def startsAlways (c : Char) : Bool := ['*', '<', '@', ' ', '\t'].contains c

theorem isBoundary_of_startsAlways {c : Char} (h : startsAlways c = true) :
    isBoundary c = true := by
  simp only [startsAlways, List.contains_cons, Bool.or_eq_true, beq_iff_eq] at h
  rcases h with rfl | rfl | rfl | rfl | rfl | h
  all_goals first | rfl | cases h

theorem mem_atomTail {cs : List Char} : ∀ c ∈ (atomTail cs).1, c.isAlpha = true ∨ c = '-' := by
  fun_induction atomTail cs with
  | case1 => simp
  | case2 c hc t ih => simpa [hc] using ih
  | case3 c hc d t hd ih => simpa [hc] using ih
  | case4 c hc => simpa using Or.inl hc
  | case5 c t hc => simp

theorem startsAlways_of_isAlpha {c : Char} (h : c.isAlpha = true ∨ c = '-') :
    startsAlways c = false := by
  by_contra hstarts
  simp only [startsAlways, List.contains_cons, Bool.not_eq_false, Bool.or_eq_true,
    beq_iff_eq] at hstarts
  rcases hstarts with rfl | rfl | rfl | rfl | rfl | hnil
  · exact absurd h (by decide)
  · exact absurd h (by decide)
  · exact absurd h (by decide)
  · exact absurd h (by decide)
  · exact absurd h (by decide)
  · cases hnil

/-- The letters of a word take no other lexeme's first character. -/
theorem mem_of_atomTail_eq {w r : List Char} (hw : atomTail (w ++ r) = (w, r)) :
    ∀ c ∈ w, startsAlways c = false ∧ isBreak c = false := by
  intro c hc
  have hmem : c ∈ (atomTail (w ++ r)).1 := by rw [hw]; exact hc
  exact ⟨startsAlways_of_isAlpha (mem_atomTail c hmem), isBreak_of_mem_atomTail c hmem⟩

theorem CommentLexeme.ne_nil {u r : List Char} (h : CommentLexeme u r) : u ≠ [] := by
  cases h with
  | eol hw => rcases hw with rfl | rfl | rfl | rfl <;> simp
  | key hne hw => exact hne
  | word hw => simp
  | delimiter hd =>
    simp only [commentDelimiters, List.mem_cons, List.not_mem_nil, or_false] at hd
    rcases hd with rfl | rfl | rfl <;> simp [blockCloser, htmlOpener, htmlCloser]
  | char hat hc => simp

/-- A character that always starts a lexeme stands nowhere but at its start, and a break
    character stands there too or is the second of a pair. -/
theorem CommentLexeme.of_mem_tail {c d : Char} {t r : List Char} (h : CommentLexeme (c :: t) r)
    (hd : d ∈ t) :
    startsAlways d = false ∧ (isBreak d = true → isBreak c = true ∧ t = [d]) := by
  generalize hu : c :: t = u at h
  cases h with
  | eol hw =>
    subst hu
    rcases hw with h | h | h | h
    all_goals
      obtain ⟨rfl, rfl⟩ := List.cons.inj h
      simp only [List.mem_cons, List.not_mem_nil, or_false] at hd
    · subst hd
      exact ⟨by decide, fun _ => ⟨by decide, rfl⟩⟩
    · subst hd
      exact ⟨by decide, fun _ => ⟨by decide, rfl⟩⟩
  | key hne hw =>
    subst hu
    have hboundary : isBoundary d = false := hw d (by simp [hd])
    constructor
    · by_contra hstarts
      rw [isBoundary_of_startsAlways (by simpa using hstarts)] at hboundary
      cases hboundary
    · intro hbreak
      rw [isBoundary_of_isBreak hbreak] at hboundary
      cases hboundary
  | word hw =>
    obtain ⟨rfl, rfl⟩ := List.cons.inj hu
    obtain ⟨hstarts, hbreak⟩ := mem_of_atomTail_eq hw d hd
    exact ⟨hstarts, fun h => absurd h (by simp [hbreak])⟩
  | delimiter hdelimiter =>
    subst hu
    simp only [commentDelimiters, List.mem_cons, List.not_mem_nil, or_false] at hdelimiter
    rcases hdelimiter with h | h | h
    all_goals
      obtain ⟨rfl, rfl⟩ := List.cons.inj h
      simp only [List.mem_cons, List.not_mem_nil, or_false] at hd
      rcases hd with rfl | rfl | rfl <;> exact ⟨by decide, by decide⟩
  | char hat hc =>
    obtain ⟨rfl, rfl⟩ := List.cons.inj hu
    cases hd

/-! ### Where a lexeme starts -/

/-- A lexeme starts at `s`, if `w` has been read before it.  Two break characters may be
    one break. -/
inductive StartsLexeme (w : List Char) : List Char → Prop
  | nil : StartsLexeme w []
  | mark {c : Char} {r : List Char} (hc : startsAlways c = true) : StartsLexeme w (c :: r)
  | eol {c : Char} {r : List Char} (hc : isBreak c = true)
      (hw : ∀ b ∈ w.getLast?, isBreak b = false) : StartsLexeme w (c :: r)
  | htmlClose {s r : List Char} (hs : s = htmlCloser.lexeme ++ r)
      (hw : takesHyphen w = false) : StartsLexeme w s

theorem StartsLexeme.of_append {u w s : List Char} (h : StartsLexeme (u ++ w) s) :
    StartsLexeme w s := by
  cases h with
  | nil => exact .nil
  | mark hc => exact .mark hc
  | eol hc hw =>
    refine .eol hc ?_
    intro b hb
    exact hw b (List.mem_getLast?_append_of_mem_getLast? hb)
  | htmlClose hs hw =>
    refine .htmlClose hs ?_
    by_contra htakes
    rw [takesHyphen_append (by simpa using htakes)] at hw
    cases hw

/-- A hyphen inside a lexeme is one that the text before it takes, but for the second
    one of `-->`. -/
theorem CommentLexeme.takesHyphen_of_append {w a r : List Char}
    (h : CommentLexeme (w ++ '-' :: a) r) (hw : w ≠ []) :
    takesHyphen w = true ∨ a ++ r = '>' :: r := by
  obtain ⟨c, w, rfl⟩ := List.exists_cons_of_ne_nil hw
  rw [List.cons_append] at h
  generalize hu : c :: (w ++ '-' :: a) = u at h
  have hmem : '-' ∈ u := by simp [← hu]
  cases h with
  | eol hline => rcases hline with rfl | rfl | rfl | rfl <;> exact absurd hmem (by decide)
  | key hne hkey => exact absurd (hkey _ hmem) (by decide)
  | word htail =>
    obtain ⟨rfl, rfl⟩ := List.cons.inj hu
    left
    have hlen : w.length < (atomTail (w ++ '-' :: (a ++ r))).1.length := by
      rw [List.append_assoc, List.cons_append] at htail
      simp [htail]
    simp [takesHyphen, (lt_length_atomTail_iff w _).1 hlen]
  | delimiter hd =>
    simp only [commentDelimiters, List.mem_cons, List.not_mem_nil, or_false] at hd
    rcases hd with rfl | rfl | rfl
    · exact absurd hmem (by decide)
    · left
      obtain ⟨rfl, rfl | rfl⟩ : c = '<' ∧ (w = ['!'] ∨ w = ['!', '-']) := by
        rcases w with _ | ⟨d, _ | ⟨e, w⟩⟩ <;>
          simp_all [htmlOpener, List.append_eq_cons_iff]
      · rfl
      · rfl
    · right
      obtain rfl : a = ['>'] := by
        rcases w with _ | ⟨d, w⟩ <;> simp_all [htmlCloser, List.append_eq_cons_iff]
      rfl
  | char hat hc =>
    have hlen := congrArg List.length hu
    simp at hlen

/-- The lexeme at the start of a text does not reach over a place where one starts. -/
theorem CommentLexeme.prefix_of_starts {u r w s : List Char} (h : CommentLexeme u r)
    (heq : u ++ r = w ++ s) (hs : StartsLexeme w s) (hw : w ≠ []) :
    ∃ v, w = u ++ v ∧ r = v ++ s := by
  rcases List.append_eq_append_iff.1 heq with hinside | ⟨a, rfl, hr⟩
  · exact hinside
  · cases a with
    | nil => exact ⟨[], by simp, by simpa using hr.symm⟩
    | cons d a =>
      -- the character that `s` starts with would stand inside the lexeme
      exfalso
      obtain ⟨c, w, rfl⟩ := List.exists_cons_of_ne_nil hw
      obtain ⟨hstarts, hbreak⟩ := CommentLexeme.of_mem_tail (d := d) (t := w ++ d :: a) h (by simp)
      cases hs with
      | nil => cases hr
      | mark hc =>
        obtain ⟨rfl, -⟩ := List.cons.inj hr
        rw [hstarts] at hc
        cases hc
      | eol hc hlast =>
        obtain ⟨rfl, -⟩ := List.cons.inj hr
        obtain ⟨hc, htail⟩ := hbreak hc
        have hnil : w = [] := by
          have hlen := congrArg List.length htail
          rw [List.length_append, List.length_cons, List.length_singleton] at hlen
          exact List.length_eq_zero_iff.1 (by omega)
        subst hnil
        rw [hlast c rfl] at hc
        cases hc
      | htmlClose hclose htakes =>
        rw [hclose, List.cons_append] at hr
        obtain ⟨rfl, hrest⟩ := List.cons.inj hr
        rcases h.takesHyphen_of_append hw with htaken | harrow
        · rw [htaken] at htakes
          cases htakes
        · rw [harrow] at hrest
          exact absurd (List.cons.inj hrest).1 (by decide)

/-! ### Quiet text -/

def Enclosure.delimiters (p : Profile) : Enclosure → List (List Char)
  | .line => []
  | .block => blockCloser.lexeme :: if p.htmlComments then [htmlOpener.lexeme] else []
  | .html => [htmlCloser.lexeme]

/-- None of the delimiters of an enclosure is seen in a text: if one stands there, it is a
    `-->` whose first hyphen belongs to the lexeme before it. -/
def Enclosure.IsQuiet (p : Profile) (e : Enclosure) (w : List Char) : Prop :=
  ∀ d ∈ e.delimiters p, ∀ a b, w = a ++ (d ++ b) → d = htmlCloser.lexeme ∧ takesHyphen a = true

theorem Enclosure.isQuiet_of_not_infix {p : Profile} {e : Enclosure} {w : List Char}
    (h : ∀ d ∈ e.delimiters p, ¬d <:+: w) : e.IsQuiet p w := by
  intro d hd a b hw
  exact absurd ⟨a, b, by rw [hw, List.append_assoc]⟩ (h d hd)

/-- A text without `*/` and `<!--` is quiet in a block comment. -/
theorem isQuiet_block {p : Profile} {w : List Char} (hclose : ¬blockCloser.lexeme <:+: w)
    (hopen : ¬htmlOpener.lexeme <:+: w) : Enclosure.block.IsQuiet p w := by
  apply Enclosure.isQuiet_of_not_infix
  intro d hd
  rw [Enclosure.delimiters] at hd
  rcases List.mem_cons.1 hd with rfl | hd
  · exact hclose
  · split at hd
    · obtain rfl := List.mem_singleton.1 hd
      exact hopen
    · cases hd

theorem Enclosure.delimiters_subset (p : Profile) (e : Enclosure) :
    ∀ d ∈ e.delimiters p, d ∈ commentDelimiters := by
  intro d hd
  cases e with
  | line => cases hd
  | block =>
    rw [Enclosure.delimiters] at hd
    rcases List.mem_cons.1 hd with rfl | hd
    · simp [commentDelimiters]
    · split at hd <;> simp_all [commentDelimiters]
  | html => simp_all [Enclosure.delimiters, commentDelimiters]

/-- No delimiter is read at the start of a quiet text that ends where a lexeme starts. -/
theorem Enclosure.IsQuiet.not_prefix {p : Profile} {e : Enclosure} {w s : List Char}
    (h : e.IsQuiet p w) (hs : StartsLexeme w s) (hw : w ≠ []) :
    ∀ d ∈ e.delimiters p, ¬d <+: w ++ s := by
  rintro d hd ⟨b, hb⟩
  have hlexeme : CommentLexeme d b := .delimiter (e.delimiters_subset p d hd)
  obtain ⟨v, rfl, -⟩ := hlexeme.prefix_of_starts hb hs hw
  have htakes := (h d hd [] v rfl).2
  cases htakes

/-- The lexeme at the start of a text does not take the hyphen of a `-->` behind it. -/
theorem CommentLexeme.takesHyphen_append {u a x : List Char}
    (h : CommentLexeme u (a ++ (htmlCloser.lexeme ++ x))) :
    takesHyphen (u ++ a) = takesHyphen a := by
  cases h with
  | eol hw =>
    apply takesHyphen_append_of_plain
    rcases hw with rfl | rfl | rfl | rfl <;> simp
  | key hne hw =>
    apply takesHyphen_append_of_plain
    intro c hc
    have hboundary := hw c hc
    constructor
    · rintro rfl
      cases hboundary
    · rintro rfl
      cases hboundary
  | @word w _ hw =>
    have hplain : ∀ c ∈ w, c ≠ '@' ∧ c ≠ '<' := by
      intro c hc
      have hstarts := (mem_of_atomTail_eq hw c hc).1
      constructor
      · rintro rfl
        cases hstarts
      · rintro rfl
        cases hstarts
    -- a longer word would have been read up to the hyphen
    have hopen : isOpenWord (w ++ a) = false := by
      by_contra hopen
      have hlong := (lt_length_atomTail_iff (w ++ a) ('-' :: '>' :: x)).2 (by simpa using hopen)
      have hsame : w ++ a ++ '-' :: '-' :: '>' :: x = w ++ (a ++ (htmlCloser.lexeme ++ x)) := by
        simp [htmlCloser]
      rw [hsame, hw] at hlong
      have hlen : (w ++ a).length < w.length := hlong
      rw [List.length_append] at hlen
      omega
    simp [takesHyphen, hopen, takesHyphen_append_of_plain hplain]
  | delimiter hd =>
    simp only [commentDelimiters, List.mem_cons, List.not_mem_nil, or_false] at hd
    rcases hd with rfl | rfl | rfl <;> simp [takesHyphen, blockCloser, htmlOpener, htmlCloser]
  | @char c _ hat hc =>
    by_cases hless : c = '<'
    · subst hless
      -- `<!` or `<!-` and the hyphens behind it would be `<!--`
      have hopener := hc htmlOpener.lexeme (by simp [commentDelimiters])
      have hfirst : a ≠ ['!'] := by
        rintro rfl
        exact hopener ⟨'>' :: x, rfl⟩
      have hsecond : a ≠ ['!', '-'] := by
        rintro rfl
        exact hopener ⟨'-' :: '>' :: x, rfl⟩
      simp [takesHyphen, hfirst, hsecond]
    · exact takesHyphen_append_of_plain (by simp [hat, hless]) a

theorem Enclosure.IsQuiet.of_lexeme {p : Profile} {e : Enclosure} {u w s : List Char}
    (h : e.IsQuiet p (u ++ w)) (hu : CommentLexeme u (w ++ s)) : e.IsQuiet p w := by
  intro d hd a b hw
  obtain ⟨rfl, htakes⟩ := h d hd (u ++ a) b (by rw [hw, List.append_assoc])
  refine ⟨rfl, ?_⟩
  rw [hw, List.append_assoc, List.append_assoc] at hu
  rwa [hu.takesHyphen_append] at htakes

/-! ### Reading quiet text -/

/-- A character that no delimiter starts with is a lexeme. -/
theorem CommentLexeme.of_plain {c : Char} (hc : c ∉ ['@', '*', '<', '-']) (r : List Char) :
    CommentLexeme [c] r := by
  simp only [List.mem_cons, List.not_mem_nil, or_false, not_or] at hc
  refine .char hc.1 ?_
  intro d hd
  simp only [commentDelimiters, List.mem_cons, List.not_mem_nil, or_false] at hd
  rcases hd with rfl | rfl | rfl <;>
    simp [blockCloser, htmlOpener, htmlCloser, List.cons_prefix_cons, Ne.symm hc.2.1,
      Ne.symm hc.2.2.1, Ne.symm hc.2.2.2]

/-- What is made of a character that delimiters start with, where no delimiter of its
    enclosure is next. -/
theorem delimiterMove_inner {p : Profile} {e : Enclosure} {c : Char} {r : List Char}
    (hat : c ≠ '@') (h : ∀ d ∈ e.delimiters p, ¬d <+: c :: r) :
    ∃ cs r', delimiterMove p e c r = .text e.context cs r' (.comment e false) ∧
      CommentLexeme cs r' := by
  fun_cases delimiterMove p e c r with
  | case1 t he =>
    subst he
    exact absurd ⟨t, rfl⟩ (h blockCloser.lexeme (by simp [Enclosure.delimiters]))
  | case2 t he => exact ⟨_, _, rfl, .delimiter (by simp [commentDelimiters, blockCloser])⟩
  | case3 t he =>
    obtain ⟨rfl, hp⟩ : e = .block ∧ p.htmlComments = true := by simpa using he
    exact absurd ⟨t, rfl⟩ (h htmlOpener.lexeme (by simp [Enclosure.delimiters, hp]))
  | case4 t he => exact ⟨_, _, rfl, .delimiter (by simp [commentDelimiters, htmlOpener])⟩
  | case5 t he =>
    subst he
    exact absurd ⟨t, rfl⟩ (h htmlCloser.lexeme (by simp [Enclosure.delimiters]))
  | case6 t he => exact ⟨_, _, rfl, .delimiter (by simp [commentDelimiters, htmlCloser])⟩
  | case7 =>
    rename_i hclose hopen hhtml
    refine ⟨_, _, rfl, .char hat ?_⟩
    rintro d hd ⟨t, ht⟩
    simp only [commentDelimiters, List.mem_cons, List.not_mem_nil, or_false] at hd
    rcases hd with rfl | rfl | rfl
    · obtain ⟨rfl, rfl⟩ := List.cons.inj ht
      exact hclose t rfl rfl
    · obtain ⟨rfl, rfl⟩ := List.cons.inj ht
      exact hopen t rfl rfl
    · obtain ⟨rfl, rfl⟩ := List.cons.inj ht
      exact hhtml t rfl rfl

/-- Where no delimiter of its enclosure is next, a move reads one piece and stays. -/
theorem commentMove_inner {p : Profile} {e : Enclosure} {c : Char}
    (he : e = .line → isBreak c = false) (due : Bool) {r : List Char}
    (h : ∀ d ∈ e.delimiters p, ¬d <+: c :: r) :
    ∃ q r' due', commentMove p e due c r = ⟨[q], r', .comment e due'⟩ ∧ IsInner e.context q ∧
      CommentLexeme q.lexeme r' := by
  unfold commentMove
  split
  · rename_i hbreak
    refine ⟨⟨.eol, (breakFrom c r).1, e.context⟩, (breakFrom c r).2, false, ?_, ?_, ?_⟩
    · cases e with
      | line =>
        rw [he rfl] at hbreak
        cases hbreak
      | block => rfl
      | html => rfl
    · exact ⟨.inr (.inl rfl), rfl⟩
    · exact .eol (isLineBreak_breakFrom hbreak r)
  split
  · have hword : atomTail ((atomTail r).1 ++ (atomTail r).2) =
        ((atomTail r).1, (atomTail r).2) := by
      rw [atomTail_append]
    unfold atomMove
    dsimp only
    split
    · exact ⟨_, _, _, rfl, ⟨.inr (.inr (.inr ⟨_, rfl⟩)), rfl⟩, .word hword⟩
    · exact ⟨_, _, _, rfl, ⟨.inl rfl, rfl⟩, .word hword⟩
  rename_i hat
  have hat : c ≠ '@' := by simpa using hat
  split
  · rename_i hindent
    refine ⟨_, _, _, rfl, ⟨.inl rfl, rfl⟩, .of_plain ?_ r⟩
    rcases isIndent_iff.1 hindent with rfl | rfl <;> decide
  split
  · obtain ⟨cs, r', hmove, hlexeme⟩ := delimiterMove_inner hat h
    exact ⟨_, _, _, hmove, ⟨.inl rfl, rfl⟩, hlexeme⟩
  rename_i hboundary
  have hchar : isBoundary c = false := by simpa using hboundary
  split
  · refine ⟨_, _, _, rfl, ⟨.inr (.inr (.inl rfl)), rfl⟩, .key (by simp) ?_⟩
    intro d hd
    rcases List.mem_cons.1 hd with rfl | hd
    · exact hchar
    · simpa using List.mem_takeWhile_imp hd
  · exact ⟨_, _, _, rfl, ⟨.inl rfl, rfl⟩, .key (by simp) (by simpa using hchar)⟩

/-- **A quiet text is read to its end**, and what follows is scanned in the same
    enclosure. -/
theorem scan_inner {p : Profile} {e : Enclosure} (he : e ≠ .line) {w s : List Char}
    (hw : e.IsQuiet p w) (hs : StartsLexeme w s) (due : Bool) :
    ∃ ps due', scan p (.comment e due) (w ++ s) = ps ++ scan p (.comment e due') s ∧
      lexemes ps = w ∧ ∀ q ∈ ps, IsInner e.context q := by
  induction hn : w.length using Nat.strongRecOn generalizing w due with
  | ind n ih =>
    subst hn
    cases w with
    | nil => exact ⟨[], due, rfl, rfl, by simp⟩
    | cons c t =>
      have hnext : ∀ d ∈ e.delimiters p, ¬d <+: c :: (t ++ s) := hw.not_prefix hs (by simp)
      obtain ⟨q, r, due', hmove, hq, hlexeme⟩ := commentMove_inner (fun h => absurd h he) due hnext
      have hread := commentMove_lossless p e due c (t ++ s)
      rw [hmove] at hread
      simp only [lexemes_cons, lexemes_nil, List.append_nil] at hread
      rw [← List.cons_append] at hread
      obtain ⟨v, hv, rfl⟩ := hlexeme.prefix_of_starts hread hs (by simp)
      rw [hv] at hw hs
      have hlen : v.length < (c :: t).length := by
        have hpos := List.length_pos_iff.2 hlexeme.ne_nil
        rw [hv, List.length_append]
        omega
      obtain ⟨ps, due'', hscan, hlexemes, hps⟩ :=
        ih v.length hlen (hw.of_lexeme hlexeme) hs.of_append due' rfl
      refine ⟨q :: ps, due'', ?_, ?_, ?_⟩
      · have hstep : Mode.move p (.comment e due) c (t ++ s) = ⟨[q], v ++ s, .comment e due'⟩ :=
          hmove
        rw [List.cons_append, scan, hstep]
        simp only [List.cons_append, List.nil_append, hscan]
      · rw [lexemes_cons, hlexemes, hv]
      · exact List.forall_mem_cons.2 ⟨hq, hps⟩

/-! ### Reading delimiters -/

theorem scan_htmlOpen {p : Profile} (hp : p.htmlComments = true) (due : Bool) (r : List Char) :
    scan p (.comment .block due) (htmlOpener.lexeme ++ r) =
      htmlOpener :: scan p (.comment .html false) r := by
  have hmove : Mode.move p (.comment .block due) '<' ('!' :: '-' :: '-' :: r) =
      ⟨[htmlOpener], r, .comment .html false⟩ := by
    simp [Mode.move, commentMove, isBreak, isIndent, isBoundary, delimiterMove, hp, htmlOpener]
  have hlexeme : htmlOpener.lexeme ++ r = '<' :: '!' :: '-' :: '-' :: r := rfl
  rw [hlexeme, scan, hmove]
  rfl

theorem scan_htmlClose (p : Profile) (due : Bool) (r : List Char) :
    scan p (.comment .html due) (htmlCloser.lexeme ++ r) =
      htmlCloser :: scan p (.comment .block false) r := by
  have hmove : Mode.move p (.comment .html due) '-' ('-' :: '>' :: r) =
      ⟨[htmlCloser], r, .comment .block false⟩ := by
    simp [Mode.move, commentMove, isBreak, isIndent, isBoundary, delimiterMove, htmlCloser]
  have hlexeme : htmlCloser.lexeme ++ r = '-' :: '-' :: '>' :: r := rfl
  rw [hlexeme, scan, hmove]
  rfl

theorem scan_blockClose (p : Profile) (due : Bool) (r : List Char) :
    scan p (.comment .block due) ('*' :: '/' :: r) =
      ⟨.blockClose, ['*', '/'], .comment⟩ :: scan p (.code false) r := by
  have hmove : Mode.move p (.comment .block due) '*' ('/' :: r) =
      ⟨[⟨.blockClose, ['*', '/'], .comment⟩], r, .code false⟩ := by
    simp [Mode.move, commentMove, isBreak, isIndent, isBoundary, delimiterMove]
  rw [scan, hmove]
  rfl

/-- A delimiter of the enclosure that is next is read as what it is. -/
theorem scan_delimiter {p : Profile} {e : Enclosure} {d : List Char} (hd : d ∈ e.delimiters p)
    (due : Bool) (r : List Char) :
    ∃ q m, scan p (.comment e due) (d ++ r) = q :: scan p m r ∧
      ∀ context, ¬IsInner context q := by
  have hkind : ∀ {q : Piece}, q.kind = .blockClose ∨ q.kind = .htmlOpen ∨ q.kind = .htmlClose →
      ∀ context, ¬IsInner context q := by
    intro q hq context hinner
    rcases hinner.kind with h | h | h | ⟨a, h⟩ <;> rw [h] at hq <;>
      rcases hq with hq | hq | hq <;> cases hq
  cases e with
  | line => cases hd
  | block =>
    rw [Enclosure.delimiters] at hd
    rcases List.mem_cons.1 hd with rfl | hd
    · exact ⟨_, _, scan_blockClose p due r, hkind (.inl rfl)⟩
    · split at hd
      · rename_i hp
        obtain rfl := List.mem_singleton.1 hd
        exact ⟨_, _, scan_htmlOpen hp due r, hkind (.inr (.inl rfl))⟩
      · cases hd
  | html =>
    obtain rfl := List.mem_singleton.1 hd
    exact ⟨_, _, scan_htmlClose p due r, hkind (.inr (.inr rfl))⟩

theorem Enclosure.IsQuiet.lexeme_append {p : Profile} {e : Enclosure} {u w r : List Char}
    (hw : e.IsQuiet p w) (hu : CommentLexeme u (w ++ r))
    (hnext : ∀ d ∈ e.delimiters p, ¬d <+: u ++ (w ++ r)) : e.IsQuiet p (u ++ w) := by
  intro d hd a b heq
  rcases List.append_eq_append_iff.1 heq with ⟨v, rfl, hv⟩ | ⟨v, hv, hrest⟩
  · -- the delimiter stands behind the lexeme
    obtain ⟨rfl, htakes⟩ := hw d hd v b hv
    exact ⟨rfl, takesHyphen_append htakes⟩
  · cases a with
    | nil =>
      refine absurd ⟨b ++ r, ?_⟩ (hnext d hd)
      rw [← List.append_assoc, ← List.append_assoc, heq, List.nil_append]
    | cons c a =>
      -- the delimiter starts inside the lexeme or right after it
      cases v with
      | nil => cases (hw d hd [] b (by simpa using hrest.symm)).2
      | cons x v =>
        rw [hv] at hu
        have hstarts := (CommentLexeme.of_mem_tail (d := x) (t := a ++ x :: v) hu (by simp)).1
        have hdelimiter := e.delimiters_subset p d hd
        simp only [commentDelimiters, List.mem_cons, List.not_mem_nil, or_false] at hdelimiter
        rcases hdelimiter with rfl | rfl | rfl
        · obtain ⟨rfl, -⟩ := List.cons.inj hrest
          cases hstarts
        · obtain ⟨rfl, -⟩ := List.cons.inj hrest
          cases hstarts
        · obtain ⟨rfl, hsecond⟩ := List.cons.inj hrest
          have htail : '-' :: '>' :: b = v ++ w := hsecond
          rcases hu.takesHyphen_of_append (by simp) with htakes | harrow
          · exact ⟨rfl, htakes⟩
          · rw [← List.append_assoc, ← htail] at harrow
            exact absurd (List.cons.inj harrow).1 (by decide)

/-- What is read in a comment up to some place without a delimiter is quiet. -/
theorem isQuiet_of_scan {p : Profile} {e : Enclosure} (he : e ≠ .line) {cs : List Char}
    {due : Bool} {ps qs : List Piece} (h : scan p (.comment e due) cs = ps ++ qs)
    (hps : ∀ q ∈ ps, ∃ context, IsInner context q) :
    e.IsQuiet p (lexemes ps) := by
  induction ps generalizing cs due with
  | nil =>
    intro d hd a b hnil
    have hne := (CommentLexeme.delimiter (r := []) (e.delimiters_subset p d hd)).ne_nil
    simp_all
  | cons q ps ih =>
    obtain ⟨⟨context, hq⟩, hrest⟩ := List.forall_mem_cons.1 hps
    cases cs with
    | nil =>
      have hfinish : (Mode.comment e due).finish = [⟨.eof, [], e.context⟩] := by
        cases e with
        | line => exact absurd rfl he
        | block => rfl
        | html => rfl
      rw [scan, hfinish, List.cons_append] at h
      rw [← (List.cons.inj h).1] at hq
      rcases hq.kind with hkind | hkind | hkind | ⟨a, hkind⟩ <;> cases hkind
    | cons c r =>
      have hnext : ∀ d ∈ e.delimiters p, ¬d <+: c :: r := by
        rintro d hd ⟨x, hx⟩
        obtain ⟨q', m, hscan, hnot⟩ := scan_delimiter hd due x
        rw [← hx, hscan, List.cons_append] at h
        rw [(List.cons.inj h).1] at hnot
        exact hnot context hq
      obtain ⟨q', r', due', hmove, hq', hlexeme⟩ :=
        commentMove_inner (fun h => absurd h he) due hnext
      have hstep : Mode.move p (.comment e due) c r = ⟨[q'], r', .comment e due'⟩ := hmove
      have hread : q'.lexeme ++ r' = c :: r := by
        simpa [hstep] using (Mode.comment e due).move_lossless p c r
      rw [scan, hstep] at h
      obtain ⟨rfl, hsame⟩ := List.cons.inj h
      have htail : scan p (.comment e due') r' = ps ++ qs := hsame
      have hquiet := ih htail hrest
      have hsplit := lexemes_scan p (.comment e due') r'
      rw [htail, lexemes_append] at hsplit
      rw [← hsplit] at hlexeme
      rw [lexemes_cons]
      apply hquiet.lexeme_append hlexeme
      rwa [hsplit, hread]

/-! ### Reading the words of a directive -/

theorem scan_space (p : Profile) {e : Enclosure} (due : Bool) (r : List Char) :
    scan p (.comment e due) (' ' :: r) =
      ⟨.text, [' '], e.context⟩ :: scan p (.comment e due) r := by
  have hmove : Mode.move p (.comment e due) ' ' r =
      .text e.context [' '] r (.comment e due) := by
    simp [Mode.move, commentMove, isBreak, isIndent]
  rw [scan, hmove]
  rfl

/-- A key is read up to its end, if one is due. -/
theorem scan_key_append (p : Profile) {e : Enclosure} {key x : List Char} (hkey : key ≠ [])
    (hchars : ∀ c ∈ key, isBoundary c = false) (hx : EndsKey x) :
    scan p (.comment e true) (key ++ x) =
      ⟨.key, key, e.context⟩ :: scan p (.comment e false) x := by
  obtain ⟨c, t, rfl⟩ := List.exists_cons_of_ne_nil hkey
  have hc : isBoundary c = false := hchars c (by simp)
  have ht : ∀ d ∈ t, (!isBoundary d) = true := fun d hd => by simp [hchars d (by simp [hd])]
  have htake : (t ++ x).takeWhile (fun d => !isBoundary d) = t := by
    rw [hx.takeWhile_append, List.takeWhile_eq_self_iff.2 ht]
  have hdrop : (t ++ x).dropWhile (fun d => !isBoundary d) = x := by
    rw [hx.dropWhile_append, List.dropWhile_eq_nil_iff.2 ht, List.nil_append]
  have hparts := hc
  simp only [isBoundary, Bool.or_eq_false_iff] at hparts
  have hat : c ≠ '@' := by
    rintro rfl
    exact absurd hparts.2 (by decide)
  have hmove : Mode.move p (.comment e true) c (t ++ x) =
      ⟨[⟨.key, c :: t, e.context⟩], x, .comment e false⟩ := by
    simp [Mode.move, commentMove, hparts.1.1, hparts.1.2, hc, hat, htake, hdrop]
  rw [List.cons_append, scan, hmove]
  rfl

theorem scan_key (p : Profile) {e : Enclosure} {key : List Char} (hkey : key ≠ [])
    (hchars : ∀ c ∈ key, isBoundary c = false) (r : List Char) :
    scan p (.comment e true) (key ++ ' ' :: r) =
      ⟨.key, key, e.context⟩ :: scan p (.comment e false) (' ' :: r) :=
  scan_key_append p hkey hchars (endsKey_cons rfl r)

/-- A directive word is read up to its end. -/
theorem scan_word (p : Profile) {e : Enclosure} (due : Bool) (a : Atom) {x : List Char}
    (hx : EndsWord x) :
    scan p (.comment e due) (a.name.toList ++ x) =
      ⟨.atom a, a.name.toList, e.context⟩ :: scan p (.comment e a.takesKey) x := by
  obtain ⟨w, hname, -, hlexeme⟩ := a.exists_name_eq
  have hmove : Mode.move p (.comment e due) '@' (w ++ x) =
      ⟨[⟨.atom a, '@' :: w, e.context⟩], x, .comment e a.takesKey⟩ := by
    simp [Mode.move, commentMove, isBreak, atomMove, Atom.atomTail_name hname hx, hlexeme]
  rw [hname, List.cons_append, scan, hmove]
  rfl

theorem scan_atom (p : Profile) {e : Enclosure} (due : Bool) (a : Atom) (r : List Char) :
    scan p (.comment e due) (a.name.toList ++ ' ' :: r) =
      ⟨.atom a, a.name.toList, e.context⟩ :: scan p (.comment e a.takesKey) (' ' :: r) :=
  scan_word p due a (endsWord_cons rfl (by decide) r)

/-! ### The scan behind a delimiter -/

/-- The mode behind the delimiters that say where the scanner stands. -/
def Kind.mode? : Kind → Option Mode
  | .docOpen | .htmlClose => some (.comment .block false)
  | .htmlOpen => some (.comment .html false)
  | _ => none

theorem literalPieces_kind {body : List Char} :
    ∀ q ∈ literalPieces body, q.kind = .text ∨ q.kind = .eol := by
  intro q hq
  obtain ⟨s, -, rfl⟩ := List.mem_map.1 hq
  cases s with
  | text cs => exact .inl rfl
  | eol cs => exact .inr rfl

/-- At the level of code there is nothing but text, breaks and the openers of comments. -/
theorem codeMove_kind {p : Profile} {fresh : Bool} {c : Char} {r : List Char} :
    ∀ q ∈ (codeMove p fresh c r).pieces,
      q.kind = .text ∨ q.kind = .eol ∨ q.kind = .blockOpen ∨ q.kind = .docOpen := by
  unfold codeMove
  split
  · simp
  split
  · unfold slashMove
    split <;> simp [Move.text]
  split
  · intro q hq
    rcases literalPieces_kind q hq with hk | hk <;> simp [hk]
  split
  · unfold lineMove
    split <;> simp [Move.text]
  split
  · unfold lineMove
    split <;> simp [Move.text]
  · simp [Move.text]

/-- Such a delimiter is all that its move reads. -/
theorem Mode.move_of_mode? (p : Profile) (m : Mode) (c : Char) (r : List Char) :
    ∀ q ∈ (m.move p c r).pieces, q.kind.mode? = none ∨
      (m.move p c r).pieces = [q] ∧ q.kind.mode? = some (m.move p c r).mode := by
  cases m with
  | code fresh =>
    simp only [Mode.move, codeMove]
    split
    · simp [Kind.mode?]
    split
    · unfold slashMove
      split <;> simp [Move.text, Kind.mode?]
    split
    · intro q hq
      rcases literalPieces_kind q hq with hk | hk <;> exact .inl (by rw [hk]; rfl)
    split
    · unfold lineMove
      split <;> simp [Move.text, Kind.mode?]
    split
    · unfold lineMove
      split <;> simp [Move.text, Kind.mode?]
    · simp [Move.text, Kind.mode?]
  | comment e due =>
    simp only [Mode.move, commentMove]
    split
    · unfold commentBreakMove
      split <;> simp [Kind.mode?]
    split
    · unfold atomMove
      dsimp only
      split <;> simp [Move.text, Kind.mode?]
    split
    · simp [Move.text, Kind.mode?]
    split
    · fun_cases delimiterMove p e c r <;> simp [Move.text, Kind.mode?]
    split <;> simp [Move.text, Kind.mode?]

theorem Mode.finish_mode? (m : Mode) : ∀ q ∈ m.finish, q.kind.mode? = none := by
  cases m with
  | code fresh => simp [Mode.finish, Kind.mode?]
  | comment e due => cases e <;> simp [Mode.finish, Kind.mode?]

/-- Every piece is read by a move, or stands for the end of the source. -/
theorem exists_move_of_scan {p : Profile} {m : Mode} {cs : List Char} {ps qs : List Piece}
    {q : Piece} (h : scan p m cs = ps ++ q :: qs) :
    (∃ m' : Mode, q ∈ m'.finish) ∨ ∃ (m' : Mode) (c : Char) (r : List Char) (as bs : List Piece),
      (m'.move p c r).pieces = as ++ q :: bs ∧
        qs = bs ++ scan p (m'.move p c r).mode (m'.move p c r).rest := by
  fun_induction scan p m cs generalizing ps with
  | case1 m => exact Or.inl ⟨m, by simp [h]⟩
  | case2 m c r ih =>
    rcases List.append_eq_append_iff.1 h with ⟨a, -, hscan⟩ | ⟨a, hpieces, hscan⟩
    · exact ih hscan
    cases a with
    | nil =>
      have hbehind : scan p (m.move p c r).mode (m.move p c r).rest = [] ++ q :: qs := hscan.symm
      exact ih hbehind
    | cons q' a =>
      obtain ⟨rfl, hrest⟩ := List.cons.inj hscan
      exact Or.inr ⟨m, c, r, ps, a, hpieces, hrest⟩

/-- Behind a piece that is all its move reads, the rest of the source is scanned. -/
theorem scan_after {p : Profile} {m : Mode} {cs : List Char} {ps qs : List Piece} {q : Piece}
    (h : scan p m cs = ps ++ q :: qs) {m' : Mode} {x : List Char} (hqs : qs = scan p m' x) :
    cs = lexemes ps ++ (q.lexeme ++ x) := by
  rw [← lexemes_scan p m cs, h, lexemes_append, lexemes_cons, hqs, lexemes_scan]

/-- Behind such a delimiter the rest of the source is scanned in its mode. -/
theorem scan_split {p : Profile} {m m' : Mode} {cs : List Char} {ps qs : List Piece} {q : Piece}
    (h : scan p m cs = ps ++ q :: qs) (hm : q.kind.mode? = some m') :
    ∃ x, cs = lexemes ps ++ (q.lexeme ++ x) ∧ qs = scan p m' x := by
  rcases exists_move_of_scan h with ⟨m₁, hq⟩ | ⟨m₁, c, r, as, bs, hpieces, hqs⟩
  · have hnone := m₁.finish_mode? q hq
    rw [hm] at hnone
    cases hnone
  rcases Mode.move_of_mode? p m₁ c r q (by simp [hpieces]) with hnone | ⟨hsingle, hmode⟩
  · rw [hm] at hnone
    cases hnone
  -- the move reads nothing else, so what follows it is the scan of the rest
  rw [hsingle] at hpieces
  obtain ⟨-, rfl⟩ : as = [] ∧ bs = [] := by
    simpa [List.singleton_eq_append_iff] using hpieces
  rw [hm] at hmode
  rw [← Option.some.inj hmode, List.nil_append] at hqs
  exact ⟨_, scan_after h hqs, hqs⟩

theorem exists_mem_coalesce {ps : List Piece} {q : Piece} (hq : q ∈ ps) :
    ∃ r ∈ coalesce ps, r.kind = q.kind := by
  induction ps with
  | nil => cases hq
  | cons s ps ih =>
    rcases coalesce_cons s ps with ⟨hsame, -⟩ | ⟨r, rs, hps, hs, hr, hjoin⟩
    · rw [hsame]
      rcases List.mem_cons.1 hq with rfl | hq
      · exact ⟨q, by simp, rfl⟩
      · obtain ⟨u, hu, hkind⟩ := ih hq
        exact ⟨u, List.mem_cons_of_mem _ hu, hkind⟩
    · rw [hjoin]
      rcases List.mem_cons.1 hq with rfl | hq
      · exact ⟨_, List.mem_cons_self .., hs.symm⟩
      · obtain ⟨u, hu, hkind⟩ := ih hq
        rw [hps] at hu
        rcases List.mem_cons.1 hu with rfl | hu
        · exact ⟨_, List.mem_cons_self .., hr.symm.trans hkind⟩
        · exact ⟨u, List.mem_cons_of_mem _ hu, hkind⟩

/-- Text in one context is joined to one piece. -/
theorem coalesce_texts {context : Context} {ps : List Piece} (hne : ps ≠ [])
    (h : ∀ q ∈ ps, q.kind = .text ∧ q.context = context) :
    coalesce ps = [⟨.text, lexemes ps, context⟩] := by
  induction ps with
  | nil => exact absurd rfl hne
  | cons q ps ih =>
    obtain ⟨⟨hkind, hcontext⟩, hps⟩ := List.forall_mem_cons.1 h
    by_cases hnil : ps = []
    · subst hnil
      obtain ⟨kind, lexeme, context'⟩ := q
      obtain rfl : kind = .text := hkind
      obtain rfl : context' = context := hcontext
      simp [coalesce]
    · rw [coalesce, hkind, ih hnil hps, hcontext]
      rfl

/-- A piece that is no text parts a list before text is joined as it does after. -/
theorem coalesce_split {ps as bs : List Piece} {q : Piece} (h : coalesce ps = as ++ q :: bs)
    (hq : q.kind ≠ .text) :
    ∃ as' bs', ps = as' ++ q :: bs' ∧ coalesce as' = as ∧ coalesce bs' = bs := by
  induction ps generalizing as with
  | nil => simp [coalesce] at h
  | cons r ps ih =>
    have hall := h
    rcases coalesce_cons r ps with ⟨hsame, -⟩ | ⟨s, rs, hrs, hr, hs, hjoin⟩
    · rw [hsame] at h
      cases as with
      | nil =>
        obtain ⟨rfl, rfl⟩ := List.cons.inj h
        exact ⟨[], ps, rfl, rfl, rfl⟩
      | cons a as =>
        obtain ⟨rfl, htail⟩ := List.cons.inj h
        obtain ⟨as', bs', rfl, rfl, rfl⟩ := ih htail
        refine ⟨r :: as', bs', rfl, ?_, rfl⟩
        exact List.append_cancel_right ((coalesce_append_cons (r :: as') hq bs').symm.trans hall)
    · rw [hjoin] at h
      cases as with
      | nil =>
        obtain ⟨rfl, -⟩ := List.cons.inj h
        exact absurd rfl hq
      | cons a as =>
        obtain ⟨rfl, rfl⟩ := List.cons.inj h
        have hinner : coalesce ps = (s :: as) ++ q :: bs := hrs
        obtain ⟨as', bs', rfl, -, rfl⟩ := ih hinner
        refine ⟨r :: as', bs', rfl, ?_, rfl⟩
        exact List.append_cancel_right ((coalesce_append_cons (r :: as') hq bs').symm.trans hall)

end FeatureCut
