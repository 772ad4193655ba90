/-
  FeatureCut/Proofs/PageText.lean
  ===============================
  **What comes to stand on a page.**

  A page may drop a line, so not all that is pushed on it is written.  But a line is only
  dropped while it holds spaces and tabs, and then its break goes with it.  So the ink, all
  that is neither a space or a tab nor part of a break, is written once and in order
  (`ink_render`).  Where no line is marked and none is discarded, nothing is dropped at all,
  and the complete lines only ever become more (`Page.written_steps`).

  Whether the current line has content could be read off a flag: `Step.flag` is how a step
  changes it, and `Page.hasContent_steps` says that the flag is never wrong.

  The last part reads a fragment from the left (`Page.fragment_break`, `Page.fragment_char`).
  A fragment may be pushed in two parts, unless one break would be torn in two.
-/
import FeatureCut.Proofs.InlineBody

namespace FeatureCut

/-! ### Ink -/

/-- A character that is neither a space or a tab nor part of a line break. -/
def isInk (c : Char) : Bool := !isIndent c && !isBreak c

def ink (cs : List Char) : List Char := cs.filter isInk

@[simp] theorem ink_append (a b : List Char) : ink (a ++ b) = ink a ++ ink b :=
  List.filter_append ..

theorem ink_eq_nil {cs : List Char} (h : ∀ c ∈ cs, isIndent c = true ∨ isBreak c = true) :
    ink cs = [] := by
  refine List.filter_eq_nil_iff.2 fun c hc => ?_
  rcases h c hc with h | h <;> simp [isInk, h]

theorem IsLineBreak.ink {cs : List Char} (h : IsLineBreak cs) : ink cs = [] := by
  rcases h with rfl | rfl | rfl | rfl <;> rfl

/-! ### What steps push -/

/-- The text that a step pushes, without the break that ends a line. -/
def Step.pushed : Step → List Char
  | .text cs | .fragment cs => cs
  | .eol _ | .settle _ | .mark | .discard => []

/-- A step that ends a line is given a line break. -/
def Step.BreaksLines : Step → Prop
  | .eol cs | .settle cs => IsLineBreak cs
  | .text _ | .fragment _ | .mark | .discard => True

/-- A step that only pushes text and breaks. -/
def Step.isPush : Step → Bool
  | .text _ | .eol _ | .fragment _ => true
  | .settle _ | .mark | .discard => false

namespace Page

/-- A line that is dropped has no content. -/
theorem hasContent_of_not_keepsLine {p : Page} (h : ¬p.keepsLine = true) :
    p.hasContent = false := by
  simp only [keepsLine, Bool.or_eq_true, not_or] at h
  simpa using h.2

theorem ink_resetLine {p : Page} (hp : p.hasContent = false) :
    ink p.resetLine.total = ink p.total := by
  have hline : ink p.line = [] := by
    refine ink_eq_nil fun c hc => Or.inl ?_
    simp only [hasContent, List.any_eq_false, Bool.not_eq_true', Bool.not_eq_false] at hp
    exact hp c hc
  have htotal : p.resetLine.total = p.written := by simp [total, resetLine, written]
  rw [htotal, total, ink_append, hline, List.append_nil]

theorem ink_text (p : Page) (cs : List Char) : ink (p.text cs).total = ink p.total ++ ink cs := by
  rw [p.total_text, ink_append]

theorem ink_eol (p : Page) {cs : List Char} (hcs : IsLineBreak cs) :
    ink (p.eol cs).total = ink p.total := by
  unfold eol
  split
  · simp [total, written, hcs.ink]
  · rename_i hkeeps
    exact ink_resetLine (hasContent_of_not_keepsLine hkeeps)

theorem ink_segment (p : Page) {s : Segment} (hs : s.IsProper) :
    ink (p.segment s).total = ink p.total ++ ink s.chars := by
  cases s with
  | text cs => exact p.ink_text cs
  | eol cs =>
    have hcs : IsLineBreak cs := hs
    exact (p.ink_eol hcs).trans (by rw [Segment.chars, hcs.ink, List.append_nil])

theorem ink_fragment (p : Page) (cs : List Char) :
    ink (p.fragment cs).total = ink p.total ++ ink cs := by
  have hfold : ∀ (ss : List Segment) (p : Page), (∀ s ∈ ss, s.IsProper) →
      ink (ss.foldl segment p).total = ink p.total ++ ink (ss.flatMap Segment.chars) := by
    intro ss
    induction ss with
    | nil => exact fun p _ => (List.append_nil _).symm
    | cons s ss ih =>
      intro p hss
      rw [List.foldl_cons, ih _ fun t ht => hss t (List.mem_cons_of_mem s ht),
        p.ink_segment (hss s List.mem_cons_self), List.flatMap_cons, ink_append,
        List.append_assoc]
  rw [fragment, hfold _ p (Segment.isProper_segments cs), flatten_segments]

/-- A step adds the ink that it pushes, and takes none away. -/
theorem ink_step (p : Page) {s : Step} (hs : s.BreaksLines) :
    ink (p.step s).total = ink p.total ++ ink s.pushed := by
  cases s with
  | text cs => exact p.ink_text cs
  | fragment cs => exact p.ink_fragment cs
  | eol cs => exact (p.ink_eol hs).trans (List.append_nil _).symm
  | mark => exact (List.append_nil _).symm
  | discard =>
    change ink (if p.hasContent then p else p.resetLine).total = ink p.total ++ []
    rw [List.append_nil]
    split
    · rfl
    · rename_i hcontent
      exact ink_resetLine (by simpa using hcontent)
  | settle cs =>
    change ink (if p.hasContent then p.eol cs else p.resetLine).total = ink p.total ++ []
    rw [List.append_nil]
    split
    · exact p.ink_eol hs
    · rename_i hcontent
      exact ink_resetLine (by simpa using hcontent)

theorem ink_steps (p : Page) {ss : List Step} (hss : ∀ s ∈ ss, s.BreaksLines) :
    ink (p.steps ss).total = ink p.total ++ ink (ss.flatMap Step.pushed) := by
  induction ss generalizing p with
  | nil => exact (List.append_nil _).symm
  | cons s ss ih =>
    rw [steps_cons, ih _ fun t ht => hss t (List.mem_cons_of_mem s ht),
      p.ink_step (hss s List.mem_cons_self), List.flatMap_cons, ink_append, List.append_assoc]

theorem ink_contents (p : Page) : ink p.contents = ink p.total := by
  unfold contents
  split
  · rfl
  · rename_i hkeeps
    rw [← ink_resetLine (hasContent_of_not_keepsLine hkeeps)]
    simp [total, resetLine, written]

end Page

theorem ink_render {ss : List Step} (hss : ∀ s ∈ ss, s.BreaksLines) :
    ink (render ss) = ink (ss.flatMap Step.pushed) := by
  rw [render, Page.ink_contents, Page.ink_steps _ hss]
  rfl

/-! ### Pushing without dropping -/

theorem Copies.push {s : Step} (hs : s.isPush = true) : Copies [s] s.chars := by
  cases s with
  | text cs => exact .text cs
  | eol cs => exact .eol cs
  | fragment cs => exact .fragment cs
  | _ => cases hs

theorem Copies.pushes {ss : List Step} (hss : ∀ s ∈ ss, s.isPush = true) :
    Copies ss (ss.flatMap Step.chars) := by
  induction ss with
  | nil => exact .nil
  | cons s ss ih =>
    have hrest := ih fun t ht => hss t (List.mem_cons_of_mem s ht)
    exact (Copies.push (hss s List.mem_cons_self)).append hrest

namespace Page

/-! ### Complete lines -/

theorem lines_eol (p : Page) (cs : List Char) : p.lines <:+ (p.eol cs).lines := by
  unfold eol
  split
  · exact List.suffix_cons _ _
  · exact List.suffix_rfl

theorem lines_fragment (p : Page) (cs : List Char) : p.lines <:+ (p.fragment cs).lines := by
  unfold fragment
  induction segments cs generalizing p with
  | nil => exact List.suffix_rfl
  | cons s ss ih =>
    have hs : p.lines <:+ (p.segment s).lines := by
      cases s with
      | text cs => exact List.suffix_rfl
      | eol cs => exact p.lines_eol cs
    exact hs.trans (ih _)

/-- No step takes a complete line back. -/
theorem lines_step (p : Page) (s : Step) : p.lines <:+ (p.step s).lines := by
  cases s with
  | text cs => exact List.suffix_rfl
  | fragment cs => exact p.lines_fragment cs
  | eol cs => exact p.lines_eol cs
  | mark => exact List.suffix_rfl
  | discard =>
    change _ <:+ (if p.hasContent then p else p.resetLine).lines
    split <;> exact List.suffix_rfl
  | settle cs =>
    change _ <:+ (if p.hasContent then p.eol cs else p.resetLine).lines
    split
    · exact p.lines_eol cs
    · exact List.suffix_rfl

theorem lines_steps (p : Page) (ss : List Step) : p.lines <:+ (p.steps ss).lines := by
  induction ss generalizing p with
  | nil => exact List.suffix_rfl
  | cons s ss ih => exact (p.lines_step s).trans (ih _)

/-- The text of the complete lines only grows at its end. -/
theorem written_steps (p : Page) (ss : List Step) : p.written <+: (p.steps ss).written := by
  obtain ⟨more, hlines⟩ := p.lines_steps ss
  refine ⟨more.reverse.flatten, ?_⟩
  rw [written, written, ← hlines, List.reverse_append, List.flatten_append]

/-! ### A flag for content -/

end Page

/-- Whether a line has content after a segment, if it is known whether it had any. -/
def Segment.flag (b : Bool) : Segment → Bool
  | .text cs => b || cs.any fun c => !isIndent c
  | .eol _ => false

/-- Whether the current line has content after a step, if it is known whether it had any. -/
def Step.flag (b : Bool) : Step → Bool
  | .text cs => b || cs.any fun c => !isIndent c
  | .fragment cs => (segments cs).foldl Segment.flag b
  | .eol _ | .settle _ => false
  | .mark | .discard => b

namespace Page

theorem hasContent_text (p : Page) (cs : List Char) :
    (p.text cs).hasContent = (p.hasContent || cs.any fun c => !isIndent c) :=
  List.any_append

theorem IsClean.hasContent {p : Page} (hp : p.IsClean) : p.hasContent = false := by
  rw [Page.hasContent, hp.1]
  rfl

theorem hasContent_fragment (p : Page) (cs : List Char) :
    (p.fragment cs).hasContent = (segments cs).foldl Segment.flag p.hasContent := by
  unfold fragment
  induction segments cs generalizing p with
  | nil => rfl
  | cons s ss ih =>
    have hs : (p.segment s).hasContent = s.flag p.hasContent := by
      cases s with
      | text cs => exact p.hasContent_text cs
      | eol cs => exact (p.isClean_eol cs).hasContent
    rw [List.foldl_cons, List.foldl_cons, ih, hs]

theorem hasContent_step (p : Page) (s : Step) : (p.step s).hasContent = s.flag p.hasContent := by
  cases s with
  | text cs => exact p.hasContent_text cs
  | fragment cs => exact p.hasContent_fragment cs
  | eol cs => exact (p.isClean_eol cs).hasContent
  | mark => rfl
  | discard =>
    change (if p.hasContent then p else p.resetLine).hasContent = p.hasContent
    split
    · rfl
    · rename_i hcontent
      exact (Bool.not_eq_true _ ▸ hcontent : p.hasContent = false).symm
  | settle cs =>
    change (if p.hasContent then p.eol cs else p.resetLine).hasContent = false
    split
    · exact (p.isClean_eol cs).hasContent
    · rfl

/-- The flag that is set by content and cleared at the end of a line is never wrong. -/
theorem hasContent_steps (p : Page) (ss : List Step) :
    (p.steps ss).hasContent = ss.foldl Step.flag p.hasContent := by
  induction ss generalizing p with
  | nil => rfl
  | cons s ss ih => rw [steps_cons, ih, hasContent_step, List.foldl_cons]

end Page

/-! ### Fragments read from the left -/

theorem segments_break {c : Char} (hc : isBreak c = true) (r : List Char) :
    segments (c :: r) = .eol (breakFrom c r).1 :: segments (breakFrom c r).2 := by
  cases r with
  | nil => simp [segments, Segment.attach, hc, breakFrom]
  | cons d r =>
    by_cases hpair : isBreakPair c d <;> simp [segments, Segment.attach, hc, breakFrom, hpair]

theorem segments_char {c : Char} (hc : isBreak c = false) (r : List Char) :
    segments (c :: r) = Segment.attach c (segments r) := by
  cases r with
  | nil => rfl
  | cons d r => simp [segments, isBreakPair, hc]

theorem breakFrom_of_head {c : Char} {r : List Char}
    (h : ∀ d ∈ r.head?, isBreakPair c d = false) : breakFrom c r = ([c], r) := by
  cases r with
  | nil => rfl
  | cons d r => rw [breakFrom, h d rfl, if_neg Bool.false_ne_true]

namespace Page

theorem fragment_nil (p : Page) : p.fragment [] = p := rfl

/-- A break ends the line, with both its characters if it has two. -/
theorem fragment_break (p : Page) {c : Char} (hc : isBreak c = true) (r : List Char) :
    p.fragment (c :: r) = (p.eol (breakFrom c r).1).fragment (breakFrom c r).2 := by
  rw [fragment, segments_break hc]
  rfl

/-- Any other character is text. -/
theorem fragment_char (p : Page) {c : Char} (hc : isBreak c = false) (r : List Char) :
    p.fragment (c :: r) = (p.text [c]).fragment r := by
  rw [fragment, segments_char hc, fragment]
  unfold Segment.attach
  rw [if_neg (by simp [hc])]
  split
  · rename_i cs rest hr
    simp [hr, segment, text]
  · rfl

/-- A fragment may be pushed in two parts that do not tear a break in two. -/
theorem fragment_append (p : Page) {a b : List Char}
    (h : ∀ c ∈ a.getLast?, ∀ d ∈ b.head?, isBreakPair c d = false) :
    p.fragment (a ++ b) = (p.fragment a).fragment b := by
  -- the induction follows the breaks and characters that are read from the first part
  fun_induction segments a generalizing p with
  | case1 => rfl
  | case2 c =>
    by_cases hc : isBreak c = true
    · rw [List.singleton_append, fragment_break p hc, fragment_break p hc,
        breakFrom_of_head (h c rfl)]
      rfl
    · have hc : isBreak c = false := by simpa using hc
      rw [List.singleton_append, fragment_char p hc, fragment_char p hc, fragment_nil]
  | case3 c d r hpair ih =>
    have hc : isBreak c = true := by
      simp only [isBreakPair, Bool.and_eq_true] at hpair
      exact hpair.1.1
    have hread : ∀ r, breakFrom c (d :: r) = ([c, d], r) := fun r => by rw [breakFrom, if_pos hpair]
    rw [List.cons_append, List.cons_append, fragment_break p hc, fragment_break p hc, hread, hread]
    refine ih _ fun e he => h e ?_
    cases r with
    | nil => cases he
    | cons f r => simpa using he
  | case4 c d r hpair ih =>
    have hrest : ∀ e ∈ (d :: r).getLast?, ∀ d ∈ b.head?, isBreakPair e d = false := by
      intro e he
      exact h e (by simpa using he)
    by_cases hc : isBreak c = true
    · have hread : ∀ r, breakFrom c (d :: r) = ([c], d :: r) := fun r => by
        rw [breakFrom, if_neg hpair]
      rw [List.cons_append, List.cons_append, fragment_break p hc, fragment_break p hc, hread,
        hread]
      exact ih _ hrest
    · have hc : isBreak c = false := by simpa using hc
      rw [List.cons_append, fragment_char p hc, fragment_char p hc]
      exact ih _ hrest

end Page

/-! ### The main statement -/

/-- **A page loses nothing but blank lines.**  Whatever steps are taken, the ink that is
    pushed is written in order, and no other.  Steps that only push write all that they are
    given.  The text of the complete lines grows at its end, from any page on.  A flag tells
    whether the current line has content.  And a fragment in two parts leaves the page that
    the whole leaves, unless the last character of one and the first of the other are a
    break of two characters. -/
theorem page_keeps_ink :
    (∀ ss : List Step, (∀ s ∈ ss, s.BreaksLines) →
      ink (render ss) = ink (ss.flatMap Step.pushed)) ∧
    (∀ ss : List Step, (∀ s ∈ ss, s.isPush = true) → render ss = ss.flatMap Step.chars) ∧
    (∀ (p : Page) (ss : List Step), p.written <+: (p.steps ss).written) ∧
    (∀ ss : List Step, (Page.empty.steps ss).hasContent = ss.foldl Step.flag false) ∧
    ∀ (p : Page) (a b : List Char),
      (∀ c ∈ a.getLast?, ∀ d ∈ b.head?, isBreakPair c d = false) →
      p.steps [.fragment (a ++ b)] = p.steps [.fragment a, .fragment b] :=
  ⟨fun _ hss => ink_render hss, fun _ hss => render_of_copies (Copies.pushes hss),
    Page.written_steps, Page.empty.hasContent_steps, fun p _ _ h => p.fragment_append h⟩

/-- A line that is kept although it is marked, a line that is dropped, and a break of two
    characters beside one that is not. -/
def pageSteps : List Step :=
  [.text ['a', '\n', ' '], .mark, .eol ['\n', '\r'], .text ['\t'], .mark,
    .fragment [' ', '\r', 'b', '\n'], .discard, .text ['c']]

theorem page_keeps_ink_marked :
    render pageSteps = ['a', '\n', ' ', '\n', '\r', 'b', '\n', 'c'] ∧
      ink (render pageSteps) = ['a', 'b', 'c'] ∧
      render [.fragment ['x', '\r'], .text [' '], .eol ['\r']] = ['x', '\r', ' ', '\r'] ∧
      Page.empty.steps [.fragment (['x', '\r'] ++ ['\r', 'y'])] =
        Page.empty.steps [.fragment ['x', '\r'], .fragment ['\r', 'y']] := by
  have hbreaks : ∀ s ∈ pageSteps, s.BreaksLines := by
    simp [pageSteps, Step.BreaksLines, IsLineBreak]
  refine ⟨by decide, ?_, ?_, ?_⟩
  · exact page_keeps_ink.1 pageSteps hbreaks
  · exact page_keeps_ink.2.1 _ (by decide)
  · exact page_keeps_ink.2.2.2.2 Page.empty _ _ (by simp [isBreakPair])

-- A break that is torn in two ends two lines.
example : Page.empty.steps [.fragment ['\r'], .fragment ['\n']] ≠
    Page.empty.steps [.fragment ['\r', '\n']] := by
  decide

end FeatureCut
