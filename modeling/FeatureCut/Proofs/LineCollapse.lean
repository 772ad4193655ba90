/-
  FeatureCut/Proofs/LineCollapse.lean
  ===================================
  **The break after a directive.**

  At the top level of a document a directive takes the line break after it along
  and settles its line; inside a region the break is an item like any other.  The
  page ends up the same.  A directive marks its line, and on a marked line the
  break itself does what settling does: it ends the line or drops it.  The one
  directive that could leave more on the line is the license, so its text has to
  end with a line of its own.

  `walk_top` says this of every window of every document.  The first part of the
  file has the laws of pages that it rests on, and `render_append`: what is
  written after a complete line does not depend on the lines before it.  The last
  part says what the license has to look like: it ends in a line break.
-/
import FeatureCut.Evaluate

namespace FeatureCut

/-! ### Pages -/

theorem Page.settle_eq_eol {p : Page} (hp : p.marked = true) (cs : List Char) :
    p.settle cs = p.eol cs := by
  have hkeeps : p.keepsLine = p.hasContent := by simp [Page.keepsLine, hp]
  unfold Page.settle Page.eol
  rw [hkeeps]
  split <;> rfl

theorem Page.discard_eq_eol {p : Page} (hp : p.marked = true) (hline : p.line = [])
    (cs : List Char) : p.discard = p.eol cs := by
  have hcontent : p.hasContent = false := by simp [Page.hasContent, hline]
  simp [Page.discard, Page.eol, Page.keepsLine, hcontent, hp]

/-- The current line has nothing on it. -/
def Page.IsClean (p : Page) : Prop := p.line = [] ∧ p.marked = false

theorem Page.isClean_eol (p : Page) (cs : List Char) : (p.eol cs).IsClean := by
  unfold Page.eol
  split
  · exact ⟨rfl, rfl⟩
  · exact ⟨rfl, rfl⟩

/-- A line with nothing but a directive on it leaves no trace. -/
theorem Page.IsClean.eol_mark {p : Page} (hp : p.IsClean) (cs : List Char) :
    p.mark.eol cs = p := by
  obtain ⟨lines, line, marked⟩ := p
  obtain ⟨rfl, rfl⟩ : line = [] ∧ marked = false := hp
  rfl

/-- The page with more lines above it. -/
def Page.below (p : Page) (above : List (List Char)) : Page :=
  ⟨p.lines ++ above, p.line, p.marked⟩

theorem Page.IsClean.eq_below {p : Page} (hp : p.IsClean) : p = Page.empty.below p.lines := by
  obtain ⟨lines, line, marked⟩ := p
  obtain ⟨rfl, rfl⟩ : line = [] ∧ marked = false := hp
  rfl

theorem Page.eol_below (p : Page) (above : List (List Char)) (cs : List Char) :
    (p.below above).eol cs = (p.eol cs).below above := by
  unfold Page.eol
  change (if p.keepsLine then _ else _) = _
  split <;> rfl

theorem Page.fragment_below (p : Page) (above : List (List Char)) (cs : List Char) :
    (p.below above).fragment cs = (p.fragment cs).below above := by
  unfold Page.fragment
  induction segments cs generalizing p with
  | nil => rfl
  | cons s ss ih =>
    cases s with
    | text cs => exact ih (p.text cs)
    | eol cs =>
      rw [List.foldl_cons, List.foldl_cons, ← ih]
      exact congrArg (ss.foldl Page.segment) (p.eol_below above cs)

theorem Page.step_below (p : Page) (above : List (List Char)) (s : Step) :
    (p.below above).step s = (p.step s).below above := by
  cases s with
  | text cs => rfl
  | eol cs => exact p.eol_below above cs
  | fragment cs => exact p.fragment_below above cs
  | mark => rfl
  | discard =>
    change (if p.hasContent then _ else _) = Page.below (if p.hasContent then _ else _) above
    split <;> rfl
  | settle cs =>
    change (if p.hasContent then _ else _) = Page.below (if p.hasContent then _ else _) above
    split
    · exact p.eol_below above cs
    · rfl

theorem Page.steps_below (p : Page) (above : List (List Char)) (ss : List Step) :
    (p.below above).steps ss = (p.steps ss).below above := by
  induction ss generalizing p with
  | nil => rfl
  | cons s ss ih => rw [Page.steps_cons, Page.steps_cons, Page.step_below, ih]

theorem Page.contents_below (p : Page) (above : List (List Char)) :
    (p.below above).contents = above.reverse.flatten ++ p.contents := by
  change (if p.keepsLine then _ else _) = _ ++ if p.keepsLine then _ else _
  split <;> simp [Page.below, Page.written]

theorem render_append {a : List Step} (ha : (Page.empty.steps a).IsClean) (b : List Step) :
    render (a ++ b) = render a ++ render b := by
  unfold render
  rw [Page.steps_append, ha.eq_below, Page.steps_below, Page.contents_below, Page.contents_below]
  simp [Page.empty, Page.contents, Page.keepsLine, Page.written]

/-! ### Trails that leave the same page -/

/-- Two trails leave the same page, report the same events and stop for the same
    reason. -/
structure Trail.SamePage (a b : Trail Step) : Prop where
  steps : ∀ p : Page, p.steps a.steps = p.steps b.steps
  events : a.events = b.events
  stop : a.stop = b.stop

theorem Trail.SamePage.refl (a : Trail Step) : a.SamePage a := ⟨fun _ => rfl, rfl, rfl⟩

theorem Trail.SamePage.andThen_left {b c : Trail Step} (a : Trail Step) (h : b.SamePage c) :
    (a.andThen b).SamePage (a.andThen c) := by
  unfold Trail.andThen
  split
  · refine ⟨?_, ?_, h.stop⟩
    · intro p
      rw [Page.steps_append, Page.steps_append, h.steps]
    · rw [h.events]
  · exact .refl _

theorem Trail.SamePage.result {a b : Trail Step} (h : a.SamePage b) : a.result = b.result := by
  unfold Trail.result render
  rw [h.stop, h.steps]

/-! ### Directives and the break after them -/

/-- A trail that comes to its end leaves a marked line. -/
def Trail.Marks (a : Trail Step) : Prop :=
  a.stop = none → ∀ p : Page, (p.steps a.steps).marked = true

theorem Trail.Marks.andThen (a : Trail Step) {b : Trail Step} (hb : b.Marks) :
    (a.andThen b).Marks := by
  unfold Trail.andThen
  split
  · intro hstop p
    rw [Page.steps_append]
    exact hb hstop _
  · intro hstop
    cases hstop

theorem Trail.marks_mark : (Trail.write [Step.mark]).Marks := fun _ _ => rfl

theorem Trail.marks_fail (e : Error) : (Trail.fail e : Trail Step).Marks := fun h => by cases h

theorem regionItem_marks (o : Options) (inner : Level) (t : Token) (size : Nat) (p : Polarity)
    (key : KeyExpr) (rest : List Token) :
    (regionItem o inner t size p key rest).trail.Marks := by
  unfold regionItem
  split
  · exact .andThen _ (Trail.marks_fail _)
  · exact .andThen _ (Trail.marks_fail _)
  · exact .andThen _ (.andThen _ (.andThen _ Trail.marks_mark))

theorem exclusionTrail_marks (o : Options) (t : Token) (key : KeyExpr) :
    (exclusionTrail o t key).Marks := by
  unfold exclusionTrail
  split
  · intro h
    cases h
  · rw [Trail.andThen_nothing]
    exact Trail.marks_mark

/-- The license text in force, if there is one, leaves no unfinished line. -/
def Options.LicenseEndsLine (o : Options) : Prop :=
  ∀ text, resolveLicense o.licenses o.keys = .ok text →
    ∀ p : Page, (p.fragment text.toList).line = []

theorem Options.licenseEndsLine_of_isEmpty {o : Options} (ho : o.licenses.isEmpty = true) :
    o.LicenseEndsLine := by
  intro text htext
  rw [resolveLicense, if_pos ho] at htext
  cases htext

/-- The item `i` is the item `j` with the break after it. -/
def Item.TakesBreak (n : Nat) (r : List Token) (i j : Item Step) : Prop :=
  ∃ b step, breakAfter? true n j.taken r = some b ∧
    i = ⟨j.trail.andThen (.write [step]), j.taken + 1⟩

/-- The item `i` is the item `j` and the break after it, which is written by a
    step of its own.  The step does to the page what the break would do. -/
def Item.Collapses (n : Nat) (r : List Token) (i j : Item Step) : Prop :=
  ∃ b step, breakAfter? true n j.taken r = some b ∧
    i = ⟨j.trail.andThen (.write [step]), j.taken + 1⟩ ∧
    (j.trail.stop = none →
      ∀ p : Page, (p.steps j.trail.steps).step step = (p.steps j.trail.steps).eol b.lexeme)

theorem Item.Collapses.takesBreak {n : Nat} {r : List Token} {i j : Item Step}
    (h : i.Collapses n r j) : i.TakesBreak n r j := by
  obtain ⟨b, step, hbreak, hitem, -⟩ := h
  exact ⟨b, step, hbreak, hitem⟩

theorem Item.settled_false (n : Nat) (r : List Token) (i : Item Step) :
    i.settled false n r = i := rfl

theorem Item.settled_true (n : Nat) (r : List Token) {i : Item Step} (hi : i.trail.Marks) :
    i.settled true n r = i ∨ (i.settled true n r).Collapses n r i := by
  unfold Item.settled
  cases hbreak : breakAfter? true n i.taken r with
  | none => exact Or.inl rfl
  | some b =>
    refine Or.inr ⟨b, .settle b.lexeme, hbreak, rfl, ?_⟩
    intro hstop p
    exact Page.settle_eq_eol (hi hstop p) b.lexeme

theorem licenseTrail_discard {o : Options} (ho : o.LicenseEndsLine) {key : Option String}
    (h : (licenseTrail o key).stop = none) (p : Page) (cs : List Char) :
    (p.steps (licenseTrail o key).steps).step .discard =
      (p.steps (licenseTrail o key).steps).eol cs := by
  unfold licenseTrail at h ⊢
  cases htext : resolveLicense o.licenses o.keys with
  | error e =>
    rw [htext] at h
    cases h
  | ok text =>
    have hline := ho text htext p.mark
    exact Page.discard_eq_eol (p := (p.mark.fragment text.toList).mark) rfl hline cs

theorem codeItem_eol {t : Token} (ht : t.kind = .eol) (o : Options) (inner : Level) (top : Bool)
    (n : Nat) (r : List Token) :
    codeItem o inner top n t r = ⟨.write [.eol t.lexeme], 0⟩ := by
  rw [codeItem, ht]

theorem codeItem_eof {t : Token} (ht : t.kind = .eof) (o : Options) (inner : Level) (top : Bool)
    (n : Nat) (r : List Token) : codeItem o inner top n t r = ⟨.nothing, 0⟩ := by
  rw [codeItem, ht]

/-- An item is the same at the top level, or it takes the break after it.  Only the license
    might leave something else on the page then. -/
theorem codeItem_top (o : Options) (inner : Level) (n : Nat) (t : Token) (r : List Token) :
    codeItem o inner true n t r = codeItem o inner false n t r ∨
      (codeItem o inner true n t r).TakesBreak n r (codeItem o inner false n t r) ∧
        (o.LicenseEndsLine →
          (codeItem o inner true n t r).Collapses n r (codeItem o inner false n t r)) := by
  have hsettled : ∀ {i : Item Step}, i.trail.Marks →
      i.settled true n r = i ∨ (i.settled true n r).TakesBreak n r i ∧
        (o.LicenseEndsLine → (i.settled true n r).Collapses n r i) := by
    intro i hi
    exact (Item.settled_true n r hi).imp_right fun h => ⟨h.takesBreak, fun _ => h⟩
  unfold codeItem
  cases t.kind with
  | blockOpen =>
    simp only [blockItem]
    cases cutAt .blockClose r with
    | none => exact Or.inl rfl
    | some cut =>
      dsimp only
      cases classify cut.inner with
      | error e => exact Or.inl rfl
      | ok d =>
        cases d with
        | opening p key => exact hsettled (regionItem_marks o inner t _ p key cut.rest)
        | fileExclusion key => exact hsettled (exclusionTrail_marks o t key)
        | license key =>
          cases hbreak : breakAfter? true n (cut.inner.length + 1) r with
          | none => exact Or.inl rfl
          | some b =>
            refine Or.inr ⟨⟨b, .discard, hbreak, rfl⟩, fun ho => ⟨b, .discard, hbreak, rfl, ?_⟩⟩
            intro hstop p
            exact licenseTrail_discard ho hstop p b.lexeme
        | _ => exact Or.inl rfl
  | _ => exact Or.inl rfl

theorem exists_drop_of_breakAfter? {n taken : Nat} {r : List Token} {b : Token}
    (h : breakAfter? true n taken r = some b) :
    taken < n ∧ b.kind = .eol ∧ r.drop taken = b :: r.drop (taken + 1) := by
  unfold breakAfter? at h
  split at h
  · rename_i htaken
    obtain ⟨hhead, hb⟩ := Option.filter_eq_some_iff.1 h
    refine ⟨by simpa using htaken, by simpa using hb, ?_⟩
    rw [← List.drop_drop, List.drop_one]
    cases hr : r.drop taken with
    | nil => simp [hr] at hhead
    | cons c t =>
      obtain rfl : c = b := by simpa [hr] using hhead
      rfl
  · cases h

theorem walk_eol {b : Token} (hb : b.kind = .eol) (o : Options) (inner : Level) (n : Nat)
    (r : List Token) :
    walk (codeItem o inner false) (n + 1) (b :: r) =
      (Trail.write [.eol b.lexeme]).andThen (walk (codeItem o inner false) n r) := by
  rw [walk, codeItem_eol hb]
  rfl

/-- Two walks over a document, with and without the breaks after directives, are related if
    an item with the break after it is related to the item and the break. -/
theorem walk_top_induction {o : Options} {inner : Level} {R : Trail Step → Trail Step → Prop}
    (hrefl : ∀ a, R a a)
    (hleft : ∀ (a : Trail Step) {b c : Trail Step}, R b c → R (a.andThen b) (a.andThen c))
    (hitem : ∀ n t r, codeItem o inner true n t r = codeItem o inner false n t r ∨
      ∃ b, breakAfter? true n (codeItem o inner false n t r).taken r = some b ∧
        (codeItem o inner true n t r).taken = (codeItem o inner false n t r).taken + 1 ∧
        ∀ a c, R a c → R ((codeItem o inner true n t r).trail.andThen a)
          ((codeItem o inner false n t r).trail.andThen
            ((Trail.write [.eol b.lexeme]).andThen c)))
    (n : Nat) (ts : List Token) :
    R (walk (codeItem o inner true) n ts) (walk (codeItem o inner false) n ts) := by
  induction n using Nat.strongRecOn generalizing ts with
  | ind n ih =>
    cases n with
    | zero =>
      rw [walk, walk]
      exact hrefl _
    | succ n =>
      cases ts with
      | nil =>
        rw [walk_nil, walk_nil]
        exact hrefl _
      | cons t r =>
        rw [walk, walk]
        rcases hitem n t r with hsame | ⟨b, hbreak, htaken, hrelated⟩
        · rw [hsame]
          exact hleft _ (ih _ (by omega) _)
        · obtain ⟨hlt, hb, hdrop⟩ := exists_drop_of_breakAfter? hbreak
          have hsize : n - (codeItem o inner false n t r).taken =
              n - (codeItem o inner true n t r).taken + 1 := by omega
          rw [hdrop, hsize, walk_eol hb, ← htaken]
          exact hrelated _ _ (ih _ (by omega) _)

/-- The two ways to walk over a document, with and without the breaks after
    directives, leave the same page. -/
theorem walk_top {o : Options} (ho : o.LicenseEndsLine) (inner : Level) (n : Nat)
    (ts : List Token) :
    (walk (codeItem o inner true) n ts).SamePage (walk (codeItem o inner false) n ts) := by
  refine walk_top_induction .refl (fun a => .andThen_left a) ?_ n ts
  intro n t r
  refine (codeItem_top o inner n t r).imp_right ?_
  rintro ⟨-, hcollapses⟩
  obtain ⟨b, step, hbreak, hitem, hstep⟩ := hcollapses ho
  refine ⟨b, hbreak, by rw [hitem], fun a c hrest => ?_⟩
  rw [hitem]
  generalize codeItem o inner false n t r = j at hstep ⊢
  rw [Trail.andThen_assoc]
  cases hstop : j.trail.stop with
  | some s =>
    rw [Trail.andThen_of_stop hstop, Trail.andThen_of_stop hstop]
    exact .refl _
  | none =>
    simp only [Trail.andThen, hstop, Trail.write]
    refine ⟨?_, ?_, hrest.stop⟩
    · intro p
      simp only [Page.steps_append, Page.steps_cons, Page.steps_nil, hstep hstop p, hrest.steps]
      rfl
    · rw [hrest.events]

/-! ### Licenses that end their last line -/

def EndsInBreak (cs : List Char) : Prop := ∃ l c, cs = l ++ [c] ∧ isBreak c = true

theorem exists_attach_concat (c : Char) (ss : List Segment) (cs : List Char) :
    ∃ ss', Segment.attach c (ss ++ [.eol cs]) = ss' ++ [.eol cs] := by
  unfold Segment.attach
  split
  · exact ⟨.eol [c] :: ss, rfl⟩
  · cases ss with
    | nil => exact ⟨[.text [c]], rfl⟩
    | cons s ss =>
      cases s with
      | text ds => exact ⟨.text (c :: ds) :: ss, rfl⟩
      | eol ds => exact ⟨.text [c] :: .eol ds :: ss, rfl⟩

/-- The last segment of such a text is the break, on its own or as the second half of
    a break of two characters. -/
theorem EndsInBreak.exists_segments {cs : List Char} (h : EndsInBreak cs) :
    ∃ ss e, segments cs = ss ++ [.eol e] := by
  obtain ⟨l, c, hcs, hc⟩ := h
  fun_induction segments cs generalizing l with
  | case1 => simp at hcs
  | case2 d =>
    obtain ⟨rfl, rfl⟩ : l = [] ∧ d = c := by
      cases l <;> simp_all
    exact ⟨[], [d], if_pos hc⟩
  | case3 d e r _ ih =>
    rcases List.eq_nil_or_concat r with rfl | ⟨r', b, rfl⟩
    · exact ⟨[], [d, e], rfl⟩
    · rw [List.concat_eq_append] at hcs ih ⊢
      have hlast : (d :: e :: r') ++ [b] = l ++ [c] := hcs
      obtain ⟨-, hb⟩ := List.append_inj' hlast rfl
      obtain ⟨ss, e', hss⟩ := ih r' (by rw [hb])
      exact ⟨.eol [d, e] :: ss, e', by rw [hss]; rfl⟩
  | case4 d e r _ ih =>
    obtain ⟨l', rfl⟩ : ∃ l', l = d :: l' := by
      cases l with
      | nil => simp at hcs
      | cons a l' => exact ⟨l', by rw [(List.cons.inj hcs).1]⟩
    obtain ⟨ss, e', hss⟩ := ih l' (List.cons.inj hcs).2
    obtain ⟨ss', hattach⟩ := exists_attach_concat d ss e'
    exact ⟨ss', e', by rw [hss, hattach]⟩

theorem Page.isClean_fragment {cs : List Char} (h : EndsInBreak cs) (p : Page) :
    (p.fragment cs).IsClean := by
  obtain ⟨ss, e, hss⟩ := h.exists_segments
  rw [Page.fragment, hss, List.foldl_append]
  exact Page.isClean_eol (ss.foldl Page.segment p) e

theorem Page.line_fragment {cs : List Char} (h : EndsInBreak cs) (p : Page) :
    (p.fragment cs).line = [] := (p.isClean_fragment h).1

/-- **The break after a directive may be taken along or left in place.**  Over any
    range of a document, with any levels left and from any page, the two ways to walk
    leave the same page, report the same and stop for the same reason, provided that
    a license in force ends in a line break. -/
theorem walk_settles_or_ends {o : Options}
    (hlicense : ∀ text, resolveLicense o.licenses o.keys = .ok text → EndsInBreak text.toList)
    (p : Profile) (source : String) (limit levels start size : Nat) (page : Page) :
    let ts := (tokenize p source).drop start
    let settling := walk (codeItem o (Level.ofDepth o limit levels) true) size ts
    let ending := walk (codeItem o (Level.ofDepth o limit levels) false) size ts
    page.steps settling.steps = page.steps ending.steps ∧ settling.events = ending.events ∧
      settling.stop = ending.stop := by
  have ho : o.LicenseEndsLine := fun text htext page => page.line_fragment (hlicense text htext)
  have hwalk := walk_top ho (Level.ofDepth o limit levels) size ((tokenize p source).drop start)
  exact ⟨hwalk.steps page, hwalk.events, hwalk.stop⟩

/-- Options with one license text, for the case that no key is active. -/
def Options.licensed (text : String) : Options :=
  { licenses := Std.TreeMap.ofList [(reservedKey, text)] }

def directiveLinesSource : String :=
  "/* @license */\n/* @include-if A */\nx\n/* @else */ y /* @end */ \n/* @file-exclude-if B */\nz"

/-- A license, a region and a file exclusion, each alone on its line, on a page whose
    line has been started already. -/
theorem walk_settles_or_ends_directives :
    let o := Options.licensed "L\n"
    let ts := tokenize o.language.profile directiveLinesSource
    let settling := walk (codeItem o (Level.ofDepth o maxDepth 1) true) ts.length ts
    let ending := walk (codeItem o (Level.ofDepth o maxDepth 1) false) ts.length ts
    let page : Page := ⟨[], ['q'], false⟩
    page.steps settling.steps = page.steps ending.steps ∧ settling.events = ending.events ∧
      settling.stop = ending.stop ∧
      page.steps ending.steps = ⟨[" y  \n".toList, "qL\n".toList], ['z'], false⟩ ∧
      ending.events = [.licenseRequested none, .regionResolved ⟨"A"⟩ .positive false true 2] ∧
      ending.stop = none := by
  have hlicense : ∀ text, resolveLicense (Options.licensed "L\n").licenses
      (Options.licensed "L\n").keys = .ok text → EndsInBreak text.toList := by
    intro text htext
    have hresolve : (resolveLicense (Options.licensed "L\n").licenses
        (Options.licensed "L\n").keys).toOption = some "L\n" := by decide +kernel
    rw [htext] at hresolve
    obtain rfl : text = "L\n" := Option.some.inj hresolve
    exact ⟨['L'], '\n', rfl, rfl⟩
  obtain ⟨hpage, hevents, hstop⟩ := walk_settles_or_ends hlicense
    (Options.licensed "L\n").language.profile directiveLinesSource maxDepth 1 0
    (tokenize (Options.licensed "L\n").language.profile directiveLinesSource).length
    ⟨[], ['q'], false⟩
  exact ⟨hpage, hevents, hstop, by decide +kernel, by decide +kernel, by decide +kernel⟩

-- A license that does not end its line keeps the break only if that is left in place.
example :
    let o := Options.licensed "L"
    let ts := tokenize o.language.profile "/* @license */\nz"
    render (walk (codeItem o (Level.ofDepth o maxDepth 1) true) ts.length ts).steps = ['L', 'z'] ∧
      render (walk (codeItem o (Level.ofDepth o maxDepth 1) false) ts.length ts).steps =
        ['L', '\n', 'z'] := by
  decide +kernel

end FeatureCut
