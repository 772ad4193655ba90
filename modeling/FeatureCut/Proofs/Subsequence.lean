/-
  FeatureCut/Proofs/Subsequence.lean
  ==================================
  **Nothing is invented, duplicated or reordered.**

  Without licenses all that is written comes from the source, in its order.  Two
  things stand between the tokens and the text that comes out, and both only leave
  something out.  A page drops lines (`render_sublist`), and so does the body of a
  doc comment (`docSteps_sublist`).  What a visit writes is drawn from the tokens
  that it passes (`Trail.Draws`): evaluation by index never goes back, and a branch
  is a range between the comments of its region.

  The body of an inline directive is a text of its own, but a part of the comment,
  so what comes out of it is drawn from the comment too.
-/
import Mathlib.Data.List.Flatten
import FeatureCut.Proofs.Concatenation
import FeatureCut.Proofs.Mentions
import FeatureCut.Proofs.Safety

namespace FeatureCut

open scoped List

/-! ### Pages -/

/-- The characters that a step brings along. -/
def Step.chars : Step → List Char
  | .text cs | .eol cs | .fragment cs | .settle cs => cs
  | .mark | .discard => []

/-- All that stands on a page, whether the last line is kept or not. -/
def Page.total (p : Page) : List Char := p.written ++ p.line

theorem Page.total_text (p : Page) (cs : List Char) : (p.text cs).total = p.total ++ cs := by
  simp [Page.total, Page.text, Page.written]

theorem Page.total_resetLine (p : Page) : p.resetLine.total <+ p.total := by
  simp [Page.total, Page.resetLine, Page.written]

theorem Page.total_eol (p : Page) (cs : List Char) : (p.eol cs).total <+ p.total ++ cs := by
  unfold Page.eol
  split
  · simp [Page.total, Page.written]
  · exact p.total_resetLine.trans (List.sublist_append_left _ _)

theorem Page.total_fragment (p : Page) (cs : List Char) :
    (p.fragment cs).total <+ p.total ++ cs := by
  have hfold : ∀ (ss : List Segment) (p : Page),
      (ss.foldl Page.segment p).total <+ p.total ++ ss.flatMap Segment.chars := by
    intro ss
    induction ss with
    | nil => simp
    | cons s ss ih =>
      intro p
      have hs : (p.segment s).total <+ p.total ++ s.chars := by
        cases s with
        | text cs => exact (p.total_text cs).symm ▸ List.Sublist.refl _
        | eol cs => exact p.total_eol cs
      rw [List.foldl_cons, List.flatMap_cons, ← List.append_assoc]
      exact (ih _).trans (hs.append_right _)
  have h := hfold (segments cs) p
  rwa [flatten_segments] at h

theorem Page.total_step (p : Page) (s : Step) : (p.step s).total <+ p.total ++ s.chars := by
  cases s with
  | text cs => exact (p.total_text cs).symm ▸ List.Sublist.refl _
  | eol cs => exact p.total_eol cs
  | fragment cs => exact p.total_fragment cs
  | mark => exact List.sublist_append_left _ _
  | discard =>
    change (if p.hasContent then p else p.resetLine).total <+ _
    split
    · exact List.sublist_append_left _ _
    · exact p.total_resetLine.trans (List.sublist_append_left _ _)
  | settle cs =>
    change (if p.hasContent then p.eol cs else p.resetLine).total <+ _
    split
    · exact p.total_eol cs
    · exact p.total_resetLine.trans (List.sublist_append_left _ _)

theorem Page.total_steps (p : Page) (ss : List Step) :
    (p.steps ss).total <+ p.total ++ ss.flatMap Step.chars := by
  induction ss generalizing p with
  | nil => simp
  | cons s ss ih =>
    rw [Page.steps_cons, List.flatMap_cons, ← List.append_assoc]
    exact (ih _).trans ((p.total_step s).append_right _)

theorem Page.contents_sublist (p : Page) : p.contents <+ p.total := by
  unfold Page.contents
  split
  · exact List.Sublist.refl _
  · exact List.sublist_append_left _ _

theorem render_sublist (ss : List Step) : render ss <+ ss.flatMap Step.chars :=
  (Page.contents_sublist _).trans (Page.empty.total_steps ss)

theorem bodySteps_sublist (ss : List Step) (ended : Bool) :
    (bodySteps ss ended).flatMap Step.chars <+ ss.flatMap Step.chars := by
  unfold bodySteps
  split
  · simpa [Step.chars] using render_sublist ss
  · exact List.nil_sublist _

theorem docSteps_sublist (line : List Char) (ss : List Segment) (ended : Bool) :
    (docSteps line ss ended).flatMap Step.chars <+ line ++ ss.flatMap Segment.chars := by
  induction ss generalizing line with
  | nil =>
    unfold docSteps
    split
    · exact List.nil_sublist _
    · simp [Step.chars]
  | cons s ss ih =>
    cases s with
    | text cs =>
      rw [docSteps, List.flatMap_cons, ← List.append_assoc]
      exact ih _
    | eol cs =>
      rw [docSteps, List.flatMap_cons]
      split
      · have hrest : _ <+ cs ++ ss.flatMap Segment.chars :=
          (ih []).trans (List.sublist_append_right _ _)
        exact hrest.trans (List.sublist_append_right _ _)
      · exact (List.Sublist.refl line).append ((List.Sublist.refl cs).append (ih []))

/-! ### Trails -/

/-- What a trail writes, if it comes to its end, is drawn from a text. -/
def Trail.Draws {σ : Type} (chars : σ → List Char) (cs : List Char) (a : Trail σ) : Prop :=
  a.stop = none → a.steps.flatMap chars <+ cs

namespace Trail.Draws

variable {σ : Type} {chars : σ → List Char} {cs ds : List Char} {a b : Trail σ}

theorem mono (h : a.Draws chars cs) (hcs : cs <+ ds) : a.Draws chars ds := fun hstop =>
  (h hstop).trans hcs

theorem of_steps {ss : List σ} (h : ss.flatMap chars <+ cs) : (Trail.write ss).Draws chars cs :=
  fun _ => h

theorem of_stop {s : Stop} (h : a.stop = some s) : a.Draws chars cs := fun hstop => by
  cases h.symm.trans hstop

theorem of_nil (h : a.steps.flatMap chars = []) : a.Draws chars cs := by
  intro _
  rw [h]
  exact List.nil_sublist _

theorem andThen (ha : a.Draws chars cs) (hb : b.Draws chars ds) :
    (a.andThen b).Draws chars (cs ++ ds) := by
  intro hstop
  obtain ⟨hstop₁, hstop₂⟩ := Trail.stop_of_andThen hstop
  rw [Trail.steps_andThen hstop₁, List.flatMap_append]
  exact (ha hstop₁).append (hb hstop₂)

theorem mapSteps {τ : Type} {chars' : τ → List Char} {f : List σ → Bool → List τ}
    (hf : ∀ ss ended, (f ss ended).flatMap chars' <+ ss.flatMap chars) (h : a.Draws chars cs) :
    (a.mapSteps f).Draws chars' cs := fun hstop => (hf _ _).trans (h hstop)

end Trail.Draws

/-! ### Slices -/

theorem slice_sublist {ts : List Token} {i j a b : Nat} (hi : i ≤ a) (hb : b ≤ j) :
    slice ts a b <+ slice ts i j := by
  by_cases hab : a ≤ b
  · rw [slice_append hi (Nat.le_trans hab hb), slice_append hab hb]
    exact (List.sublist_append_left _ _).trans (List.sublist_append_right _ _)
  · rw [slice_of_le (Nat.le_of_not_le hab)]
    exact List.nil_sublist _

theorem textOf_sublist {a b : List Token} (h : a <+ b) : textOf a <+ textOf b :=
  h.flatMap fun t : Token => t.lexeme

/-- The parts of a region come before its end. -/
theorem Layer.Spans.branch_le {y : Layer} {pos : Nat} {ts : List Token} {r : Region}
    (h : y.Spans pos .start ts r) :
    pos ≤ r.thenEnd ∧ r.thenEnd ≤ r.ending.after ∧
      ∀ a b, r.elseRange? = some (a, b) → pos ≤ a ∧ b ≤ r.ending.after := by
  cases h with
  | whole hbody hlast =>
    refine ⟨Nat.le_add_right _ _, Nat.le_add_right _ _, ?_⟩
    intro a b hrange
    cases hrange
  | divided hs hfirst hmiddle hsecond hlast =>
    refine ⟨Nat.le_add_right _ _, ?_, ?_⟩
    · dsimp only [Region.thenEnd]
      omega
    · intro a b hrange
      cases hrange
      refine ⟨?_, Nat.le_add_right _ _⟩
      dsimp only
      omega

namespace Checked

theorem bind_eq_ok {α β : Type} {x : Checked α} {f : α → Checked β} {b : β} :
    (x >>= f) = .ok b ↔ ∃ a, x = .ok a ∧ f a = .ok b := by
  cases x <;> simp [bind, Except.bind]

theorem tokenAt_eq_ok {ts : List Token} {i : Nat} {t : Token} :
    tokenAt ts i = .ok t ↔ ts[i]? = some t := by
  unfold tokenAt
  split <;> simp_all

theorem slice_eq_ok {ts w : List Token} {start stop : Nat} (h : slice ts start stop = .ok w) :
    start ≤ stop ∧ stop ≤ ts.length ∧ w = FeatureCut.slice ts start stop := by
  unfold slice at h
  split at h
  · rename_i hrange
    cases h
    exact ⟨hrange.1, hrange.2, rfl⟩
  · cases h

theorem seek_bounds {p : Token → Bool} {ts : List Token} {i limit j : Nat}
    (h : seek p ts i limit = .ok (some j)) : i ≤ j ∧ j < limit := by
  fun_induction seek p ts i limit with
  | case1 i hi ih =>
    obtain ⟨t, -, h⟩ := bind_eq_ok.1 h
    split at h
    · cases h
      exact ⟨Nat.le_refl _, hi⟩
    · have := ih h
      omega
  | case2 i hi => cases h

theorem trimStop_le {ts : List Token} {start stop b : Nat} (h : trimStop ts start stop = .ok b) :
    b ≤ stop := by
  induction stop with
  | zero =>
    cases h
    exact Nat.le_refl 0
  | succ stop ih =>
    rw [trimStop] at h
    split at h
    · obtain ⟨t, -, h⟩ := bind_eq_ok.1 h
      split at h
      · exact Nat.le_succ_of_le (ih h)
      · cases h
        exact Nat.le_refl _
    · cases h
      exact Nat.le_refl _

theorem trimRange_bounds {ts : List Token} {start stop a b : Nat} (hle : start ≤ stop)
    (h : trimRange ts start stop = .ok (a, b)) : start ≤ a ∧ b ≤ stop := by
  obtain ⟨found, hseek, h⟩ := bind_eq_ok.1 h
  obtain ⟨last, hlast, h⟩ := bind_eq_ok.1 h
  cases h
  refine ⟨?_, trimStop_le hlast⟩
  cases found with
  | none => exact hle
  | some j => exact (seek_bounds hseek).1

theorem branch?_bounds {y : Layer} {ts l : List Token} {start a b : Nat} {region : Region}
    {active : Bool} (hspans : y.Spans start .start l region)
    (h : branch? ts start region active = .ok (some (a, b))) :
    start ≤ a ∧ a ≤ b ∧ b ≤ region.ending.after := by
  obtain ⟨-, hthen, helse⟩ := hspans.branch_le
  obtain ⟨w, hw, h⟩ := bind_eq_ok.1 h
  have hstart := (slice_eq_ok hw).1
  split at h
  · cases active with
    | true =>
      cases h
      exact ⟨Nat.le_refl _, hstart, hthen⟩
    | false => cases h
  · rename_i first stop hrange
    obtain ⟨w', hw', h⟩ := bind_eq_ok.1 h
    cases active with
    | true =>
      cases h
      exact ⟨Nat.le_refl _, hstart, hthen⟩
    | false =>
      cases h
      obtain ⟨hfirst, hstop⟩ := helse _ _ hrange
      exact ⟨hfirst, (slice_eq_ok hw').1, hstop⟩

theorem spans_of_search {y : Layer} {ts : List Token} {limit start : Nat} {region : Region}
    (hlimit : limit ≤ ts.length)
    (h : search y ts limit ⟨1, none⟩ start = .ok (.ok (some region))) :
    y.Spans start .start (FeatureCut.slice ts start limit) region := by
  have heq := search_eq hlimit y .start start
  rw [show (⟨Search.start.nested + 1, Search.start.alternative⟩ : Counter) = ⟨1, none⟩ from rfl,
    h] at heq
  exact Layer.spans_of_search (Except.ok.inj heq).symm

/-! ### Visits -/

/-- A visit draws what it writes from the tokens that it passes. -/
def Visit.Draws {σ : Type} (chars : σ → List Char) (ts : List Token) (i : Nat) (v : Visit σ) :
    Prop :=
  v.trail.Draws chars (textOf (FeatureCut.slice ts i v.next))

theorem walk_draws {σ : Type} {chars : σ → List Char} {ts : List Token}
    {visit : Nat → Checked (Visit σ)} (hvisit : ∀ i v, visit i = .ok v → v.Draws chars ts i)
    {stop i : Nat} {a : Trail σ} (h : walk visit stop i = .ok a) :
    a.Draws chars (textOf (FeatureCut.slice ts i stop)) := by
  fun_induction walk visit stop i generalizing a with
  | case1 i hi ih =>
    obtain ⟨v, hv, h⟩ := bind_eq_ok.1 h
    split at h
    · rename_i hstop
      cases h
      intro hnone
      rw [hnone] at hstop
      cases hstop
    · split at h
      · rename_i hnext
        obtain ⟨b, hb, h⟩ := bind_eq_ok.1 h
        cases h
        rw [slice_append (Nat.le_of_lt hnext.1) hnext.2, textOf_append]
        exact (hvisit i v hv).andThen (ih v hnext hb)
      · cases h
  | case2 i hi =>
    cases h
    exact .of_nil rfl

/-- What a level writes is drawn from the range, or the text, that it works on. -/
structure Level.Draws (c : Level) : Prop where
  branch : ∀ {ts : List Token} {start stop : Nat} {a : Trail Step},
    c.branch ts start stop = .ok a → a.Draws Step.chars (textOf (FeatureCut.slice ts start stop))
  htmlBranch : ∀ {ts : List Token} {limit start stop : Nat} {a : Trail Segment},
    limit ≤ ts.length → c.htmlBranch ts limit start stop = .ok a →
      a.Draws Segment.chars (textOf (FeatureCut.slice ts start stop))
  document : ∀ {source : List Char} {a : Trail Step},
    c.document source = .ok a → a.Draws Step.chars source

theorem Visit.Draws.of_token {σ : Type} {chars : σ → List Char} {ts : List Token} {i : Nat}
    {t : Token} {s : σ} (ht : ts[i]? = some t) (hs : chars s = t.lexeme) :
    Visit.Draws chars ts i ⟨.write [s], i + 1⟩ := by
  apply Trail.Draws.of_steps
  rw [slice_cons (Nat.lt_succ_self i) ht, slice_of_le (Nat.le_refl _)]
  simp [hs]

theorem Visit.Draws.of_slice {σ : Type} {chars : σ → List Char} {ts comment : List Token}
    {i next : Nat} {ss : List σ} (hcomment : slice ts i next = .ok comment)
    (hss : ss.flatMap chars = textOf comment) : Visit.Draws chars ts i ⟨.write ss, next⟩ := by
  obtain ⟨-, -, rfl⟩ := slice_eq_ok hcomment
  apply Trail.Draws.of_steps
  rw [hss]

section

variable {o : Options} {c : Level} (hinner : c.Draws)
include hinner

/-! ### Doc comments -/

theorem htmlRegionItem_draws {ts : List Token} {limit : Nat} (hlimit : limit ≤ ts.length)
    {t : Token} {p : Polarity} {key : KeyExpr} {i start : Nat} (hi : i ≤ start)
    {v : Visit Segment} (h : htmlRegionItem o c ts limit t p key start = .ok v) :
    v.Draws Segment.chars ts i := by
  obtain ⟨found, hfound, h⟩ := bind_eq_ok.1 h
  split at h
  · cases h
    exact .of_stop rfl
  · cases h
    exact .of_stop rfl
  · rename_i region
    obtain ⟨range, hrange, h⟩ := bind_eq_ok.1 h
    have hreport : (Trail.report (.htmlRegionResolved key p (p.selects key o.keys)
        t.extent.start.line)).Draws Segment.chars [] := .of_nil rfl
    cases range with
    | none =>
      cases h
      exact hreport.andThen (.of_nil rfl)
    | some range =>
      obtain ⟨branch, hbranch, h⟩ := bind_eq_ok.1 h
      cases h
      obtain ⟨hstart, -, hstop⟩ := branch?_bounds (spans_of_search hlimit hfound) hrange
      apply hreport.andThen ((hinner.htmlBranch hlimit hbranch).mono _)
      exact textOf_sublist (slice_sublist (Nat.le_trans hi hstart) hstop)

theorem docItem_draws {ts : List Token} {limit : Nat} (hlimit : limit ≤ ts.length) {i : Nat}
    {v : Visit Segment} (h : docItem o c ts limit i = .ok v) : v.Draws Segment.chars ts i := by
  obtain ⟨t, ht, h⟩ := bind_eq_ok.1 h
  have ht := tokenAt_eq_ok.1 ht
  split at h
  · cases h
    exact .of_token ht rfl
  · obtain ⟨found, hfound, h⟩ := bind_eq_ok.1 h
    split at h
    · cases h
      exact .of_stop rfl
    · rename_i close
      obtain ⟨hclose, -⟩ := seek_bounds hfound
      obtain ⟨d, hd, h⟩ := bind_eq_ok.1 h
      split at h
      · cases h
        exact .of_stop rfl
      · exact htmlRegionItem_draws hinner hlimit (by omega) h
      · obtain ⟨comment, hcomment, h⟩ := bind_eq_ok.1 h
        cases h
        exact .of_slice hcomment (by simp [Segment.chars])
  · cases h
    exact .of_token ht rfl

theorem docCommentItem_draws {ts : List Token} {i : Nat} {t : Token} (ht : ts[i]? = some t)
    {v : Visit Step} (h : docCommentItem o c ts i t = .ok v) : v.Draws Step.chars ts i := by
  obtain ⟨found, hfound, h⟩ := bind_eq_ok.1 h
  split at h
  · cases h
    exact .of_stop rfl
  · rename_i close
    obtain ⟨hlt, hclose⟩ := seek_bounds hfound
    obtain ⟨body, hbody, h⟩ := bind_eq_ok.1 h
    obtain ⟨mark, hmark, h⟩ := bind_eq_ok.1 h
    cases h
    have hdraws := walk_draws (fun j u hu => docItem_draws hinner (Nat.le_of_lt hclose) hu) hbody
    have hopen : (Trail.write [Step.text t.lexeme]).Draws Step.chars t.lexeme :=
      .of_steps (by simp [Step.chars])
    have hend : (Trail.write [Step.text mark.lexeme]).Draws Step.chars mark.lexeme :=
      .of_steps (by simp [Step.chars])
    unfold Visit.Draws
    rw [textOf_comment ht hlt (tokenAt_eq_ok.1 hmark), List.append_assoc]
    exact hopen.andThen ((hdraws.mapSteps (docSteps_sublist [])).andThen hend)

/-! ### Block comments -/

omit hinner in
theorem breakAfter?_eq_ok {top : Bool} {ts : List Token} {i stop : Nat} {t : Token}
    (h : breakAfter? top ts i stop = .ok (some t)) : ts[i]? = some t := by
  unfold breakAfter? at h
  split at h
  · obtain ⟨u, hu, h⟩ := bind_eq_ok.1 h
    split at h
    · cases h
      exact tokenAt_eq_ok.1 hu
    · cases h
  · cases h

omit hinner in
theorem Visit.Draws.settled {top : Bool} {ts : List Token} {stop i : Nat} {v v' : Visit Step}
    (hv : v.Draws Step.chars ts i) (hi : v.trail.stop = none → i ≤ v.next)
    (h : v.settled top ts stop = .ok v') : v'.Draws Step.chars ts i := by
  unfold Visit.settled at h
  split at h
  · cases h
    exact hv
  · rename_i hstop
    obtain ⟨found, hfound, h⟩ := bind_eq_ok.1 h
    split at h
    · rename_i t
      cases h
      have hnone : v.trail.stop = none := by simpa using hstop
      have hbreak : (Trail.write [Step.settle t.lexeme]).Draws Step.chars t.lexeme :=
        .of_steps (by simp [Step.chars])
      have htext : textOf (FeatureCut.slice ts i (v.next + 1)) =
          textOf (FeatureCut.slice ts i v.next) ++ t.lexeme := by
        rw [slice_append (hi hnone) (Nat.le_succ _),
          slice_cons (Nat.lt_succ_self _) (breakAfter?_eq_ok hfound), slice_of_le (Nat.le_refl _)]
        simp
      unfold Visit.Draws
      rw [htext]
      exact hv.andThen hbreak
    · cases h
      exact hv

theorem regionItem_draws {ts : List Token} {t : Token} {p : Polarity} {key : KeyExpr}
    {i start : Nat} (hi : i ≤ start) {v : Visit Step}
    (h : regionItem o c ts t p key start = .ok v) :
    v.Draws Step.chars ts i ∧ (v.trail.stop = none → i ≤ v.next) := by
  obtain ⟨found, hfound, h⟩ := bind_eq_ok.1 h
  split at h
  · cases h
    exact ⟨.of_stop rfl, fun hstop => by cases hstop⟩
  · cases h
    exact ⟨.of_stop rfl, fun hstop => by cases hstop⟩
  · rename_i region
    have hspans := spans_of_search (Nat.le_refl _) hfound
    have hnext : i ≤ region.ending.after :=
      Nat.le_trans hi (Nat.le_trans hspans.branch_le.1 hspans.branch_le.2.1)
    -- of all that is written only the branch has characters
    have hbranch : ∀ {a : Trail Step} {e : Event} {cs : List Char}, a.Draws Step.chars cs →
        ((Trail.write [Step.mark]).andThen
          ((Trail.report e).andThen (a.andThen (.write [.mark])))).Draws Step.chars cs := by
      intro a e cs ha
      have hmark : (Trail.write [Step.mark]).Draws Step.chars [] := .of_nil rfl
      have hreport : (Trail.report e).Draws Step.chars [] := .of_nil rfl
      simpa using hmark.andThen (hreport.andThen (ha.andThen hmark))
    obtain ⟨range, hrange, h⟩ := bind_eq_ok.1 h
    cases range with
    | none =>
      cases h
      exact ⟨hbranch (.of_nil rfl), fun _ => hnext⟩
    | some range =>
      obtain ⟨trimmed, htrimmed, h⟩ := bind_eq_ok.1 h
      obtain ⟨branch, hbranch', h⟩ := bind_eq_ok.1 h
      cases h
      obtain ⟨hstart, hle, hstop⟩ := branch?_bounds hspans hrange
      obtain ⟨hfirst, hlast⟩ := trimRange_bounds hle htrimmed
      refine ⟨hbranch ((hinner.branch hbranch').mono ?_), fun _ => hnext⟩
      exact textOf_sublist (slice_sublist (by omega) (Nat.le_trans hlast hstop))

theorem inlineTrail_draws {body : List Char} {a : Trail Step} (h : inlineTrail c body = .ok a) :
    a.Draws Step.chars body := by
  obtain ⟨trail, htrail, h⟩ := bind_eq_ok.1 h
  cases h
  have hreport : (Trail.report (.inlineEntered body)).Draws Step.chars [] := .of_nil rfl
  exact hreport.andThen ((hinner.document htrail).mapSteps bodySteps_sublist)

omit hinner in
theorem licenseTrail_draws (hlicenses : o.licenses.isEmpty = true) (key : Option String)
    (cs : List Char) : (licenseTrail o key).Draws Step.chars cs := by
  unfold licenseTrail resolveLicense
  rw [if_pos hlicenses]
  exact .of_stop rfl

omit hinner in
theorem exclusionTrail_draws (t : Token) (key : KeyExpr) (cs : List Char) :
    (exclusionTrail o t key).Draws Step.chars cs := by
  apply Trail.Draws.of_nil
  unfold exclusionTrail
  split <;> rfl

omit hinner in
theorem inline_sublist {ts : List Token} {start close : Nat} (hclose : close ≤ ts.length)
    {p : Polarity} {key : KeyExpr} {lead : Nat} {body : List Token}
    (h : classify ts start close = .ok (.ok (.inline p key lead body))) :
    stripSpace (textOf body) <+ textOf (FeatureCut.slice ts start close) := by
  rw [classify_eq hclose] at h
  have hbody := (classify_standsIn (Except.ok.inj h)).2
  exact (stripSpace_isInfix _).sublist.trans hbody.sublist

theorem blockItem_draws (hlicenses : o.licenses.isEmpty = true) {top : Bool} {ts : List Token}
    {stop i : Nat} {t : Token} {v : Visit Step} (h : blockItem o c top ts stop i t = .ok v) :
    v.Draws Step.chars ts i := by
  have hmark : (Trail.write [Step.mark]).Draws Step.chars [] := .of_nil rfl
  obtain ⟨found, hfound, h⟩ := bind_eq_ok.1 h
  cases found with
  | none =>
    cases h
    exact .of_stop rfl
  | some close =>
    obtain ⟨hlt, hclose⟩ := seek_bounds hfound
    obtain ⟨said, hsaid, h⟩ := bind_eq_ok.1 h
    cases said with
    | error e =>
      cases h
      exact .of_stop rfl
    | ok d =>
      cases d with
      | opening p key =>
        obtain ⟨region, hregion, h⟩ := bind_eq_ok.1 h
        obtain ⟨hdraws, hnext⟩ := regionItem_draws hinner (by omega : i ≤ close + 1) hregion
        exact hdraws.settled hnext h
      | inline p key lead body =>
        have hbody : stripSpace (textOf body) <+ textOf (FeatureCut.slice ts i (close + 1)) :=
          (inline_sublist (Nat.le_of_lt hclose) hsaid).trans
            (textOf_sublist (slice_sublist (Nat.le_succ i) (Nat.le_succ close)))
        have hwritten : ∀ {a : Trail Step}, a.Draws Step.chars (stripSpace (textOf body)) →
            Visit.Draws Step.chars ts i
              ⟨(Trail.write [.mark]).andThen (a.andThen (.write [.mark])), close + 1⟩ := by
          intro a ha
          apply (hmark.andThen (ha.andThen hmark)).mono
          simpa using hbody
        dsimp only at h
        split at h
        · obtain ⟨trail, htrail, h⟩ := bind_eq_ok.1 h
          cases h
          exact hwritten (inlineTrail_draws hinner htrail)
        · cases h
          exact hwritten (.of_nil rfl)
      | fileExclusion key =>
        have hdraws : Visit.Draws Step.chars ts i ⟨exclusionTrail o t key, close + 1⟩ :=
          exclusionTrail_draws t key _
        exact hdraws.settled (fun _ => by dsimp only; omega) h
      | license key =>
        obtain ⟨found, hfound, h⟩ := bind_eq_ok.1 h
        cases found with
        | none =>
          cases h
          exact licenseTrail_draws hlicenses key _
        | some b =>
          cases h
          have hdiscard : (Trail.write [Step.discard]).Draws Step.chars [] := .of_nil rfl
          have hdraws := (licenseTrail_draws hlicenses key
            (textOf (FeatureCut.slice ts i (close + 2)))).andThen hdiscard
          rwa [List.append_nil] at hdraws
      | _ =>
        obtain ⟨comment, hcomment, h⟩ := bind_eq_ok.1 h
        cases h
        exact .of_slice hcomment (by simp [Step.chars])

theorem codeItem_draws (hlicenses : o.licenses.isEmpty = true) {top : Bool} {ts : List Token}
    {stop i : Nat} {v : Visit Step} (h : codeItem o c top ts stop i = .ok v) :
    v.Draws Step.chars ts i := by
  obtain ⟨t, ht, h⟩ := bind_eq_ok.1 h
  have ht := tokenAt_eq_ok.1 ht
  split at h
  · cases h
    exact .of_token ht rfl
  · cases h
    exact .of_token ht rfl
  · cases h
    exact .of_nil rfl
  · exact docCommentItem_draws hinner ht h
  · exact blockItem_draws hinner hlicenses h
  · cases h

/-! ### Documents -/

theorem evaluateTokens_draws (hlicenses : o.licenses.isEmpty = true) {ts : List Token}
    {a : Trail Step} (h : evaluateTokens o c ts = .ok a) : a.Draws Step.chars (textOf ts) := by
  have hdraws := walk_draws (fun i v hv => codeItem_draws hinner hlicenses hv) h
  rwa [slice_length, List.drop_zero] at hdraws

theorem evaluateDocument_draws (hlicenses : o.licenses.isEmpty = true)
    (hheader : o.autoHeader = false) {source : String} {a : Trail Step}
    (h : evaluateDocument o c source = .ok a) : a.Draws Step.chars source.toList := by
  obtain ⟨body, hbody, h⟩ := bind_eq_ok.1 h
  cases h
  have hdraws := evaluateTokens_draws hinner hlicenses hbody
  rwa [Options.header_of_no_header hheader, Trail.nothing_andThen, ← textOf_tokenize]

omit hinner in
theorem Level.draws_ofDepth (hlicenses : o.licenses.isEmpty = true) (limit n : Nat) :
    (Level.ofDepth o limit n).Draws := by
  have hfail : ∀ {σ : Type} {chars : σ → List Char} {cs : List Char} {e : Error} {a : Trail σ},
      (Except.ok (Trail.fail e) : Checked (Trail σ)) = .ok a → a.Draws chars cs := by
    intro σ chars cs e a h
    cases h
    exact .of_stop rfl
  induction n generalizing o with
  | zero => exact ⟨hfail, fun _ => hfail, hfail⟩
  | succ n ih =>
    constructor
    · exact walk_draws (fun i v hv => codeItem_draws (ih hlicenses) hlicenses hv)
    · intro ts limit start stop a hlimit
      exact walk_draws (fun i v hv => docItem_draws (ih hlicenses) hlimit hv)
    · intro source a h
      have hbody : o.forInlineBody.licenses.isEmpty = true := hlicenses
      have hdraws := evaluateDocument_draws (ih hbody) hbody rfl h
      rwa [String.toList_ofList] at hdraws

end

end Checked

/-- **Nothing is invented, duplicated or reordered.**  Without licenses the characters of
    what comes out stand in the source too, in the same order. -/
theorem transform_sublist {o : Options} (hlicenses : o.licenses.isEmpty = true)
    (hheader : o.autoHeader = false) {source out : String} (h : transform o source = .ok out) :
    out.toList <+ source.toList := by
  obtain ⟨-, hresult⟩ := (transform_eq_ok_iff hheader).1 h
  have hchecked := Checked.evaluateTokens_eq (o := o)
    (Checked.Level.follows_ofDepth o maxDepth maxDepth)
    (Checked.reached_tokenize o.language.profile source)
  have hdraws := Checked.evaluateTokens_draws
    (Checked.Level.draws_ofDepth hlicenses maxDepth maxDepth) hlicenses hchecked
  rw [textOf_tokenize] at hdraws
  unfold Trail.result at hresult
  split at hresult
  · rename_i hstop
    cases hresult
    rw [String.toList_ofList]
    exact (render_sublist _).trans (hdraws hstop)
  · cases hresult
    exact List.nil_sublist _
  · cases hresult

/-- A line with only a star, a region with two parts, and an inline body with two
    comments in it. -/
def thinnedSource : String :=
  "/**\n * \n * a */\n/* @include-if A */\nx\n" ++
    "-- @include-if A b /* @file-exclude-if C */ c /** d */ @end\n/* @else */\ny\n/* @end */\n"

theorem transform_sublist_thinned :
    transform { keys := Std.TreeSet.ofList ["A"], language := .sql } thinnedSource =
        .ok "/**\n * a */\nx\nb  c /** d */\n" ∧
      "/**\n * a */\nx\nb  c /** d */\n".toList <+ thinnedSource.toList := by
  have h : transform { keys := Std.TreeSet.ofList ["A"], language := .sql } thinnedSource =
      .ok "/**\n * a */\nx\nb  c /** d */\n" := by decide +kernel
  exact ⟨h, transform_sublist (by decide +kernel) rfl h⟩

end FeatureCut
