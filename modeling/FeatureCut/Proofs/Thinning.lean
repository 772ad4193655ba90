/-
  FeatureCut/Proofs/Thinning.lean
  ===============================
  **Evaluation leaves tokens out.**

  A document without doc comments and without inline bodies is written as it is, but
  for gaps.  A gap runs from the opening delimiter of one comment to the closing one
  of another: a directive, a region that is dropped, or what lies between two kept
  parts.  `Thins` says this of tokens and steps, and forgets how the regions are
  nested.

  That an evaluation thins its tokens is a recursion over the forest
  (`Forest.thins`).  A document whose evaluation comes to its end has a forest, since
  each of its comments is sound and closes what it opens (`closes_of_sound`).
-/
import FeatureCut.Proofs.ForestEvaluation
import FeatureCut.Proofs.Rejection
import FeatureCut.Proofs.Verbatim

namespace FeatureCut

/-! ### Documents that have a forest -/

/-- The regions that are open before some comments are closed by them. -/
def ClosesAll (depth : Nat) (roles : List Role) : Prop :=
  depth = 0 ∨ ∃ l, l <+: roles ∧ l.count .opening + depth ≤ l.count .closing

theorem ClosesAll.of_closesRegion {roles : List Role} (h : closesRegion roles = true) :
    ClosesAll 1 roles := by
  rw [closesRegion, List.any_eq_true] at h
  obtain ⟨l, hl, hcount⟩ := h
  have hcount : l.count .opening < l.count .closing := by simpa using hcount
  exact Or.inr ⟨l, (List.mem_inits l _).1 hl, hcount⟩

theorem ClosesAll.eq_zero {depth : Nat} (h : ClosesAll depth []) : depth = 0 := by
  rcases h with h | ⟨l, hl, hcount⟩
  · exact h
  · rw [List.prefix_nil.1 hl] at hcount
    simpa using hcount

/-- Past a comment the open regions are still closed; if it opens one, that is too. -/
theorem ClosesAll.step {depth : Nat} {role : Role} {roles : List Role}
    (h : ClosesAll depth (role :: roles)) (hopening : role = .opening → ClosesAll 1 roles) :
    ClosesAll (role.depthAfter depth) roles := by
  by_cases hzero : depth = 0
  · subst hzero
    cases role with
    | opening => exact hopening rfl
    | neutral => exact Or.inl rfl
    | alternative => exact Or.inl rfl
    | closing => exact Or.inl rfl
  · rcases h with h | ⟨l, hl, hcount⟩
    · exact absurd h hzero
    · cases l with
      | nil => exact absurd (by simpa using hcount) hzero
      | cons r l =>
        obtain ⟨rfl, hprefix⟩ := List.cons_prefix_cons.1 hl
        refine Or.inr ⟨l, hprefix, ?_⟩
        cases r <;> simp [Role.depthAfter] at hcount ⊢ <;> omega

/-- Comments that are sound and close what they open leave no region open, if they
    also close the `depth` regions that are open before them. -/
theorem closes_of_sound {ts : List Token} {depth pos : Nat}
    (hsound : ∀ u ∈ codeSuffixes ts, startsMalformed u = false)
    (hdepth : ClosesAll depth (rolesOf (blockRemarks pos ts))) :
    closes depth (blockRemarks pos ts) = true := by
  fun_induction blockRemarks pos ts generalizing depth with
  | case1 pos =>
    rw [ClosesAll.eq_zero hdepth]
    rfl
  | case2 pos t r hk hc =>
    have hstart := hsound (t :: r) (by rw [codeSuffixes]; simp)
    simp [startsMalformed, hk, hc] at hstart
  | case3 pos t r hk cut hc ih =>
    have hstart := hsound (t :: r) (by rw [codeSuffixes]; simp)
    rw [codeSuffixes_comment (Or.inl hk) hc] at hsound
    rw [startsMalformed, hk] at hstart
    dsimp only at hstart
    rw [hc] at hstart
    dsimp only at hstart
    cases hd : classify cut.inner with
    | error e =>
      rw [hd] at hstart
      cases hstart
    | ok d =>
      rw [hd] at hdepth hstart
      apply ih (fun u hu => hsound u (List.mem_cons_of_mem _ hu))
      apply ClosesAll.step hdepth
      intro hrole
      cases d with
      | opening p key =>
        apply ClosesAll.of_closesRegion
        change closesRegion (rolesOf (blockRemarks _ cut.rest)) = true
        rw [rolesOf_blockRemarks _ 0]
        simpa using hstart
      | _ => cases hrole
  | case4 pos t r hk hc =>
    have hstart := hsound (t :: r) (by rw [codeSuffixes]; simp)
    simp [startsMalformed, hk, hc] at hstart
  | case5 pos t r hk cut hc ih =>
    rw [codeSuffixes_comment (Or.inr hk) hc] at hsound
    exact ih (fun u hu => hsound u (List.mem_cons_of_mem _ hu)) hdepth
  | case6 pos t r hb hd ih =>
    rw [codeSuffixes_token ⟨hb, hd⟩] at hsound
    exact ih (fun u hu => hsound u (List.mem_cons_of_mem _ hu)) hdepth

theorem exists_forest {ts : List Token}
    (hsound : ∀ u ∈ codeSuffixes ts, startsMalformed u = false) : ∃ xs, parse ts = some xs := by
  rw [← Option.isSome_iff_exists, parse_isSome]
  exact closes_of_sound hsound (Or.inl rfl)

/-! ### Gaps -/

/-- Whether a list of tokens starts with a comment that holds a whole region. -/
def startsInline : List Token → Bool
  | [] => false
  | t :: r =>
    if t.kind = .blockOpen then
      match cutAt .blockClose r with
      | none => false
      | some cut =>
        match classify cut.inner with
        | .ok (.inline ..) => true
        | _ => false
    else false

/-- A range from the opening delimiter of a comment to the closing one of a comment. -/
def IsEnclosed (d : List Token) : Prop :=
  ∃ o i k, d = o :: (i ++ [k]) ∧ o.kind = .blockOpen ∧ k.kind = .blockClose

/-- What is written of some tokens if only gaps are left out.  A gap marks its line, and
    may take text at its ends along. -/
inductive Thins : List Token → List Step → Prop
  | nil : Thins [] []
  | token {t : Token} {ts : List Token} {ss : List Step}
      (ht : t.kind ≠ .blockOpen ∧ t.kind ≠ .docOpen) (h : Thins ts ss) :
      Thins (t :: ts) ((tokenTrail t).steps ++ ss)
  | comment {c : Comment .blockOpen} {written ss : List Step} {ts : List Token}
      (hfixed : ∀ rest, startsFixed (c.tokens ++ rest) = true)
      (hwritten : written = [.text c.verbatim] ∨ written = [.mark, .text c.verbatim])
      (h : Thins ts ss) : Thins (c.tokens ++ ts) (written ++ ss)
  | gap {a d b ts : List Token} {ss : List Step} (k : Nat) (ha : ∀ t ∈ a, t.kind = .text)
      (hd : IsEnclosed d) (hb : ∀ t ∈ b, t.kind = .text) (h : Thins ts ss) :
      Thins (a ++ (d ++ (b ++ ts))) (List.replicate (k + 1) .mark ++ ss)

theorem Thins.append {ts us : List Token} {ss vs : List Step} (h : Thins ts ss)
    (hu : Thins us vs) : Thins (ts ++ us) (ss ++ vs) := by
  induction h with
  | nil => exact hu
  | token ht _ ih =>
    rw [List.cons_append, List.append_assoc]
    exact .token ht ih
  | comment hfixed hwritten _ ih =>
    rw [List.append_assoc, List.append_assoc]
    exact .comment hfixed hwritten ih
  | gap k ha hd hb _ ih =>
    rw [List.append_assoc, List.append_assoc, List.append_assoc, List.append_assoc]
    exact .gap k ha hd hb ih

theorem Thins.of_nil {ss : List Step} (h : Thins [] ss) : ss = [] := by
  generalize hts : ([] : List Token) = us at h
  cases h with
  | nil => rfl
  | token => cases hts
  | comment => cases hts
  | gap k ha hd hb h =>
    obtain ⟨o, i, k, rfl, -⟩ := hd
    simp at hts

/-- A gap comes first. -/
def StartsGap (ts : List Token) (ss : List Step) : Prop :=
  ∃ a d b rest k ss', ts = a ++ (d ++ (b ++ rest)) ∧ ss = List.replicate (k + 1) .mark ++ ss' ∧
    (∀ t ∈ a, t.kind = .text) ∧ IsEnclosed d ∧ (∀ t ∈ b, t.kind = .text) ∧ Thins rest ss'

theorem Thins.of_token {t : Token} {ts : List Token} {ss : List Step}
    (h : Thins (t :: ts) ss) (ht : t.kind ≠ .blockOpen) :
    (∃ ss', ss = (tokenTrail t).steps ++ ss' ∧ Thins ts ss') ∨ StartsGap (t :: ts) ss := by
  generalize hts : t :: ts = us at h
  cases h with
  | nil => cases hts
  | token hkind h =>
    obtain ⟨rfl, rfl⟩ := List.cons.inj hts
    exact Or.inl ⟨_, rfl, h⟩
  | @comment c _ _ _ _ _ _ =>
    obtain ⟨rfl, -⟩ := List.cons.inj hts
    exact absurd c.opener_kind ht
  | gap k ha hd hb h => exact Or.inr ⟨_, _, _, _, k, _, rfl, rfl, ha, hd, hb, h⟩

theorem Thins.of_comment {c : Comment .blockOpen} {ts : List Token} {ss : List Step}
    (h : Thins (c.tokens ++ ts) ss) :
    (∃ written ss', ss = written ++ ss' ∧ (∀ rest, startsFixed (c.tokens ++ rest) = true) ∧
      (written = [.text c.verbatim] ∨ written = [.mark, .text c.verbatim]) ∧ Thins ts ss') ∨
    StartsGap (c.tokens ++ ts) ss := by
  generalize hts : c.tokens ++ ts = us at h
  cases h with
  | nil => cases hts
  | token ht h =>
    obtain ⟨rfl, -⟩ := List.cons.inj hts
    exact absurd c.opener_kind ht.1
  | comment hfixed hwritten h =>
    obtain ⟨rfl, rfl⟩ := Comment.tokens_append_inj hts
    exact Or.inl ⟨_, _, rfl, hfixed, hwritten, h⟩
  | gap k ha hd hb h => exact Or.inr ⟨_, _, _, _, k, _, rfl, rfl, ha, hd, hb, h⟩

theorem Comment.isEnclosed (c : Comment .blockOpen) : IsEnclosed c.tokens :=
  ⟨c.opener, c.inner, c.closer, rfl, c.opener_kind, c.closer_kind⟩

/-- From one comment to another one. -/
theorem IsEnclosed.append {a c : List Token} (ha : IsEnclosed a) (hc : IsEnclosed c)
    (b : List Token) : IsEnclosed (a ++ (b ++ c)) := by
  obtain ⟨o, i, k, rfl, ho, -⟩ := ha
  obtain ⟨o', i', k', rfl, -, hk'⟩ := hc
  exact ⟨o, i ++ k :: (b ++ o' :: i'), k', by simp, ho, hk'⟩

theorem Thins.enclosed {d : List Token} (hd : IsEnclosed d) (k : Nat) :
    Thins d (List.replicate (k + 1) .mark) := by
  have h := Thins.gap k (a := []) (b := []) (by simp) hd (by simp) .nil
  simpa using h

/-- A comment that is no directive or a stray one is fixed. -/
theorem Saying.fixed {d : Directive} (c : Saying d)
    (hd : d = .plain ∨ d = .alternative ∨ d = .closing) (rest : List Token) :
    startsFixed (c.tokens ++ rest) = true := by
  have hcut := c.cutAt_tail rest
  rw [Comment.tokens, List.cons_append, startsFixed, c.opener_kind]
  dsimp only
  rw [hcut]
  dsimp only
  rw [c.classified]
  rcases hd with rfl | rfl | rfl <;> rfl

theorem Saying.startsInline {p : Polarity} {key : KeyExpr} {lead : Nat} {body : List Token}
    (c : Saying (.inline p key lead body)) (rest : List Token) :
    startsInline (c.tokens ++ rest) = true := by
  have hcut := c.cutAt_tail rest
  rw [Comment.tokens, List.cons_append, FeatureCut.startsInline, if_pos c.opener_kind, hcut]
  dsimp only
  rw [c.classified]

section

variable {o : Options} (hlicenses : o.licenses.isEmpty = true) {limit : Nat}
include hlicenses

/-- What a node gives thins its tokens, if neither doc comments nor inline bodies stand
    in it. -/
def Node.Thinned (o : Options) (limit : Nat) (x : Node) : Prop :=
  ∀ n rest, (∀ u, u <:+ x.tokens ++ rest → startsInline u = false) →
    (∀ t ∈ x.tokens, t.kind ≠ .docOpen) → (x.trail o limit n).stop = none →
      Thins x.tokens (x.trail o limit n).steps

theorem remarkTrail_thins {n : Nat} {d : Directive} (c : Saying d) (hd : d.role ≠ .opening)
    {rest : List Token} (hinline : startsInline (c.tokens ++ rest) = false)
    (hstop : (remarkTrail o (Level.ofDepth o limit n) d c.toComment).stop = none) :
    Thins c.tokens (remarkTrail o (Level.ofDepth o limit n) d c.toComment).steps := by
  cases d with
  | opening p key => exact absurd rfl hd
  | plain =>
    have h := Thins.comment (c := c.toComment) (c.fixed (by simp)) (Or.inl rfl) .nil
    simpa [remarkTrail, Trail.write] using h
  | alternative =>
    have h := Thins.comment (c := c.toComment) (c.fixed (by simp)) (Or.inr rfl) .nil
    simpa [remarkTrail, Trail.write] using h
  | closing =>
    have h := Thins.comment (c := c.toComment) (c.fixed (by simp)) (Or.inr rfl) .nil
    simpa [remarkTrail, Trail.write] using h
  | inline p key lead body =>
    rw [c.startsInline] at hinline
    cases hinline
  | fileExclusion key =>
    have hstop : (exclusionTrail o c.opener key).stop = none := hstop
    change Thins c.tokens (exclusionTrail o c.opener key).steps
    unfold exclusionTrail at hstop ⊢
    by_cases hholds : key.holdsOrDefault o.keys = true
    · rw [if_pos hholds] at hstop
      cases hstop
    · rw [if_neg hholds]
      exact .enclosed c.isEnclosed 0
  | license key =>
    have hstop : (licenseTrail o key).stop = none := hstop
    rw [licenseTrail, resolveLicense, if_pos hlicenses] at hstop
    cases hstop

omit hlicenses in
theorem exists_trimmed (xs : List Node) :
    ∃ a b, Forest.tokens xs = a ++ (Forest.tokens (trimEnds Node.isBlank xs) ++ b) ∧
      (∀ t ∈ a, t.kind = .text) ∧ ∀ t ∈ b, t.kind = .text := by
  obtain ⟨b, hsplit, ha, hb⟩ := exists_trimEnds (Forest.tokens xs)
  rw [Forest.tokens_trimEnds] at hsplit
  exact ⟨_, b, hsplit, ha, hb⟩

omit hlicenses in
theorem Forest.join_thins {xs : List Node} (hxs : ∀ x ∈ xs, x.Thinned o limit) {n : Nat}
    (rest : List Token)
    (hinline : ∀ u, u <:+ Forest.tokens xs ++ rest → startsInline u = false)
    (hdoc : ∀ t ∈ Forest.tokens xs, t.kind ≠ .docOpen)
    (hstop : (Trail.join (xs.map fun x => x.trail o limit n)).stop = none) :
    Thins (Forest.tokens xs) (Trail.join (xs.map fun x => x.trail o limit n)).steps := by
  induction xs with
  | nil => exact .nil
  | cons x xs ih =>
    rw [List.map_cons, Trail.join_cons] at hstop ⊢
    rw [Forest.tokens_cons] at hinline hdoc ⊢
    obtain ⟨hx, hrest⟩ := Trail.stop_of_andThen hstop
    rw [Trail.steps_andThen hx]
    rw [List.append_assoc] at hinline
    apply Thins.append
    · exact hxs x (by simp) n _ hinline (fun t ht => hdoc t (by simp [ht])) hx
    · apply ih (fun y hy => hxs y (by simp [hy])) _ (fun t ht => hdoc t (by simp [ht])) hrest
      exact fun u hu => hinline u (hu.trans (List.suffix_append _ _))

omit hlicenses in
/-- A region of which one part is entered: `d` comes before the part, `d'` after it. -/
theorem branchTrail_thins {xs : List Node} (hxs : ∀ x ∈ xs, x.Thinned o limit) {n : Nat}
    {d d' : List Token} (hd : IsEnclosed d) (hd' : IsEnclosed d') (rest : List Token)
    (hinline : ∀ u, u <:+ Forest.tokens xs ++ rest → startsInline u = false)
    (hdoc : ∀ t ∈ Forest.tokens xs, t.kind ≠ .docOpen) (p : Polarity) (key : KeyExpr)
    (active divided : Bool) (t : Token)
    (hstop : (regionTrail p key active divided t
      (branchTrail limit n fun m => Forest.trails o limit xs m)).stop = none) :
    Thins (d ++ (Forest.tokens xs ++ d'))
      (regionTrail p key active divided t
        (branchTrail limit n fun m => Forest.trails o limit xs m)).steps := by
  cases n with
  | zero => cases hstop
  | succ n =>
    rw [branchTrail_succ] at hstop ⊢
    obtain ⟨-, hstop⟩ := Trail.stop_of_andThen hstop
    obtain ⟨-, hstop⟩ := Trail.stop_of_andThen hstop
    obtain ⟨hbranch, -⟩ := Trail.stop_of_andThen hstop
    obtain ⟨a, b, hsplit, ha, hb⟩ := exists_trimmed xs
    have hpart : Thins (Forest.tokens (trimEnds Node.isBlank xs))
        (Trail.join ((trimEnds Node.isBlank xs).map fun x => x.trail o limit n)).steps := by
      apply Forest.join_thins (fun x hx => hxs x (trimEnds_subset _ _ hx)) (b ++ rest) _ _
        hbranch
      · intro u hu
        apply hinline u
        rw [hsplit, List.append_assoc, List.append_assoc]
        exact hu.trans (List.suffix_append _ _)
      · exact fun t ht => hdoc t (by rw [hsplit]; simp [ht])
    have hopen := Thins.gap 0 (a := []) (by simp) hd ha .nil
    have hclose := Thins.gap 0 (b := []) hb hd' (by simp) .nil
    have h := hopen.append (hpart.append hclose)
    simp only [List.nil_append, List.append_nil, List.append_assoc] at h
    rw [hsplit, regionTrail]
    simpa [Trail.steps_andThen, hbranch, Trail.write, Trail.report] using h

end

mutual

/-- Whatever is evaluated, only gaps are left out. -/
theorem Node.thins {o : Options} (hlicenses : o.licenses.isEmpty = true) (limit : Nat) (x : Node) :
    x.Thinned o limit := by
  cases x with
  | token t ht =>
    intro n rest _ _ _
    have h := Thins.token ht .nil
    simpa [Node.tokens, Node.trail] using h
  | doc c =>
    intro n rest _ hdoc _
    exact absurd c.opener_kind (hdoc c.opener (by simp [Node.tokens, Comment.tokens]))
  | remark d c hd =>
    intro n rest hinline _ hstop
    exact remarkTrail_thins hlicenses c hd (hinline _ (List.suffix_refl _)) hstop
  | region p key head first last =>
    have hfirst := Forest.thins hlicenses limit first
    intro n rest hinline hdoc hstop
    rw [Node.tokens] at hinline hdoc ⊢
    rw [Node.trail] at hstop ⊢
    by_cases hactive : p.selects key o.keys = true
    · rw [if_pos hactive] at hstop ⊢
      apply branchTrail_thins hfirst head.isEnclosed last.isEnclosed (last.tokens ++ rest)
        _ _ _ _ _ _ _ hstop
      · intro u hu
        apply hinline u
        rw [List.append_assoc, List.append_assoc]
        exact hu.trans (List.suffix_append _ _)
      · exact fun t ht => hdoc t (by simp [ht])
    · rw [if_neg hactive]
      exact .enclosed (head.isEnclosed.append last.isEnclosed _) 1
  | divided p key head first middle second last =>
    have hfirst := Forest.thins hlicenses limit first
    have hsecond := Forest.thins hlicenses limit second
    intro n rest hinline hdoc hstop
    rw [Node.tokens] at hinline hdoc ⊢
    rw [Node.trail] at hstop ⊢
    by_cases hactive : p.selects key o.keys = true
    · rw [if_pos hactive] at hstop ⊢
      apply branchTrail_thins hfirst head.isEnclosed (middle.isEnclosed.append last.isEnclosed _)
        (middle.tokens ++ (Forest.tokens second ++ last.tokens) ++ rest) _ _ _ _ _ _ _ hstop
      · intro u hu
        apply hinline u
        rw [List.append_assoc, List.append_assoc]
        exact hu.trans (List.suffix_append _ _)
      · exact fun t ht => hdoc t (by simp [ht])
    · rw [if_neg hactive] at hstop ⊢
      have h := branchTrail_thins hsecond (head.isEnclosed.append middle.isEnclosed
        (Forest.tokens first)) last.isEnclosed (last.tokens ++ rest) ?_ ?_ _ _ _ _ _ hstop
      · simpa using h
      · intro u hu
        apply hinline u
        have hsuffix : Forest.tokens second ++ (last.tokens ++ rest) <:+
            head.tokens ++ (Forest.tokens first ++ (middle.tokens ++
              (Forest.tokens second ++ (last.tokens ++ rest)))) :=
          (List.suffix_append middle.tokens _).trans
            ((List.suffix_append (Forest.tokens first) _).trans (List.suffix_append head.tokens _))
        simpa using hu.trans hsuffix
      · exact fun t ht => hdoc t (by simp [ht])
termination_by structural x

theorem Forest.thins {o : Options} (hlicenses : o.licenses.isEmpty = true) (limit : Nat)
    (xs : List Node) : ∀ x ∈ xs, x.Thinned o limit := by
  cases xs with
  | nil => simp
  | cons x xs =>
    have hhead := Node.thins hlicenses limit x
    have htail := Forest.thins hlicenses limit xs
    intro y hy
    rcases List.mem_cons.1 hy with rfl | hy
    · exact hhead
    · exact htail y hy
termination_by structural xs

end

/-- An evaluation that comes to its end thins the document. -/
theorem evaluatePart_thins {o : Options} (hlicenses : o.licenses.isEmpty = true) {n : Nat}
    {ts : List Token} (hinline : ∀ u, u <:+ ts → startsInline u = false)
    (hdoc : ∀ t ∈ ts, t.kind ≠ .docOpen)
    (hstop : (evaluatePart o (Level.ofDepth o maxDepth n) ts).stop = none) :
    Thins ts (evaluatePart o (Level.ofDepth o maxDepth n) ts).steps := by
  have hsound : ∀ u ∈ codeSuffixes ts, startsMalformed u = false := by
    intro u hu
    by_contra hbad
    have hbad : startsMalformed u = true := by simpa using hbad
    exact walk_stops_of_malformed hbad (Nat.le_refl _) hu hstop
  obtain ⟨xs, hparse⟩ := exists_forest hsound
  obtain ⟨rfl, hbalanced⟩ := parse_sound hparse
  have hwalk := Forest.walk_tokens n (Forest.evaluates o maxDepth xs hbalanced) []
  rw [List.append_nil] at hwalk
  rw [evaluatePart, hwalk] at hstop ⊢
  apply Forest.join_thins (Forest.thins hlicenses maxDepth xs) [] _ hdoc hstop
  rwa [List.append_nil]

end FeatureCut
