/-
  FeatureCut/Proofs/CutOff.lean
  =============================
  **Where an evaluation runs out of levels.**

  One level is compared with another on the scopes that are entered from it: there each
  scope comes with the condition under which the first level is cut off on it, and under
  no other condition the two are different (`Level.CutsAt`).  Then the evaluators around
  them are compared in the same way, and cut off on a scope if it enters one on which the
  level is (`Level.around_cuts`).

  Both directions are proved in one go along the evaluation.  They are passed on by
  sequences of trails (`Trail.Cuts.andThen`), by walks (`walk_cuts`) and by each item.
  Whatever is not cut off never fails for want of levels, since no item says so by
  itself (`Error.IsOrdinary`).
-/
import FeatureCut.Proofs.Diagnostics
import FeatureCut.Proofs.Scopes

namespace FeatureCut

/-! ### Other errors -/

/-- An error that has nothing to do with levels. -/
def Error.IsOrdinary (e : Error) : Prop := ∀ limit, e ≠ .nestingTooDeep limit

theorem Error.IsAbout.isOrdinary {e : Error} {t : Token} (h : e.IsAbout t) : e.IsOrdinary := by
  obtain ⟨a, -, rfl | ⟨key, rfl⟩⟩ := h
  · exact fun limit => Error.noConfusion
  · exact fun limit => Error.noConfusion

theorem isOrdinary_unterminated (t : Token) (c : CommentKind) : (t.unterminated c).IsOrdinary :=
  fun _ => Error.noConfusion

theorem isOrdinary_unclosed (t : Token) (p : Polarity) (key : KeyExpr) :
    (t.unclosed p key).IsOrdinary :=
  fun _ => Error.noConfusion

theorem isOrdinary_of_classify {inner : List Token} {e : Error} (h : classify inner = .error e) :
    e.IsOrdinary := by
  obtain ⟨t, r, -, habout⟩ := exists_of_classify h
  exact habout.isOrdinary

theorem isOrdinary_of_classifyHtml {inner : List Token} {e : Error}
    (h : classifyHtml inner = .error e) : e.IsOrdinary := by
  obtain ⟨t, r, -, habout⟩ := exists_of_classifyHtml h
  exact habout.isOrdinary

theorem isOrdinary_of_role {c : CommentKind} {inner : List Token} {e : Error}
    (h : Layer.role c inner = .error e) : e.IsOrdinary := by
  cases c with
  | doc => cases h
  | block =>
    cases hd : classify inner with
    | ok d =>
      rw [Layer.role, hd] at h
      cases h
    | error e' =>
      rw [Layer.role, hd] at h
      exact Except.error.inj h ▸ isOrdinary_of_classify hd
  | html =>
    cases hd : classifyHtml inner with
    | ok d =>
      rw [Layer.role, hd] at h
      cases h
    | error e' =>
      rw [Layer.role, hd] at h
      exact Except.error.inj h ▸ isOrdinary_of_classifyHtml hd

theorem isOrdinary_of_search {y : Layer} {s : Search} {pos : Nat} {ts : List Token} {e : Error}
    (h : y.search s pos ts = .error e) : e.IsOrdinary := by
  fun_induction y.search s pos ts with
  | case1 => cases h
  | case2 s pos t r ht ih => exact ih h
  | case3 s pos t r c ht hc => exact Except.error.inj h ▸ isOrdinary_unterminated t c
  | case4 s pos t r c ht cut hc e' hrole => exact Except.error.inj h ▸ isOrdinary_of_role hrole
  | case5 => cases h
  | case6 s pos t r c ht cut hc role hrole s' hf ih => exact ih h

theorem isOrdinary_of_resolveLicense {licenses : LicenseMap} {keys : ActiveKeys} {e : Error}
    (h : resolveLicense licenses keys = .error e) : e.IsOrdinary := by
  rcases resolveLicense_cases h with ⟨-, rfl⟩ | ⟨-, -, rfl⟩ | ⟨-, -, -, rfl⟩ <;>
    exact fun _ => Error.noConfusion

/-! ### Being cut off -/

/-- Where `D` holds, the first trail has run out of levels.  Else the two are the same,
    and they have not. -/
def Trail.Cuts {σ : Type} (limit : Nat) (D : Prop) (a b : Trail σ) : Prop :=
  (D ∧ a.stop = some (.failed (.nestingTooDeep limit))) ∨
    ¬D ∧ a = b ∧ a.FailsOnly Error.IsOrdinary

namespace Trail.Cuts

variable {σ τ : Type} {limit : Nat} {D E : Prop} {a a' b b' : Trail σ}

theorem same (hD : ¬D) (ha : a.FailsOnly Error.IsOrdinary) : a.Cuts limit D a :=
  Or.inr ⟨hD, rfl, ha⟩

theorem congr (h : a.Cuts limit D b) (hD : D ↔ E) : a.Cuts limit E b := by
  rwa [propext hD] at h

theorem mapSteps (h : a.Cuts limit D b) (f : List σ → Bool → List τ) :
    (a.mapSteps f).Cuts limit D (b.mapSteps f) := by
  rcases h with ⟨hD, hstop⟩ | ⟨hD, rfl, hfails⟩
  · exact Or.inl ⟨hD, hstop⟩
  · exact Or.inr ⟨hD, rfl, hfails⟩

/-- The second trails count only if the evaluation comes to them. -/
theorem andThen (ha : a.Cuts limit D a') (hb : a'.stop = none → b.Cuts limit E b') :
    (a.andThen b).Cuts limit (D ∨ a'.stop = none ∧ E) (a'.andThen b') := by
  rcases ha with ⟨hD, hstop⟩ | ⟨hD, rfl, hfails⟩
  · refine Or.inl ⟨Or.inl hD, ?_⟩
    rw [Trail.andThen_of_stop hstop, hstop]
  · cases hstop : a.stop with
    | some s =>
      rw [Trail.andThen_of_stop hstop, Trail.andThen_of_stop hstop]
      refine Or.inr ⟨?_, rfl, hfails⟩
      rintro (h | ⟨h, -⟩)
      · exact hD h
      · cases h
    | none =>
      rcases hb hstop with ⟨hE, hdeep⟩ | ⟨hE, rfl, hfails'⟩
      · refine Or.inl ⟨Or.inr ⟨rfl, hE⟩, ?_⟩
        rw [Trail.stop_andThen hstop, hdeep]
      · refine Or.inr ⟨?_, rfl, hfails.andThen hfails'⟩
        rintro (h | ⟨-, h⟩)
        · exact hD h
        · exact hE h

/-- What stands in front of a trail and does not stop makes no difference. -/
theorem after (h : b.Cuts limit D b') (ha : a.stop = none) :
    (a.andThen b).Cuts limit D (a.andThen b') := by
  have hfails : a.FailsOnly Error.IsOrdinary := fun e he => by
    rw [ha] at he
    cases he
  have hself : a.Cuts limit False a := .same not_false hfails
  have hcuts := hself.andThen fun _ => h
  exact hcuts.congr ⟨fun hD => hD.elim False.elim And.right, fun hD => Or.inr ⟨ha, hD⟩⟩

/-- Nor does what comes after it and has no levels. -/
theorem before (h : a.Cuts limit D a') (hb : b.FailsOnly Error.IsOrdinary) :
    (a.andThen b).Cuts limit D (a'.andThen b) := by
  have hself : b.Cuts limit False b := .same not_false hb
  have hcuts := h.andThen fun _ => hself
  exact hcuts.congr ⟨fun hD => hD.elim id fun hF => hF.2.elim, Or.inl⟩

end Trail.Cuts

structure Item.Cuts {σ : Type} (limit : Nat) (D : Prop) (i j : Item σ) : Prop where
  trail : i.trail.Cuts limit D j.trail
  taken : i.taken = j.taken

theorem Item.Cuts.same {σ : Type} {limit : Nat} {D : Prop} {i : Item σ} (hD : ¬D)
    (hi : i.trail.FailsOnly Error.IsOrdinary) : i.Cuts limit D i :=
  ⟨.same hD hi, rfl⟩

/-- A walk is cut off at one of the items that it comes to. -/
theorem walk_cuts {σ : Type} {limit : Nat} {item item' : Nat → Token → List Token → Item σ}
    {D : Nat → Token → List Token → Prop} {n : Nat} {ts : List Token}
    (h : ∀ m t r, Visits item' n ts m t r → (item m t r).Cuts limit (D m t r) (item' m t r)) :
    (walk item n ts).Cuts limit (∃ m t r, Visits item' n ts m t r ∧ D m t r)
      (walk item' n ts) := by
  induction n using Nat.strongRecOn generalizing ts with
  | ind n ih =>
    cases n with
    | zero =>
      rw [walk, walk]
      refine .same ?_ .nothing
      rintro ⟨m, t, r, hvisits, -⟩
      cases hvisits
    | succ n =>
      cases ts with
      | nil =>
        rw [walk_nil, walk_nil]
        refine .same ?_ .nothing
        rintro ⟨m, t, r, hvisits, -⟩
        cases hvisits
      | cons t r =>
        have hitem := h n t r .here
        rw [walk, walk, hitem.taken]
        have hcuts := hitem.trail.andThen fun hstop =>
          ih (n - (item' n t r).taken) (by omega)
            fun m u s (hvisits : Visits item' _ (r.drop (item' n t r).taken) m u s) =>
              h m u s (.later hstop hvisits)
        refine hcuts.congr ⟨?_, ?_⟩
        · rintro (hD | ⟨hstop, m, u, s, hvisits, hD⟩)
          · exact ⟨n, t, r, .here, hD⟩
          · exact ⟨m, u, s, .later hstop hvisits, hD⟩
        · rintro ⟨m, u, s, hvisits, hD⟩
          cases hvisits with
          | here => exact Or.inl hD
          | later hstop hvisits => exact Or.inr ⟨hstop, m, u, s, hvisits, hD⟩

/-- The evaluators of one level, with `inner` for what is nested. -/
def Level.around (inner : Level) (o : Options) : Level where
  branch := walk (codeItem o inner false)
  htmlBranch := walk (docItem o inner)
  document source :=
    evaluateTokens o inner (tokenize o.language.profile (String.ofList source))

/-- The evaluators of the first level are cut off on a scope if `D` holds. -/
def Level.CutsAt (limit : Nat) (D : Prop) (a b : Level) : Scope → Prop
  | .document source => (a.document source).Cuts limit D (b.document source)
  | .branch n ts => (a.branch n ts).Cuts limit D (b.branch n ts)
  | .htmlBranch n ts => (a.htmlBranch n ts).Cuts limit D (b.htmlBranch n ts)

/-! ### What a comment enters -/

theorem HtmlEnters.kind {o : Options} {t : Token} {r : List Token} {x : Scope}
    (h : HtmlEnters o t r x) : t.kind = .htmlOpen := by
  cases h with
  | region hk => exact hk

theorem HtmlEnters.branch {o : Options} {t : Token} {r : List Token} {x : Scope}
    (h : HtmlEnters o t r x) {cut : Cut} (hc : cutAt .htmlClose r = some cut) :
    ∃ p key region b, classifyHtml cut.inner = .ok (.opening p key) ∧
      findHtmlRegion 0 cut.rest = .ok (some region) ∧
      region.branch? (p.selects key o.keys) = some b ∧
      x = .htmlBranch b.2 (cut.rest.drop b.1) := by
  cases h with
  | region hk hc' hd hregion hbranch =>
    obtain rfl := Option.some.inj (hc.symm.trans hc')
    exact ⟨_, _, _, _, hd, hregion, hbranch, rfl⟩

theorem HtmlEnters.unique {o : Options} {t : Token} {r : List Token} {x y : Scope}
    (hx : HtmlEnters o t r x) (hy : HtmlEnters o t r y) : x = y := by
  cases hx with
  | region hk hc hd hregion hbranch =>
    obtain ⟨p, key, region, b, hd', hregion', hbranch', rfl⟩ := hy.branch hc
    cases hd.symm.trans hd'
    cases hregion.symm.trans hregion'
    cases hbranch.symm.trans hbranch'
    rfl

theorem CodeEnters.kind {o : Options} {inner : Level} {t : Token} {r : List Token} {x : Scope}
    (h : CodeEnters o inner t r x) : t.kind = .blockOpen ∨ t.kind = .docOpen := by
  cases h with
  | region hk => exact Or.inl hk
  | inline hk => exact Or.inl hk
  | doc hk => exact Or.inr hk

theorem CodeEnters.cut {o : Options} {inner : Level} {t : Token} {r : List Token} {x : Scope}
    (h : CodeEnters o inner t r x) : ∃ cut, cutAt .blockClose r = some cut := by
  cases h with
  | region _ hc => exact ⟨_, hc⟩
  | inline _ hc => exact ⟨_, hc⟩
  | doc _ hc => exact ⟨_, hc⟩

/-- A directive by which something is evaluated on the next level. -/
def Directive.Nests (o : Options) : Directive → Prop
  | .opening .. => True
  | .inline p key _ _ => p.selects key o.keys = true
  | _ => False

/-- What a block comment enters is told by its directive. -/
theorem CodeEnters.directive {o : Options} {inner : Level} {t : Token} {r : List Token}
    {x : Scope} (h : CodeEnters o inner t r x) (hk : t.kind = .blockOpen) {cut : Cut}
    (hc : cutAt .blockClose r = some cut) :
    (∃ p key region b, classify cut.inner = .ok (.opening p key) ∧
      findRegion 0 cut.rest = .ok (some region) ∧
      region.branch? (p.selects key o.keys) = some b ∧
      x = .branch (trimWindow b.2 (cut.rest.drop b.1)).2
        (cut.rest.drop (b.1 + (trimWindow b.2 (cut.rest.drop b.1)).1))) ∨
    ∃ p key lead body, classify cut.inner = .ok (.inline p key lead body) ∧
      p.selects key o.keys = true ∧ x = .document (stripSpace (textOf body)) := by
  cases h with
  | region _ hc' hd hregion hbranch =>
    obtain rfl := Option.some.inj (hc.symm.trans hc')
    exact Or.inl ⟨_, _, _, _, hd, hregion, hbranch, rfl⟩
  | inline _ hc' hd hactive =>
    obtain rfl := Option.some.inj (hc.symm.trans hc')
    exact Or.inr ⟨_, _, _, _, hd, hactive, rfl⟩
  | doc hk' =>
    rw [hk] at hk'
    cases hk'

theorem CodeEnters.unique {o : Options} {inner : Level} {t : Token} {r : List Token}
    {x y : Scope} (hk : t.kind = .blockOpen) (hx : CodeEnters o inner t r x)
    (hy : CodeEnters o inner t r y) : x = y := by
  obtain ⟨cut, hc⟩ := hx.cut
  rcases hx.directive hk hc with
    ⟨p, key, region, b, hd, hregion, hbranch, rfl⟩ | ⟨p, key, lead, body, hd, -, rfl⟩
  · rcases hy.directive hk hc with
      ⟨p', key', region', b', hd', hregion', hbranch', rfl⟩ | ⟨p', key', lead, body, hd', -⟩
    · cases hd.symm.trans hd'
      cases hregion.symm.trans hregion'
      cases hbranch.symm.trans hbranch'
      rfl
    · cases hd.symm.trans hd'
  · rcases hy.directive hk hc with
      ⟨p', key', region, b, hd', -⟩ | ⟨p', key', lead', body', hd', -, rfl⟩
    · cases hd.symm.trans hd'
    · cases hd.symm.trans hd'
      rfl

theorem CodeEnters.visits {o : Options} {inner : Level} {t : Token} {r : List Token} {x : Scope}
    (h : CodeEnters o inner t r x) (hk : t.kind = .docOpen) {cut : Cut}
    (hc : cutAt .blockClose r = some cut) :
    ∃ m u s, Visits (docItem o inner) cut.inner.length cut.inner m u s ∧ HtmlEnters o u s x := by
  cases h with
  | region hk' | inline hk' =>
    rw [hk] at hk'
    cases hk'
  | doc _ hc' hvisits hhtml =>
    obtain rfl := Option.some.inj (hc.symm.trans hc')
    exact ⟨_, _, _, hvisits, hhtml⟩

/-! ### Items -/

section

variable {limit : Nat} {o : Options} {a b : Level} {D : Scope → Prop}

theorem htmlRegionItem_cuts {t : Token} {r : List Token} {cut : Cut} {p : Polarity}
    {key : KeyExpr} (hk : t.kind = .htmlOpen) (hc : cutAt .htmlClose r = some cut)
    (hd : classifyHtml cut.inner = .ok (.opening p key)) (size : Nat)
    (h : ∀ x, HtmlEnters o t r x → a.CutsAt limit (D x) b x) :
    (htmlRegionItem o a t size p key cut.rest).Cuts limit (∃ x, HtmlEnters o t r x ∧ D x)
      (htmlRegionItem o b t size p key cut.rest) := by
  -- what is entered is the branch of a region that has been found
  have hfound : ∀ x, HtmlEnters o t r x → ∃ region c,
      findHtmlRegion 0 cut.rest = .ok (some region) ∧
        region.branch? (p.selects key o.keys) = some c := by
    intro x henters
    obtain ⟨p', key', region, c, hd', hregion, hbranch, -⟩ := henters.branch hc
    cases hd.symm.trans hd'
    exact ⟨region, c, hregion, hbranch⟩
  unfold htmlRegionItem
  split
  · rename_i e he
    refine .same ?_ (.fail ?_)
    · rintro ⟨x, henters, -⟩
      obtain ⟨region, c, hregion, -⟩ := hfound x henters
      cases he.symm.trans hregion
    · rw [findHtmlRegion, ← Layer.search_html] at he
      exact isOrdinary_of_search he
  · rename_i hnone
    refine .same ?_ (.fail (isOrdinary_unclosed t p key))
    rintro ⟨x, henters, -⟩
    obtain ⟨region, c, hregion, -⟩ := hfound x henters
    cases hnone.symm.trans hregion
  · rename_i region hregion
    refine ⟨Trail.Cuts.after ?_ rfl, rfl⟩
    split
    · rename_i start n hbranch
      have henters : HtmlEnters o t r (.htmlBranch n (cut.rest.drop start)) :=
        .region hk hc hd hregion hbranch
      refine (h _ henters).congr ⟨fun hD => ⟨_, henters, hD⟩, ?_⟩
      rintro ⟨x, hx, hD⟩
      rwa [henters.unique hx]
    · rename_i hnone
      refine .same ?_ .nothing
      rintro ⟨x, henters, -⟩
      obtain ⟨region', c, hregion', hbranch⟩ := hfound x henters
      cases hregion.symm.trans hregion'
      cases hnone.symm.trans hbranch

theorem docItem_cuts (n : Nat) (t : Token) (r : List Token)
    (h : ∀ x, HtmlEnters o t r x → a.CutsAt limit (D x) b x) :
    (docItem o a n t r).Cuts limit (∃ x, HtmlEnters o t r x ∧ D x) (docItem o b n t r) := by
  unfold docItem
  split
  · rename_i hk
    refine .same ?_ (.write _)
    rintro ⟨x, henters, -⟩
    rw [henters.kind] at hk
    cases hk
  · rename_i hk
    split
    · rename_i hc
      refine .same ?_ (.fail (isOrdinary_unterminated t .html))
      rintro ⟨x, henters, -⟩
      cases henters with
      | region _ hc' =>
        rw [hc] at hc'
        cases hc'
    · rename_i cut hc
      split
      · rename_i e he
        refine .same ?_ (.fail (isOrdinary_of_classifyHtml he))
        rintro ⟨x, henters, -⟩
        obtain ⟨p, key, region, b, hd, -⟩ := henters.branch hc
        rw [he] at hd
        cases hd
      · rename_i p key hd
        exact htmlRegionItem_cuts hk hc hd _ h
      · rename_i d hplain hd
        refine .same ?_ (.write _)
        rintro ⟨x, henters, -⟩
        obtain ⟨p, key, region, b, hd', -⟩ := henters.branch hc
        rw [hd] at hd'
        exact hplain p key (Except.ok.inj hd')
  · rename_i hhtml
    refine .same ?_ (.write _)
    rintro ⟨x, henters, -⟩
    exact hhtml henters.kind

theorem docCommentItem_cuts {t : Token} {r : List Token} (hk : t.kind = .docOpen)
    (h : ∀ x, CodeEnters o b t r x → a.CutsAt limit (D x) b x) :
    (docCommentItem o a t r).Cuts limit (∃ x, CodeEnters o b t r x ∧ D x)
      (docCommentItem o b t r) := by
  unfold docCommentItem
  split
  · rename_i hc
    refine .same ?_ (.fail (isOrdinary_unterminated t .doc))
    rintro ⟨x, henters, -⟩
    obtain ⟨cut, hc'⟩ := henters.cut
    rw [hc] at hc'
    cases hc'
  · rename_i cut hc
    have hwalk : (walk (docItem o a) cut.inner.length cut.inner).Cuts limit
        (∃ m u s, Visits (docItem o b) cut.inner.length cut.inner m u s ∧
          ∃ x, HtmlEnters o u s x ∧ D x)
        (walk (docItem o b) cut.inner.length cut.inner) :=
      walk_cuts fun m u s hvisits => docItem_cuts m u s fun x hx => h x (.doc hk hc hvisits hx)
    refine ⟨Trail.Cuts.after ((hwalk.mapSteps _).before (.write _)) rfl |>.congr ?_, rfl⟩
    constructor
    · rintro ⟨m, u, s, hvisits, x, hx, hD⟩
      exact ⟨x, .doc hk hc hvisits hx, hD⟩
    · rintro ⟨x, henters, hD⟩
      obtain ⟨m, u, s, hvisits, hx⟩ := henters.visits hk hc
      exact ⟨m, u, s, hvisits, x, hx, hD⟩

theorem Item.Cuts.settled {D : Prop} {i j : Item Step} (h : i.Cuts limit D j) (top : Bool)
    (n : Nat) (r : List Token) : (i.settled top n r).Cuts limit D (j.settled top n r) := by
  unfold Item.settled
  rw [h.taken]
  split
  · exact ⟨h.trail.before (.write _), rfl⟩
  · exact h

theorem regionItem_cuts {t : Token} {r : List Token} {cut : Cut} {p : Polarity} {key : KeyExpr}
    (hk : t.kind = .blockOpen) (hc : cutAt .blockClose r = some cut)
    (hd : classify cut.inner = .ok (.opening p key)) (size : Nat)
    (h : ∀ x, CodeEnters o b t r x → a.CutsAt limit (D x) b x) :
    (regionItem o a t size p key cut.rest).Cuts limit (∃ x, CodeEnters o b t r x ∧ D x)
      (regionItem o b t size p key cut.rest) := by
  have hfound : ∀ x, CodeEnters o b t r x → ∃ region c,
      findRegion 0 cut.rest = .ok (some region) ∧
        region.branch? (p.selects key o.keys) = some c := by
    intro x henters
    rcases henters.directive hk hc with
      ⟨p', key', region, c, hd', hregion, hbranch, -⟩ | ⟨p', key', lead, body, hd', -⟩
    · cases hd.symm.trans hd'
      exact ⟨region, c, hregion, hbranch⟩
    · cases hd.symm.trans hd'
  unfold regionItem
  split
  · rename_i e he
    refine .same ?_ ((Trail.FailsOnly.write _).andThen (.fail ?_))
    · rintro ⟨x, henters, -⟩
      obtain ⟨region, c, hregion, -⟩ := hfound x henters
      cases he.symm.trans hregion
    · rw [findRegion, ← Layer.search_block] at he
      exact isOrdinary_of_search he
  · rename_i hnone
    refine .same ?_ ((Trail.FailsOnly.write _).andThen (.fail (isOrdinary_unclosed t p key)))
    rintro ⟨x, henters, -⟩
    obtain ⟨region, c, hregion, -⟩ := hfound x henters
    cases hnone.symm.trans hregion
  · rename_i region hregion
    refine ⟨Trail.Cuts.after (Trail.Cuts.after (Trail.Cuts.before ?_ (.write _)) rfl) rfl, rfl⟩
    split
    · rename_i start n hbranch
      have henters : CodeEnters o b t r (.branch (trimWindow n (cut.rest.drop start)).2
          (cut.rest.drop (start + (trimWindow n (cut.rest.drop start)).1))) :=
        .region hk hc hd hregion hbranch
      refine (h _ henters).congr ⟨fun hD => ⟨_, henters, hD⟩, ?_⟩
      rintro ⟨x, hx, hD⟩
      rwa [henters.unique hk hx]
    · rename_i hnone
      refine .same ?_ .nothing
      rintro ⟨x, henters, -⟩
      obtain ⟨region', c, hregion', hbranch⟩ := hfound x henters
      cases hregion.symm.trans hregion'
      cases hnone.symm.trans hbranch

theorem blockItem_cuts {t : Token} {r : List Token} (hk : t.kind = .blockOpen) (top : Bool)
    (n : Nat) (h : ∀ x, CodeEnters o b t r x → a.CutsAt limit (D x) b x) :
    (blockItem o a top n t r).Cuts limit (∃ x, CodeEnters o b t r x ∧ D x)
      (blockItem o b top n t r) := by
  unfold blockItem
  split
  · rename_i hc
    refine .same ?_ (.fail (isOrdinary_unterminated t .block))
    rintro ⟨x, henters, -⟩
    obtain ⟨cut, hc'⟩ := henters.cut
    cases hc.symm.trans hc'
  · rename_i cut hc
    have hnot : (∀ d, classify cut.inner = .ok d → ¬d.Nests o) →
        ¬∃ x, CodeEnters o b t r x ∧ D x := by
      rintro hnests ⟨x, henters, -⟩
      rcases henters.directive hk hc with
        ⟨p, key, region, c, hd, -⟩ | ⟨p, key, lead, body, hd, hactive, -⟩
      · exact hnests _ hd trivial
      · exact hnests _ hd hactive
    dsimp only
    cases hd : classify cut.inner with
    | error e =>
      refine .same (hnot fun d hd' => ?_) (.fail (isOrdinary_of_classify hd))
      cases hd.symm.trans hd'
    | ok d =>
      have hplain : ¬d.Nests o → ¬∃ x, CodeEnters o b t r x ∧ D x := by
        intro hd'
        apply hnot
        intro d' hd''
        cases hd.symm.trans hd''
        exact hd'
      cases d with
      | opening p key => exact (regionItem_cuts hk hc hd _ h).settled top n r
      | inline p key lead body =>
        refine ⟨Trail.Cuts.after (Trail.Cuts.before ?_ (.write _)) rfl, rfl⟩
        split
        · rename_i hactive
          have henters : CodeEnters o b t r (.document (stripSpace (textOf body))) :=
            .inline hk hc hd hactive
          have hbody : (inlineTrail a (stripSpace (textOf body))).Cuts limit
              (D (.document (stripSpace (textOf body))))
              (inlineTrail b (stripSpace (textOf body))) :=
            .after (Trail.Cuts.mapSteps (h _ henters) _) rfl
          refine hbody.congr ⟨fun hD => ⟨_, henters, hD⟩, ?_⟩
          rintro ⟨x, hx, hD⟩
          rwa [henters.unique hk hx]
        · rename_i hinactive
          exact .same (hplain hinactive) .nothing
      | fileExclusion key =>
        exact .same (hplain not_false)
          (Item.settled_failsOnly (exclusionTrail_failsOnly t key) top n r)
      | license key =>
        have hlicense : (licenseTrail o key).FailsOnly Error.IsOrdinary :=
          licenseTrail_failsOnly (fun e => isOrdinary_of_resolveLicense) key
        dsimp only
        split
        · exact .same (hplain not_false) (hlicense.andThen (.write _))
        · exact .same (hplain not_false) hlicense
      | _ => exact .same (hplain not_false) (.write _)

theorem codeItem_cuts (top : Bool) (n : Nat) (t : Token) (r : List Token)
    (h : ∀ x, CodeEnters o b t r x → a.CutsAt limit (D x) b x) :
    (codeItem o a top n t r).Cuts limit (∃ x, CodeEnters o b t r x ∧ D x)
      (codeItem o b top n t r) := by
  have hnot : t.kind ≠ .blockOpen → t.kind ≠ .docOpen → ¬∃ x, CodeEnters o b t r x ∧ D x := by
    rintro hblock hdoc ⟨x, henters, -⟩
    exact henters.kind.elim hblock hdoc
  unfold codeItem
  split
  · rename_i hk
    exact .same (hnot (by simp [hk]) (by simp [hk])) (.write _)
  · rename_i hk
    exact .same (hnot (by simp [hk]) (by simp [hk])) .nothing
  · rename_i hk
    exact docCommentItem_cuts hk h
  · rename_i hk
    exact blockItem_cuts hk top n h
  · rename_i hdoc hblock
    exact .same (hnot hblock hdoc) (.write _)

/-- A scope is evaluated alike on two levels, and cut off if it enters a scope on which
    the first one is. -/
theorem Level.around_cuts (x : Scope) (h : ∀ y, Enters o b x y → a.CutsAt limit (D y) b y) :
    (a.around o).CutsAt limit (∃ y, Enters o b x y ∧ D y) (b.around o) x := by
  cases x with
  | document source =>
    have hwalk := walk_cuts fun m t r hvisits =>
      codeItem_cuts true m t r fun y hy => h y (.document rfl hvisits hy)
    refine hwalk.congr ⟨?_, ?_⟩
    · rintro ⟨m, t, r, hvisits, y, hy, hD⟩
      exact ⟨y, .document rfl hvisits hy, hD⟩
    · rintro ⟨y, henters, hD⟩
      cases henters with
      | document hts hvisits hy =>
        subst hts
        exact ⟨_, _, _, hvisits, y, hy, hD⟩
  | branch n ts =>
    have hwalk := walk_cuts fun m t r hvisits =>
      codeItem_cuts false m t r fun y hy => h y (.branch hvisits hy)
    refine hwalk.congr ⟨?_, ?_⟩
    · rintro ⟨m, t, r, hvisits, y, hy, hD⟩
      exact ⟨y, .branch hvisits hy, hD⟩
    · rintro ⟨y, henters, hD⟩
      cases henters with
      | branch hvisits hy => exact ⟨_, _, _, hvisits, y, hy, hD⟩
  | htmlBranch n ts =>
    have hwalk := walk_cuts fun m t r hvisits =>
      docItem_cuts m t r fun y hy => h y (.htmlBranch hvisits hy)
    refine hwalk.congr ⟨?_, ?_⟩
    · rintro ⟨m, t, r, hvisits, y, hy, hD⟩
      exact ⟨y, .htmlBranch hvisits hy, hD⟩
    · rintro ⟨y, henters, hD⟩
      cases henters with
      | htmlBranch hvisits hy => exact ⟨_, _, _, hvisits, y, hy, hD⟩

end

end FeatureCut
