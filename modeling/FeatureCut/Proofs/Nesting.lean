/-
  FeatureCut/Proofs/Nesting.lean
  ==============================
  **Regions are properly nested.**

  The end of a region is looked for in all that follows, and not only in the part
  that is being evaluated.  That it is found inside of this part is a matter of
  nesting: the parts of a region are passed with as many regions closed as opened,
  and such a part never closes a region that it has not opened.

  Block comments and html comments nest by the same rules, so both are a `Layer`.
  `Layer.Passes` says how many regions are open before and after some tokens.  A
  search that comes to an end has passed the parts of its region in that sense
  (`Layer.spans_of_search`), and a search that starts in the middle of such a part
  ends in it (`Layer.Passes.exists_search`).
-/
import FeatureCut.Inspect

namespace FeatureCut

/-! ### Layers -/

/-- The two kinds of comments that nest, each among its own kind. -/
inductive Layer where
  | block
  | html
deriving DecidableEq, Repr

namespace Layer

/-- The sort of comment that a token opens.  Doc comments take part in the nesting
    of block comments only as something to be passed over. -/
def comment? : Layer → Kind → Option CommentKind
  | .block, .blockOpen => some .block
  | .block, .docOpen => some .doc
  | .html, .htmlOpen => some .html
  | _, _ => none

/-- What a comment with the given tokens between its delimiters does for the
    nesting. -/
def role : CommentKind → List Token → Except Error Role
  | .block, inner => (classify inner).map Directive.role
  | .doc, _ => .ok .neutral
  | .html, inner => (classifyHtml inner).map HtmlDirective.role

def search (y : Layer) (s : Search) (pos : Nat) : List Token → Except Error (Option Region)
  | [] => .ok none
  | t :: r =>
    match y.comment? t.kind with
    | none => y.search s (pos + 1) r
    | some c =>
      match _h : cutAt c.close r with
      | none => .error (t.unterminated c)
      | some cut =>
        match role c cut.inner with
        | .error e => .error e
        | .ok role =>
          match s.feed ⟨role, ⟨pos, pos + cut.inner.length + 2⟩⟩ with
          | .inl region => .ok (some region)
          | .inr s => y.search s (pos + cut.inner.length + 2) cut.rest
termination_by ts => ts.length
decreasing_by
  · simp
  · have := cutAt_length _h
    simp only [List.length_cons]
    omega

theorem search_token {y : Layer} {t : Token} (ht : y.comment? t.kind = none) (s : Search)
    (pos : Nat) (r : List Token) : y.search s pos (t :: r) = y.search s (pos + 1) r := by
  rw [search, ht]

section

variable {y : Layer} {t : Token} {c : CommentKind} {r : List Token}

theorem search_unterminated (ht : y.comment? t.kind = some c) (hc : cutAt c.close r = none)
    (s : Search) (pos : Nat) : y.search s pos (t :: r) = .error (t.unterminated c) := by
  rw [search, ht]
  dsimp only
  rw [hc]

theorem search_unsound {cut : Cut} {e : Error} (ht : y.comment? t.kind = some c)
    (hc : cutAt c.close r = some cut) (hrole : role c cut.inner = .error e) (s : Search)
    (pos : Nat) : y.search s pos (t :: r) = .error e := by
  rw [search, ht]
  dsimp only
  rw [hc]
  dsimp only
  rw [hrole]

theorem search_comment {cut : Cut} {role : Role} (ht : y.comment? t.kind = some c)
    (hc : cutAt c.close r = some cut) (hrole : Layer.role c cut.inner = .ok role) (s : Search)
    (pos : Nat) :
    y.search s pos (t :: r) =
      match s.feed ⟨role, ⟨pos, pos + cut.inner.length + 2⟩⟩ with
      | .inl region => .ok (some region)
      | .inr s => y.search s (pos + cut.inner.length + 2) cut.rest := by
  rw [search, ht]
  dsimp only
  rw [hc]
  dsimp only
  rw [hrole]

end

theorem role_block {inner : List Token} {d : Directive} (hd : classify inner = .ok d) :
    role .block inner = .ok d.role := by
  rw [role, hd, Except.map]

theorem role_html {inner : List Token} {d : HtmlDirective} (hd : classifyHtml inner = .ok d) :
    role .html inner = .ok d.role := by
  rw [role, hd, Except.map]

theorem search_block (s : Search) (pos : Nat) (ts : List Token) :
    Layer.block.search s pos ts = searchBlocks s pos ts := by
  have hblock : ∀ {t : Token}, t.kind = .blockOpen → Layer.block.comment? t.kind = some .block :=
    fun hk => by rw [hk, comment?]
  have hdoc : ∀ {t : Token}, t.kind = .docOpen → Layer.block.comment? t.kind = some .doc :=
    fun hk => by rw [hk, comment?]
  fun_induction searchBlocks s pos ts with
  | case1 s pos => rw [search]
  | case2 s pos t r hk hc => exact search_unterminated (hblock hk) hc s pos
  | case3 s pos t r hk cut hc e he =>
    exact search_unsound (hblock hk) hc (by rw [role, he, Except.map]) s pos
  | case4 s pos t r hk cut hc d hd region hf =>
    rw [search_comment (hblock hk) hc (role_block hd), hf]
  | case5 s pos t r hk cut hc d hd s' hf ih =>
    rw [search_comment (hblock hk) hc (role_block hd), hf]
    exact ih
  | case6 s pos t r hk hc => exact search_unterminated (hdoc hk) hc s pos
  | case7 s pos t r hk cut hc ih => rw [search_comment (hdoc hk) hc rfl, ← ih, Search.feed]
  | case8 s pos t r hb hd ih =>
    have hnone : Layer.block.comment? t.kind = none := by
      cases hk : t.kind <;> first | rfl | contradiction
    rw [search_token hnone, ih]

theorem search_html (s : Search) (pos : Nat) (ts : List Token) :
    Layer.html.search s pos ts = searchHtml s pos ts := by
  have hhtml : ∀ {t : Token}, t.kind = .htmlOpen → Layer.html.comment? t.kind = some .html :=
    fun hk => by rw [hk, comment?]
  fun_induction searchHtml s pos ts with
  | case1 s pos => rw [search]
  | case2 s pos t r hk hc => exact search_unterminated (hhtml hk) hc s pos
  | case3 s pos t r hk cut hc e he =>
    exact search_unsound (hhtml hk) hc (by rw [role, he, Except.map]) s pos
  | case4 s pos t r hk cut hc d hd region hf =>
    rw [search_comment (hhtml hk) hc (role_html hd), hf]
  | case5 s pos t r hk cut hc d hd s' hf ih =>
    rw [search_comment (hhtml hk) hc (role_html hd), hf]
    exact ih
  | case6 s pos t r hk ih =>
    have hnone : Layer.html.comment? t.kind = none := by
      cases h : t.kind <;> first | rfl | contradiction
    rw [search_token hnone, ih]

end Layer

/-! ### Other first indices -/

def Boundary.shift (k : Nat) (b : Boundary) : Boundary := ⟨b.before + k, b.after + k⟩

def Region.shift (k : Nat) (r : Region) : Region :=
  ⟨r.ending.shift k, r.alternative.map (Boundary.shift k)⟩

def Search.shift (k : Nat) (s : Search) : Search :=
  ⟨s.nested, s.alternative.map (Boundary.shift k)⟩

theorem Search.feed_shift (k : Nat) (s : Search) (role : Role) (b : Boundary) :
    (s.shift k).feed ⟨role, b.shift k⟩ =
      (s.feed ⟨role, b⟩).map (Region.shift k) (Search.shift k) := by
  obtain ⟨nested, alternative⟩ := s
  cases role with
  | neutral => rfl
  | opening => rfl
  | alternative =>
    cases alternative with
    | none => cases nested <;> rfl
    | some b' => simp [Search.feed, Search.shift]
  | closing => cases nested <;> rfl

namespace Layer

theorem search_shift (y : Layer) (k : Nat) (s : Search) (pos : Nat) (ts : List Token) :
    y.search (s.shift k) (pos + k) ts =
      (y.search s pos ts).map (Option.map (Region.shift k)) := by
  fun_induction y.search s pos ts with
  | case1 s pos => rw [search, Except.map, Option.map_none]
  | case2 s pos t r ht ih => rw [search_token ht, ← ih, Nat.add_right_comm]
  | case3 s pos t r c ht hc => rw [search_unterminated ht hc, Except.map]
  | case4 s pos t r c ht cut hc e he => rw [search_unsound ht hc he, Except.map]
  | case5 s pos t r c ht cut hc role hrole found hf =>
    have hfeed := Search.feed_shift k s role ⟨pos, pos + cut.inner.length + 2⟩
    rw [hf, Boundary.shift] at hfeed
    have hplace : pos + k + cut.inner.length + 2 = pos + cut.inner.length + 2 + k := by omega
    rw [search_comment ht hc hrole, hplace, hfeed]
    rfl
  | case6 s pos t r c ht cut hc role hrole s' hf ih =>
    have hfeed := Search.feed_shift k s role ⟨pos, pos + cut.inner.length + 2⟩
    rw [hf, Boundary.shift] at hfeed
    have hplace : pos + k + cut.inner.length + 2 = pos + cut.inner.length + 2 + k := by omega
    rw [search_comment ht hc hrole, hplace, hfeed]
    exact ih

/-! ### Passing over tokens -/

/-- The tokens of one comment, which does the given for the nesting. -/
inductive IsComment (y : Layer) (role : Role) : List Token → Prop
  | mk {t mark : Token} {c : CommentKind} {inner : List Token} (ht : y.comment? t.kind = some c)
      (hinner : ∀ u ∈ inner, u.kind ≠ c.close) (hmark : mark.kind = c.close)
      (hrole : Layer.role c inner = .ok role) : IsComment y role (t :: (inner ++ [mark]))

end Layer

/-- How a comment changes the number of open regions.  Without any, none can be
    closed. -/
inductive Role.Steps : Role → Nat → Nat → Prop
  | neutral (n : Nat) : Role.Steps .neutral n n
  | opening (n : Nat) : Role.Steps .opening n (n + 1)
  | alternative (n : Nat) : Role.Steps .alternative n n
  | closing (n : Nat) : Role.Steps .closing (n + 1) n

namespace Layer

/-- The tokens lead from one number of open regions to another. -/
inductive Passes (y : Layer) : Nat → List Token → Nat → Prop
  | nil {n : Nat} : Passes y n [] n
  | token {n m : Nat} {t : Token} {r : List Token} (ht : y.comment? t.kind = none)
      (hr : Passes y n r m) : Passes y n (t :: r) m
  | comment {n k m : Nat} {role : Role} {l r : List Token} (hl : y.IsComment role l)
      (hrole : role.Steps n k) (hr : Passes y k r m) : Passes y n (l ++ r) m

section

variable {y : Layer}

theorem IsComment.search {role : Role} {l : List Token} (h : y.IsComment role l) (s : Search)
    (pos : Nat) (rest : List Token) :
    y.search s pos (l ++ rest) =
      match s.feed ⟨role, ⟨pos, pos + l.length⟩⟩ with
      | .inl region => .ok (some region)
      | .inr s => y.search s (pos + l.length) rest := by
  cases h with
  | @mk t mark c inner ht hinner hmark hrole =>
    have hc := cutAt_append_cons hinner hmark rest
    have hlen : pos + (t :: (inner ++ [mark])).length = pos + inner.length + 2 := by
      simp only [List.length_cons, List.length_append, List.length_nil]
      omega
    rw [hlen, List.cons_append, List.append_assoc]
    exact search_comment ht hc hrole s pos

theorem IsComment.of_cutAt {t : Token} {c : CommentKind} {r : List Token} {cut : Cut}
    {role : Role} (ht : y.comment? t.kind = some c) (hc : cutAt c.close r = some cut)
    (hrole : Layer.role c cut.inner = .ok role) :
    ∃ l, y.IsComment role l ∧ t :: r = l ++ cut.rest ∧
      ∀ pos, pos + cut.inner.length + 2 = pos + l.length := by
  refine ⟨t :: (cut.inner ++ [cut.mark]), .mk ht (cutAt_inner hc) (cutAt_kind hc) hrole, ?_, ?_⟩
  · rw [cutAt_append hc]
    simp
  · intro pos
    simp only [List.length_cons, List.length_append, List.length_nil]
    omega

theorem Passes.append {n k m : Nat} {a b : List Token} (ha : y.Passes n a k)
    (hb : y.Passes k b m) : y.Passes n (a ++ b) m := by
  induction ha with
  | nil => exact hb
  | token ht _ ih => exact .token ht (ih hb)
  | comment hl hrole _ ih =>
    rw [List.append_assoc]
    exact .comment hl hrole (ih hb)

theorem comment?_text {t : Token} (ht : t.kind = .text) : y.comment? t.kind = none := by
  rw [ht]
  cases y <;> rfl

theorem Passes.text {a : List Token} (ha : ∀ t ∈ a, t.kind = .text) (n : Nat) :
    y.Passes n a n := by
  induction a with
  | nil => exact .nil
  | cons t a ih =>
    have htail := ih fun u hu => ha u (by simp [hu])
    exact .token (comment?_text (ha t (by simp))) htail

theorem Passes.of_concat_text {n m : Nat} {w : List Token} {t : Token} (ht : t.kind = .text)
    (h : y.Passes n (w ++ [t]) m) : y.Passes n w m := by
  generalize hl : w ++ [t] = l at h
  induction h generalizing w with
  | nil => simp at hl
  | @token n m t' r ht' hr ih =>
    cases w with
    | nil =>
      obtain ⟨rfl, rfl⟩ := List.cons.inj hl
      exact hr
    | cons t'' w =>
      obtain ⟨rfl, hw⟩ := List.cons.inj hl
      exact .token ht' (ih hw)
  | @comment n k m role l r hcomment hrole hr ih =>
    rcases List.eq_nil_or_concat r with rfl | ⟨r, t', rfl⟩
    · -- then the text closes a comment
      cases hcomment with
      | @mk _ _ c _ _ _ hmark _ =>
        rw [List.append_nil, ← List.cons_append] at hl
        obtain ⟨-, hlast⟩ := List.append_inj' hl rfl
        cases hlast
        rw [ht] at hmark
        cases c <;> cases hmark
    · rw [List.concat_eq_append, ← List.append_assoc] at hl
      obtain ⟨rfl, hlast⟩ := List.append_inj' hl rfl
      cases hlast
      exact .comment hcomment hrole (ih (List.concat_eq_append ..).symm)

theorem Passes.of_token {n m : Nat} {t : Token} {r : List Token} (ht : y.comment? t.kind = none)
    (h : y.Passes n (t :: r) m) : y.Passes n r m := by
  generalize hl : t :: r = l at h
  cases h with
  | nil => cases hl
  | token _ hr =>
    obtain ⟨-, rfl⟩ := List.cons.inj hl
    exact hr
  | comment hcomment _ _ =>
    cases hcomment with
    | mk ht' _ _ _ =>
      obtain ⟨rfl, -⟩ := List.cons.inj hl
      rw [ht] at ht'
      cases ht'

/-- Only one comment starts at a token. -/
theorem IsComment.unique {role role' : Role} {l l' a a' : List Token} (h : y.IsComment role l)
    (h' : y.IsComment role' l') (heq : l ++ a = l' ++ a') : l = l' ∧ role = role' := by
  cases h with
  | @mk t mark c inner ht hinner hmark hrole =>
    cases h' with
    | @mk t' mark' c' inner' ht' hinner' hmark' hrole' =>
      simp only [List.cons_append, List.append_assoc, List.nil_append] at heq
      obtain ⟨rfl, hrest⟩ := List.cons.inj heq
      obtain rfl : c = c' := Option.some.inj (ht.symm.trans ht')
      have hcut := cutAt_append_cons hinner hmark a
      rw [hrest, cutAt_append_cons hinner' hmark' a'] at hcut
      cases hcut
      cases hrole.symm.trans hrole'
      exact ⟨rfl, rfl⟩

/-- Where tokens are passed that start with a comment, it is passed as a whole. -/
theorem Passes.of_comment {n m : Nat} {role : Role} {l a w b : List Token}
    (hl : y.IsComment role l) (hw : w ≠ []) (heq : l ++ a = w ++ b) (h : y.Passes n w m) :
    ∃ k r, w = l ++ r ∧ role.Steps n k ∧ y.Passes k r m := by
  cases h with
  | nil => exact absurd rfl hw
  | token ht _ =>
    cases hl with
    | mk ht' _ _ _ =>
      obtain ⟨rfl, -⟩ := List.cons.inj heq
      rw [ht] at ht'
      cases ht'
  | @comment _ k _ role' l' r hl' hrole hr =>
    rw [List.append_assoc] at heq
    obtain ⟨rfl, rfl⟩ := hl.unique hl' heq
    exact ⟨k, r, rfl, hrole, hr⟩

/-- Text at either end of some tokens does not count. -/
theorem Passes.of_text {n m : Nat} {a w b : List Token} (ha : ∀ t ∈ a, t.kind = .text)
    (hb : ∀ t ∈ b, t.kind = .text) (h : y.Passes n (a ++ (w ++ b)) m) : y.Passes n w m := by
  induction a with
  | nil =>
    rw [List.nil_append] at h
    induction b generalizing w with
    | nil => rwa [List.append_nil] at h
    | cons t b ih =>
      refine .of_concat_text (hb t (by simp)) (ih (fun u hu => hb u (by simp [hu])) ?_)
      rwa [List.append_assoc]
  | cons t a ih =>
    refine ih (fun u hu => ha u (by simp [hu])) ?_
    exact .of_token (comment?_text (ha t (by simp))) h

end

end Layer

/-! ### Steps of a search -/

/-- A search ends with the first comment that closes more than was opened. -/
theorem Search.region_of_feed {s : Search} {m : Remark} {region : Region}
    (h : s.feed m = .inl region) :
    m.role = .closing ∧ s.nested = 0 ∧ region = ⟨m.bounds, s.alternative⟩ := by
  obtain ⟨role, bounds⟩ := m
  obtain ⟨nested, alternative⟩ := s
  cases role with
  | closing =>
    cases nested with
    | zero =>
      cases h
      exact ⟨rfl, rfl, rfl⟩
    | succ n => cases h
  | _ => cases h

/-- A search that goes on counts the regions, and keeps the first division. -/
theorem Search.steps_of_feed {s s' : Search} {m : Remark} (h : s.feed m = .inr s') :
    m.role.Steps s.nested s'.nested ∧
      (s'.alternative = s.alternative ∨
        m.role = .alternative ∧ s.nested = 0 ∧ s.alternative = none ∧
          s' = ⟨0, some m.bounds⟩) := by
  obtain ⟨role, bounds⟩ := m
  obtain ⟨nested, alternative⟩ := s
  cases role with
  | neutral =>
    cases h
    exact ⟨.neutral nested, Or.inl rfl⟩
  | opening =>
    cases h
    exact ⟨.opening nested, Or.inl rfl⟩
  | alternative =>
    simp only [Search.feed, Sum.inr.injEq] at h
    split at h
    · rename_i hfirst
      obtain ⟨rfl, rfl⟩ : nested = 0 ∧ alternative = none := by simpa using hfirst
      subst h
      exact ⟨.alternative 0, Or.inr ⟨rfl, rfl, rfl, rfl⟩⟩
    · subst h
      exact ⟨.alternative nested, Or.inl rfl⟩
  | closing =>
    cases nested with
    | zero => cases h
    | succ n =>
      cases h
      exact ⟨.closing n, Or.inl rfl⟩

/-- Where one more region is open than a search has met, the comment ends the search
    or keeps it that way. -/
theorem Search.feed_of_steps {s : Search} {role : Role} {k n : Nat}
    (h : role.Steps (s.nested + 1 + k) n) (b : Boundary) :
    (n = k ∧ s.feed ⟨role, b⟩ = .inl ⟨b, s.alternative⟩) ∨
      ∃ s', s.feed ⟨role, b⟩ = .inr s' ∧ n = s'.nested + 1 + k := by
  cases hfeed : s.feed ⟨role, b⟩ with
  | inl region =>
    obtain ⟨rfl, hnested, rfl⟩ := Search.region_of_feed hfeed
    refine Or.inl ⟨?_, rfl⟩
    generalize hn : s.nested + 1 + k = i at h
    cases h
    omega
  | inr s' =>
    obtain ⟨hsteps, -⟩ := Search.steps_of_feed hfeed
    refine Or.inr ⟨s', rfl, ?_⟩
    generalize hn : s.nested + 1 + k = i at h
    generalize hm : s.nested = j at hsteps
    generalize hm' : s'.nested = j' at hsteps ⊢
    dsimp only at hsteps
    cases h <;> cases hsteps <;> omega

namespace Layer

/-! ### The parts of a region -/

/-- The end of the region that a search is in, where the first of the tokens has
    the index `pos`: all parts of the region are passed, and a comment divides them
    unless the search has met one before. -/
inductive Spans (y : Layer) (pos : Nat) (s : Search) : List Token → Region → Prop
  | whole {body last rest : List Token} (hbody : y.Passes s.nested body 0)
      (hlast : y.IsComment .closing last) :
      Spans y pos s (body ++ (last ++ rest))
        ⟨⟨pos + body.length, pos + body.length + last.length⟩, s.alternative⟩
  | divided {first middle second last rest : List Token} (hs : s.alternative = none)
      (hfirst : y.Passes s.nested first 0) (hmiddle : y.IsComment .alternative middle)
      (hsecond : y.Passes 0 second 0) (hlast : y.IsComment .closing last) :
      Spans y pos s (first ++ (middle ++ (second ++ (last ++ rest))))
        ⟨⟨pos + first.length + middle.length + second.length,
            pos + first.length + middle.length + second.length + last.length⟩,
          some ⟨pos + first.length, pos + first.length + middle.length⟩⟩

section

variable {y : Layer}

theorem Spans.prepend {pos : Nat} {s s' : Search} {p l : List Token} {region : Region}
    (hp : y.Passes s.nested p s'.nested) (hs : s'.alternative = s.alternative)
    (h : y.Spans (pos + p.length) s' l region) : y.Spans pos s (p ++ l) region := by
  cases h with
  | @whole body last rest hbody hlast =>
    have hspan := @Spans.whole y pos s (p ++ body) last rest (hp.append hbody) hlast
    rw [List.append_assoc, List.length_append, ← Nat.add_assoc] at hspan
    rwa [hs]
  | @divided first middle second last rest hs' hfirst hmiddle hsecond hlast =>
    have hspan := @Spans.divided y pos s (p ++ first) middle second last rest (hs ▸ hs')
      (hp.append hfirst) hmiddle hsecond hlast
    rwa [List.append_assoc, List.length_append, ← Nat.add_assoc] at hspan

/-- A search that comes to an end has passed the parts of its region. -/
theorem spans_of_search {s : Search} {pos : Nat} {l : List Token} {region : Region}
    (h : y.search s pos l = .ok (some region)) : y.Spans pos s l region := by
  fun_induction y.search s pos l with
  | case1 s pos => cases h
  | case2 s pos t r ht ih => exact .prepend (p := [t]) (.token ht .nil) rfl (ih h)
  | case3 s pos t r c ht hc => cases h
  | case4 s pos t r c ht cut hc e he => cases h
  | case5 s pos t r c ht cut hc role hrole found hf =>
    cases h
    obtain ⟨l, hcomment, hsplit, hlen⟩ := IsComment.of_cutAt ht hc hrole
    obtain ⟨rfl, hnested, rfl⟩ := Search.region_of_feed hf
    rw [hsplit, hlen]
    exact @Spans.whole y pos s [] l cut.rest (hnested ▸ .nil) hcomment
  | case6 s pos t r c ht cut hc role hrole s' hf ih =>
    obtain ⟨l, hcomment, hsplit, hlen⟩ := IsComment.of_cutAt ht hc hrole
    have hspan := ih h
    rw [hlen] at hf hspan
    rw [hsplit]
    obtain ⟨hsteps, hkept | ⟨rfl, hnested, hnone, rfl⟩⟩ := Search.steps_of_feed hf
    · have hpasses := Passes.comment hcomment hsteps .nil
      rw [List.append_nil] at hpasses
      exact hspan.prepend hpasses hkept
    · -- the comment divides the region, so no later one does
      generalize cut.rest = tail at hspan ⊢
      cases hspan with
      | @whole body last rest hbody hlast =>
        exact @Spans.divided y pos s [] l body last rest hnone (hnested ▸ .nil) hcomment hbody hlast
      | divided hs => cases hs

/-- A search in the middle of a part in which all its regions are closed ends there. -/
theorem Passes.exists_search {n : Nat} {w : List Token} (h : y.Passes n w 0) {s : Search}
    {k : Nat} (hn : n = s.nested + 1 + k) (pos : Nat) :
    ∃ region head tail, w = head ++ tail ∧ region.ending.after = pos + head.length ∧
      y.Passes k tail 0 ∧ ∀ rest, y.search s pos (w ++ rest) = .ok (some region) := by
  generalize hm : 0 = m at h
  induction h generalizing s pos with
  | nil => omega
  | @token n m t r ht hr ih =>
    obtain ⟨region, head, tail, rfl, hafter, htail, hsearch⟩ := ih hn (pos + 1) hm
    refine ⟨region, t :: head, tail, rfl, ?_, htail, ?_⟩
    · rw [hafter, List.length_cons]
      omega
    · intro rest
      rw [List.cons_append, search_token ht]
      exact hsearch rest
  | @comment n n' m role l r hcomment hrole hr ih =>
    subst hn hm
    rcases Search.feed_of_steps hrole ⟨pos, pos + l.length⟩ with ⟨rfl, hfeed⟩ | ⟨s', hfeed, hn'⟩
    · refine ⟨⟨⟨pos, pos + l.length⟩, s.alternative⟩, l, r, rfl, rfl, hr, ?_⟩
      intro rest
      rw [List.append_assoc, hcomment.search, hfeed]
    · obtain ⟨region, head, tail, rfl, hafter, htail, hsearch⟩ := ih hn' (pos + l.length) rfl
      refine ⟨region, l ++ head, tail, (List.append_assoc ..).symm, ?_, htail, ?_⟩
      · rw [hafter, List.length_append]
        omega
      · intro rest
        rw [List.append_assoc, hcomment.search, hfeed]
        exact hsearch rest

end

end Layer

end FeatureCut
