/-
  FeatureCut/Proofs/Matching.lean
  ===============================
  **Which comment ends a region.**

  `RegionLaw` says it without a search: the end of a region is the first closing comment
  with which more regions are closed than were opened after the start, and the region is
  divided by the first alternative before it at which as many are closed as opened.
  Comments that cannot be read count up to there and not beyond.

  A search keeps the difference of the two numbers and jumps over the comments that it
  has read.  The law has each opening delimiter read by itself (`Layer.readings`).  That
  this is the same is owed to the grammar: between an opening delimiter and the first
  closing one there is no other opening delimiter of the layer.
-/
import FeatureCut.Proofs.Grammar
import FeatureCut.Proofs.Nesting

namespace FeatureCut

/-! ### First places -/

/-- No place of a list has the property, which speaks of the elements before the place
    and of the one at it. -/
def Nowhere {α : Type} (P : List α → α → Prop) (ms : List α) : Prop :=
  ∀ l u r, ms = l ++ u :: r → ¬P l u

/-- The place before which the elements `l` stand is the first one with the property. -/
def FirstAt {α : Type} (P : List α → α → Prop) (l : List α) (u : α) : Prop :=
  P l u ∧ Nowhere P l

section

variable {α : Type} {P : List α → α → Prop} {ms : List α} {m : α}

theorem nowhere_nil : Nowhere P [] := by
  intro l u r h
  cases l <;> cases h

theorem Nowhere.concat (hms : Nowhere P ms) (hm : ¬P ms m) : Nowhere P (ms ++ [m]) := by
  intro l u r h
  rcases List.eq_nil_or_concat r with rfl | ⟨r, v, rfl⟩
  · obtain ⟨rfl, hu⟩ := List.append_inj' h rfl
    cases hu
    exact hm
  · rw [List.concat_eq_append, ← List.cons_append, ← List.append_assoc] at h
    obtain ⟨rfl, -⟩ := List.append_inj' h rfl
    exact hms l u r rfl

/-- There is only one first place. -/
theorem FirstAt.unique {l l' r r' : List α} {u u' : α} (h : FirstAt P l u)
    (h' : FirstAt P l' u') (heq : l ++ u :: r = l' ++ u' :: r') : l = l' ∧ u = u' := by
  rcases List.append_eq_append_iff.1 heq with ⟨a, rfl, ha⟩ | ⟨a, rfl, ha⟩
  · cases a with
    | nil => exact ⟨(List.append_nil l).symm, (List.cons.inj ha).1⟩
    | cons v a =>
      obtain ⟨rfl, -⟩ := List.cons.inj ha
      exact absurd h.1 (h'.2 l u a rfl)
  · cases a with
    | nil => exact ⟨List.append_nil l', (List.cons.inj ha).1.symm⟩
    | cons v a =>
      obtain ⟨rfl, -⟩ := List.cons.inj ha
      exact absurd h'.1 (h.2 l' u' a rfl)

end

/-! ### The law -/

def openings (ms : List Remark) : Nat := ms.countP fun m => m.role = .opening

def closings (ms : List Remark) : Nat := ms.countP fun m => m.role = .closing

/-- A comment closes more than the comments before it have opened. -/
def Exceeds (before : List Remark) (m : Remark) : Prop :=
  m.role = .closing ∧ openings before < closings (before ++ [m])

/-- A comment divides what is closed before it as often as it is opened. -/
def Divides (before : List Remark) (m : Remark) : Prop :=
  m.role = .alternative ∧ openings before = closings before

/-- The first division among some comments, if there is one. -/
inductive Division (ms : List Remark) : Option Boundary → Prop
  | first {l r : List Remark} {u : Remark} (hms : ms = l ++ u :: r) (hu : FirstAt Divides l u) :
      Division ms (some u.bounds)
  | none (h : Nowhere Divides ms) : Division ms none

/-- **The end of a region**, given the comments after its start.  A region is found if all
    comments up to its end can be read, and missing if all can be read and none ends it.  A
    comment that cannot be read counts if none before it ends the region. -/
inductive RegionLaw : List (Except Error Remark) → Except Error (Option Region) → Prop
  | found {before : List Remark} {m : Remark} {rest : List (Except Error Remark)}
      {alternative : Option Boundary} (hend : FirstAt Exceeds before m)
      (hdivision : Division before alternative) :
      RegionLaw (before.map .ok ++ .ok m :: rest) (.ok (some ⟨m.bounds, alternative⟩))
  | missing {ms : List Remark} (h : Nowhere Exceeds ms) : RegionLaw (ms.map .ok) (.ok none)
  | failed {before : List Remark} {e : Error} {rest : List (Except Error Remark)}
      (h : Nowhere Exceeds before) : RegionLaw (before.map .ok ++ .error e :: rest) (.error e)

/-! ### Searches by the law -/

section

variable {before : List Remark} {s : Search} {m : Remark} {b : Boundary}

theorem openings_concat (before : List Remark) (m : Remark) :
    openings (before ++ [m]) = openings before + if m.role = .opening then 1 else 0 := by
  rw [openings, openings, List.countP_append, List.countP_singleton]
  simp only [decide_eq_true_eq]

theorem closings_concat (before : List Remark) (m : Remark) :
    closings (before ++ [m]) = closings before + if m.role = .closing then 1 else 0 := by
  rw [closings, closings, List.countP_append, List.countP_singleton]
  simp only [decide_eq_true_eq]

/-- What a search has come to after some comments that do not end its region. -/
structure Search.After (before : List Remark) (s : Search) : Prop where
  nested : s.nested + closings before = openings before
  division : Division before s.alternative
  goesOn : Nowhere Exceeds before

theorem Search.after_start : Search.start.After [] := ⟨rfl, .none nowhere_nil, nowhere_nil⟩

theorem Search.After.exceeds_iff (h : s.After before) :
    Exceeds before m ↔ m.role = .closing ∧ s.nested = 0 := by
  have hnested := h.nested
  rw [Exceeds, closings_concat]
  constructor
  · rintro ⟨hrole, hlt⟩
    rw [if_pos hrole] at hlt
    exact ⟨hrole, by omega⟩
  · rintro ⟨hrole, hzero⟩
    rw [if_pos hrole]
    exact ⟨hrole, by omega⟩

theorem Search.After.divides_iff (h : s.After before) :
    Divides before m ↔ m.role = .alternative ∧ s.nested = 0 := by
  have hnested := h.nested
  rw [Divides]
  constructor
  · rintro ⟨hrole, heq⟩
    exact ⟨hrole, by omega⟩
  · rintro ⟨hrole, hzero⟩
    exact ⟨hrole, by omega⟩

theorem Search.After.nested_feed (h : s.After before) {s' : Search} (hfeed : s.feed m = .inr s') :
    s'.nested + closings (before ++ [m]) = openings (before ++ [m]) := by
  have hnested := h.nested
  obtain ⟨hsteps, -⟩ := Search.steps_of_feed hfeed
  rw [openings_concat, closings_concat]
  generalize m.role = role at hsteps ⊢
  generalize s.nested = n at hsteps hnested
  generalize s'.nested = n' at hsteps ⊢
  cases hsteps with
  | neutral => exact hnested
  | alternative => exact hnested
  | opening =>
    rw [if_pos rfl, if_neg (by decide)]
    omega
  | closing =>
    rw [if_pos rfl, if_neg (by decide)]
    omega

theorem Division.concat (h : Division before (some b)) (m : Remark) :
    Division (before ++ [m]) (some b) := by
  cases h with
  | @first l r u hms hu =>
    exact .first (r := r ++ [m]) (by rw [hms, List.append_assoc, List.cons_append]) hu

theorem Search.After.division_feed (h : s.After before) {s' : Search}
    (hfeed : s.feed m = .inr s') : Division (before ++ [m]) s'.alternative := by
  have hdivision := h.division
  obtain ⟨-, hkept | ⟨hrole, hzero, hnone, rfl⟩⟩ := Search.steps_of_feed hfeed
  · rw [hkept]
    cases halternative : s.alternative with
    | some b =>
      rw [halternative] at hdivision
      exact hdivision.concat m
    | none =>
      -- the first division would have been kept
      have hnot : ¬Divides before m := by
        intro hdivides
        obtain ⟨hrole, hzero⟩ := h.divides_iff.1 hdivides
        have hset : s.feed m = .inr { s with alternative := some m.bounds } := by
          rw [Search.feed, hrole]
          simp only [hzero, halternative]
          rfl
        have halternative' := congrArg Search.alternative (Sum.inr.inj (hset.symm.trans hfeed))
        rw [hkept, halternative] at halternative'
        cases halternative'
      rw [halternative] at hdivision
      cases hdivision with
      | none hnowhere => exact .none (hnowhere.concat hnot)
  · rw [hnone] at hdivision
    cases hdivision with
    | none hnowhere => exact .first (r := []) rfl ⟨h.divides_iff.2 ⟨hrole, hzero⟩, hnowhere⟩

/-- A search ends at the first comment that exceeds those before it. -/
theorem Search.After.feed (h : s.After before) (m : Remark) :
    (Exceeds before m ∧ s.feed m = .inl ⟨m.bounds, s.alternative⟩) ∨
      ¬Exceeds before m ∧ ∃ s', s.feed m = .inr s' ∧ s'.After (before ++ [m]) := by
  cases hfeed : s.feed m with
  | inl region =>
    obtain ⟨hrole, hzero, rfl⟩ := Search.region_of_feed hfeed
    exact Or.inl ⟨h.exceeds_iff.2 ⟨hrole, hzero⟩, rfl⟩
  | inr s' =>
    have hnot : ¬Exceeds before m := by
      intro hexceeds
      obtain ⟨hrole, hzero⟩ := h.exceeds_iff.1 hexceeds
      rw [Search.feed, hrole] at hfeed
      simp only [hzero] at hfeed
      cases hfeed
    exact Or.inr ⟨hnot, s', rfl, h.nested_feed hfeed, h.division_feed hfeed,
      h.goesOn.concat hnot⟩

theorem Search.After.law (h : s.After before) (ms : List (Except Error Remark)) :
    RegionLaw (before.map .ok ++ ms) (s.run ms) := by
  induction ms generalizing before s with
  | nil =>
    rw [List.append_nil, Search.run]
    exact .missing h.goesOn
  | cons a ms ih =>
    cases a with
    | error e => exact .failed h.goesOn
    | ok m =>
      rw [Search.run]
      rcases h.feed m with ⟨hexceeds, hfeed⟩ | ⟨-, s', hfeed, hafter⟩
      · rw [hfeed]
        exact .found ⟨hexceeds, h.goesOn⟩ h.division
      · have hlaw := ih hafter
        rw [hfeed]
        rwa [List.map_append, List.append_assoc] at hlaw

/-- A search goes on over comments that do not end its region. -/
theorem Search.After.run (h : s.After before) {ms : List Remark}
    (hms : Nowhere Exceeds (before ++ ms)) :
    ∃ s' : Search, s'.After (before ++ ms) ∧ ∀ rest, s.run (ms.map .ok ++ rest) = s'.run rest := by
  induction ms generalizing before s with
  | nil => exact ⟨s, by rwa [List.append_nil], fun rest => rfl⟩
  | cons m ms ih =>
    rcases h.feed m with ⟨hexceeds, -⟩ | ⟨-, s', hfeed, hafter⟩
    · exact absurd hexceeds (hms before m ms rfl)
    · rw [List.append_cons] at hms ⊢
      obtain ⟨s'', hafter', hrun⟩ := ih hafter hms
      refine ⟨s'', hafter', ?_⟩
      intro rest
      rw [List.map_cons, List.cons_append, Search.run, hfeed]
      exact hrun rest

theorem Division.unique {ms : List Remark} {a b : Option Boundary} (ha : Division ms a)
    (hb : Division ms b) : a = b := by
  cases ha with
  | none h =>
    cases hb with
    | none => rfl
    | first hms hu => exact absurd hu.1 (h _ _ _ hms)
  | first hms hu =>
    cases hb with
    | none h => exact absurd hu.1 (h _ _ _ hms)
    | first hms' hu' =>
      obtain ⟨-, rfl⟩ := hu.unique hu' (hms.symm.trans hms')
      rfl

theorem RegionLaw.run {ms : List (Except Error Remark)} {x : Except Error (Option Region)}
    (h : RegionLaw ms x) : Search.start.run ms = x := by
  have hreach : ∀ {before : List Remark}, Nowhere Exceeds before →
      ∃ s : Search, s.After before ∧
        ∀ rest, Search.start.run (before.map .ok ++ rest) = s.run rest :=
    fun hbefore => Search.after_start.run hbefore
  cases h with
  | @found before m rest alternative hend hdivision =>
    obtain ⟨s, hafter, hrun⟩ := hreach hend.2
    rw [hrun, Search.run]
    rcases hafter.feed m with ⟨-, hfeed⟩ | ⟨hnot, -⟩
    · rw [hfeed, hdivision.unique hafter.division]
    · exact absurd hend.1 hnot
  | @missing before hnowhere =>
    obtain ⟨s, -, hrun⟩ := hreach hnowhere
    have hnil := hrun []
    rwa [List.append_nil] at hnil
  | @failed before e rest hnowhere =>
    obtain ⟨s, -, hrun⟩ := hreach hnowhere
    rw [hrun, Search.run]

theorem Search.run_iff_law {ms : List (Except Error Remark)} {x : Except Error (Option Region)} :
    Search.start.run ms = x ↔ RegionLaw ms x := by
  constructor
  · rintro rfl
    exact Search.after_start.law ms
  · exact RegionLaw.run

end

/-! ### The comments of a layer -/

namespace Layer

/-- What a comment opened at index `pos` does, where `r` follows its opening delimiter. -/
def reading (c : CommentKind) (t : Token) (pos : Nat) (r : List Token) : Except Error Remark :=
  match cutAt c.close r with
  | none => .error (t.unterminated c)
  | some cut => (role c cut.inner).map fun role => ⟨role, ⟨pos, pos + cut.inner.length + 2⟩⟩

/-- The comments of a layer among tokens whose first index is `pos`.  Each is read by
    itself, and a doc comment does nothing but close. -/
def readings (y : Layer) (pos : Nat) : List Token → List (Except Error Remark)
  | [] => []
  | t :: r =>
    match y.comment? t.kind with
    | none => y.readings (pos + 1) r
    | some c => reading c t pos r :: y.readings (pos + 1) r

theorem readings_token {y : Layer} {t : Token} (ht : y.comment? t.kind = none) (pos : Nat)
    (r : List Token) : y.readings pos (t :: r) = y.readings (pos + 1) r := by
  rw [readings, ht]

theorem readings_comment {y : Layer} {t : Token} {c : CommentKind}
    (ht : y.comment? t.kind = some c) (pos : Nat) (r : List Token) :
    y.readings pos (t :: r) = reading c t pos r :: y.readings (pos + 1) r := by
  rw [readings, ht]

theorem readings_append {y : Layer} {a : List Token} (ha : ∀ t ∈ a, y.comment? t.kind = none)
    (pos : Nat) (b : List Token) : y.readings pos (a ++ b) = y.readings (pos + a.length) b := by
  induction a generalizing pos with
  | nil => rfl
  | cons t a ih =>
    have htail := ih (fun u hu => ha u (List.mem_cons_of_mem t hu)) (pos + 1)
    rw [List.cons_append, readings_token (ha t (List.mem_cons_self ..)), htail, List.length_cons,
      Nat.add_assoc, Nat.add_comm 1]

/-! ### Opening delimiters -/

/-- The places in a comment of the layer. -/
def Encloses : Layer → Place → Prop
  | .block, .comment .. => True
  | .html, .comment .html _ => True
  | _, _ => False

theorem encloses_of_comment {y : Layer} {c : CommentKind} {a b : Place} {q : Piece}
    (h : Reads a q b) (hq : y.comment? q.kind = some c) : y.Encloses b := by
  cases y with
  | block =>
    cases h with
    | blockOpen h => trivial
    | lineOpen h => trivial
    | _ => cases hq
  | html =>
    cases h with
    | htmlOpen => trivial
    | blockOpen h => cases h <;> cases hq
    | lineOpen h => cases h <;> cases hq
    | _ => cases hq

/-- In a comment of the layer no other one opens, and only its close leads out of it. -/
theorem Encloses.reads {y : Layer} {c : CommentKind} {k : Kind} (hc : y.comment? k = some c)
    {a b : Place} {q : Piece} (ha : y.Encloses a) (h : Reads a q b) (hq : q.kind ≠ c.close) :
    y.comment? q.kind = none ∧ y.Encloses b := by
  have hinner : ∀ e due due', y.Encloses (.comment e due) → y.Encloses (.comment e due') := by
    intro e due due' h
    cases y with
    | block => trivial
    | html => cases e <;> trivial
  cases h with
  | text | eol | blockOpen | lineOpen => cases y <;> exact ha.elim
  | blockClose | lineClose =>
    cases y with
    | block =>
      have hclose : c.close = .blockClose := by
        cases k <;> cases hc <;> rfl
      exact absurd hclose.symm hq
    | html => cases ha
  | htmlOpen =>
    cases y with
    | block => exact ⟨rfl, trivial⟩
    | html => cases ha
  | htmlClose =>
    cases y with
    | block => exact ⟨rfl, trivial⟩
    | html =>
      have hclose : c.close = .htmlClose := by
        cases k <;> cases hc
        rfl
      exact absurd hclose.symm hq
  | innerText | innerEol | atom | key => exact ⟨by cases y <;> rfl, hinner _ _ _ ha⟩

theorem Encloses.readsAll {y : Layer} {c : CommentKind} {k : Kind} (hc : y.comment? k = some c)
    {a b : Place} {qs : List Piece} (ha : y.Encloses a) (h : ReadsAll a qs b)
    (hqs : ∀ q ∈ qs, q.kind ≠ c.close) : ∀ q ∈ qs, y.comment? q.kind = none := by
  induction h with
  | nil => simp
  | @cons a b d q qs hread _ ih =>
    obtain ⟨hnone, hb⟩ := ha.reads hc hread (hqs q (List.mem_cons_self ..))
    intro u hu
    rcases List.mem_cons.1 hu with rfl | hu
    · exact hnone
    · exact ih hb (fun v hv => hqs v (List.mem_cons_of_mem q hv)) u hu

/-- Between an opening delimiter and its close there is no other opening delimiter of the
    layer. -/
theorem comment?_inner {p : Profile} {source : String} {y : Layer} {t : Token} {c : CommentKind}
    {r : List Token} {cut : Cut} (hts : t :: r <:+: tokenize p source)
    (ht : y.comment? t.kind = some c) (hcut : cutAt c.close r = some cut) :
    ∀ u ∈ cut.inner ++ [cut.mark], y.comment? u.kind = none := by
  obtain ⟨before, after, hsplit⟩ := hts
  have haccepts := tokenize_accepts p source
  rw [← hsplit, cutAt_append hcut] at haccepts
  simp only [List.map_append, List.map_cons, List.append_assoc, List.cons_append] at haccepts
  obtain ⟨_, -, hopen⟩ := haccepts.exists_readsAll (List.cons_ne_nil _ _)
  have hne : t.kind ≠ .eof := by
    intro heof
    rw [heof] at ht
    cases y <;> cases ht
  obtain ⟨_, hread, hrest⟩ := hopen.exists_reads hne
  obtain ⟨_, hreads, -⟩ := hrest.exists_readsAll (List.cons_ne_nil _ _)
  have hinner := (encloses_of_comment hread ht).readsAll ht hreads
    (by simpa using cutAt_inner hcut)
  intro u hu
  rcases List.mem_append.1 hu with hu | hu
  · exact hinner u.toPiece (List.mem_map_of_mem hu)
  · rw [List.mem_singleton.1 hu, cutAt_kind hcut]
    cases y <;> cases c <;> rfl

/-- In the tokens of a source, a search is fed all comments of its layer. -/
theorem search_eq_run {p : Profile} {source : String} (y : Layer) (s : Search) (pos : Nat)
    {ts : List Token} (hts : ts <:+: tokenize p source) :
    y.search s pos ts = s.run (y.readings pos ts) := by
  fun_induction y.search s pos ts with
  | case1 s pos => rfl
  | case2 s pos t r ht ih =>
    rw [readings_token ht]
    exact ih ((List.suffix_cons t r).isInfix.trans hts)
  | case3 s pos t r c ht hc => rw [readings_comment ht, reading, hc, Search.run]
  | case4 s pos t r c ht cut hc e he =>
    rw [readings_comment ht, reading, hc]
    simp only [he, Except.map, Search.run]
  | case5 s pos t r c ht cut hc role hrole found hf =>
    rw [readings_comment ht, reading, hc]
    simp only [hrole, Except.map, Search.run, hf]
  | case6 s pos t r c ht cut hc role hrole s' hf ih =>
    have hr : r = cut.inner ++ [cut.mark] ++ cut.rest := by
      rw [cutAt_append hc, List.append_assoc, List.singleton_append]
    have hrest : cut.rest <:+: t :: r := by
      rw [hr]
      exact ((List.suffix_append _ _).trans (List.suffix_cons t _)).isInfix
    have hjump : y.readings (pos + 1) r = y.readings (pos + cut.inner.length + 2) cut.rest := by
      rw [hr, readings_append (comment?_inner hts ht hc), List.length_append,
        List.length_singleton, Nat.add_assoc, Nat.add_comm 1]
      rfl
    rw [readings_comment ht, reading, hc]
    simp only [hrole, Except.map, Search.run, hf]
    rw [hjump]
    exact ih (hrest.trans hts)

end Layer

/-! ### Html comments -/

/-- What an html comment does for the nesting, given its tokens without the gaps: the first
    one decides, and only an opening one has to be followed by a key. -/
def htmlRole : List Token → Except Error Role
  | [] => .ok .neutral
  | t :: r =>
    match t.kind with
    | .atom .includeIf => opening .includeIf t r
    | .atom .excludeIf => opening .excludeIf t r
    | .atom .alternative => .ok .alternative
    | .atom .ending => .ok .closing
    | _ => .ok .neutral
where
  opening (a : Atom) (t : Token) (r : List Token) : Except Error Role :=
    if (r.head?.map fun k => k.kind) = some .key then .ok .opening
    else .error (.missingKey a t.extent.start.line t.extent.start.column)

/-- The tokens of a comment that are no gaps. -/
def significant (ts : List Token) : List Token := ts.filter fun t => !t.isGap

theorem significant_of_skipGaps {ts : List Token} :
    significant ts = match skipGaps ts with
      | [] => []
      | t :: r => t :: significant r := by
  induction ts with
  | nil => rfl
  | cons t r ih =>
    rw [significant, List.filter_cons, skipGaps, List.dropWhile_cons]
    cases ht : t.isGap with
    | true => exact ih
    | false => rfl

theorem role_html_eq (inner : List Token) :
    Layer.role .html inner = htmlRole (significant inner) := by
  rw [Layer.role, classifyHtml, significant_of_skipGaps]
  cases skipGaps inner with
  | nil => rfl
  | cons t r =>
    have hopening : ∀ (a : Atom) (q : Polarity),
        ((readKey a t r).map fun found => HtmlDirective.opening q found.1).map
          HtmlDirective.role = htmlRole.opening a t (significant r) := by
      intro a q
      rw [readKey, htmlRole.opening, significant_of_skipGaps]
      cases skipGaps r with
      | nil => rfl
      | cons k tail =>
        by_cases hk : k.kind = .key
        · simp [hk, Except.map, HtmlDirective.role]
        · simp [hk, Except.map]
    dsimp only
    rw [htmlRole]
    cases t.kind with
    | atom a =>
      cases a with
      | includeIf => exact hopening .includeIf .positive
      | excludeIf => exact hopening .excludeIf .negative
      | _ => rfl
    | _ => rfl

/-! ### The main statement -/

theorem regionAt_iff_law (p : Profile) (source : String) (start : Nat)
    (x : Except Error (Option Region)) :
    regionAt (tokenize p source) start = x ↔
      RegionLaw (Layer.block.readings start ((tokenize p source).drop start)) x := by
  have hts : (tokenize p source).drop start <:+: tokenize p source :=
    (List.drop_suffix _ _).isInfix
  rw [regionAt, findRegion, ← Layer.search_block, Layer.search_eq_run _ _ _ hts,
    Search.run_iff_law]

theorem htmlRegionAt_iff_law (p : Profile) (source : String) (start limit : Nat)
    (x : Except Error (Option Region)) :
    htmlRegionAt (tokenize p source) start limit = x ↔
      RegionLaw (Layer.html.readings start (((tokenize p source).take limit).drop start)) x := by
  have hts : ((tokenize p source).take limit).drop start <:+: tokenize p source :=
    (List.drop_suffix _ _).isInfix.trans (List.take_prefix _ _).isInfix
  rw [htmlRegionAt, findHtmlRegion, ← Layer.search_html, Layer.search_eq_run _ _ _ hts,
    Search.run_iff_law]

/-- **Regions end where the law has them end.**  From any token of a source on, the region
    that is found is the one of the comments there, and there is none, or an error, in just
    the cases of the law.  The same holds for the html comments up to a limit, and of these
    the first token decides, gaps apart. -/
theorem regions_iff_law (p : Profile) (source : String) (start limit : Nat)
    (x : Except Error (Option Region)) :
    (regionAt (tokenize p source) start = x ↔
        RegionLaw (Layer.block.readings start ((tokenize p source).drop start)) x) ∧
      (htmlRegionAt (tokenize p source) start limit = x ↔
        RegionLaw (Layer.html.readings start (((tokenize p source).take limit).drop start)) x) ∧
      ∀ inner, Layer.role .html inner = htmlRole (significant inner) :=
  ⟨regionAt_iff_law p source start x, htmlRegionAt_iff_law p source start limit x, role_html_eq⟩

end FeatureCut
