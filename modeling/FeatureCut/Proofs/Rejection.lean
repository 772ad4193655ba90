/-
  FeatureCut/Proofs/Rejection.lean
  ================================
  **Malformed documents are rejected.**

  A comment at the level of code is malformed if it does not close, if it says
  nothing sound, or if it opens a region that no later comment closes.  A document
  with such a comment gives an error whatever keys are active, also where the
  comment stands in a part that is dropped.

  The evaluator does not visit the parts it drops.  But it jumps over them only
  after a search has come to the end of the region, and such a search has read every
  comment on its way (`searchBlocks_skips`).  So a walk that comes to its end has
  passed every comment of the document, and none of them is malformed
  (`walk_stops_of_malformed`).  The only other way to stop early is a file exclusion
  that holds (`evaluate_explained`).
-/
import Mathlib.Data.List.Infix
import FeatureCut.Proofs.Invariant
import FeatureCut.Proofs.Nesting

namespace FeatureCut

/-! ### Malformed comments -/

/-- The document from every place at the level of code on, where comments are
    passed over as a whole. -/
def codeSuffixes : List Token → List (List Token)
  | [] => []
  | t :: r =>
    (t :: r) ::
      if t.kind = .blockOpen ∨ t.kind = .docOpen then
        match _h : cutAt .blockClose r with
        | none => []
        | some cut => codeSuffixes cut.rest
      else codeSuffixes r
termination_by ts => ts.length
decreasing_by
  · have := cutAt_length _h
    simp only [List.length_cons]
    omega
  · simp

def rolesOf (ms : List (Except Error Remark)) : List Role :=
  ms.filterMap fun m => m.toOption.map Remark.role

/-- Whether a region that opens before the given roles is closed by one of them:
    somewhere the closing ones outnumber the opening ones. -/
def closesRegion (roles : List Role) : Bool :=
  roles.inits.any fun l => l.count .opening < l.count .closing

/-- Whether a document starts with a malformed comment: one that does not close,
    one that says nothing sound, or one that opens a region without an end. -/
def startsMalformed : List Token → Bool
  | [] => false
  | t :: r =>
    match t.kind with
    | .blockOpen =>
      match cutAt .blockClose r with
      | none => true
      | some cut =>
        match classify cut.inner with
        | .error _ => true
        | .ok (.opening _ _) => !closesRegion (rolesOf (blockRemarks 0 cut.rest))
        | .ok _ => false
    | .docOpen => (cutAt .blockClose r).isNone
    | _ => false

example : (codeSuffixes (tokenize Language.generic.profile "a/* @end */b/* @else")).map
    startsMalformed = [false, false, false, true] := by decide +kernel

theorem codeSuffixes_token {t : Token} (ht : t.kind ≠ .blockOpen ∧ t.kind ≠ .docOpen)
    (r : List Token) : codeSuffixes (t :: r) = (t :: r) :: codeSuffixes r := by
  rw [codeSuffixes, if_neg (by simp [ht])]

theorem codeSuffixes_comment {t : Token} {r : List Token} {cut : Cut}
    (ht : t.kind = .blockOpen ∨ t.kind = .docOpen) (hc : cutAt .blockClose r = some cut) :
    codeSuffixes (t :: r) = (t :: r) :: codeSuffixes cut.rest := by
  rw [codeSuffixes, if_pos ht]
  split
  · rename_i hnone
    rw [hc] at hnone
    cases hnone
  · rename_i cut' hcut'
    rw [hc] at hcut'
    cases hcut'
    rfl

theorem startsMalformed_token {t : Token} (ht : t.kind ≠ .blockOpen ∧ t.kind ≠ .docOpen)
    (r : List Token) : startsMalformed (t :: r) = false := by
  rw [startsMalformed]
  split
  · rename_i hk
    exact absurd hk ht.1
  · rename_i hk
    exact absurd hk ht.2
  · rfl

theorem startsMalformed_doc {t : Token} {r : List Token} {cut : Cut} (ht : t.kind = .docOpen)
    (hc : cutAt .blockClose r = some cut) : startsMalformed (t :: r) = false := by
  rw [startsMalformed, ht, hc]
  rfl

theorem startsMalformed_block {t : Token} {r : List Token} {cut : Cut} {d : Directive}
    (ht : t.kind = .blockOpen) (hc : cutAt .blockClose r = some cut)
    (hd : classify cut.inner = .ok d)
    (hclosed : d.role = .opening → closesRegion (rolesOf (blockRemarks 0 cut.rest)) = true) :
    startsMalformed (t :: r) = false := by
  rw [startsMalformed, ht]
  dsimp only
  rw [hc]
  dsimp only
  rw [hd]
  cases d with
  | opening p key => simp [hclosed rfl]
  | _ => rfl

/-- Past the first token the malformed comments of a document are those of the
    rest. -/
theorem mem_codeSuffixes_of_cons {u l : List Token} {ls : List (List Token)} (hu : u ∈ l :: ls)
    (hbad : startsMalformed u = true) (hl : startsMalformed l = false) : u ∈ ls := by
  rcases List.mem_cons.1 hu with rfl | hu
  · rw [hl] at hbad
    cases hbad
  · exact hu

/-! ### Searches read every comment they pass -/

/-- A search that ends has met one closing comment for each region that was open or
    was opened on the way, and one for its own. -/
theorem Search.exists_prefix_of_run {s : Search} {ms : List (Except Error Remark)}
    {region : Region} (h : s.run ms = .ok (some region)) :
    ∃ l, l <+: rolesOf ms ∧ l.count .opening + s.nested < l.count .closing := by
  induction ms generalizing s with
  | nil => cases h
  | cons m ms ih =>
    cases m with
    | error e => cases h
    | ok m =>
      obtain ⟨role, bounds⟩ := m
      have hroles : rolesOf (.ok ⟨role, bounds⟩ :: ms) = role :: rolesOf ms := rfl
      rw [hroles]
      rw [Search.run] at h
      split at h
      · rename_i found hfeed
        obtain ⟨hrole, hnested, -⟩ := Search.region_of_feed hfeed
        refine ⟨[role], List.prefix_append _ _, ?_⟩
        rw [hnested, show role = .closing from hrole]
        decide
      · rename_i s' hfeed
        obtain ⟨hsteps, -⟩ := Search.steps_of_feed hfeed
        obtain ⟨l, hl, hcount⟩ := ih h
        refine ⟨role :: l, List.cons_prefix_cons.2 ⟨rfl, hl⟩, ?_⟩
        generalize s.nested = n at hsteps ⊢
        generalize s'.nested = n' at hsteps hcount
        cases hsteps <;> simp <;> omega

/-- The roles of comments do not depend on where the list of tokens starts. -/
theorem rolesOf_blockRemarks (pos pos' : Nat) (ts : List Token) :
    rolesOf (blockRemarks pos ts) = rolesOf (blockRemarks pos' ts) := by
  fun_induction blockRemarks pos ts generalizing pos' with
  | case1 pos => rw [blockRemarks]
  | case2 pos t r hk hc =>
    rw [blockRemarks, hk]
    dsimp only
    rw [hc]
  | case3 pos t r hk cut hc ih =>
    have hrest := ih (pos' + cut.inner.length + 2)
    rw [blockRemarks_of_block hk hc pos']
    cases classify cut.inner with
    | error e => exact hrest
    | ok d => exact congrArg (d.role :: ·) hrest
  | case4 pos t r hk hc =>
    rw [blockRemarks, hk]
    dsimp only
    rw [hc]
  | case5 pos t r hk cut hc ih => rw [blockRemarks_of_doc hk hc pos', ih]
  | case6 pos t r hb hd ih => rw [blockRemarks_token pos' ⟨hb, hd⟩, ih]

theorem closesRegion_of_searchBlocks {s : Search} {pos : Nat} {ts : List Token} {region : Region}
    (h : searchBlocks s pos ts = .ok (some region)) :
    closesRegion (rolesOf (blockRemarks 0 ts)) = true := by
  rw [searchBlocks_eq_run] at h
  obtain ⟨l, hl, hcount⟩ := Search.exists_prefix_of_run h
  rw [rolesOf_blockRemarks pos 0] at hl
  rw [closesRegion, List.any_eq_true]
  exact ⟨l, (List.mem_inits l _).2 hl, by simp only [decide_eq_true_eq]; omega⟩

theorem drop_of_cutAt {kind : Kind} {t : Token} {r : List Token} {cut : Cut}
    (h : cutAt kind r = some cut) (k : Nat) :
    (t :: r).drop (cut.inner.length + 2 + k) = cut.rest.drop k := by
  have hsplit : t :: r = (t :: cut.inner ++ [cut.mark]) ++ cut.rest := by
    rw [cutAt_append h]
    simp
  have hlen : cut.inner.length + 2 + k = (t :: cut.inner ++ [cut.mark]).length + k := by
    simp
  rw [hsplit, hlen, List.drop_length_add_append]

/-- A search that comes to the end of its region has passed no malformed comment. -/
theorem searchBlocks_skips {s : Search} {pos : Nat} {ts u : List Token} {region : Region}
    (h : searchBlocks s pos ts = .ok (some region)) (hu : u ∈ codeSuffixes ts)
    (hbad : startsMalformed u = true) :
    pos ≤ region.ending.after ∧ u ∈ codeSuffixes (ts.drop (region.ending.after - pos)) := by
  fun_induction searchBlocks s pos ts with
  | case1 s pos => cases h
  | case2 s pos t r hk hc => cases h
  | case3 s pos t r hk cut hc e he => cases h
  | case4 s pos t r hk cut hc d hd found hf =>
    cases h
    obtain ⟨hrole, -, rfl⟩ := Search.region_of_feed hf
    have hsound := startsMalformed_block hk hc hd fun hopening => by
      rw [show d.role = .closing from hrole] at hopening
      cases hopening
    rw [codeSuffixes_comment (Or.inl hk) hc] at hu
    have hrest := mem_codeSuffixes_of_cons hu hbad hsound
    refine ⟨by dsimp only; omega, ?_⟩
    dsimp only
    rw [show pos + cut.inner.length + 2 - pos = cut.inner.length + 2 + 0 by omega,
      drop_of_cutAt hc]
    exact hrest
  | case5 s pos t r hk cut hc d hd s' hf ih =>
    have hsound := startsMalformed_block hk hc hd fun _ => closesRegion_of_searchBlocks h
    rw [codeSuffixes_comment (Or.inl hk) hc] at hu
    obtain ⟨hle, hrest⟩ := ih h (mem_codeSuffixes_of_cons hu hbad hsound)
    refine ⟨by omega, ?_⟩
    rw [show region.ending.after - pos =
        cut.inner.length + 2 + (region.ending.after - (pos + cut.inner.length + 2)) by omega,
      drop_of_cutAt hc]
    exact hrest
  | case6 s pos t r hk hc => cases h
  | case7 s pos t r hk cut hc ih =>
    rw [codeSuffixes_comment (Or.inr hk) hc] at hu
    obtain ⟨hle, hrest⟩ := ih h (mem_codeSuffixes_of_cons hu hbad (startsMalformed_doc hk hc))
    refine ⟨by omega, ?_⟩
    rw [show region.ending.after - pos =
        cut.inner.length + 2 + (region.ending.after - (pos + cut.inner.length + 2)) by omega,
      drop_of_cutAt hc]
    exact hrest
  | case8 s pos t r hb hd ih =>
    rw [codeSuffixes_token ⟨hb, hd⟩] at hu
    obtain ⟨hle, hrest⟩ :=
      ih h (mem_codeSuffixes_of_cons hu hbad (startsMalformed_token ⟨hb, hd⟩ r))
    refine ⟨by omega, ?_⟩
    rw [show region.ending.after - pos = region.ending.after - (pos + 1) + 1 by omega,
      List.drop_succ_cons]
    exact hrest

/-! ### Walks visit or pass every comment -/

section

variable {o : Options} {inner : Level} {u : List Token} (hbad : startsMalformed u = true)
include hbad

theorem breakAfter?_skips {top : Bool} {n taken : Nat} {r : List Token} {b : Token}
    (hbreak : breakAfter? top n taken r = some b) (hu : u ∈ codeSuffixes (r.drop taken)) :
    u ∈ codeSuffixes (r.drop (taken + 1)) := by
  unfold breakAfter? at hbreak
  split at hbreak
  · obtain ⟨hhead, hb⟩ := Option.filter_eq_some_iff.1 hbreak
    have hkind : b.kind = .eol := by simpa using hb
    cases hr : r.drop taken with
    | nil => simp [hr] at hhead
    | cons c rest =>
      obtain rfl : c = b := by simpa [hr] using hhead
      have hline : c.kind ≠ .blockOpen ∧ c.kind ≠ .docOpen := by simp [hkind]
      rw [hr, codeSuffixes_token hline] at hu
      rw [← List.drop_drop, hr]
      exact mem_codeSuffixes_of_cons hu hbad (startsMalformed_token hline rest)
  · cases hbreak

theorem Item.settled_skips {top : Bool} {n : Nat} {r : List Token} {i : Item Step}
    (hstop : (i.settled top n r).trail.stop = none)
    (hi : i.trail.stop = none → u ∈ codeSuffixes (r.drop i.taken)) :
    u ∈ codeSuffixes (r.drop (i.settled top n r).taken) := by
  unfold Item.settled at hstop ⊢
  split
  · rename_i b hbreak
    rw [hbreak] at hstop
    exact breakAfter?_skips hbad hbreak (hi (Trail.stop_of_andThen hstop).1)
  · rename_i hbreak
    rw [hbreak] at hstop
    exact hi hstop

/-- A region that comes to its end is well-formed, and so is all that it jumps over. -/
theorem regionItem_skips {t : Token} {p : Polarity} {key : KeyExpr} {r : List Token} {cut : Cut}
    (ht : t.kind = .blockOpen) (hc : cutAt .blockClose r = some cut)
    (hd : classify cut.inner = .ok (.opening p key)) (hu : u ∈ codeSuffixes (t :: r))
    (hstop : (regionItem o inner t (cut.inner.length + 1) p key cut.rest).trail.stop = none) :
    u ∈ codeSuffixes
      (r.drop (regionItem o inner t (cut.inner.length + 1) p key cut.rest).taken) := by
  unfold regionItem at hstop ⊢
  split
  · rename_i e he
    rw [he] at hstop
    cases hstop
  · rename_i hnone
    rw [hnone] at hstop
    cases hstop
  · rename_i region hregion
    have hsound := startsMalformed_block ht hc hd fun _ => closesRegion_of_searchBlocks hregion
    rw [codeSuffixes_comment (Or.inl ht) hc] at hu
    obtain ⟨-, hskips⟩ :=
      searchBlocks_skips hregion (mem_codeSuffixes_of_cons hu hbad hsound) hbad
    rw [← drop_of_cutAt hc (t := t)] at hskips
    rwa [show cut.inner.length + 2 + (region.ending.after - 0) =
      cut.inner.length + 1 + region.ending.after + 1 by omega, List.drop_succ_cons] at hskips

theorem blockItem_skips {top : Bool} {n : Nat} {t : Token} {r : List Token}
    (ht : t.kind = .blockOpen) (hstop : (blockItem o inner top n t r).trail.stop = none)
    (hu : u ∈ codeSuffixes (t :: r)) :
    u ∈ codeSuffixes (r.drop (blockItem o inner top n t r).taken) := by
  unfold blockItem at hstop ⊢
  cases hc : cutAt .blockClose r with
  | none =>
    rw [hc] at hstop
    cases hstop
  | some cut =>
    rw [hc] at hstop
    dsimp only at hstop ⊢
    cases hd : classify cut.inner with
    | error e =>
      rw [hd] at hstop
      cases hstop
    | ok d =>
      rw [hd] at hstop
      -- a comment that opens no region is passed over, and it is well-formed
      have hpass : d.role ≠ .opening → u ∈ codeSuffixes (r.drop (cut.inner.length + 1)) := by
        intro hrole
        have hrest := hu
        rw [codeSuffixes_comment (Or.inl ht) hc] at hrest
        have hskips := mem_codeSuffixes_of_cons hrest hbad
          (startsMalformed_block ht hc hd fun h => absurd h hrole)
        rwa [← cut.rest.drop_zero, ← drop_of_cutAt hc (t := t), List.drop_succ_cons] at hskips
      cases d with
      | opening p key =>
        exact Item.settled_skips hbad hstop fun h => regionItem_skips hbad ht hc hd hu h
      | fileExclusion key =>
        exact Item.settled_skips hbad hstop fun _ => hpass (by simp [Directive.role])
      | license key =>
        dsimp only
        split
        · rename_i b hbreak
          exact breakAfter?_skips hbad hbreak (hpass (by simp [Directive.role]))
        · exact hpass (by simp [Directive.role])
      | _ => exact hpass (by simp [Directive.role])

theorem docCommentItem_skips {t : Token} {r : List Token} (ht : t.kind = .docOpen)
    (hstop : (docCommentItem o inner t r).trail.stop = none) (hu : u ∈ codeSuffixes (t :: r)) :
    u ∈ codeSuffixes (r.drop (docCommentItem o inner t r).taken) := by
  unfold docCommentItem at hstop ⊢
  cases hc : cutAt .blockClose r with
  | none =>
    rw [hc] at hstop
    cases hstop
  | some cut =>
    rw [codeSuffixes_comment (Or.inr ht) hc] at hu
    have hskips := mem_codeSuffixes_of_cons hu hbad (startsMalformed_doc ht hc)
    rwa [← cut.rest.drop_zero, ← drop_of_cutAt hc (t := t), List.drop_succ_cons] at hskips

theorem codeItem_skips {top : Bool} {n : Nat} {t : Token} {r : List Token}
    (hstop : (codeItem o inner top n t r).trail.stop = none) (hu : u ∈ codeSuffixes (t :: r)) :
    u ∈ codeSuffixes (r.drop (codeItem o inner top n t r).taken) := by
  by_cases hblock : t.kind = .blockOpen
  · have hitem : codeItem o inner top n t r = blockItem o inner top n t r := by
      rw [codeItem, hblock]
    rw [hitem] at hstop ⊢
    exact blockItem_skips hbad hblock hstop hu
  · by_cases hdoc : t.kind = .docOpen
    · have hitem : codeItem o inner top n t r = docCommentItem o inner t r := by
        rw [codeItem, hdoc]
      rw [hitem] at hstop ⊢
      exact docCommentItem_skips hbad hdoc hstop hu
    · have htaken : (codeItem o inner top n t r).taken = 0 := by
        unfold codeItem
        split <;> first | rfl | contradiction
      rw [codeSuffixes_token ⟨hblock, hdoc⟩] at hu
      rw [htaken, List.drop_zero]
      exact mem_codeSuffixes_of_cons hu hbad (startsMalformed_token ⟨hblock, hdoc⟩ r)

/-- A walk over a whole document does not come to its end if there is a malformed
    comment in it. -/
theorem walk_stops_of_malformed {top : Bool} {n : Nat} {ts : List Token} (hn : ts.length ≤ n)
    (hu : u ∈ codeSuffixes ts) : (walk (codeItem o inner top) n ts).stop ≠ none := by
  intro hstop
  induction n using Nat.strongRecOn generalizing ts with
  | ind n ih =>
    cases ts with
    | nil => simp [codeSuffixes] at hu
    | cons t r =>
      cases n with
      | zero => simp at hn
      | succ n =>
        rw [walk] at hstop
        obtain ⟨hitem, hrest⟩ := Trail.stop_of_andThen hstop
        refine ih _ (by omega) ?_ (codeItem_skips hbad hitem hu) hrest
        rw [List.length_drop]
        rw [List.length_cons] at hn
        omega

end

/-! ### What empties a document -/

/-- A trail that leaves the document empty has reported a file exclusion that
    holds. -/
def Trail.Explained {σ : Type} (o : Options) (a : Trail σ) : Prop :=
  a.stop = some .excluded →
    ∃ key line, Event.fileExclusionMatched key line ∈ a.events ∧
      key.holdsOrDefault o.keys = true

theorem Trail.Explained.of_ne {σ : Type} {o : Options} {a : Trail σ}
    (h : a.stop ≠ some .excluded) : a.Explained o := fun hstop => absurd hstop h

theorem Trail.Explained.andThen {σ : Type} {o : Options} {a b : Trail σ} (ha : a.Explained o)
    (hb : b.Explained o) : (a.andThen b).Explained o := by
  cases hstop : a.stop with
  | some s =>
    rw [Trail.andThen_of_stop hstop]
    exact ha
  | none =>
    intro h
    rw [Trail.stop_andThen hstop] at h
    obtain ⟨key, line, hevent, hholds⟩ := hb h
    refine ⟨key, line, ?_, hholds⟩
    simp [Trail.andThen, hstop, hevent]

theorem exclusionTrail_explained (o : Options) (t : Token) (key : KeyExpr) :
    (exclusionTrail o t key).Explained o := by
  apply Trail.Explained.andThen (.of_ne (by simp [Trail.write]))
  split
  · rename_i hholds
    intro _
    exact ⟨key, t.extent.start.line, by simp [Trail.report, Trail.andThen], hholds⟩
  · exact .of_ne (by simp [Trail.nothing])

theorem Trail.explained_fail {σ : Type} (o : Options) (e : Error) :
    (Trail.fail e : Trail σ).Explained o := .of_ne (by simp [Trail.fail, Trail.halt])

theorem licenseTrail_explained (o : Options) (key : Option String) :
    (licenseTrail o key).Explained o := by
  apply Trail.Explained.andThen (.of_ne (by simp [Trail.write]))
  apply Trail.Explained.andThen (.of_ne (by simp [Trail.report]))
  split
  · exact .of_ne (by simp [Trail.write])
  · exact Trail.explained_fail o _

theorem Trail.invariant_explained (o : Options) (limit : Nat) :
    Trail.Invariant o limit fun _ a => a.Explained o where
  andThen := Trail.Explained.andThen
  mapSteps _ ha := ha
  write _ := .of_ne (by simp [Trail.write])
  report _ := .of_ne (by simp [Trail.report])
  exclusion := exclusionTrail_explained o
  license := licenseTrail_explained o
  fail _ := Trail.explained_fail o _

theorem evaluate_explained (o : Options) (source : String) : (evaluate o source).Explained o := by
  have hinvariant := Trail.invariant_explained o maxDepth
  refine Trail.Explained.andThen ?_ (hinvariant.evaluateTokens maxDepth _)
  unfold Options.header
  split
  · split
    · exact hinvariant.write _
    · exact Trail.explained_fail o _
  · exact hinvariant.nothing _

/-! ### Rejection -/

/-- **Malformed documents are rejected.**  If some comment at the level of code is
    malformed, the result is an error for all keys and licenses, or the document is
    empty because of a file exclusion that holds. -/
theorem transform_of_malformed (o : Options) (source : String) {u : List Token}
    (hu : u ∈ codeSuffixes (tokenize o.language.profile source))
    (hbad : startsMalformed u = true) :
    (∃ e, transform o source = .error e) ∨
      (transform o source = .ok "" ∧ ∃ key line,
        Event.fileExclusionMatched key line ∈ eventsOf o source ∧
          key.holdsOrDefault o.keys = true) := by
  have hstop : (evaluate o source).stop ≠ none := fun h =>
    walk_stops_of_malformed hbad (Nat.le_refl _) hu (Trail.stop_of_andThen h).2
  unfold transform eventsOf
  cases o.validate with
  | error e => exact Or.inl ⟨e, rfl⟩
  | ok _ =>
    unfold Trail.result Trail.allEvents
    cases hend : (evaluate o source).stop with
    | none => exact absurd hend hstop
    | some s =>
      cases s with
      | failed e => exact Or.inl ⟨e, rfl⟩
      | excluded =>
        obtain ⟨key, line, hevent, hholds⟩ := evaluate_explained o source hend
        exact Or.inr ⟨rfl, key, line, by simp [hevent], hholds⟩

/-- A document whose only region is dropped without the key `A`, with a comment in it
    that asks for no key. -/
def hiddenSource : String := "/* @include-if A */a/* @exclude-if */b/* @end */"

/-- The malformed comment is found though its region is dropped. -/
theorem transform_of_malformed_hidden : ∃ e, transform {} hiddenSource = .error e := by
  have hu : (tokenize Language.generic.profile hiddenSource).drop 8 ∈
      codeSuffixes (tokenize Language.generic.profile hiddenSource) := by decide +kernel
  have hbad : startsMalformed ((tokenize Language.generic.profile hiddenSource).drop 8) = true := by
    decide +kernel
  have hevents : eventsOf {} hiddenSource = [.started .generic 0] := by decide +kernel
  rcases transform_of_malformed {} hiddenSource hu hbad with herror | ⟨-, key, line, hevent, -⟩
  · exact herror
  · simp [hevents] at hevent

end FeatureCut
