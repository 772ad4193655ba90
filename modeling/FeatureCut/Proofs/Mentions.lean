/-
  FeatureCut/Proofs/Mentions.lean
  ===============================
  **Only the keys that a source mentions matter.**

  A run asks whether a key is active in four places: for a region, an html region,
  an inline body and a file exclusion.  Each time the key is a part of a lexeme, so
  it can be read in the source.  Inline bodies are cut out of the source and scanned
  again, and so are the bodies in them, but what is cut out of a part of the source
  is a part of the source.

  `Options.Alike` compares two runs by the keys that a text mentions.  Every
  evaluator gives the same for both on any part of the text (`Level.agree_ofDepth`),
  and `transform_eq_of_mentions` says so of the whole run.
-/
import Mathlib.Data.List.DropRight
import FeatureCut.Proofs.Lossless
import FeatureCut.Proofs.Places

namespace FeatureCut

/-! ### Parts of a text -/

theorem trimBlank_isInfix (cs : List Char) : trimBlank cs <:+: cs :=
  (List.rdropWhile_prefix isBlank (cs.dropWhile isBlank)).isInfix.trans
    (cs.dropWhile_suffix isBlank).isInfix

theorem infix_intercalate {sep x : List Char} {xs : List (List Char)} (hx : x ∈ xs) :
    x <:+: sep.intercalate xs := by
  induction xs with
  | nil => cases hx
  | cons y ys ih =>
    cases ys with
    | nil =>
      obtain rfl : x = y := List.mem_singleton.1 hx
      exact List.intercalate_singleton.symm ▸ List.infix_refl x
    | cons z zs =>
      rw [List.intercalate_cons_cons]
      rcases List.mem_cons.1 hx with rfl | hx
      · exact (List.prefix_append _ _).isInfix.trans (List.prefix_append _ _).isInfix
      · exact (ih hx).trans (List.suffix_append _ _).isInfix

theorem KeyExpr.parts_isInfix {e : KeyExpr} {key : String} (h : key ∈ e.parts) :
    key.toList <:+: e.text.toList := by
  simp only [KeyExpr.parts, List.mem_map, List.mem_filter] at h
  obtain ⟨_, ⟨⟨part, hpart, rfl⟩, -⟩, rfl⟩ := h
  have hinfix : part <:+: ['|'].intercalate (e.text.toList.splitOn '|') := infix_intercalate hpart
  rw [List.intercalate_splitOn] at hinfix
  rw [String.toList_ofList]
  exact (trimBlank_isInfix part).trans hinfix

theorem stripSpace_isInfix (cs : List Char) : stripSpace cs <:+: cs := by
  have htail : ∀ tail : List Char,
      (if tail.getLast? = some ' ' then tail.dropLast else tail) <:+: tail := by
    intro tail
    split
    · exact tail.dropLast_prefix.isInfix
    · exact List.infix_refl tail
  unfold stripSpace
  dsimp only
  split
  · exact (htail _).trans (List.suffix_cons _ _).isInfix
  · exact htail _

theorem textOf_isInfix {a b : List Token} (h : a <:+: b) : textOf a <:+: textOf b := by
  obtain ⟨l, r, rfl⟩ := h
  rw [textOf_append, textOf_append]
  exact List.infix_append _ _ _

theorem lexeme_isInfix {t : Token} {ts : List Token} (h : t ∈ ts) : t.lexeme <:+: textOf ts := by
  obtain ⟨l, r, rfl⟩ := List.append_of_mem h
  rw [textOf_append, textOf_cons]
  exact (List.prefix_append _ _).isInfix.trans (List.suffix_append _ _).isInfix

theorem Cut.infix_of_cutAt {kind : Kind} {ts : List Token} {cut : Cut}
    (h : cutAt kind ts = some cut) : cut.inner <:+: ts ∧ cut.rest <:+: ts := by
  rw [cutAt_append h]
  exact ⟨(List.prefix_append _ _).isInfix,
    (List.suffix_cons _ _).isInfix.trans (List.suffix_append _ _).isInfix⟩

/-! ### What a directive takes from its comment -/

theorem readKey_isInfix {a : Atom} {t : Token} {r : List Token} {key : KeyExpr} {tail : List Token}
    (h : readKey a t r = .ok (key, tail)) :
    key.text.toList <:+: textOf r ∧ tail <:+: r := by
  have hskip : skipGaps r <:+ r := r.dropWhile_suffix _
  unfold readKey at h
  split at h
  · rename_i k _ hk
    rw [hk] at hskip
    split at h
    · cases h
      rw [String.toList_ofList]
      exact ⟨lexeme_isInfix (hskip.subset (by simp)),
        (List.suffix_cons k tail).isInfix.trans hskip.isInfix⟩
    · cases h
  · cases h

/-- The key and the body of a directive are parts of a text. -/
def Directive.StandsIn (cs : List Char) : Directive → Prop
  | .opening _ key | .fileExclusion key => key.text.toList <:+: cs
  | .inline _ key _ body => key.text.toList <:+: cs ∧ textOf body <:+: cs
  | .plain | .alternative | .closing | .license _ => True

theorem classifyConditional_standsIn {size : Nat} {p : Polarity} {t : Token} {r : List Token}
    {d : Directive} (h : classifyConditional size p t r = .ok d) : d.StandsIn (textOf r) := by
  unfold classifyConditional at h
  cases hkey : readKey p.atom t r with
  | error e =>
    rw [hkey] at h
    cases h
  | ok found =>
    obtain ⟨key, tail⟩ := found
    obtain ⟨hkey', htail⟩ := readKey_isInfix hkey
    rw [hkey] at h
    simp only [bind, Except.bind] at h
    split at h
    · rename_i cut hcut
      cases h
      exact ⟨hkey', textOf_isInfix ((Cut.infix_of_cutAt hcut).1.trans htail)⟩
    · split at h
      · cases h
        exact hkey'
      · cases h

theorem Directive.StandsIn.mono {cs ds : List Char} {d : Directive} (h : d.StandsIn cs)
    (hcs : cs <:+: ds) : d.StandsIn ds := by
  cases d with
  | opening p key => exact List.IsInfix.trans h hcs
  | fileExclusion key => exact List.IsInfix.trans h hcs
  | inline p key lead body => exact ⟨h.1.trans hcs, h.2.trans hcs⟩
  | _ => exact trivial

theorem classify_standsIn {inner : List Token} {d : Directive} (h : classify inner = .ok d) :
    d.StandsIn (textOf inner) := by
  have hskip : skipGaps inner <:+ inner := inner.dropWhile_suffix _
  unfold classify at h
  split at h
  · cases h
    exact trivial
  · rename_i t r hr
    rw [hr] at hskip
    have htail : textOf r <:+: textOf inner :=
      textOf_isInfix ((List.suffix_cons t r).isInfix.trans hskip.isInfix)
    split at h
    · exact (classifyConditional_standsIn h).mono htail
    · exact (classifyConditional_standsIn h).mono htail
    · cases hkey : readKey .fileExcludeIf t r with
      | error e =>
        rw [hkey] at h
        cases h
      | ok found =>
        rw [hkey] at h
        cases h
        split
        · exact (readKey_isInfix hkey).1.trans htail
        · exact trivial
    · cases h
      split <;> exact trivial
    · cases h
      split <;> exact trivial
    · split at h <;> cases h <;> exact trivial
    · cases h
      exact trivial

theorem classifyHtml_isInfix {inner : List Token} {p : Polarity} {key : KeyExpr}
    (h : classifyHtml inner = .ok (.opening p key)) : key.text.toList <:+: textOf inner := by
  have hskip : skipGaps inner <:+ inner := inner.dropWhile_suffix _
  have hread : ∀ {a : Atom} {t : Token} {r : List Token} {q : Polarity}, skipGaps inner = t :: r →
      (readKey a t r).map (fun found => HtmlDirective.opening q found.1) = .ok (.opening p key) →
      key.text.toList <:+: textOf inner := by
    intro a t r q hr hmap
    rw [hr] at hskip
    cases hkey : readKey a t r with
    | error e =>
      rw [hkey] at hmap
      cases hmap
    | ok found =>
      rw [hkey] at hmap
      cases hmap
      exact (readKey_isInfix hkey).1.trans
        (textOf_isInfix ((List.suffix_cons t r).isInfix.trans hskip.isInfix))
  unfold classifyHtml at h
  split at h
  · cases h
  · rename_i t r hr
    split at h
    · exact hread hr h
    · exact hread hr h
    all_goals cases h

/-! ### Options that differ in other keys -/

/-- Two options that can be told apart only by keys which a text does not
    mention. -/
structure Options.Alike (cs : List Char) (o₁ o₂ : Options) : Prop where
  language : o₁.language = o₂.language
  unlicensed₁ : o₁.licenses.isEmpty = true
  unlicensed₂ : o₂.licenses.isEmpty = true
  isEmpty : o₁.keys.isEmpty = o₂.keys.isEmpty
  contains : ∀ key : String, key.toList <:+: cs → o₁.keys.contains key = o₂.keys.contains key

section

variable {cs : List Char} {o₁ o₂ : Options} (h : o₁.Alike cs o₂)
include h

theorem Options.Alike.holds {e : KeyExpr} (he : e.text.toList <:+: cs) :
    e.holds o₁.keys = e.holds o₂.keys := by
  apply Bool.eq_iff_iff.2
  rw [KeyExpr.holds_iff, KeyExpr.holds_iff]
  constructor
  · rintro ⟨key, hkey, hactive⟩
    exact ⟨key, hkey, (h.contains key ((KeyExpr.parts_isInfix hkey).trans he)).symm.trans hactive⟩
  · rintro ⟨key, hkey, hactive⟩
    exact ⟨key, hkey, (h.contains key ((KeyExpr.parts_isInfix hkey).trans he)).trans hactive⟩

theorem Options.Alike.selects {e : KeyExpr} (he : e.text.toList <:+: cs) (p : Polarity) :
    p.selects e o₁.keys = p.selects e o₂.keys := by
  cases p with
  | positive => exact h.holds he
  | negative => exact congrArg Bool.not (h.holds he)

theorem Options.Alike.holdsOrDefault {e : KeyExpr} (he : e.text.toList <:+: cs) :
    e.holdsOrDefault o₁.keys = e.holdsOrDefault o₂.keys := by
  unfold KeyExpr.holdsOrDefault
  rw [h.isEmpty, h.holds he]

theorem Options.Alike.licenseTrail (key : Option String) :
    licenseTrail o₁ key = licenseTrail o₂ key := by
  unfold FeatureCut.licenseTrail resolveLicense
  rw [h.unlicensed₁, h.unlicensed₂]
  rfl

/-! ### Evaluators -/

omit h in
theorem walk_congr {σ : Type} {item item' : Nat → Token → List Token → Item σ}
    (hitem : ∀ n t r, textOf (t :: r) <:+: cs → item n t r = item' n t r) (n : Nat)
    {ts : List Token} (hts : textOf ts <:+: cs) : walk item n ts = walk item' n ts := by
  apply walk_eq_of_suffix
  intro n t r hr
  exact hitem n t r ((textOf_isInfix hr.isInfix).trans hts)

/-- The evaluators of two levels give the same on every part of a text. -/
structure Level.Agree (cs : List Char) (a b : Level) : Prop where
  branch : ∀ n ts, textOf ts <:+: cs → a.branch n ts = b.branch n ts
  htmlBranch : ∀ n ts, textOf ts <:+: cs → a.htmlBranch n ts = b.htmlBranch n ts
  document : ∀ body, body <:+: cs → a.document body = b.document body

variable {a b : Level} (hinner : Level.Agree cs a b)
include hinner

theorem htmlRegionItem_agree (t : Token) (size : Nat) (p : Polarity) {key : KeyExpr}
    (hkey : key.text.toList <:+: cs) {rest : List Token} (hrest : textOf rest <:+: cs) :
    htmlRegionItem o₁ a t size p key rest = htmlRegionItem o₂ b t size p key rest := by
  have hbranch : ∀ n k, a.htmlBranch n (rest.drop k) = b.htmlBranch n (rest.drop k) := fun n k =>
    hinner.htmlBranch n _ ((textOf_isInfix (rest.drop_suffix k).isInfix).trans hrest)
  unfold htmlRegionItem
  rw [h.selects hkey]
  simp only [hbranch]

theorem docItem_agree (n : Nat) (t : Token) (r : List Token) (hts : textOf (t :: r) <:+: cs) :
    docItem o₁ a n t r = docItem o₂ b n t r := by
  have hr : textOf r <:+: cs := (textOf_isInfix (List.suffix_cons t r).isInfix).trans hts
  unfold docItem
  cases t.kind with
  | htmlOpen =>
    dsimp only
    cases hcut : cutAt .htmlClose r with
    | none => rfl
    | some cut =>
      obtain ⟨hbody, hrest⟩ := Cut.infix_of_cutAt hcut
      dsimp only
      cases hd : classifyHtml cut.inner with
      | error e => rfl
      | ok d =>
        cases d with
        | opening p key =>
          exact htmlRegionItem_agree h hinner t _ p
            ((classifyHtml_isInfix hd).trans ((textOf_isInfix hbody).trans hr))
            ((textOf_isInfix hrest).trans hr)
        | _ => rfl
  | _ => rfl

theorem docCommentItem_agree (t : Token) {r : List Token} (hr : textOf r <:+: cs) :
    docCommentItem o₁ a t r = docCommentItem o₂ b t r := by
  unfold docCommentItem
  cases hcut : cutAt .blockClose r with
  | none => rfl
  | some cut =>
    have hbody := (textOf_isInfix (Cut.infix_of_cutAt hcut).1).trans hr
    dsimp only
    rw [walk_congr (docItem_agree h hinner) _ hbody]

theorem regionItem_agree (t : Token) (size : Nat) (p : Polarity) {key : KeyExpr}
    (hkey : key.text.toList <:+: cs) {rest : List Token} (hrest : textOf rest <:+: cs) :
    regionItem o₁ a t size p key rest = regionItem o₂ b t size p key rest := by
  have hbranch : ∀ n k, a.branch n (rest.drop k) = b.branch n (rest.drop k) := fun n k =>
    hinner.branch n _ ((textOf_isInfix (rest.drop_suffix k).isInfix).trans hrest)
  unfold regionItem
  rw [h.selects hkey]
  simp only [hbranch]

theorem blockItem_agree (top : Bool) (n : Nat) (t : Token) {r : List Token}
    (hr : textOf r <:+: cs) : blockItem o₁ a top n t r = blockItem o₂ b top n t r := by
  unfold blockItem
  cases hcut : cutAt .blockClose r with
  | none => rfl
  | some cut =>
    obtain ⟨hbody, hrest⟩ := Cut.infix_of_cutAt hcut
    dsimp only
    cases hd : classify cut.inner with
    | error e => rfl
    | ok d =>
      have hstands := (classify_standsIn hd).mono ((textOf_isInfix hbody).trans hr)
      cases d with
      | opening p key =>
        dsimp only
        rw [regionItem_agree h hinner t _ p hstands ((textOf_isInfix hrest).trans hr)]
      | inline p key lead body =>
        obtain ⟨hkey, htext⟩ := hstands
        dsimp only
        rw [h.selects hkey, inlineTrail, inlineTrail,
          hinner.document _ ((stripSpace_isInfix _).trans htext)]
      | fileExclusion key =>
        dsimp only
        rw [exclusionTrail, exclusionTrail, h.holdsOrDefault hstands]
      | license key =>
        dsimp only
        rw [h.licenseTrail key]
      | _ => rfl

theorem codeItem_agree (top : Bool) (n : Nat) (t : Token) (r : List Token)
    (hts : textOf (t :: r) <:+: cs) : codeItem o₁ a top n t r = codeItem o₂ b top n t r := by
  have hr : textOf r <:+: cs := (textOf_isInfix (List.suffix_cons t r).isInfix).trans hts
  unfold codeItem
  cases t.kind with
  | docOpen => exact docCommentItem_agree h hinner t hr
  | blockOpen => exact blockItem_agree h hinner top n t hr
  | _ => rfl

theorem evaluateTokens_agree {ts : List Token} (hts : textOf ts <:+: cs) :
    evaluateTokens o₁ a ts = evaluateTokens o₂ b ts :=
  walk_congr (codeItem_agree h hinner true) _ hts

omit hinner in
theorem Level.agree_ofDepth (limit n : Nat) :
    Level.Agree cs (Level.ofDepth o₁ limit n) (Level.ofDepth o₂ limit n) := by
  induction n with
  | zero => exact ⟨fun _ _ _ => rfl, fun _ _ _ => rfl, fun _ _ => rfl⟩
  | succ n ih =>
    rw [Level.ofDepth_succ o₁, Level.ofDepth_succ o₂, h.language]
    constructor
    · intro k ts hts
      exact walk_congr (codeItem_agree h ih false) k hts
    · intro k ts hts
      exact walk_congr (docItem_agree h ih) k hts
    · intro body hbody
      apply evaluateTokens_agree h ih
      rwa [textOf_tokenize, String.toList_ofList]

end

/-- **Keys that a source does not mention are irrelevant.**  Two sets of keys, both
    empty or neither, give the same result if they hold the same of the keys that can
    be read somewhere in the source. -/
theorem transform_eq_of_mentions (o : Options) (hlicenses : o.licenses.isEmpty = true)
    (hheader : o.autoHeader = false) {keys₁ keys₂ : ActiveKeys}
    (hreserved₁ : keys₁.contains reservedKey = false)
    (hreserved₂ : keys₂.contains reservedKey = false) (hempty : keys₁.isEmpty = keys₂.isEmpty)
    {source : String}
    (hcontains : ∀ key : String, key.toList <:+: source.toList →
      keys₁.contains key = keys₂.contains key) :
    transform { o with keys := keys₁ } source = transform { o with keys := keys₂ } source := by
  have hvalid : ∀ keys : ActiveKeys, keys.contains reservedKey = false →
      Options.validate { o with keys := keys } = .ok () := by
    intro keys hkeys
    simp [Options.validate, Options.licenseMode, hkeys, hheader, hlicenses]
  have halike : Options.Alike source.toList { o with keys := keys₁ } { o with keys := keys₂ } :=
    ⟨rfl, hlicenses, hlicenses, hempty, hcontains⟩
  have hwhole : textOf (tokenize o.language.profile source) <:+: source.toList :=
    textOf_tokenize o.language.profile source ▸ List.infix_refl _
  rw [transform, transform, hvalid keys₁ hreserved₁, hvalid keys₂ hreserved₂,
    evaluate_of_no_header (o := { o with keys := keys₁ }) hheader,
    evaluate_of_no_header (o := { o with keys := keys₂ }) hheader]
  dsimp only
  rw [evaluateTokens_agree halike (Level.agree_ofDepth halike maxDepth maxDepth) hwhole]

/-- A document that asks for `A` in a region, and for `A` or `B` in an inline body,
    which asks for `C` once it is a document itself. -/
def askingSource : String :=
  "a/* @include-if A */b/* @end */\n-- @include-if A|B c /* @file-exclude-if C */ @end\n"

theorem transform_eq_of_mentions_asking :
    transform { keys := Std.TreeSet.ofList ["A", "X"], language := .sql } askingSource =
        transform { keys := Std.TreeSet.ofList ["A", "Y"], language := .sql } askingSource ∧
      transform { keys := Std.TreeSet.ofList ["A", "Y"], language := .sql } askingSource =
        .ok "ab\nc \n" := by
  refine ⟨?_, by decide +kernel⟩
  apply transform_eq_of_mentions { language := .sql } rfl rfl
  · decide +kernel
  · decide +kernel
  · decide +kernel
  · intro key hkey
    have hx : key ≠ "X" := by
      rintro rfl
      revert hkey
      decide +kernel
    have hy : key ≠ "Y" := by
      rintro rfl
      revert hkey
      decide +kernel
    simp [Std.TreeSet.contains_ofList, hx, hy]

end FeatureCut
