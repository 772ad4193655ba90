/-
  FeatureCut/Proofs/Forest.lean
  =============================
  **The forest of a document.**

  The evaluator never builds a tree: it looks for the end of a region whenever it
  meets one.  Here the tokens of a document are read once, from the left, with a
  stack of the regions that are open, and become a forest.  A comment that opens
  a region pushes a frame, the first dividing comment at its level splits the
  frame, a closing one pops it, and all else is a node of its own.

  A node carries the proofs that its comments close and say what the node stands
  for, so only the shape is left to state.  `Node.Balanced` says that no comment
  which belongs to a region stands in it as a node of its own, and
  `parse_sound` that parsing gives such a forest of exactly the tokens read.
-/
import FeatureCut.Region

namespace FeatureCut

/-! ### Comments -/

/-- A comment that closes; `kind` is what its opening delimiter is. -/
structure Comment (kind : Kind) where
  opener : Token
  inner : List Token
  closer : Token
  opener_kind : opener.kind = kind
  inner_kind : ∀ t ∈ inner, t.kind ≠ .blockClose
  closer_kind : closer.kind = .blockClose

def Comment.ofCut {kind : Kind} {t : Token} {r : List Token} {cut : Cut} (ht : t.kind = kind)
    (hc : cutAt .blockClose r = some cut) : Comment kind :=
  ⟨t, cut.inner, cut.mark, ht, cutAt_inner hc, cutAt_kind hc⟩

def Comment.tail {kind : Kind} (c : Comment kind) : List Token := c.inner ++ [c.closer]

def Comment.tokens {kind : Kind} (c : Comment kind) : List Token := c.opener :: c.tail

def Comment.verbatim {kind : Kind} (c : Comment kind) : List Char :=
  c.opener.lexeme ++ textOf c.inner ++ c.closer.lexeme

@[simp] theorem Comment.length_tail {kind : Kind} (c : Comment kind) :
    c.tail.length = c.inner.length + 1 := by
  simp [Comment.tail]

@[simp] theorem Comment.length_tokens {kind : Kind} (c : Comment kind) :
    c.tokens.length = c.inner.length + 2 := by
  simp [Comment.tokens]

theorem Comment.cutAt_tail {kind : Kind} (c : Comment kind) (rest : List Token) :
    cutAt .blockClose (c.tail ++ rest) = some ⟨c.inner, c.closer, rest⟩ := by
  rw [Comment.tail, List.append_assoc, List.singleton_append]
  exact cutAt_append_cons c.inner_kind c.closer_kind rest

theorem Comment.tokens_append_inj {kind : Kind} {c c' : Comment kind} {xs ys : List Token}
    (h : c.tokens ++ xs = c'.tokens ++ ys) : c = c' ∧ xs = ys := by
  obtain ⟨hopener, htail⟩ : c.opener = c'.opener ∧ c.tail ++ xs = c'.tail ++ ys := List.cons.inj h
  have hcut := c.cutAt_tail xs
  rw [htail, c'.cutAt_tail ys] at hcut
  obtain ⟨hinner, hcloser, hrest⟩ := Cut.mk.inj (Option.some.inj hcut)
  refine ⟨?_, hrest.symm⟩
  cases c
  cases c'
  simp_all

theorem Comment.tokens_ofCut {kind : Kind} {t : Token} {r : List Token} {cut : Cut}
    (ht : t.kind = kind) (hc : cutAt .blockClose r = some cut) :
    (Comment.ofCut ht hc).tokens ++ cut.rest = t :: r := by
  have hr := cutAt_append hc
  simp [Comment.ofCut, Comment.tokens, Comment.tail, ← hr]

/-- A block comment that says `d`. -/
structure Saying (d : Directive) extends Comment .blockOpen where
  classified : classify inner = .ok d

/-! ### Nodes -/

/-- A node of a forest: a token outside comments, a comment, or a region with one part or
    with two.  A `remark` is a block comment that stands for itself: it is copied, holds an
    inline body, asks for the license or excludes the file.  A comment that divides or closes
    a region is of this kind only where it has no region to belong to. -/
inductive Node where
  | token (t : Token) (ht : t.kind ≠ .blockOpen ∧ t.kind ≠ .docOpen)
  | doc (c : Comment .docOpen)
  | remark (d : Directive) (c : Saying d) (hd : d.role ≠ .opening)
  | region (polarity : Polarity) (key : KeyExpr) (head : Saying (.opening polarity key))
      (first : List Node) (last : Saying .closing)
  | divided (polarity : Polarity) (key : KeyExpr) (head : Saying (.opening polarity key))
      (first : List Node) (middle : Saying .alternative) (second : List Node)
      (last : Saying .closing)

/-- What a node does for the nesting of regions around it.  A whole region does
    nothing. -/
def Node.role : Node → Role
  | .remark d _ _ => d.role
  | .token .. | .doc .. | .region .. | .divided .. => .neutral

theorem Node.role_ne_opening (x : Node) : x.role ≠ .opening := by
  cases x with
  | remark d c hd => exact hd
  | token t ht => exact Role.noConfusion
  | doc c => exact Role.noConfusion
  | region p key head first last => exact Role.noConfusion
  | divided p key head first middle second last => exact Role.noConfusion

mutual

def Node.tokens : Node → List Token
  | .token t _ => [t]
  | .doc c => c.tokens
  | .remark _ c _ => c.tokens
  | .region _ _ head first last => head.tokens ++ (Forest.tokens first ++ last.tokens)
  | .divided _ _ head first middle second last =>
    head.tokens ++ (Forest.tokens first ++
      (middle.tokens ++ (Forest.tokens second ++ last.tokens)))

def Forest.tokens : List Node → List Token
  | [] => []
  | x :: xs => x.tokens ++ Forest.tokens xs

end

@[simp] theorem Forest.tokens_nil : Forest.tokens [] = [] := rfl

@[simp] theorem Forest.tokens_cons (x : Node) (xs : List Node) :
    Forest.tokens (x :: xs) = x.tokens ++ Forest.tokens xs := rfl

@[simp] theorem Forest.tokens_append (xs ys : List Node) :
    Forest.tokens (xs ++ ys) = Forest.tokens xs ++ Forest.tokens ys := by
  induction xs with
  | nil => rfl
  | cons x xs ih => simp [ih]

mutual

/-- A node is balanced when the comments that divide or close a region stand
    where they belong: none at the level of a first part, and none but further
    dividing ones at the level of a second part. -/
def Node.Balanced : Node → Prop
  | .token .. | .doc .. | .remark .. => True
  | .region _ _ _ first _ => (∀ x ∈ first, x.role = .neutral) ∧ Forest.Balanced first
  | .divided _ _ _ first _ second _ =>
    (∀ x ∈ first, x.role = .neutral) ∧ Forest.Balanced first ∧
      (∀ x ∈ second, x.role ≠ .closing) ∧ Forest.Balanced second

def Forest.Balanced : List Node → Prop
  | [] => True
  | x :: xs => x.Balanced ∧ Forest.Balanced xs

end

theorem Forest.balanced_iff {xs : List Node} : Forest.Balanced xs ↔ ∀ x ∈ xs, x.Balanced := by
  induction xs with
  | nil => simp [Forest.Balanced]
  | cons x xs ih => simp [Forest.Balanced, ih]

theorem Forest.balanced_append {xs ys : List Node} :
    Forest.Balanced (xs ++ ys) ↔ Forest.Balanced xs ∧ Forest.Balanced ys := by
  simp only [Forest.balanced_iff, List.mem_append]
  constructor
  · intro h
    exact ⟨fun x hx => h x (Or.inl hx), fun x hx => h x (Or.inr hx)⟩
  · rintro ⟨hx, hy⟩ x (h | h)
    · exact hx x h
    · exact hy x h

/-! ### Parsing with a stack -/

/-- A region that is open: its first part as far as it has been read, and its
    second part if the region has been divided. -/
structure Frame where
  polarity : Polarity
  key : KeyExpr
  head : Saying (.opening polarity key)
  first : List Node
  second : Option (Saying .alternative × List Node)

/-- What has been read so far: the nodes outside all open regions, and the open
    regions, the innermost one first. -/
structure Pending where
  root : List Node
  frames : List Frame

def Pending.start : Pending := ⟨[], []⟩

def Frame.add (f : Frame) (x : Node) : Frame :=
  match f.second with
  | none => { f with first := f.first ++ [x] }
  | some (middle, second) => { f with second := some (middle, second ++ [x]) }

def Frame.close (f : Frame) (last : Saying .closing) : Node :=
  match f.second with
  | none => .region f.polarity f.key f.head f.first last
  | some (middle, second) => .divided f.polarity f.key f.head f.first middle second last

def Pending.add (s : Pending) (x : Node) : Pending :=
  match s.frames with
  | [] => ⟨s.root ++ [x], []⟩
  | f :: fs => ⟨s.root, f.add x :: fs⟩

def Pending.push (s : Pending) {p : Polarity} {key : KeyExpr} (head : Saying (.opening p key)) :
    Pending :=
  ⟨s.root, ⟨p, key, head, [], none⟩ :: s.frames⟩

/-- Divide the innermost open region, unless there is none or it is divided
    already. -/
def Pending.divide (s : Pending) (middle : Saying .alternative) : Pending :=
  match s.frames with
  | ⟨p, key, head, first, none⟩ :: fs =>
    ⟨s.root, ⟨p, key, head, first, some (middle, [])⟩ :: fs⟩
  | _ => s.add (.remark .alternative middle Role.noConfusion)

def Pending.pop (s : Pending) (last : Saying .closing) : Pending :=
  match s.frames with
  | f :: fs => Pending.add ⟨s.root, fs⟩ (f.close last)
  | [] => s.add (.remark .closing last Role.noConfusion)

def Pending.take (s : Pending) : (d : Directive) → Saying d → Pending
  | .opening _ _, c => s.push c
  | .alternative, c => s.divide c
  | .closing, c => s.pop c
  | .plain, c => s.add (.remark .plain c Role.noConfusion)
  | .inline p key lead body, c => s.add (.remark (.inline p key lead body) c Role.noConfusion)
  | .fileExclusion key, c => s.add (.remark (.fileExclusion key) c Role.noConfusion)
  | .license key, c => s.add (.remark (.license key) c Role.noConfusion)

/-- Read a list of tokens, once and from the left.  There is no forest if a
    comment does not close, if a block comment says nothing sound, or if a region
    is still open at the end. -/
def parseFrom (s : Pending) : List Token → Option (List Node)
  | [] => if s.frames.isEmpty then some s.root else none
  | t :: r =>
    if hb : t.kind = .blockOpen then
      match hc : cutAt .blockClose r with
      | none => none
      | some cut =>
        match hd : classify cut.inner with
        | .error _ => none
        | .ok d => parseFrom (s.take d ⟨Comment.ofCut hb hc, hd⟩) cut.rest
    else if hd : t.kind = .docOpen then
      match hc : cutAt .blockClose r with
      | none => none
      | some cut => parseFrom (s.add (.doc (Comment.ofCut hd hc))) cut.rest
    else parseFrom (s.add (.token t ⟨hb, hd⟩)) r
termination_by ts => ts.length
decreasing_by
  · have := cutAt_length hc
    simp only [List.length_cons]
    omega
  · have := cutAt_length hc
    simp only [List.length_cons]
    omega
  · simp

def parse (ts : List Token) : Option (List Node) := parseFrom .start ts

/-! ### Parsing is sound -/

def Frame.tokens (f : Frame) : List Token :=
  f.head.tokens ++ (Forest.tokens f.first ++
    match f.second with
    | none => []
    | some (middle, second) => middle.tokens ++ Forest.tokens second)

def Pending.tokens (s : Pending) : List Token :=
  Forest.tokens s.root ++ s.frames.reverse.flatMap Frame.tokens

/-- An open region in which every comment stands where it belongs. -/
structure Frame.Balanced (f : Frame) : Prop where
  first_role : ∀ x ∈ f.first, x.role = .neutral
  first_balanced : Forest.Balanced f.first
  second_role : ∀ m xs, f.second = some (m, xs) → ∀ x ∈ xs, x.role ≠ .closing
  second_balanced : ∀ m xs, f.second = some (m, xs) → Forest.Balanced xs

structure Pending.Balanced (s : Pending) : Prop where
  root : Forest.Balanced s.root
  frames : ∀ f ∈ s.frames, f.Balanced

theorem Frame.tokens_add (f : Frame) (x : Node) : (f.add x).tokens = f.tokens ++ x.tokens := by
  obtain ⟨p, key, head, first, second⟩ := f
  cases second with
  | none => simp [Frame.add, Frame.tokens]
  | some second => simp [Frame.add, Frame.tokens]

theorem Frame.tokens_close (f : Frame) (last : Saying .closing) :
    (f.close last).tokens = f.tokens ++ last.tokens := by
  obtain ⟨p, key, head, first, second⟩ := f
  cases second with
  | none => simp [Frame.close, Frame.tokens, Node.tokens]
  | some second => simp [Frame.close, Frame.tokens, Node.tokens]

theorem Pending.tokens_add (s : Pending) (x : Node) :
    (s.add x).tokens = s.tokens ++ x.tokens := by
  obtain ⟨root, frames⟩ := s
  cases frames with
  | nil => simp [Pending.add, Pending.tokens]
  | cons f fs => simp [Pending.add, Pending.tokens, Frame.tokens_add]

theorem Pending.tokens_push (s : Pending) {p : Polarity} {key : KeyExpr}
    (head : Saying (.opening p key)) : (s.push head).tokens = s.tokens ++ head.tokens := by
  simp [Pending.push, Pending.tokens, Frame.tokens]

theorem Pending.tokens_divide (s : Pending) (middle : Saying .alternative) :
    (s.divide middle).tokens = s.tokens ++ middle.tokens := by
  unfold Pending.divide
  split
  · rename_i hs
    simp [Pending.tokens, Frame.tokens, hs]
  · exact s.tokens_add _

theorem Pending.tokens_pop (s : Pending) (last : Saying .closing) :
    (s.pop last).tokens = s.tokens ++ last.tokens := by
  unfold Pending.pop
  split
  · rename_i hs
    rw [Pending.tokens_add, Frame.tokens_close]
    simp [Pending.tokens, hs]
  · exact s.tokens_add _

theorem Pending.tokens_take (s : Pending) (d : Directive) (c : Saying d) :
    (s.take d c).tokens = s.tokens ++ c.tokens := by
  cases d with
  | opening p key => exact s.tokens_push c
  | alternative => exact s.tokens_divide c
  | closing => exact s.tokens_pop c
  | plain => exact s.tokens_add _
  | inline p key lead body => exact s.tokens_add _
  | fileExclusion key => exact s.tokens_add _
  | license key => exact s.tokens_add _

/-- A frame admits every neutral node, and once it is divided all but closing
    ones. -/
def Frame.Admits (f : Frame) (x : Node) : Prop :=
  x.role = .neutral ∨ f.second ≠ none ∧ x.role ≠ .closing

theorem Frame.Balanced.add {f : Frame} {x : Node} (hf : f.Balanced) (hx : x.Balanced)
    (ha : f.Admits x) : (f.add x).Balanced := by
  obtain ⟨p, key, head, first, second⟩ := f
  have hne : x.role ≠ .closing := by
    rcases ha with h | h
    · simp [h]
    · exact h.2
  cases second with
  | none =>
    have hneutral : x.role = .neutral := by
      rcases ha with h | h
      · exact h
      · exact absurd rfl h.1
    refine ⟨?_, ?_, by simp [Frame.add], by simp [Frame.add]⟩
    · intro y hy
      rcases List.mem_append.1 hy with hy | hy
      · exact hf.first_role y hy
      · rw [List.mem_singleton.1 hy]
        exact hneutral
    · exact Forest.balanced_append.2 ⟨hf.first_balanced, hx, trivial⟩
  | some second =>
    obtain ⟨middle, xs⟩ := second
    refine ⟨hf.first_role, hf.first_balanced, ?_, ?_⟩
    · rintro m ys hys y hy
      obtain ⟨rfl, rfl⟩ : middle = m ∧ xs ++ [x] = ys := by simpa [Frame.add] using hys
      rcases List.mem_append.1 hy with hy | hy
      · exact hf.second_role middle xs rfl y hy
      · rw [List.mem_singleton.1 hy]
        exact hne
    · rintro m ys hys
      obtain ⟨rfl, rfl⟩ : middle = m ∧ xs ++ [x] = ys := by simpa [Frame.add] using hys
      exact Forest.balanced_append.2 ⟨hf.second_balanced middle xs rfl, hx, trivial⟩

theorem Frame.Balanced.close {f : Frame} (hf : f.Balanced) (last : Saying .closing) :
    (f.close last).Balanced := by
  obtain ⟨p, key, head, first, second⟩ := f
  cases second with
  | none => exact ⟨hf.first_role, hf.first_balanced⟩
  | some second =>
    obtain ⟨middle, xs⟩ := second
    exact ⟨hf.first_role, hf.first_balanced, hf.second_role middle xs rfl,
      hf.second_balanced middle xs rfl⟩

theorem Frame.role_close (f : Frame) (last : Saying .closing) : (f.close last).role = .neutral := by
  unfold Frame.close
  split <;> rfl

theorem Pending.Balanced.add {s : Pending} {x : Node} (hs : s.Balanced) (hx : x.Balanced)
    (ha : ∀ f fs, s.frames = f :: fs → f.Admits x) : (s.add x).Balanced := by
  obtain ⟨root, frames⟩ := s
  cases frames with
  | nil => exact ⟨Forest.balanced_append.2 ⟨hs.root, hx, trivial⟩, by simp [Pending.add]⟩
  | cons f fs =>
    refine ⟨hs.root, ?_⟩
    intro g hg
    rcases List.mem_cons.1 hg with rfl | hg
    · exact (hs.frames f (by simp)).add hx (ha f fs rfl)
    · exact hs.frames g (by simp [hg])

theorem Pending.Balanced.add_neutral {s : Pending} {x : Node} (hs : s.Balanced) (hx : x.Balanced)
    (hr : x.role = .neutral) : (s.add x).Balanced :=
  hs.add hx fun _ _ _ => Or.inl hr

theorem Pending.Balanced.push {s : Pending} (hs : s.Balanced) {p : Polarity} {key : KeyExpr}
    (head : Saying (.opening p key)) : (s.push head).Balanced := by
  refine ⟨hs.root, ?_⟩
  intro g hg
  rcases List.mem_cons.1 hg with rfl | hg
  · exact ⟨by simp, trivial, by simp, by simp⟩
  · exact hs.frames g hg

theorem Pending.Balanced.divide {s : Pending} (hs : s.Balanced) (middle : Saying .alternative) :
    (s.divide middle).Balanced := by
  unfold Pending.divide
  split
  · rename_i p key head first fs hfs
    refine ⟨hs.root, ?_⟩
    intro g hg
    rcases List.mem_cons.1 hg with rfl | hg
    · have hf := hs.frames ⟨p, key, head, first, none⟩ (by simp [hfs])
      exact ⟨hf.first_role, hf.first_balanced, by simp, by simp [Forest.Balanced]⟩
    · exact hs.frames g (by simp [hfs, hg])
  · rename_i hdivided
    apply hs.add
    · exact trivial
    · rintro ⟨p, key, head, first, second⟩ fs hfs
      refine Or.inr ⟨?_, Role.noConfusion⟩
      rintro rfl
      exact hdivided p key head first fs hfs

theorem Pending.Balanced.pop {s : Pending} (hs : s.Balanced) (last : Saying .closing) :
    (s.pop last).Balanced := by
  unfold Pending.pop
  split
  · rename_i f fs hfs
    have hf : f.Balanced := hs.frames f (by simp [hfs])
    have houter : Pending.Balanced ⟨s.root, fs⟩ :=
      ⟨hs.root, fun g hg => hs.frames g (by simp [hfs, hg])⟩
    exact houter.add_neutral (hf.close last) (f.role_close last)
  · rename_i hfs
    apply hs.add
    · exact trivial
    · intro f fs hf
      rw [hfs] at hf
      exact absurd hf (by simp)

theorem Pending.Balanced.take {s : Pending} (hs : s.Balanced) (d : Directive) (c : Saying d) :
    (s.take d c).Balanced := by
  cases d with
  | opening p key => exact hs.push c
  | alternative => exact hs.divide c
  | closing => exact hs.pop c
  | plain => exact hs.add_neutral trivial rfl
  | inline p key lead body => exact hs.add_neutral trivial rfl
  | fileExclusion key => exact hs.add_neutral trivial rfl
  | license key => exact hs.add_neutral trivial rfl

theorem parseFrom_sound {s : Pending} {ts : List Token} {xs : List Node} (hs : s.Balanced)
    (h : parseFrom s ts = some xs) :
    Forest.tokens xs = s.tokens ++ ts ∧ Forest.Balanced xs := by
  fun_induction parseFrom s ts with
  | case1 s hempty =>
    obtain ⟨root, frames⟩ := s
    cases h
    have hframes : frames = [] := List.isEmpty_iff.1 hempty
    exact ⟨by simp [Pending.tokens, hframes], hs.root⟩
  | case2 s => cases h
  | case3 s t r hb hc => cases h
  | case4 s t r hb cut hc e he => cases h
  | case5 s t r hb cut hc d hd ih =>
    obtain ⟨htokens, hbalanced⟩ := ih (hs.take d _) h
    refine ⟨?_, hbalanced⟩
    rw [htokens, Pending.tokens_take, List.append_assoc, Comment.tokens_ofCut]
  | case6 s t r hb hd hc => cases h
  | case7 s t r hb hd cut hc ih =>
    obtain ⟨htokens, hbalanced⟩ := ih (hs.add_neutral trivial rfl) h
    refine ⟨?_, hbalanced⟩
    rw [htokens, Pending.tokens_add, List.append_assoc, Node.tokens, Comment.tokens_ofCut]
  | case8 s t r hb hd ih =>
    obtain ⟨htokens, hbalanced⟩ := ih (hs.add_neutral trivial rfl) h
    refine ⟨?_, hbalanced⟩
    rw [htokens, Pending.tokens_add, List.append_assoc, Node.tokens, List.singleton_append]

/-- The forest of a list of tokens is balanced, and its tokens are the list. -/
theorem parse_sound {ts : List Token} {xs : List Node} (h : parse ts = some xs) :
    Forest.tokens xs = ts ∧ Forest.Balanced xs := by
  have hstart : Pending.start.Balanced := ⟨trivial, by simp [Pending.start]⟩
  exact parseFrom_sound hstart h

/-! ### When there is a forest -/

/-- The number of open regions after a comment, where `depth` are open before it.
    A closing comment without a region closes nothing. -/
def Role.depthAfter (depth : Nat) : Role → Nat
  | .neutral | .alternative => depth
  | .opening => depth + 1
  | .closing => depth - 1

/-- Whether all comments are sound and no region stays open, where `depth` are
    open before them. -/
def closes : Nat → List (Except Error Remark) → Bool
  | depth, [] => depth == 0
  | _, .error _ :: _ => false
  | depth, .ok m :: ms => closes (m.role.depthAfter depth) ms

theorem Pending.length_frames_add (s : Pending) (x : Node) :
    (s.add x).frames.length = s.frames.length := by
  unfold Pending.add
  split
  · rename_i hs
    rw [hs]
  · rename_i hs
    rw [hs]
    rfl

theorem Pending.length_frames_take (s : Pending) (d : Directive) (c : Saying d) :
    (s.take d c).frames.length = d.role.depthAfter s.frames.length := by
  cases d with
  | opening p key => rfl
  | alternative =>
    change (s.divide c).frames.length = s.frames.length
    unfold Pending.divide
    split
    · rename_i hs
      rw [hs]
      rfl
    · exact s.length_frames_add _
  | closing =>
    change (s.pop c).frames.length = s.frames.length - 1
    unfold Pending.pop
    split
    · rename_i hs
      rw [Pending.length_frames_add, hs]
      rfl
    · rename_i hs
      rw [Pending.length_frames_add, hs]
      rfl
  | plain => exact s.length_frames_add _
  | inline p key lead body => exact s.length_frames_add _
  | fileExclusion key => exact s.length_frames_add _
  | license key => exact s.length_frames_add _

theorem parseFrom_isSome (s : Pending) (pos : Nat) (ts : List Token) :
    (parseFrom s ts).isSome = closes s.frames.length (blockRemarks pos ts) := by
  fun_induction parseFrom s ts generalizing pos with
  | case1 s hempty =>
    rw [blockRemarks, closes, List.isEmpty_iff.1 hempty]
    rfl
  | case2 s hopen =>
    have hframes : s.frames.length ≠ 0 := by simpa using hopen
    rw [blockRemarks, closes, beq_false_of_ne hframes]
    rfl
  | case3 s t r hb hc =>
    rw [blockRemarks, hb]
    dsimp only
    rw [hc]
    rfl
  | case4 s t r hb cut hc e he =>
    rw [blockRemarks_of_block hb hc, he]
    rfl
  | case5 s t r hb cut hc d hd ih =>
    rw [blockRemarks_of_block hb hc, hd, ih (pos + cut.inner.length + 2),
      Pending.length_frames_take]
    rfl
  | case6 s t r hb hd hc =>
    rw [blockRemarks, hd]
    dsimp only
    rw [hc]
    rfl
  | case7 s t r hb hd cut hc ih =>
    rw [blockRemarks_of_doc hd hc, ih (pos + cut.inner.length + 2), Pending.length_frames_add]
  | case8 s t r hb hd ih =>
    rw [blockRemarks_token pos ⟨hb, hd⟩, ih (pos + 1), Pending.length_frames_add]

/-- There is a forest exactly if every comment closes and is sound, and every
    region is closed. -/
theorem parse_isSome (ts : List Token) : (parse ts).isSome = closes 0 (blockRemarks 0 ts) :=
  parseFrom_isSome .start 0 ts

end FeatureCut
