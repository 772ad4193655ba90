/-
  FeatureCut/Trail.lean
  =====================
  **What an evaluation leaves behind.**

  A trail is a list of things to write, the events on the way, and the reason if
  the evaluation stopped before the end.  Trails follow each other with
  `Trail.andThen`, which is associative and has `Trail.nothing` for its unit.
-/
import FeatureCut.Event
import FeatureCut.Page

namespace FeatureCut

/-! ### Trails -/

/-- Why an evaluation stops before the end.  An excluded document is to be empty. -/
inductive Stop where
  | excluded
  | failed (error : Error)
deriving DecidableEq, Repr

/-- What an evaluation leaves behind: things to write, events, and the reason if
    it stopped early. -/
structure Trail (σ : Type) where
  steps : List σ
  events : List Event
  stop : Option Stop
deriving DecidableEq, Repr

namespace Trail

def nothing {σ : Type} : Trail σ := ⟨[], [], none⟩

def write {σ : Type} (steps : List σ) : Trail σ := ⟨steps, [], none⟩

def report {σ : Type} (event : Event) : Trail σ := ⟨[], [event], none⟩

def halt {σ : Type} (stop : Stop) : Trail σ := ⟨[], [], some stop⟩

def fail {σ : Type} (error : Error) : Trail σ := halt (.failed error)

/-- One evaluation after another; the second only if the first does not stop. -/
def andThen {σ : Type} (a b : Trail σ) : Trail σ :=
  match a.stop with
  | none => ⟨a.steps ++ b.steps, a.events ++ b.events, b.stop⟩
  | some s => ⟨a.steps, a.events, some s⟩

/-- Describe what is written in other terms.  These may depend on whether the evaluation has
    come to its end. -/
def mapSteps {σ τ : Type} (f : List σ → Bool → List τ) (a : Trail σ) : Trail τ :=
  ⟨f a.steps a.stop.isNone, a.events, a.stop⟩

@[simp] theorem nothing_andThen {σ : Type} (a : Trail σ) : nothing.andThen a = a := rfl

@[simp] theorem andThen_nothing {σ : Type} (a : Trail σ) : a.andThen nothing = a := by
  obtain ⟨steps, events, stop⟩ := a
  cases stop <;> simp [andThen, nothing]

theorem andThen_assoc {σ : Type} (a b c : Trail σ) :
    (a.andThen b).andThen c = a.andThen (b.andThen c) := by
  obtain ⟨steps, events, stop⟩ := a
  obtain ⟨steps', events', stop'⟩ := b
  cases stop <;> cases stop' <;> simp [andThen]

/-- Both evaluations come to their end if the two together do. -/
theorem stop_of_andThen {σ : Type} {a b : Trail σ} (h : (a.andThen b).stop = none) :
    a.stop = none ∧ b.stop = none := by
  unfold andThen at h
  split at h
  · rename_i ha
    exact ⟨ha, h⟩
  · cases h

theorem steps_andThen {σ : Type} {a : Trail σ} (h : a.stop = none) (b : Trail σ) :
    (a.andThen b).steps = a.steps ++ b.steps := by
  simp [andThen, h]

theorem stop_andThen {σ : Type} {a : Trail σ} (h : a.stop = none) (b : Trail σ) :
    (a.andThen b).stop = b.stop := by
  simp [andThen, h]

/-- Nothing happens after a stop. -/
theorem andThen_of_stop {σ : Type} {a : Trail σ} {s : Stop} (h : a.stop = some s)
    (b : Trail σ) : a.andThen b = a := by
  obtain ⟨steps, events, stop⟩ := a
  cases h
  rfl

end Trail

/-! ### Results -/

/-- The result of a trail: an excluded document is empty. -/
def Trail.result (trail : Trail Step) : Except Error String :=
  match trail.stop with
  | none => .ok (String.ofList (render trail.steps))
  | some .excluded => .ok ""
  | some (.failed e) => .error e

def Trail.allEvents (trail : Trail Step) : List Event :=
  trail.events ++ if trail.stop = some .excluded then [.documentExcluded] else []

end FeatureCut
