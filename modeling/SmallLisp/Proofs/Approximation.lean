import SmallLisp.Proofs.Outcome
/-!
# More steps and more room

A run is stopped early when its steps or its room are used up. A computation approximates another when
it has the same outcome unless it is stopped early. With more room every helper of the evaluator
approximates itself, so limits never change an answer; they can only withhold it. With equal room only
the steps can run out first.
-/
namespace SmallLisp

/-- The two ways in which a limit ends a run. -/
def Halt.IsEarly : Halt → Prop
  | .outOfSteps => True
  | .failed (.nesting _) => True
  | _ => False

/-- How much more room the second of two runs has: none, or at least an offset. -/
inductive Slack where
  | none
  | more (offset : Nat)

namespace Slack

/-- The ways in which the first run may be stopped before the second. -/
def Early : Slack → Halt → Prop
  | none => fun h => h = .outOfSteps
  | more _ => Halt.IsEarly

def Fits : Slack → (room room' : Nat) → Prop
  | none, room, room' => room = room'
  | more offset, room, room' => room + offset ≤ room'

variable {s : Slack} {room room' : Nat}

theorem early_outOfSteps (s : Slack) : s.Early .outOfSteps := by
  cases s with
  | none => rfl
  | more offset => trivial

namespace Fits

theorem refl (room : Nat) : Slack.none.Fits room room := rfl

theorem eq_or_le (h : s.Fits room room') :
    room = room' ∨ room ≤ room' ∧ s.Early (.failed .tooDeep) := by
  cases s with
  | none => exact Or.inl h
  | more offset => exact Or.inr ⟨Nat.le_of_add_right_le h, trivial⟩

theorem zero (h : s.Fits 0 room') : room' = 0 ∨ s.Early (.failed .tooDeep) := by
  rcases h.eq_or_le with same | ⟨_, early⟩
  · exact Or.inl same.symm
  · exact Or.inr early

theorem succ (h : s.Fits (room + 1) room') : ∃ r, room' = r + 1 ∧ s.Fits room r := by
  cases s with
  | none => exact ⟨room, h.symm, rfl⟩
  | more offset =>
    have le : room + 1 + offset ≤ room' := h
    refine ⟨room' - 1, by omega, ?_⟩
    change room + offset ≤ room' - 1
    omega

end Fits

end Slack

/-- Stopped in some state for one of these reasons. -/
def Stopped {σ α : Type} (Early : Halt → Prop) (o : Except Halt α × σ) : Prop :=
  ∃ h m, o = (.error h, m) ∧ Early h

theorem not_stopped_ok {σ α : Type} {Early : Halt → Prop} {x : α} {m : σ} :
    ¬ Stopped Early ((.ok x, m) : Except Halt α × σ) := by
  rintro ⟨_, _, ⟨⟩, _⟩

theorem stopped_error_iff {σ α : Type} {Early : Halt → Prop} {h : Halt} {m : σ} :
    Stopped Early ((.error h, m) : Except Halt α × σ) ↔ Early h := by
  constructor
  · rintro ⟨_, _, ⟨⟩, early⟩
    exact early
  · exact fun early => ⟨h, m, rfl, early⟩

/-- A limit stops a run whatever it was to give. -/
theorem Stopped.of_error {σ α β : Type} {Early : Halt → Prop} {h : Halt} {m n : σ}
    (stopped : Stopped Early ((.error h, m) : Except Halt α × σ)) :
    Stopped Early ((.error h, n) : Except Halt β × σ) :=
  stopped_error_iff.mpr (stopped_error_iff.mp stopped)

/-- Stopped by a limit. -/
abbrev Outcome.IsEarly {α : Type} (o : Outcome α) : Prop :=
  Stopped Halt.IsEarly o

namespace Run

variable {σ α β γ : Type}

def Approximates (Early : Halt → Prop) (a b : Stateful Halt σ α) : Prop :=
  ∀ m, Stopped Early (outcome a m) ∨ outcome a m = outcome b m

namespace Approximates

variable {Early : Halt → Prop}

theorem refl (a : Stateful Halt σ α) : Approximates Early a a := fun _ => Or.inr rfl

theorem trans {a b c : Stateful Halt σ α} (hab : Approximates Early a b)
    (hbc : Approximates Early b c) : Approximates Early a c := by
  intro m
  rcases hab m with early | hab
  · exact Or.inl early
  · rw [hab]
    exact hbc m

theorem bind {a a' : Stateful Halt σ α} {k k' : α → Stateful Halt σ β} (ha : Approximates Early a a')
    (hk : ∀ x, Approximates Early (k x) (k' x)) : Approximates Early (a >>= k) (a' >>= k') := by
  intro m
  rcases ha m with ⟨h, n, early, limit⟩ | same
  · exact Or.inl ⟨h, n, outcome_bind_of_error early k, limit⟩
  · rw [outcome_bind, outcome_bind, ← same]
    rcases outcome a m with ⟨h | x, n⟩
    · exact Or.inr rfl
    · exact hk x n

theorem halt {h : Halt} (early : Early h) (b : Stateful Halt σ α) :
    Approximates Early (throw h) b :=
  fun m => Or.inl ⟨_, m, rfl, early⟩

theorem outOfSteps {s : Slack} (b : Stateful Halt σ α) : Approximates s.Early (throw .outOfSteps) b :=
  halt s.early_outOfSteps b

theorem mapM {f g : α → Stateful Halt σ β} (xs : List α) (h : ∀ x, Approximates Early (f x) (g x)) :
    Approximates Early (xs.mapM f) (xs.mapM g) := by
  induction xs with
  | nil => exact refl _
  | cons x xs ih =>
    rw [List.mapM_cons, List.mapM_cons]
    exact bind (h x) fun y => bind ih fun ys => refl _

variable {s : Slack} {room room' : Nat}

/-- What differs with the room only by being nested too deep. -/
theorem ofExcept {text : Nat → Except Failure α}
    (h : ∀ {r r'}, r ≤ r' → text r = .error .tooDeep ∨ text r = text r')
    (hroom : s.Fits room room') :
    Approximates s.Early (Run.ofExcept (text room)) (Run.ofExcept (text room')) := by
  rcases hroom.eq_or_le with rfl | ⟨le, early⟩
  · exact refl _
  · rcases h le with deep | same
    · rw [deep]
      exact halt early _
    · rw [same]
      exact refl _

theorem deeper {go go' : Nat → Run α} (hroom : s.Fits room room')
    (h : ∀ r r', s.Fits r r' → Approximates s.Early (go r) (go' r')) :
    Approximates s.Early (Run.deeper room go) (Run.deeper room' go') := by
  cases room with
  | zero =>
    rcases hroom.zero with rfl | early
    · exact refl _
    · exact halt early _
  | succ room =>
    obtain ⟨room', rfl, hr⟩ := hroom.succ
    exact h room room' hr

theorem spending (k : Nat) {a b : Run α} (h : Approximates Early a b) :
    Approximates Early (Run.spending k a) (Run.spending k b) := by
  intro m
  rcases h m with ⟨e, n, early, limit⟩ | same
  · exact Or.inl ⟨e, _, by rw [outcome_spending, early], limit⟩
  · exact Or.inr (by rw [outcome_spending, outcome_spending, same])

/-- A conclusive outcome stays the same. -/
theorem outcome_eq {a b : Stateful Halt σ α} (h : Approximates Early a b) {m : σ}
    {o : Except Halt α × σ} (ho : outcome a m = o) (conclusive : ¬ Stopped Early o) :
    outcome b m = o := by
  subst ho
  rcases h m with early | same
  · exact absurd early conclusive
  · exact same.symm

end Approximates

end Run

end SmallLisp
