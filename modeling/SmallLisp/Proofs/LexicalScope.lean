import SmallLisp.Proofs.Application
/-!
# Lexical scope

A procedure is applied in some frame, but nothing that it does depends on that frame. A closure runs in a frame
of its own behind its home, `eval` in the root frame, and `apply` and `call/cc` only pass the caller's frame on
to the procedures that they apply.
-/
namespace SmallLisp

open Run

namespace Calls

/-- The caller's frame does not matter to the operations. -/
def IgnoresCaller (c : Calls) : Prop :=
  ∀ room procedure args e₁ e₂, c.apply room procedure args e₁ = c.apply room procedure args e₂

namespace IgnoresCaller

variable {c : Calls} (h : c.IgnoresCaller) (room : Nat) (procedure : Value) (args : List Value) (e₁ e₂ : FrameId)
include h

theorem application : c.application room procedure args e₁ = c.application room procedure args e₂ := by
  have passedOn (f : Value) (operands : List Value) :
      deeper room (fun room => c.apply room f operands e₁) = deeper room fun room => c.apply room f operands e₂ :=
    congrArg (deeper room) (funext fun room => h room f operands e₁ e₂)
  cases procedure with
  | control control =>
    cases control with
    | apply =>
      refine congrArg (Bind.bind _) (funext fun (f, operands) => congrArg (Bind.bind _) (funext fun operands => ?_))
      exact passedOn f operands
    | eval => rfl
    | callWithEscape =>
      refine congrArg (Bind.bind _) (funext fun f => congrArg (Bind.bind _) (funext fun k => ?_))
      rw [passedOn]
  | _ => rfl

theorem callInPlace : c.callInPlace room e₁ procedure args = c.callInPlace room e₂ procedure args := by
  cases procedure with
  | closure i parameters body home => rfl
  | _ => exact h room _ args e₁ e₂

end IgnoresCaller

end Calls

theorem calls_ignoreCaller (fuel : Nat) : (calls fuel).IgnoresCaller := by
  induction fuel with
  | zero => exact fun _ _ _ _ _ => rfl
  | succ fuel ih => exact ih.application

/-- What an application does with the values of its operands does not depend on its frame. -/
theorem Operands.go_ignoresCaller (vs : Operands) (fuel room : Nat) (e₁ e₂ : FrameId) :
    vs.go e₁ fuel room = vs.go e₂ fuel room := by
  rcases vs with (_ | ⟨procedure, args⟩) | v
  · rfl
  · exact (calls_ignoreCaller fuel).callInPlace room procedure args e₁ e₂
  · rfl

/-- Application does not depend on the caller's frame. From any state a procedure of any kind has the same outcome
and leaves the same state whichever frame it is applied in. Two applications in different frames, too, have the
same outcome and leave the same state if their operators and operands have come to the same. -/
theorem application_ignores_caller (fuel room : Nat) (e₁ e₂ : FrameId) :
    (∀ procedure args m,
      outcome (apply fuel room procedure args e₁) m = outcome (apply fuel room procedure args e₂) m) ∧
    ∀ i j head head' rest rest' m m' vs n,
      CoreKeyword.ofHead? head = none → CoreKeyword.ofHead? head' = none →
      outcome (operandValues (head :: rest) e₁ fuel room) m = (.ok vs, n) →
      outcome (operandValues (head' :: rest') e₂ fuel room) m' = (.ok vs, n) →
        outcome (evaluate (fuel + 1) room (.list i (head :: rest)) e₁) m =
          outcome (evaluate (fuel + 1) room (.list j (head' :: rest')) e₂) m' := by
  refine ⟨fun procedure args m => ?_, fun i j head head' rest rest' m m' vs n plain plain' done done' => ?_⟩
  · exact congrArg (outcome · m) (calls_ignoreCaller fuel room procedure args e₁ e₂)
  · calc outcome (evaluate (fuel + 1) room (.list i (head :: rest)) e₁) m
      _ = outcome (vs.go e₁ fuel room) n := by
        rw [evaluate_application plain, outcome_bind_of_ok done]
      _ = outcome (vs.go e₂ fuel room) n := by
        rw [vs.go_ignoresCaller fuel room e₁ e₂]
      _ = outcome (evaluate (fuel + 1) room (.list j (head' :: rest')) e₂) m' := by
        rw [evaluate_application plain', outcome_bind_of_ok done']

/-- A closure that uses a variable is called in two frames that each bind it anew. -/
theorem application_ignores_caller_shadowed :
    let frame (x : Int) (outer : Option FrameId) : Frame := ⟨[.ofName "x" (.int x)], outer⟩
    let m : Machine := { Machine.start .zeros with frames := ⟨#[frame 1 none, frame 2 (some 0), frame 3 (some 0)]⟩ }
    let p : Value := .closure 0 (.list 0 []) (.symbol "x") 0
    outcome (operandValues [p] 1 4 4) m = (.ok (.values [p]), m) ∧
    outcome (operandValues [p] 2 4 4) m = (.ok (.values [p]), m) ∧
    outcome (evaluate 5 4 (.list 0 [p]) 1) m = outcome (evaluate 5 4 (.list 0 [p]) 2) m ∧
    (outcome (evaluate 5 4 (.list 0 [p]) 2) m).1 = .ok (.int 1) ∧
    outcome (apply 4 4 (.control .apply) [p, .list 1 []] 1) m =
      outcome (apply 4 4 (.control .apply) [p, .list 1 []] 2) m := by
  intro frame m p
  obtain ⟨applied, evaluated⟩ := application_ignores_caller 4 4 1 2
  exact ⟨rfl, rfl, evaluated 0 0 p p [] [] m m (.values [p]) m rfl rfl rfl rfl, rfl, applied _ _ m⟩

end SmallLisp
