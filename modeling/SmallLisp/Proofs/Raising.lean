import SmallLisp.Proofs.Escapes
/-!
# Escapes as exceptions

An escape runs through the evaluator as a value. Here the invocation of one continuation halts the run at
once instead, as an exception would, and nothing is done after it. Up to the call that owns the
continuation the two agree: where the one gives an escape, the other has halted, with the same value and
in the same state. So nothing of the extent is evaluated after the invocation.
-/
namespace SmallLisp

open Run

/-- The value that an escape takes to the owner of a continuation. -/
def Value.escapeTo? (k : Nat) : Value → Option Value
  | .escape k' v => if k' = k then some v else none
  | _ => none

def Operands.escapeTo? (k : Nat) : Operands → Option Value
  | .values _ => none
  | .escaped v => v.escapeTo? k

def Next.escapeTo? (k : Nat) : Next → Option Value
  | .done v => v.escapeTo? k
  | .tail .. => none

/-- The outcome with an escape raised. -/
def Outcome.raised {α : Type} (to? : α → Option Value) (h : Value → Halt) : Outcome α → Outcome α
  | (.ok x, m) =>
    match to? x with
    | some v => (.error (h v), m)
    | none => (.ok x, m)
  | o => o

theorem Outcome.raised_none {α : Type} (h : Value → Halt) (o : Outcome α) : o.raised (fun _ => none) h = o := by
  rcases o with ⟨_ | _, _⟩
  · rfl
  · rfl

/-- What is not raised: escapes to other owners, and what holds none. -/
def Value.raise (k : Nat) (h : Value → Halt) (v : Value) : Run Value :=
  match v.escapeTo? k with
  | some w => throw (h w)
  | none => return v

/-- An application that halts where the continuation is invoked. -/
def Calls.raisingApplication (k : Nat) (h : Value → Halt) (c : Calls) (room : Nat)
    (procedure : Value) (args : List Value) (caller : FrameId) : Run Value :=
  match procedure with
  | .continuation k' => do (← invoke k' args).raise k h
  | _ => c.application room procedure args caller

/-- The operations when the invocation of a continuation halts the run. -/
def raisingCalls (k : Nat) (h : Value → Halt) (fuel : Nat) : Calls :=
  Calls.iterate (fun c => ⟨c.evaluation, c.raisingApplication k h, c.expansion⟩) fuel

/-- The second computation halts where the first gives an escape; they agree otherwise, unless the first is
stopped. -/
def Run.Tracks {α : Type} (k : Nat) (h : Value → Halt) (to? : α → Option Value) (a b : Run α) : Prop :=
  ∀ m, escapeFree.Holds m → k < m.continuations.size →
    Stopped Slack.none.Early (outcome a m) ∨ outcome b m = Outcome.raised to? h (outcome a m)

namespace Value

variable {k : Nat} {v : Value}

theorem escapeTo?_of_not_isEscape (h : v.isEscape = false) : v.escapeTo? k = none := by
  cases v with
  | escape k' w => cases h
  | _ => rfl

theorem escapeTo?_eq_some {w : Value} : v.escapeTo? k = some w ↔ v = .escape k w := by
  cases v with
  | escape k' w' =>
    unfold escapeTo?
    by_cases same : k' = k
    · simp [same]
    · simp [same]
  | _ => simp [escapeTo?]

theorem received_of_not_isEscape (h : v.isEscape = false) : v.received k = v := by
  cases v with
  | escape k' w => cases h
  | _ => rfl

theorem received_self (k : Nat) (v : Value) : (escape k v).received k = v := by
  simp [received]

theorem received_of_ne {j : Nat} (other : j ≠ k) (v : Value) :
    (escape j v).received k = escape j v := by
  simp [received, other]

end Value

/-- The call that owns a continuation makes no escape to another. -/
theorem Discipline.Final.escapeTo?_received {k : Nat} {v : Value} {m : Machine}
    (h : escapeFree.Final v m) (j : Nat) (missing : v.escapeTo? k = none) :
    (v.received j).escapeTo? k = none := by
  rcases h with good | ⟨i, w, rfl, good, _⟩
  · rw [Value.received_of_not_isEscape (Value.isEscape_eq_false good)]
    exact missing
  · by_cases own : i = j
    · rw [own, Value.received_self]
      exact Value.escapeTo?_of_not_isEscape (Value.isEscape_eq_false good)
    · rw [Value.received_of_ne own]
      exact missing

namespace Run.Tracks

variable {α β : Type} {k : Nat} {h : Value → Halt} {to? : α → Option Value}
  {toNext? : β → Option Value} {a b : Run α}

/-- The same computation, when it gives nothing that holds an escape. -/
theorem same {P : α → Prop} (ha : escapeFree.Meets a fun x _ => P x)
    (hP : ∀ x, P x → to? x = none) : Tracks k h to? a a := by
  intro m holds _
  obtain ⟨_, _, good⟩ := ha m holds
  refine Or.inr ?_
  cases ho : outcome a m with
  | mk r n =>
    cases r with
    | error e => rfl
    | ok x => simp [Outcome.raised, hP x (good x n ho)]

theorem pure {x : α} (hx : to? x = none) : Tracks k h to? (pure x) (pure x) :=
  same (P := fun y => y = x) (.pure rfl) fun _ hy => hy ▸ hx

theorem fail (f : Failure) : Tracks k h to? (Run.fail f : Run α) (Run.fail f) :=
  fun _ _ _ => Or.inr rfl

theorem throw (e : Halt) : Tracks k h to? (throw e : Run α) (throw e) :=
  fun _ _ _ => Or.inr rfl

theorem bind_at {ka kb : α → Run β} {Q : α → Machine → Prop} (hab : Tracks k h to? a b)
    (ha : escapeFree.Meets a Q)
    (hsome : ∀ x v, to? x = some v → ∃ y, ka x = Pure.pure y ∧ toNext? y = some v)
    (hnone : ∀ x n, Q x n → to? x = none → Tracks k h toNext? (ka x) (kb x)) :
    Tracks k h toNext? (a >>= ka) (b >>= kb) := by
  intro m holds opened
  obtain ⟨moves, holds', good⟩ := ha m holds
  rw [outcome_bind, outcome_bind]
  rcases hab m holds opened with ⟨e, n, stopped, early⟩ | run
  · rw [stopped]
    exact Or.inl ⟨e, n, rfl, early⟩
  · rw [run]
    cases ho : outcome a m with
    | mk r n =>
      rw [ho] at moves holds'
      cases r with
      | error e => exact Or.inr rfl
      | ok x =>
        cases escaped : to? x with
        | some v =>
          obtain ⟨y, done, lands⟩ := hsome x v escaped
          exact Or.inr (by simp only [Outcome.raised, escaped, done, outcome_pure, lands])
        | none =>
          simp only [Outcome.raised, escaped]
          exact hnone x n (good x n ho) escaped n holds' (Nat.lt_of_lt_of_le opened moves.2)

/-- The same beginning, when it gives nothing that holds an escape. -/
theorem bind {P : α → Prop} {ka kb : α → Run β} (ha : escapeFree.Meets a fun x _ => P x)
    (hk : ∀ x, P x → Tracks k h toNext? (ka x) (kb x)) :
    Tracks k h toNext? (a >>= ka) (a >>= kb) :=
  bind_at (same ha fun _ _ => rfl) ha (by simp) fun x _ hx _ => hk x hx

theorem deeper {room : Nat} {go go' : Nat → Run α} (hgo : ∀ r, Tracks k h to? (go r) (go' r)) :
    Tracks k h to? (Run.deeper room go) (Run.deeper room go') := by
  cases room with
  | zero => exact fail _
  | succ room => exact hgo room

/-- A part of a form. -/
theorem part {a b : Run Value} {stop : Value → β} {go go' : Value → Run β}
    (hab : Tracks k h (Value.escapeTo? k) a b) (ha : escapeFree.Meets a escapeFree.Final)
    (hstop : ∀ v, toNext? (stop v) = v.escapeTo? k)
    (hgo : ∀ v, escapeFree.Good v → Tracks k h toNext? (go v) (go' v)) :
    Tracks k h toNext? (a >>= fun v => if v.isEscape then Pure.pure (stop v) else go v)
      (b >>= fun v => if v.isEscape then Pure.pure (stop v) else go' v) := by
  refine bind_at hab ha ?_ ?_
  · intro v w escaped
    obtain rfl := Value.escapeTo?_eq_some.mp escaped
    exact ⟨stop (.escape k w), rfl, by rw [hstop, escaped]⟩
  · intro v n final missing
    cases here : v.isEscape with
    | true => exact pure (by rw [hstop, missing])
    | false => exact hgo v (final.good here)

end Run.Tracks

namespace Form

theorem lambda_tracks {k : Nat} {h : Value → Halt} {frame : FrameId} {parts : List Value}
    (hparts : ∀ e ∈ parts, escapeFree.Good e) :
    Tracks k h (Next.escapeTo? k) (lambda frame parts) (lambda frame parts) := by
  cases parts with
  | nil => exact .fail _
  | cons parameters forms =>
    have later : ∀ e ∈ forms, escapeFree.Good e := fun e he => hparts e (by simp [he])
    refine .bind (.of_gives (escapeFree.hereditary.body_gives later)) fun form _ => ?_
    exact .bind (.of_gives newObject_gives) fun i _ => .pure rfl

variable {k : Nat} {h : Value → Halt} {nested nested' : Value → Run Value} {room : Nat}
  {frame : FrameId}
  (meets : ∀ e, escapeFree.Good e → escapeFree.Meets (nested e) escapeFree.Final)
  (tracks : ∀ e, escapeFree.Good e → Tracks k h (Value.escapeTo? k) (nested e) (nested' e))
include meets tracks

theorem operands_tracks {es : List Value} (hes : ∀ e ∈ es, escapeFree.Good e) :
    Tracks k h (Operands.escapeTo? k) (operands nested es) (operands nested' es) := by
  induction es with
  | nil => exact .pure rfl
  | cons e es ih =>
    have later : ∀ e ∈ es, escapeFree.Good e := fun e he => hes e (by simp [he])
    refine .part (tracks e (hes e (by simp))) (meets e (hes e (by simp))) (fun _ => rfl)
      fun v _ => ?_
    refine .bind_at (ih later) (operands_meets meets later) ?_ ?_
    · intro vs w escaped
      cases vs with
      | values vs => cases escaped
      | escaped v => exact ⟨.escaped v, rfl, escaped⟩
    · intro vs n _ missing
      cases vs with
      | values vs => exact .pure rfl
      | escaped v => exact .pure missing

theorem sequence_tracks {es : List Value} (hes : ∀ e ∈ es, escapeFree.Good e) :
    Tracks k h (Next.escapeTo? k) (sequence nested frame es) (sequence nested' frame es) := by
  induction es with
  | nil => exact .pure rfl
  | cons e es ih =>
    cases es with
    | nil => exact .pure rfl
    | cons e' es =>
      refine .part (tracks e (hes e (by simp))) (meets e (hes e (by simp))) (fun _ => rfl)
        fun v _ => ?_
      exact ih fun e he => hes e (by simp [he])

theorem test_tracks {parts : List Value} (hparts : ∀ e ∈ parts, escapeFree.Good e) :
    Tracks k h (Next.escapeTo? k) (test nested frame parts) (test nested' frame parts) := by
  cases parts with
  | nil => exact .fail _
  | cons condition branches =>
    have first := hparts condition (by simp)
    refine .part (tracks _ first) (meets _ first) (fun _ => rfl) fun v _ => ?_
    split
    · split
      · exact .pure rfl
      · exact .pure rfl
    · split
      · exact .pure rfl
      · exact .fail _

theorem define_tracks {parts : List Value} (hparts : ∀ e ∈ parts, escapeFree.Good e) :
    Tracks k h (Next.escapeTo? k) (define nested room frame parts)
      (define nested' room frame parts) := by
  refine .bind (bindingParts_meets hparts) fun (target, e) he => ?_
  refine .part (tracks e he) (meets e he) (fun _ => rfl) fun v hv => ?_
  refine .bind (Discipline.define_meets frame target hv) fun _ _ => .pure ?_
  exact Value.escapeTo?_of_not_isEscape (Value.isEscape_eq_false hv)

theorem assign_tracks {parts : List Value} (hparts : ∀ e ∈ parts, escapeFree.Good e) :
    Tracks k h (Next.escapeTo? k) (assign nested room frame parts)
      (assign nested' room frame parts) := by
  refine .bind (bindingParts_meets hparts) fun (target, e) he => ?_
  refine .part (tracks e he) (meets e he) (fun _ => rfl) fun v hv => ?_
  exact .bind (Discipline.assign_meets frame target hv) fun _ _ => .pure rfl

theorem step_tracks (keyword : CoreKeyword) {parts : List Value}
    (hparts : ∀ e ∈ parts, escapeFree.Good e) :
    Tracks k h (Next.escapeTo? k) (step nested room frame keyword parts)
      (step nested' room frame keyword parts) := by
  cases keyword with
  | quote =>
    cases parts with
    | nil => exact .fail _
    | cons v rest =>
      refine .pure (Value.escapeTo?_of_not_isEscape (Value.isEscape_eq_false ?_))
      exact hparts v (by simp)
  | test => exact test_tracks meets tracks hparts
  | assign => exact assign_tracks meets tracks hparts
  | define => exact define_tracks meets tracks hparts
  | lambda => exact lambda_tracks hparts
  | sequence => exact sequence_tracks meets tracks hparts

theorem evaluateBy_tracks {tail tail' : Value → FrameId → Run Value}
    {call call' : Value → List Value → Run Value}
    (htail : ∀ e f, escapeFree.Good e → Tracks k h (Value.escapeTo? k) (tail e f) (tail' e f))
    (hcall : ∀ p args, escapeFree.Good p → (∀ v ∈ args, escapeFree.Good v) →
      Tracks k h (Value.escapeTo? k) (call p args) (call' p args))
    {form : Value} (hform : escapeFree.Good form) :
    Tracks k h (Value.escapeTo? k) (evaluateBy nested tail call room frame form)
      (evaluateBy nested' tail' call' room frame form) := by
  have missing (v : Value) (hv : escapeFree.Good v) : v.escapeTo? k = none :=
    Value.escapeTo?_of_not_isEscape (Value.isEscape_eq_false hv)
  unfold evaluateBy
  split
  · exact .same (Discipline.lookup_meets frame _) missing
  · exact .fail _
  · rename_i i head rest
    have items := escapeFree.hereditary.list.mp hform
    split
    · have later : ∀ e ∈ rest, escapeFree.Good e := fun e he => items e (by simp [he])
      refine .bind_at (step_tracks meets tracks _ later) (step_meets meets _ later) ?_ ?_
      · intro next w escaped
        cases next with
        | done v => exact ⟨v, rfl, escaped⟩
        | tail form frame => cases escaped
      · intro next n respects stays
        cases next with
        | done v => exact .pure stays
        | tail form frame => exact htail form frame respects.1
    · refine .bind_at (operands_tracks meets tracks items) (operands_meets meets items) ?_ ?_
      · intro vs w escaped
        cases vs with
        | values vs => cases escaped
        | escaped v => exact ⟨v, rfl, escaped⟩
      · intro vs n respects stays
        rcases vs with (_ | ⟨procedure, args⟩) | v
        · exact .fail _
        · exact hcall procedure args (respects _ (by simp)) fun v hv => respects v (by simp [hv])
        · exact .pure stays
  · exact .pure (missing _ hform)

end Form

namespace Run.Tracks

variable {k : Nat} {h : Value → Halt}

/-- Raising what a computation gives. -/
theorem raise (a : Run Value) :
    Tracks k h (Value.escapeTo? k) a (a >>= fun v => v.raise k h) := by
  intro m _ _
  refine Or.inr ?_
  rw [outcome_bind]
  rcases outcome a m with ⟨e | v, n⟩
  · rfl
  · cases escaped : v.escapeTo? k with
    | some w => simp [Value.raise, Outcome.raised, escaped]
    | none => simp [Value.raise, Outcome.raised, escaped]

/-- A call that owns another continuation hands on an escape that is not for it. -/
theorem owner {go go' : Nat → Run Value}
    (hgo : ∀ j, Tracks k h (Value.escapeTo? k) (go j) (go' j))
    (meets : ∀ j, escapeFree.Meets (go j) escapeFree.Final) :
    Tracks k h (Value.escapeTo? k)
      (do
        let j ← openContinuation
        let v ← spending j (go j)
        return v.received j)
      (do
        let j ← openContinuation
        let v ← spending j (go' j)
        return v.received j) := by
  intro m holds opened
  have inside := holds.continuations (m.continuations.push true)
  have stays : k < (m.continuations.push true).size := by rw [Array.size_push]; omega
  obtain ⟨_, _, final⟩ := meets m.continuations.size _ inside
  rw [outcome_bind_of_ok (outcome_openContinuation m),
    outcome_bind_of_ok (outcome_openContinuation m), outcome_bind, outcome_bind, outcome_spending,
    outcome_spending]
  rcases hgo m.continuations.size _ inside stays with ⟨e, n, stopped, early⟩ | run
  · rw [stopped]
    exact Or.inl ⟨e, _, rfl, early⟩
  · rw [run]
    refine Or.inr ?_
    cases ho : outcome (go m.continuations.size)
        { m with continuations := m.continuations.push true } with
    | mk r n =>
      cases r with
      | error e => rfl
      | ok v =>
        cases escaped : v.escapeTo? k with
        | some w =>
          obtain rfl := Value.escapeTo?_eq_some.mp escaped
          have other : k ≠ m.continuations.size := by omega
          simp only [Outcome.raised, escaped, outcome_pure, Value.received_of_ne other]
        | none =>
          have stays := (final v n ho).escapeTo?_received m.continuations.size escaped
          simp only [Outcome.raised, escaped, outcome_pure, stays]

/-- Where no escape comes out, a run that tracks another follows it, as long as the continuation is there. Inside a
form no transformer is made. -/
def following (k : Nat) : Regime Unit :=
  escapeFree.following (fun m => k < m.continuations.size) Slack.none.Early False
    (fun moves opened => Nat.lt_of_lt_of_le opened moves.2) nofun

theorem follows {α : Type} {a b : Run α} {m : Machine} {Q : Machine → α → Prop}
    (tracks : Tracks k h (fun _ => none) a b) (judged : escapeFree.judgement.Holds m a Q) :
    (following k).Beside m (fun _ => b) a Q := by
  refine ⟨judged, fun holds opened => ?_⟩
  rcases tracks m holds opened with stopped | same
  · exact Or.inl stopped
  · exact Or.inr (same.trans (Outcome.raised_none h _))

end Run.Tracks

namespace Calls

open Discipline

/-- On good input the operations halt where the first give an escape. Nothing in code holds one. -/
structure Tracks (k : Nat) (h : Value → Halt) (c c' : Calls) : Prop where
  evaluate : ∀ room frame {form}, escapeFree.Good form →
    Run.Tracks k h (Value.escapeTo? k) (c.evaluate room form frame) (c'.evaluate room form frame)
  apply : ∀ room caller {procedure args}, escapeFree.Good procedure →
    (∀ v ∈ args, escapeFree.Good v) →
    Run.Tracks k h (Value.escapeTo? k) (c.apply room procedure args caller)
      (c'.apply room procedure args caller)
  expand : ∀ room {form}, escapeFree.Good form →
    Run.Tracks k h (fun _ => none) (c.expand room form false) (c'.expand room form false)

namespace Tracks

variable {k : Nat} {h : Value → Halt} {c c' : Calls} {room : Nat}

theorem callInPlace (tracks : Tracks k h c c') (caller : FrameId) {procedure : Value}
    {args : List Value} (hprocedure : escapeFree.Good procedure)
    (hargs : ∀ v ∈ args, escapeFree.Good v) :
    Run.Tracks k h (Value.escapeTo? k) (c.callInPlace room caller procedure args)
      (c'.callInPlace room caller procedure args) := by
  unfold Calls.callInPlace
  split
  · refine .bind (newFrame_meets _ hargs _) fun inside _ => ?_
    exact tracks.evaluate _ _ (escapeFree.closure.mp hprocedure).2
  · exact tracks.apply _ _ hprocedure hargs

theorem evaluation (tracks : Tracks k h c c') (respects : Respects escapeFree c) (frame : FrameId)
    {form : Value} (hform : escapeFree.Good form) :
    Run.Tracks k h (Value.escapeTo? k) (c.evaluation room form frame)
      (c'.evaluation room form frame) :=
  Form.evaluateBy_tracks (fun _ he => .deeper fun r => respects.evaluate r frame he)
    (fun _ he => .deeper fun r => tracks.evaluate r frame he)
    (fun _ f he => tracks.evaluate room f he)
    (fun _ _ hp hargs => tracks.callInPlace frame hp hargs) hform

theorem application (tracks : Tracks k h c c') (respects : Respects escapeFree c)
    (caller : FrameId) {procedure : Value} {args : List Value}
    (hprocedure : escapeFree.Good procedure) (hargs : ∀ v ∈ args, escapeFree.Good v) :
    Run.Tracks k h (Value.escapeTo? k) (c.application room procedure args caller)
      (c'.raisingApplication k h room procedure args caller) := by
  unfold Calls.raisingApplication
  split
  · exact .raise _
  · unfold Calls.application
    split
    · refine .bind (newFrame_meets _ hargs _) fun inside _ => .deeper fun r => ?_
      exact tracks.evaluate _ _ (escapeFree.closure.mp hprocedure).2
    · rename_i k' other
      exact absurd rfl (other k')
    · refine .bind (.of_gives (escapeFree.hereditary.twoOperands_gives _ hargs)) fun (f, operands) hf => ?_
      refine .bind (.of_gives (escapeFree.hereditary.listOperand_gives room _ hf.2)) fun vs hvs => ?_
      exact .deeper fun r => tracks.apply r caller hf.1 hvs
    · refine .bind (.of_gives (escapeFree.hereditary.oneOperand_gives _ hargs)) fun form hform => ?_
      refine .bind_at (.deeper fun r => tracks.expand r hform)
        (.deeper fun r => respects.expand r (by simp) hform) (by simp) fun core n hcore _ => ?_
      exact .deeper fun r => tracks.evaluate r _ hcore
    · refine .bind (.of_gives (escapeFree.hereditary.oneOperand_gives _ hargs)) fun f hf => ?_
      have argument (j : Nat) : ∀ v ∈ [Value.continuation j], escapeFree.Good v := by
        intro v hv
        obtain rfl := List.mem_singleton.mp hv
        exact escapeFree.continuation j
      exact .owner (fun j => .deeper fun r => tracks.apply r caller hf (argument j))
        fun j => .deeper fun r => respects.apply r caller hf (argument j)
    · refine .same (Meets.of_gives (Primitive.run_gives escapeFree.hereditary _ room hargs))
        fun v hv => ?_
      exact Value.escapeTo?_of_not_isEscape (Value.isEscape_eq_false hv)
    · exact .bind (.of_gives (source_gives room _)) fun _ _ => .fail _

/-- A guarded application gives no escape, raised or not. -/
theorem guarded_apply (tracks : Tracks k h c c') (room : Nat) (caller : FrameId)
    {procedure : Value} {args : List Value} (hprocedure : escapeFree.Good procedure)
    (hargs : ∀ v ∈ args, escapeFree.Good v) :
    Run.Tracks k h (fun _ => none) (c.guarded.apply room procedure args caller)
      (c'.apply room procedure args caller) := by
  intro m holds opened
  have run : outcome (c.guarded.apply room procedure args caller) m = _ := outcome_bind _ _ _
  rw [run]
  rcases tracks.apply room caller hprocedure hargs m holds opened with ⟨e, n, stopped, early⟩ | same
  · rw [stopped]
    exact Or.inl ⟨e, n, rfl, early⟩
  · rw [same]
    rcases outcome (c.apply room procedure args caller) m with ⟨e | v, n⟩
    · exact Or.inr rfl
    · cases here : v.isEscape with
      | true => exact Or.inl ⟨_, n, by simp [here], rfl⟩
      | false =>
        refine Or.inr ?_
        simp [Outcome.raised, here, Value.escapeTo?_of_not_isEscape here]

theorem halted : Tracks k h Calls.halted Calls.halted :=
  ⟨fun _ _ _ _ => .throw _, fun _ _ _ _ _ _ => .throw _, fun _ _ _ => .throw _⟩

/-- What a guarded transformer gives holds no escape, so nothing is raised in an expansion. -/
theorem expands (tracks : Tracks k h c c') (respects : Respects escapeFree c) :
    Expands (Run.Tracks.following k) (fun _ => c') c.guarded where
  expand {_ _ toplevel} room inside hform := by
    cases toplevel with
    | true => exact (inside rfl).elim
    | false => exact (tracks.expand room hform).follows (respects.guarded.expand room nofun hform)
  transform room ht hargs := (tracks.guarded_apply room _ ht hargs).follows (respects.guarded.transform room ht hargs)
  evaluate _ inside := inside.elim

end Tracks

/-- A guarded run and the run in which the invocation halts. -/
theorem guardedCalls_tracks (k : Nat) (h : Value → Halt) (fuel : Nat) :
    Tracks k h (guardedCalls fuel) (raisingCalls k h fuel) := by
  induction fuel with
  | zero => exact Tracks.halted
  | succ fuel ih =>
    have respects := guardedCalls_respects fuel
    refine ⟨?_, ?_, ?_⟩
    · exact fun room frame _ hform => ih.evaluation respects frame hform
    · exact fun room caller _ _ hp hargs => ih.application respects caller hp hargs
    · intro room form hform m holds opened
      have beside : (Run.Tracks.following k).Beside m (fun _ => (raisingCalls k h fuel).expansion room form false)
          ((guardedCalls fuel).guarded.expansion room form false) fun _ => escapeFree.Good :=
        (ih.expands respects).expansion nofun hform
      rcases beside.2 holds opened with stopped | same
      · exact Or.inl stopped
      · exact Or.inr (same.trans (Outcome.raised_none h _).symm)

end Calls

/-- What the call that owns a continuation makes of an invocation. -/
theorem Outcome.raised_eq_error {k : Nat} {o : Outcome Value} {v : Value} {m : Machine}
    (all : ∀ h, o.raised (Value.escapeTo? k) h = (.error (h v), m)) :
    o = (.ok (.escape k v), m) := by
  rcases o with ⟨e | w, n⟩
  · have steps := all fun _ => .outOfSteps
    have deep := all fun _ => .failed .tooDeep
    simp only [raised, Prod.mk.injEq, Except.error.injEq] at steps deep
    rw [steps.1] at deep
    cases deep.1
  · cases escaped : w.escapeTo? k with
    | none =>
      have ended := all fun _ => .outOfSteps
      simp [raised, escaped] at ended
    | some x =>
      obtain rfl := Value.escapeTo?_eq_some.mp escaped
      -- a halt that tells the two values apart
      have told := all fun y => open Classical in if y = v then .outOfSteps else .failed .tooDeep
      simp only [raised, escaped, Prod.mk.injEq, Except.error.injEq, if_true] at told
      obtain ⟨same, rfl⟩ := told
      split at same
      · rename_i eq
        rw [eq]
      · cases same

/-- The state in which the body of a call with a continuation runs. -/
def Machine.opened (m : Machine) : Machine :=
  { m with continuations := m.continuations.push true }

/-- The state after that call. -/
def Machine.spent (m : Machine) (k : Nat) : Machine :=
  { m with continuations := m.continuations.setIfInBounds k false }

/-- When the invocation of its continuation is the last that the body of a call does, the call gives the
value. Nothing after the invocation has run: the state is the one in which it halted. -/
theorem owner_receives {fuel room : Nat} {f v : Value} {caller : FrameId} {m n : Machine}
    (holds : escapeFree.Holds m) (hf : escapeFree.Good f)
    (invoked : ∀ h, outcome (deeper room fun room =>
      (raisingCalls m.continuations.size h fuel).apply room f [.continuation m.continuations.size]
        caller) m.opened = (.error (h v), n)) :
    Stopped Slack.none.Early
        (outcome ((guardedCalls (fuel + 1)).apply room (.control .callWithEscape) [f] caller) m) ∨
      outcome (apply (fuel + 1) room (.control .callWithEscape) [f] caller) m =
        (.ok v, n.spent m.continuations.size) := by
  have approximates := (guardedCalls_approximates (fuel + 1)).apply (Slack.Fits.refl room)
    (.control .callWithEscape) [f] caller m
  rcases approximates with stopped | same
  · exact Or.inl stopped
  · have call : outcome ((guardedCalls (fuel + 1)).apply room (.control .callWithEscape) [f] caller) m =
        outcome (do
          let v ← spending m.continuations.size (deeper room fun room =>
            (guardedCalls fuel).apply room f [.continuation m.continuations.size] caller)
          return v.received m.continuations.size) m.opened := rfl
    have argument : ∀ w ∈ [Value.continuation m.continuations.size], escapeFree.Good w := by
      intro w hw
      obtain rfl := List.mem_singleton.mp hw
      exact escapeFree.continuation _
    have tracks (h : Value → Halt) :
        Run.Tracks m.continuations.size h (Value.escapeTo? m.continuations.size)
          (deeper room fun room =>
            (guardedCalls fuel).apply room f [.continuation m.continuations.size] caller)
          (deeper room fun room => (raisingCalls m.continuations.size h fuel).apply room f
            [.continuation m.continuations.size] caller) :=
      .deeper fun r => (Calls.guardedCalls_tracks _ h fuel).apply r caller hf argument
    have opened : m.continuations.size < m.opened.continuations.size := by simp [Machine.opened]
    rw [call, outcome_bind, outcome_spending]
    by_cases stopped : Stopped Slack.none.Early (outcome (deeper room fun room =>
        (guardedCalls fuel).apply room f [.continuation m.continuations.size] caller) m.opened)
    · obtain ⟨e, n', ends, early⟩ := stopped
      rw [ends]
      exact Or.inl ⟨e, _, rfl, early⟩
    · refine Or.inr ?_
      have body := Outcome.raised_eq_error fun h => by
        rcases tracks h m.opened (holds.continuations _) opened with early | run
        · exact absurd early stopped
        · exact run.symm.trans (invoked h)
      have real : outcome (apply (fuel + 1) room (.control .callWithEscape) [f] caller) m = _ :=
        same.symm
      rw [real, call, outcome_bind, outcome_spending, body]
      simp only [outcome_pure, Value.received_self]
      rfl

end SmallLisp
