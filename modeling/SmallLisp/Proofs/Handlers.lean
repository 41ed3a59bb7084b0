import SmallLisp.Proofs.WellFormed
/-!
# Handlers on well-formed code

A handler of a core form fails with a fault of shape when its form has the wrong number of parts. On
well-formed nodes none does: every such failure comes from a part. With this the trees that the expander
may be relied on for are told apart from those that it builds by mistake.
-/
namespace SmallLisp

open Run

/-- The failures of a handler whose form has another shape than it takes for granted. -/
def Failure.IsShape : Failure → Prop
  | .listIndex => True
  | .shape _ => True
  | _ => False

/-- Every failure of a computation is one of these. -/
def Run.FailsOnly {α : Type} (P : Failure → Prop) (a : Run α) : Prop :=
  ∀ m f n, outcome a m = (.error (.failed f), n) → P f

namespace Run.FailsOnly

variable {α β : Type} {P : Failure → Prop}

theorem pure (x : α) : FailsOnly P (pure x) := by
  rintro m f n ⟨⟩

theorem fail {f : Failure} (h : P f) : FailsOnly P (Run.fail f : Run α) := by
  rintro m _ n ⟨⟩
  exact h

theorem bind {a : Run α} {k : α → Run β} (ha : FailsOnly P a) (hk : ∀ x, FailsOnly P (k x)) :
    FailsOnly P (a >>= k) := by
  intro m f n h
  rw [outcome_bind] at h
  cases ho : outcome a m with
  | mk r l =>
    rw [ho] at h
    cases r with
    | ok x => exact hk x l f n h
    | error e =>
      cases h
      exact ha m f _ ho

theorem ofModify (g : Machine → Machine) : FailsOnly P (modify g : Run PUnit) := by
  rintro m f n ⟨⟩

theorem get_bind {k : Machine → Run α} (hk : ∀ m, FailsOnly P (k m)) :
    FailsOnly P (get >>= k) := by
  intro m f n h
  exact hk m m f n h

theorem ofExcept {e : Except Failure α} (h : ∀ f, e = .error f → P f) :
    FailsOnly P (ofExcept e) := by
  cases e with
  | ok x => exact pure x
  | error f => exact fail (h f rfl)

end Run.FailsOnly

/-- A value without a text is nested too deep or holds a long integer. -/
theorem Value.text?_error {live : Nat → Bool} {room : Nat} {style : Style} {v : Value} {f : Failure}
    (h : v.text? live room style = .error f) : ¬ f.IsShape := by
  unfold text? at h
  split at h
  · cases h
    exact id
  · split at h
    · cases h
      exact id
    · cases h

theorem Value.bareText?_error {live : Nat → Bool} {room : Nat} {v : Value} {f : Failure}
    (h : v.bareText? live room = .error f) : ¬ f.IsShape := by
  cases v with
  | string s => cases h
  | symbol name => exact text?_error h
  | endOfText => exact text?_error h
  | _ => exact text?_error h

namespace Run

abbrev Shapely {α : Type} (a : Run α) : Prop := FailsOnly (fun f => ¬ f.IsShape) a

theorem bare_shapely (room : Nat) (v : Value) : Shapely (bare room v) :=
  .get_bind fun _ => .ofExcept fun _ h => Value.bareText?_error h

theorem define_shapely (room : Nat) (f : FrameId) (target v : Value) :
    Shapely (define room f target v) := by
  unfold define
  split
  · exact .ofModify _
  · exact .bind (bare_shapely room target) fun _ => .fail id

theorem find_shapely (room : Nat) (f : FrameId) (target : Value) :
    Shapely (find room f target) := by
  have key : Shapely (keyOf target) := by
    unfold keyOf
    split
    · exact .pure _
    · exact .fail id
  refine key.bind fun key => .get_bind fun m => ?_
  split
  · exact .pure _
  · exact .bind (bare_shapely room target) fun _ => .fail id

theorem assign_shapely (room : Nat) (f : FrameId) (target v : Value) :
    Shapely (assign room f target v) := by
  refine (find_shapely room f target).bind fun owner => .bind (.ofExcept fun f h => ?_) fun _ =>
    .ofModify _
  unfold Binding.ofTarget at h
  split at h
  · cases h
  · cases h
    exact id

end Run

namespace Form

variable {nested : Value → Run Value} {room : Nat} {frame : FrameId}

theorem sequence_shapely (hnested : ∀ e, Shapely (nested e)) (es : List Value) :
    Shapely (sequence nested frame es) := by
  induction es with
  | nil => exact .pure _
  | cons e es ih =>
    cases es with
    | nil => exact .pure _
    | cons e' es =>
      refine (hnested e).bind fun v => ?_
      split
      · exact .pure _
      · exact ih

/-- On a node of the right shape a handler fails only where a part of the node does. -/
theorem step_shapely (hnested : ∀ e, Shapely (nested e)) {k : CoreKeyword} {parts : List Value}
    (shape : hasCoreShape k parts = true) : Shapely (step nested room frame k parts) := by
  cases k with
  | quote =>
    cases parts with
    | nil => cases shape
    | cons v rest => exact .pure _
  | test =>
    rcases parts with _ | ⟨t, _ | ⟨c, _ | ⟨a, rest⟩⟩⟩
    · cases shape
    · cases shape
    · cases shape
    · refine (hnested t).bind fun v => ?_
      split
      · exact .pure _
      · split
        · exact .pure _
        · exact .pure _
  | assign =>
    rcases parts with _ | ⟨target, _ | ⟨e, _ | ⟨e', rest⟩⟩⟩
    · cases shape
    · cases shape
    · refine (hnested e).bind fun v => ?_
      split
      · exact .pure _
      · exact (assign_shapely room frame target v).bind fun _ => .pure _
    · cases shape
  | define =>
    rcases parts with _ | ⟨target, _ | ⟨e, _ | ⟨e', rest⟩⟩⟩
    · cases shape
    · cases shape
    · refine (hnested e).bind fun v => ?_
      split
      · exact .pure _
      · exact (define_shapely room frame target v).bind fun _ => .pure _
    · cases shape
  | lambda =>
    rcases parts with _ | ⟨parameters, _ | ⟨e, _ | ⟨e', rest⟩⟩⟩
    · cases shape
    · cases shape
    · rintro m f n ⟨⟩
    · cases shape
  | sequence => exact sequence_shapely hnested parts

end Form

/-- A tree that the expander gives is well-formed just when the careful expander gives it too; inside a
form one set of transformers counts; and no handler fails on the shape of a well-formed node. -/
theorem wellBuilt_iff_careful (fuel room : Nat) (form core : Value) (m n : Machine) :
    (∀ toplevel, (expand fuel room form toplevel).Ends m core n →
      (WellBuilt fuel room toplevel form m core n ↔
        (carefulExpand fuel room form toplevel).Ends m core n)) ∧
    ((expand fuel room form false).Ends m core n → n.transformers = m.transformers ∧
      (WellBuilt fuel room false form m core n ↔ IsCore m.transformers core)) ∧
    ∀ (registered : Bindings) (i : Nat) (k : CoreKeyword) (parts : List Value),
      IsCore registered (.list i (k.symbol :: parts)) → ∀ nested : Value → Run Value,
      (∀ e, Shapely (nested e)) → ∀ room frame, Shapely (Form.step nested room frame k parts) := by
  refine ⟨?_, ?_, ?_⟩
  · intro toplevel run
    rw [carefulAt fuel room toplevel form m core n]
    exact ⟨fun built => ⟨run, built⟩, fun both => both.2⟩
  · intro run
    have same := transformers_expand fuel room form m
    rw [show outcome (expand fuel room form false) m = (.ok core, n) from run] at same
    refine ⟨same, ?_⟩
    rw [WellBuilt.iff_isCore (by simp), same]
  · intro registered i k parts isCore nested hnested room frame
    exact Form.step_shapely hnested (IsCore.keyword_iff.mp isCore).2.1

/-- The expander accepts ``(`,if 1)`` and builds `(if 1)`, which is no core code: the careful expander refuses
it. -/
theorem wellBuilt_iff_careful_computed_keyword :
    (expand 4 4 (.list 0 [.list 1 [.symbol "quasiquote", .list 2 [.symbol "unquote", .symbol "if"]],
      .int 1]) false).Ends (Machine.start .zeros) (.list 0 [.symbol "if", .int 1]) ((Machine.start .zeros).made 1) ∧
    ¬ (carefulExpand 4 4 (.list 0 [.list 1 [.symbol "quasiquote", .list 2 [.symbol "unquote",
      .symbol "if"]], .int 1]) false).Ends (Machine.start .zeros) (.list 0 [.symbol "if", .int 1])
        ((Machine.start .zeros).made 1) := by
  have run : (expand 4 4 (.list 0 [.list 1 [.symbol "quasiquote", .list 2 [.symbol "unquote",
      .symbol "if"]], .int 1]) false).Ends (Machine.start .zeros) (.list 0 [.symbol "if", .int 1])
        ((Machine.start .zeros).made 1) := rfl
  obtain ⟨exactly, inside, _⟩ := wellBuilt_iff_careful 4 4 (.list 0 [.list 1 [.symbol "quasiquote",
    .list 2 [.symbol "unquote", .symbol "if"]], .int 1]) (.list 0 [.symbol "if", .int 1])
    (Machine.start .zeros) ((Machine.start .zeros).made 1)
  refine ⟨run, fun careful => ?_⟩
  have isCore := (inside run).2.mp ((exactly false run).mpr careful)
  obtain ⟨_, shape, _⟩ := (IsCore.keyword_iff (k := .test)).mp isCore
  cases shape

end SmallLisp
