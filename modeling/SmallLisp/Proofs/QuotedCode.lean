import SmallLisp.Proofs.Application
import SmallLisp.Proofs.MacroFree
import SmallLisp.Proofs.MisplacedDefinitions
/-!
# Evaluating quoted code

`eval` expands its operand inside a form and evaluates the core form in the root frame. A form that defines
no transformer of its own is expanded there as at the top level. So `(eval 'd)` comes to the same as `d`, but
for the one list that its own expansion makes.
-/
namespace SmallLisp

open Run Value

variable {α β : Type} {m n : Machine}

/-! ## Expansion at the top level and inside a form -/

/-- A form without a definition of a transformer in its nest of sequences. -/
def Form.DefinesNoTransformer (form : Value) : Prop :=
  ∀ part ∈ Form.topForms form, Form.isTransformerDefinition part = false

instance (form : Value) : Decidable (Form.DefinesNoTransformer form) :=
  inferInstanceAs (Decidable (∀ part ∈ Form.topForms form, Form.isTransformerDefinition part = false))

namespace Form.DefinesNoTransformer

variable {i : Nat} {e form : Value} {es : List Value}

theorem of_sequence (h : DefinesNoTransformer (.list i (.symbol "begin" :: e :: es))) :
    ∀ part ∈ e :: es, DefinesNoTransformer part := by
  intro part mem definition inside
  refine h definition ?_
  rw [topForms_sequence]
  exact mem_allTopForms.mpr ⟨part, mem, inside⟩

theorem not_transformerDefinition (h : DefinesNoTransformer form)
    (notSequence : ∀ i e es, form ≠ .list i (.symbol "begin" :: e :: es)) :
    isTransformerDefinition form = false := by
  refine h form ?_
  rw [topForms_of_notSequence notSequence]
  exact List.mem_singleton.mpr rfl

theorem symbol (name : String) : DefinesNoTransformer (.symbol name) := by
  intro part mem
  obtain rfl := List.mem_singleton.mp mem
  rfl

/-- A definition of a variable. -/
theorem definition (i : Nat) (parts : List Value) :
    DefinesNoTransformer (.list i (.symbol "define" :: parts)) := by
  intro part mem
  rw [topForms_of_notSequence (by simp)] at mem
  obtain rfl := List.mem_singleton.mp mem
  rfl

end Form.DefinesNoTransformer

/-- A definition of a variable hands the top level on to its plain form and makes no other use of it. -/
theorem Calls.definition_toplevel {c : Calls} {room : Nat} {form : Value} {rest : List Value}
    (plain : ∀ r i target closure,
      c.expand r (.list i [.symbol "define", target, closure]) true =
        c.expand r (.list i [.symbol "define", target, closure]) false) :
    c.definition room form (.symbol "define") rest true =
      c.definition room form (.symbol "define") rest false := by
  unfold Calls.definition
  dsimp only
  split
  · rfl
  · refine congrArg (Bind.bind _) (funext fun _ => congrArg (Bind.bind _) (funext fun parameters => ?_))
    refine congrArg (Bind.bind _) (funext fun closure => Run.ext fun m => ?_)
    refine outcome_bind_congr rfl fun v n made => ?_
    obtain ⟨rfl, _⟩ := ends_newList.mp made
    exact congrArg (outcome · n) (congrArg (deeper room) (funext fun r => plain r _ _ _))
  · rfl
  · rfl
  · rfl

/-- What defines no transformer is expanded in the same way at the top level and inside a form. -/
theorem expand_toplevel (fuel room : Nat) {form : Value} (h : Form.DefinesNoTransformer form) :
    expand fuel room form true = expand fuel room form false := by
  induction fuel generalizing room form with
  | zero => rfl
  | succ fuel ih =>
    change (calls fuel).expansion room form true = (calls fuel).expansion room form false
    by_cases sequence : ∃ i e es, form = .list i (.symbol "begin" :: e :: es)
    · obtain ⟨i, e, es, rfl⟩ := sequence
      have parts : ∀ part ∈ Value.symbol "begin" :: e :: es,
          (calls fuel).expandPart room true part = (calls fuel).expandPart room false part := by
        intro part mem
        refine congrArg (deeper room) (funext fun r => ih r ?_)
        rcases List.mem_cons.mp mem with rfl | mem
        · exact .symbol "begin"
        · exact h.of_sequence part mem
      refine congrArg (· >>= newList) (Run.ext fun m => ?_)
      exact outcome_mapM_congr fun before part after _ n split _ =>
        congrArg (outcome · n) (parts part (split ▸ by simp))
    · have notSequence : ∀ i e es, form ≠ .list i (.symbol "begin" :: e :: es) :=
        fun i e es same => sequence ⟨i, e, es, same⟩
      by_cases definition : ∃ i rest, form = .list i (.symbol "define" :: rest)
      · obtain ⟨i, rest, rfl⟩ := definition
        exact Calls.definition_toplevel fun r i target closure =>
          ih r (.definition i [target, closure])
      · by_cases empty : ∃ i, form = .list i [.symbol "begin"]
        · obtain ⟨i, rfl⟩ := empty
          rfl
        · refine Calls.expansion_toplevel _ _ _ fun i head rest same k keyword => ?_
          obtain rfl := Keyword.eq_of_ofHead? keyword
          subst same
          refine ⟨?_, ?_, ?_⟩
          · rintro rfl
            exact definition ⟨i, rest, rfl⟩
          · rintro rfl
            cases rest with
            | nil => exact empty ⟨i, rfl⟩
            | cons e es => exact sequence ⟨i, e, es, rfl⟩
          · rintro rfl
            cases h.not_transformerDefinition notSequence


/-! ## A form at the top level -/

/-- Hands a value on, unless it is an escape, which must have ended below the top level. -/
def Run.returned (v : Value) : Run Value := do
  if v.isEscape then fail .escapedSession
  return v

/-- A form of a text is expanded as at the top level and evaluated in the root frame. -/
def topLevel (form : Value) (fuel room : Nat) : Run Value := do
  let core ← expand fuel room form true
  returned (← evaluate fuel room core Machine.root)

theorem Session.run_bind (a : Run α) (k : α → Run β) :
    Session.run (a >>= k) = Session.run a >>= fun x => Session.run (k x) := by
  refine Run.ext fun s => ?_
  rw [Session.outcome_run, outcome_bind, outcome_bind, Session.outcome_run]
  rcases outcome a s.machine with ⟨h | x, n⟩
  · rfl
  · rfl

theorem Session.evalForm_eq (limits : Limits) (form : Value) :
    Session.evalForm (Session.evaluate limits) limits form =
      Session.run (topLevel form limits.steps limits.nesting) := by
  have returns (v : Value) : Session.run (returned v) =
      (do
        if v.isEscape then Session.fail .escapedSession
        return v) := by
    unfold returned
    cases v.isEscape <;> rfl
  unfold topLevel Session.evalForm Session.evaluate
  simp only [Session.run_bind, returns]
  rfl

theorem improving_expand_evaluate (form : Value) (frame : FrameId) :
    Improving fun fuel room => expand fuel room form false >>= fun core => evaluate fuel room core frame :=
  fun hf hr => .bind (improving_expand form false hf hr) fun core => improving_evaluate core frame hf hr

theorem improving_returned {first : (fuel room : Nat) → Run Value} (improving : Improving first) :
    Improving fun fuel room => first fuel room >>= returned :=
  fun hf hr => .bind (improving hf hr) fun _ => .refl _

theorem Settles.iff_eq {run : (fuel room : Nat) → Run α} {m : Machine} {o o' : Outcome α}
    (settles : Settles run m o) (improving : Improving run) : Settles run m o' ↔ o' = o :=
  ⟨fun settles' => settles'.unique improving settles, fun same => same ▸ settles⟩

/-- Runs that settle on the same outcomes do so also when something follows. -/
theorem Settles.bind_congr {first first' : (fuel room : Nat) → Run α} {k : α → Run β} {m m' : Machine}
    {o : Outcome β} (same : ∀ o, Settles first m o ↔ Settles first' m' o) :
    Settles (fun fuel room => first fuel room >>= k) m o ↔
      Settles (fun fuel room => first' fuel room >>= k) m' o := by
  have half {a a' : (fuel room : Nat) → Run α} {n n' : Machine}
      (leads : ∀ o, Settles a n o → Settles a' n' o)
      (settles : Settles (fun fuel room => a fuel room >>= k) n o) :
      Settles (fun fuel room => a' fuel room >>= k) n' o := by
    obtain ⟨fuel, room, rfl, conclusive⟩ := settles
    have here : ¬ Outcome.IsEarly (outcome (a fuel room) n) := by
      rintro ⟨h, l, stopped, early⟩
      exact conclusive ⟨h, l, outcome_bind_of_error stopped k, early⟩
    obtain ⟨fuel', room', ends, _⟩ := leads _ ⟨fuel, room, rfl, here⟩
    exact ⟨fuel', room', by rw [outcome_bind, outcome_bind, ends], conclusive⟩
  exact ⟨half fun o => (same o).mp, half fun o => (same o).mpr⟩

/-! ## The evaluation of a quotation -/

/-- A value that is a builtin procedure. -/
def Value.isBuiltin : Value → Bool
  | .primitive _ | .control _ => true
  | _ => false

/-- Builtins are told apart by `same`. -/
theorem Value.eq_some_of_same_builtin {found : Option Value} {v : Value} (builtin : v.isBuiltin = true)
    (h : found.any v.same = true) : found = some v := by
  cases found with
  | none => cases h
  | some u =>
    rw [Option.any_some] at h
    cases v with
    | primitive p =>
      cases u with
      | primitive q => rw [beq_iff_eq.mp (show (p == q) = true from h)]
      | _ => cases h
    | control c =>
      cases u with
      | control c' => rw [beq_iff_eq.mp (show (c == c') = true from h)]
      | _ => cases h
    | _ => cases builtin

variable {frame caller : FrameId} {i j : Nat} {d : Value} {o : Outcome Value}

/-- `eval` expands its operand inside a form and evaluates the core form in the root frame. -/
theorem settles_apply_eval_iff :
    Settles (fun fuel room => apply fuel room (.control .eval) [d] caller) m o ↔
      Settles (fun fuel room => expand fuel room d false >>= fun core =>
        evaluate fuel room core Machine.root) m o := by
  rw [← Settles.succ_iff (improving_apply _ _ _)]
  constructor
  · refine Settles.of_approximates fun fuel room => ⟨fuel, room, ?_⟩
    refine .bind (a := deeper room _) (.deeper_left fun r hr => ?_) fun core => .deeper_left fun r hr => ?_
    · exact improving_expand d false (Nat.le_refl _) (Nat.le_of_lt hr)
    · exact improving_evaluate core Machine.root (Nat.le_refl _) (Nat.le_of_lt hr)
  · exact Settles.of_approximates fun fuel room => ⟨fuel, room + 1, .refl _⟩

/-- The application of `eval` to a quotation is not changed by expansion. -/
theorem outcome_expand_evalQuoted (noTransformer : m.transformers.get? (.name "eval") = none)
    (fuel room : Nat) :
    outcome (expand (fuel + 2) (room + 1)
        (.list i [.symbol "eval", .list j [.symbol "quote", d]]) true) m =
      (.ok (.list m.nextObject [.symbol "eval", .list j [.symbol "quote", d]]), m.made 1) := by
  have missing : outcome (transformer? (.symbol "eval")) m = (.ok none, m) :=
    congrArg (fun found => ((.ok found, m) : Outcome (Option Value))) noTransformer
  change outcome (transformer? (.symbol "eval") >>= _) m = _
  rw [outcome_bind_of_ok missing]
  rfl

/-- An escape among the operands of a form is handed on. -/
theorem Form.outcome_operands_escaped {nested : Value → Run Value} {e v u : Value} {es : List Value}
    {l : Machine} (first : outcome (nested e) m = (.ok v, n))
    (escaped : v.isEscape = true ∧ u = v ∧ l = n ∨ v.isEscape = false ∧
      outcome (operands nested es) n = (.ok (.escaped u), l)) :
    outcome (operands nested (e :: es)) m = (.ok (.escaped u), l) := by
  rw [operands, outcome_bind_of_ok first]
  obtain ⟨here, rfl, rfl⟩ | ⟨here, rest⟩ := escaped
  · rw [here]
    rfl
  · rw [here]
    exact outcome_bind_of_ok rest _

/-- Its evaluation is the expansion and evaluation of what is quoted, and an escape there stays one. -/
theorem settles_evaluate_evalQuoted_iff
    (bound : m.frames.lookup? frame (.name "eval") = some (.control .eval)) :
    Settles (fun fuel room => evaluate fuel room
        (.list i [.symbol "eval", .list j [.symbol "quote", d]]) frame) m o ↔
      Settles (fun fuel room => expand fuel room d false >>= fun core =>
        evaluate fuel room core Machine.root) m o := by
  have procedure : outcome (deeper 1 fun room => evaluate 1 room (.symbol "eval") frame) m =
      (.ok (.control .eval), m) := outcome_lookup bound 0
  have quoted : outcome (deeper 1 fun room => evaluate 1 room (.list j [.symbol "quote", d]) frame) m =
      (.ok d, m) := rfl
  cases escape : d.isEscape with
  | false =>
    have operands : outcome (operandValues [.symbol "eval", .list j [.symbol "quote", d]] frame 1 1) m =
        (.ok (.values [.control .eval, d]), m) :=
      Form.outcome_operands_cons procedure rfl (Form.outcome_operands_cons quoted escape rfl)
    rw [settles_application_iff (by decide) ⟨_, _, operands, not_stopped_ok⟩]
    exact settles_apply_eval_iff
  | true =>
    have operands : outcome (operandValues [.symbol "eval", .list j [.symbol "quote", d]] frame 1 1) m =
        (.ok (.escaped d), m) :=
      Form.outcome_operands_escaped procedure
        (.inr ⟨rfl, Form.outcome_operands_escaped quoted (.inl ⟨escape, rfl, rfl⟩)⟩)
    have handed : Settles (fun fuel room => evaluate fuel room
        (.list i [.symbol "eval", .list j [.symbol "quote", d]]) frame) m (.ok d, m) := by
      refine ⟨2, 1, ?_, not_stopped_ok⟩
      exact (congrArg (outcome · m) (evaluate_application (by decide) 1 1)).trans
        (outcome_bind_of_ok operands _)
    have itself : Settles (fun fuel room => expand fuel room d false >>= fun core =>
        evaluate fuel room core Machine.root) m (.ok d, m) := by
      cases d with
      | escape k v => exact ⟨1, 0, rfl, not_stopped_ok⟩
      | _ => cases escape
    rw [handed.iff_eq (improving_evaluate _ _), itself.iff_eq (improving_expand_evaluate _ _)]

/-! ## Quoted code at the top level -/

/-- `(eval 'd)` at the top level settles on what `d` settles on after one more object. -/
theorem settles_topLevel_evalQuoted_iff
    (bound : m.frames.lookup? Machine.root (.name "eval") = some (.control .eval))
    (noTransformer : m.transformers.get? (.name "eval") = none) (plain : Form.DefinesNoTransformer d) :
    Settles (topLevel (.list i [.symbol "eval", .list j [.symbol "quote", d]])) m o ↔
      Settles (topLevel d) (m.made 1) o := by
  have expanded : Settles (fun fuel room => expand fuel room
      (.list i [.symbol "eval", .list j [.symbol "quote", d]]) true) m
      (.ok (.list m.nextObject [.symbol "eval", .list j [.symbol "quote", d]]), m.made 1) :=
    ⟨2, 1, outcome_expand_evalQuoted noTransformer 0 0, not_stopped_ok⟩
  have direct : topLevel d = fun fuel room =>
      (expand fuel room d false >>= fun core => evaluate fuel room core Machine.root) >>= returned := by
    funext fuel room
    simp only [topLevel, expand_toplevel fuel room plain, bind_assoc]
  rw [direct]
  refine (Settles.bind_iff (improving_expand _ _) (improving_returned (improving_evaluate _ _))
    expanded).trans ?_
  exact Settles.bind_congr fun o => settles_evaluate_evalQuoted_iff bound

theorem returned_inStep {w : Matching} {v v' : Value} (h : Like w .plain v v') :
    InStep .even w (returned v) (returned v') LikeValues := by
  unfold returned
  rw [h.isEscape_eq]
  split
  · exact .bind (P := fun _ _ _ => True) (.fail_same _) fun _ le _ _ _ => .pure (h.mono le)
  · exact .pure h

/-- A form at the top level, run twice from states that are alike. -/
theorem topLevel_inStep {w : Matching} {form form' : Value} (h : Like w .plain form form')
    (fuel room : Nat) :
    InStep .even w (topLevel form fuel room) (topLevel form' fuel room) LikeValues := by
  have steps : (calls fuel).InStep .even (calls fuel) := calls_inStep (p := .even) rfl
  refine (steps.expand (p := .even) rfl h true).bind fun w _ core core' like => ?_
  refine (steps.evaluate (p := .even) rfl (Reading.allowed_plain w) like Machine.root).bind ?_
  exact fun _ _ _ _ like => returned_inStep like

namespace Session

/-- With enough steps and room a session settles on an outcome for a form of a text. -/
def SettlesForm (s : Session) (form : Value) (o : Except Halt Value × Session) : Prop :=
  ∃ limits : Limits, outcome (evalForm (evaluate limits) limits form) s = o ∧ ¬ Stopped Halt.IsEarly o

/-- The same failure, or values that are the same up to the numbers of their objects. -/
inductive SameResult (w : Matching) : Except Halt Value → Except Halt Value → Prop
  | value {v v'} : Like w .plain v v' → SameResult w (.ok v) (.ok v')
  | halt (h) : SameResult w (.error h) (.error h)

/-- The same result, the same lines and the same state: frames, transformers, continuations, symbols. Only
the numbers of the objects may differ, as a matching has it. -/
structure SameOutcome (w : Matching) (o o' : Except Halt Value × Session) : Prop where
  result : SameResult w o.1 o'.1
  output : o.2.machine.output = o'.2.machine.output
  machine : o.2.machine.Like w o'.2.machine
  symbols : o.2.symbols = o'.2.symbols

/-- The outcome of a machine as that of a session. -/
def lifted (s : Session) (o : Outcome Value) : Except Halt Value × Session :=
  (o.1, { s with machine := o.2 })

variable {s : Session} {form : Value}

theorem stopped_lifted_iff {o : Outcome Value} : Stopped Halt.IsEarly (lifted s o) ↔ o.IsEarly := by
  constructor
  · rintro ⟨h, _, same, early⟩
    have result : o.1 = .error h := congrArg Prod.fst same
    exact ⟨h, o.2, Prod.ext result rfl, early⟩
  · rintro ⟨h, n, rfl, early⟩
    exact ⟨h, _, rfl, early⟩

theorem settlesForm_iff {o : Except Halt Value × Session} :
    SettlesForm s form o ↔ ∃ o', Settles (topLevel form) s.machine o' ∧ o = lifted s o' := by
  unfold SettlesForm
  simp only [evalForm_eq, outcome_run]
  constructor
  · rintro ⟨limits, rfl, conclusive⟩
    exact ⟨_, ⟨limits.steps, limits.nesting, rfl, stopped_lifted_iff.not.mp conclusive⟩, rfl⟩
  · rintro ⟨_, ⟨fuel, room, rfl, conclusive⟩, rfl⟩
    exact ⟨⟨fuel, room⟩, rfl, stopped_lifted_iff.not.mpr conclusive⟩

/-- One more object before a form changes the numbers of the objects it makes, and nothing else. -/
theorem settlesForm_made (numbered : s.machine.Numbered) (held : form.isBelow s.machine.nextObject = true)
    {o : Outcome Value} :
    (Settles (topLevel form) s.machine o → ∃ o', Settles (topLevel form) (s.machine.made 1) o' ∧
      ∃ w, .below s.machine.nextObject False ≤ w ∧ SameOutcome w (lifted s o) (lifted s o')) ∧
    (Settles (topLevel form) (s.machine.made 1) o → ∃ o', Settles (topLevel form) s.machine o' ∧
      ∃ w, .below s.machine.nextObject False ≤ w ∧ SameOutcome w (lifted s o') (lifted s o)) := by
  have alike (fuel room : Nat) : ∃ w, .below s.machine.nextObject False ≤ w ∧
      Endings w LikeValues (outcome (topLevel form fuel room) s.machine)
        (outcome (topLevel form fuel room) (s.machine.made 1)) := by
    have inStep := topLevel_inStep (w := .below s.machine.nextObject False) (.of_isBelow form held) fuel room
    exact (inStep (fun _ => id) _ _ (numbered.like False 1)).resolve_left id
  have same {w : Matching} (le : .below s.machine.nextObject False ≤ w) {o o' : Outcome Value}
      (endings : Endings w LikeValues o o') : SameOutcome w (lifted s o) (lifted s o') := by
    have strict : ¬ w.expanding := le.2.not.mpr id
    cases endings with
    | ok values like => exact ⟨.value values, like.output_eq strict, like, rfl⟩
    | failed failures like =>
      obtain rfl := failures.eq strict
      exact ⟨.halt _, like.output_eq strict, like, rfl⟩
    | outOfSteps like => exact ⟨.halt _, like.output_eq strict, like, rfl⟩
  constructor
  · rintro ⟨fuel, room, rfl, conclusive⟩
    obtain ⟨w, le, endings⟩ := alike fuel room
    exact ⟨_, ⟨fuel, room, rfl, endings.isEarly_iff.not.mp conclusive⟩, w, le, same le endings⟩
  · rintro ⟨fuel, room, rfl, conclusive⟩
    obtain ⟨w, le, endings⟩ := alike fuel room
    exact ⟨_, ⟨fuel, room, rfl, endings.isEarly_iff.not.mpr conclusive⟩, w, le, same le endings⟩

/-- `eval` of quoted code is the code. Where the root frame binds `eval` to the builtin and no transformer
has its name, `(eval 'd)` at the top level settles on exactly what `d` settles on after one more object, for
every form that defines no transformer. The states of sessions are numbered, and there the object makes no
difference: from the same session both settle on the same outcome, failures included, up to the numbers of
objects made since. -/
theorem eval_quoted_code :
    (∀ (limits : Limits) (table : Nat) (draws : Draws) (commands : List Command),
      (performed limits (fresh table draws) commands).machine.Numbered) ∧
    ∀ {s : Session} {d : Value} (i j : Nat),
      s.machine.frames.lookup? Machine.root (.name "eval") = some (.control .eval) →
      s.machine.transformers.get? (.name "eval") = none → Form.DefinesNoTransformer d →
      let quoted : Value := .list i [.symbol "eval", .list j [.symbol "quote", d]]
      (∀ o, SettlesForm s quoted o ↔ SettlesForm { s with machine := s.machine.made 1 } d o) ∧
      (s.machine.Numbered → d.isBelow s.machine.nextObject = true →
        (∀ o, SettlesForm s quoted o → ∃ o', SettlesForm s d o' ∧
          ∃ w, .below s.machine.nextObject False ≤ w ∧ SameOutcome w o' o) ∧
        ∀ o', SettlesForm s d o' → ∃ o, SettlesForm s quoted o ∧
          ∃ w, .below s.machine.nextObject False ≤ w ∧ SameOutcome w o' o) := by
  refine ⟨performed_numbered, ?_⟩
  intro s d i j bound noTransformer plain quoted
  have exact {o : Outcome Value} :
      Settles (topLevel quoted) s.machine o ↔ Settles (topLevel d) (s.machine.made 1) o :=
    settles_topLevel_evalQuoted_iff bound noTransformer plain
  refine ⟨fun o => ?_, fun numbered held => ⟨?_, ?_⟩⟩
  · rw [settlesForm_iff, settlesForm_iff]
    exact exists_congr fun o' => and_congr exact Iff.rfl
  · intro _ given
    obtain ⟨o, settles, rfl⟩ := settlesForm_iff.mp given
    obtain ⟨o', settles', same⟩ := (settlesForm_made numbered held).2 (exact.mp settles)
    exact ⟨_, settlesForm_iff.mpr ⟨o', settles', rfl⟩, same⟩
  · intro _ given
    obtain ⟨o', settles, rfl⟩ := settlesForm_iff.mp given
    obtain ⟨o, settles', same⟩ := (settlesForm_made numbered held).1 settles
    exact ⟨_, settlesForm_iff.mpr ⟨o, exact.mpr settles', rfl⟩, same⟩

/-- A use of a transformer that writes a line twice, and a definition of a variable. -/
theorem eval_quoted_code_twice :
    let s := performed (⟨40, 40⟩ : Limits) (fresh 0 .zeros)
      [.serve (.eval "(define-macro twice (lambda (e) (list 'begin e e))) '(((((()))))))")]
    let d : Value := .list 0 [.symbol "begin",
      .list 1 [.symbol "twice", .list 2 [.symbol "display", .int 1]],
      .list 3 [.symbol "define", .symbol "x", .list 4 [.symbol "list", .int 2]]]
    s.machine.frames.lookup? Machine.root (.name "eval") = some (.control .eval) ∧
      s.machine.transformers.get? (.name "eval") = none ∧ Form.DefinesNoTransformer d ∧
      s.machine.Numbered ∧ d.isBelow s.machine.nextObject = true ∧
      ∃ v t o, SettlesForm s d (.ok v, t) ∧
        SettlesForm s (.list 5 [.symbol "eval", .list 6 [.symbol "quote", d]]) o ∧
        ∃ w, SameOutcome w (.ok v, t) o := by
  intro s d
  obtain ⟨sessions, code⟩ := eval_quoted_code
  have bound : s.machine.frames.lookup? Machine.root (.name "eval") = some (.control .eval) :=
    Value.eq_some_of_same_builtin rfl (by decide +kernel)
  have noTransformer : s.machine.transformers.get? (.name "eval") = none := by decide +kernel
  have plain : Form.DefinesNoTransformer d := by decide +kernel
  have held : d.isBelow s.machine.nextObject = true := by decide +kernel
  have numbered : s.machine.Numbered := sessions _ _ _ _
  have succeeds : (outcome (evalForm (evaluate (⟨40, 40⟩ : Limits)) (⟨40, 40⟩ : Limits) d) s).1.isOk = true := by
    decide +kernel
  refine ⟨bound, noTransformer, plain, numbered, held, ?_⟩
  rcases ended : outcome (evalForm (evaluate (⟨40, 40⟩ : Limits)) (⟨40, 40⟩ : Limits) d) s with ⟨h | v, t⟩
  · rw [ended] at succeeds
    cases succeeds
  have settles : SettlesForm s d (.ok v, t) := ⟨⟨40, 40⟩, ended, not_stopped_ok⟩
  obtain ⟨o, settles', w, _, same⟩ := ((code 5 6 bound noTransformer plain).2 numbered held).2 _ settles
  exact ⟨v, t, o, settles, settles', w, same⟩

end Session

end SmallLisp
