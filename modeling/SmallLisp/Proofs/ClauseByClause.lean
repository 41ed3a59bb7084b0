import SmallLisp.Proofs.DerivedForms
/-!
# Derived forms clause by clause

What a derived form has become is evaluated as the form says: its clauses from left to right, each at most
once, up to the one that decides.
-/
namespace SmallLisp

open Run

variable {m n : Machine} {frame : FrameId} {i : Nat} {o : Outcome Value}

theorem Improving.ite {α : Type} {a b : Limited α} (c : Bool) (first : Improving a) (second : Improving b) :
    Improving fun fuel room => if c then a fuel room else b fuel room := by
  cases c with
  | true => exact first
  | false => exact second

/-! ## Expansions -/

/-- A core form is what another form has been expanded to somewhere. -/
def IsExpansion (e c : Value) : Prop :=
  ∃ m n, Settles (fun fuel room => expand fuel room e false) m (.ok c, n)

/-- The forms have been expanded one for one. -/
abbrev AreExpansions : List Value → List Value → Prop :=
  List.Forall₂ IsExpansion

theorem expand_delivers (e : Value) : Delivers (fun fuel room => expand fuel room e false) (IsExpansion e) :=
  fun m _ n settles => ⟨m, n, settles⟩

/-! ## Conjunctions -/

/-- Evaluates clauses from left to right up to the first that is false, for the value of the last. -/
def conjunction (frame : FrameId) : List Value → Limited Value
  | [] => fun _ _ => return .bool true
  | [c] => fun fuel room => evaluate fuel room c frame
  | c :: c' :: cs => fun fuel room => do
    let v ← evaluate fuel room c frame
    if v.isEscape || v.isFalse then return v
    conjunction frame (c' :: cs) fuel room

/-- What a conjunction becomes, beside the expansions of its clauses. -/
inductive ConjunctionCore : List Value → Value → Prop
  | none : ConjunctionCore [] (.bool true)
  | one {c} : ConjunctionCore [c] c
  | more {i c c' cs rest} : ConjunctionCore (c' :: cs) rest →
      ConjunctionCore (c :: c' :: cs) (.list i [.symbol "if", c, rest, .bool false])

theorem conjunctionParts_delivers (es : List Value) :
    Delivers (conjunctionParts es) fun p => AreExpansions es p.1 ∧ ConjunctionCore p.1 p.2 := by
  induction es using conjunctionParts.induct with
  | case1 => exact .next fun _ => .pure ⟨.nil, .none⟩
  | case2 e => exact .next fun _ => .bind (expand_delivers e) fun c first => .pure ⟨.cons first .nil, .one⟩
  | case3 e e' es ih =>
    refine .next fun _ => .bind (expand_delivers e) fun c first => .bind ih ?_
    rintro ⟨cs, rest⟩ ⟨clauses, core⟩
    refine .bind (.list _) ?_
    rintro _ ⟨i, rfl⟩
    cases clauses with
    | cons second later => exact .pure ⟨.cons first (.cons second later), .more core⟩

theorem improving_conjunction (frame : FrameId) (cs : List Value) : Improving (conjunction frame cs) := by
  induction cs using conjunction.induct with
  | case1 => exact Improving.plain _
  | case2 c => exact improving_evaluate c frame
  | case3 c c' cs ih =>
    exact Improving.bind (improving_evaluate c frame) fun v =>
      Improving.ite (v.isEscape || v.isFalse) (Improving.plain (pure v)) ih

theorem settles_evaluate_bool_iff {b : Bool} :
    Settles (fun fuel room => evaluate fuel room (.bool b) frame) m o ↔ Settles (fun _ _ => pure (.bool b)) m o :=
  ((yields_bool b).iff_eq (improving_evaluate _ _)).trans settles_pure_iff.symm

theorem Value.eq_of_isFalse {v : Value} (h : v.isFalse = true) : v = .bool false := by
  unfold isFalse at h
  split at h
  · rfl
  · cases h

theorem ConjunctionCore.settles_iff {cs : List Value} {core : Value} (h : ConjunctionCore cs core) :
    Settles (fun fuel room => evaluate fuel room core frame) m o ↔ Settles (conjunction frame cs) m o := by
  induction h generalizing m with
  | none => exact settles_evaluate_bool_iff
  | one => exact Iff.rfl
  | @more i c c' cs rest _ ih =>
    refine settles_evaluate_test_iff.trans ?_
    have later (v : Value) : Improving (v.unlessEscape fun fuel room =>
        evaluate fuel room (if v.isFalse then .bool false else rest) frame) :=
      Improving.unlessEscape (improving_evaluate _ frame) v
    have continues (v : Value) : Improving fun fuel room =>
        if v.isEscape || v.isFalse then pure v else conjunction frame (c' :: cs) fuel room :=
      Improving.ite _ (Improving.plain (pure v)) (improving_conjunction frame _)
    refine Settles.bind_same (improving_evaluate c frame) (improving_evaluate c frame) later continues
      (fun _ => Iff.rfl) fun v n _ => ?_
    unfold Value.unlessEscape
    cases v.isEscape with
    | true => exact Iff.rfl
    | false =>
      cases isFalse : v.isFalse with
      | true =>
        obtain rfl := Value.eq_of_isFalse isFalse
        exact settles_evaluate_bool_iff
      | false => exact ih

/-! ## Sequences and bodies -/

/-- Core code whose evaluation is that of some forms one after another. -/
def RunsInOrder (cs : List Value) (core : Value) : Prop :=
  ∀ frame m o, Settles (fun fuel room => evaluate fuel room core frame) m o ↔ Settles (inOrder frame cs) m o

theorem expandEach_delivers (es : List Value) : Delivers (expandEach es false) (AreExpansions es) := by
  induction es with
  | nil => exact .pure .nil
  | cons e es ih =>
    unfold expandEach
    simp only [List.mapM_cons]
    exact .bind (expand_delivers e) fun c first => .bind ih fun cs later => .pure (.cons first later)

theorem sequenceParts_delivers (es : List Value) :
    Delivers (sequenceParts es) fun p => AreExpansions es p.1 ∧ RunsInOrder p.1 p.2 := by
  cases es with
  | nil =>
    refine .pure ⟨.nil, fun frame m o => ?_⟩
    exact (Settles.iff_eq ⟨1, 0, rfl, not_stopped_ok⟩ (improving_evaluate _ _)).trans settles_pure_iff.symm
  | cons e es =>
    refine .bind (expandEach_delivers (e :: es)) fun cs forms => .bind (.list _) ?_
    rintro _ ⟨i, rfl⟩
    cases forms with
    | cons first later => exact .pure ⟨.cons first later, fun _ _ _ => settles_evaluate_sequence_iff⟩

theorem bodyParts_delivers (es : List Value) :
    Delivers (bodyParts es) fun p => AreExpansions es p.1 ∧ RunsInOrder p.1 p.2 := by
  rcases es with _ | ⟨e, _ | ⟨e', es⟩⟩
  · exact .next fun _ => sequenceParts_delivers _
  · exact .bind (expand_delivers e) fun c first => .pure ⟨.cons first .nil, fun _ _ _ => Iff.rfl⟩
  · exact .next fun _ => sequenceParts_delivers _

/-! ## Tests with a body -/

/-- Evaluates a test and, if it comes out false or not, as is wanted, forms one after another. -/
def guarded (onFalse : Bool) (frame : FrameId) (c : Value) (cs : List Value) : Limited Value :=
  fun fuel room => do
    let v ← evaluate fuel room c frame
    if v.isEscape then return v
    if v.isFalse == onFalse then inOrder frame cs fuel room else return .unspecified

theorem onTrueParts_delivers (t : Value) (es : List Value) :
    Delivers (onTrueParts t es) fun p => IsExpansion t p.1 ∧ AreExpansions es p.2.1 ∧
      ∃ i body, RunsInOrder p.2.1 body ∧ p.2.2 = .list i [.symbol "if", p.1, body, .unspecified] := by
  refine .next fun _ => .bind (expand_delivers t) fun c test => .bind (P := (· = c)) (.pure rfl) ?_
  rintro _ rfl
  refine .bind (sequenceParts_delivers es) fun (cs, body) ⟨forms, inOrder⟩ => .bind (.list _) ?_
  rintro _ ⟨i, rfl⟩
  exact .pure ⟨test, forms, i, body, inOrder, rfl⟩

theorem onFalseParts_delivers (t : Value) (es : List Value) :
    Delivers (onFalseParts t es) fun p => IsExpansion t p.1 ∧ AreExpansions es p.2.1 ∧
      ∃ i j body, RunsInOrder p.2.1 body ∧
        p.2.2 = .list i [.symbol "if", .list j [.symbol "not", p.1], body, .unspecified] := by
  refine .next fun _ => .bind (expand_delivers t) fun c test => .bind (.list _) ?_
  rintro _ ⟨j, rfl⟩
  refine .bind (sequenceParts_delivers es) fun (cs, body) ⟨forms, inOrder⟩ => .bind (.list _) ?_
  rintro _ ⟨i, rfl⟩
  exact .pure ⟨test, forms, i, j, body, inOrder, rfl⟩

/-- The operands of a form with one operand. -/
theorem settles_operands_one_iff {e : Value} {k : Operands → Limited Value} (improving : ∀ vs, Improving (k vs)) :
    Settles (fun fuel room => operandValues [e] frame fuel room >>= fun vs => k vs fuel room) m o ↔
      Settles (fun fuel room => evaluate fuel room e frame >>= fun v =>
        if v.isEscape then k (.escaped v) fuel room else k (.values [v]) fuel room) m o := by
  have rest (v : Value) : Improving fun fuel room =>
      if v.isEscape then k (.escaped v) fuel room else k (.values [v]) fuel room :=
    Improving.ite _ (improving (.escaped v)) (improving (.values [v]))
  have step (fuel room : Nat) : (operandValues [e] frame fuel room >>= fun vs => k vs fuel room) =
      deeper room (fun room => evaluate fuel room e frame) >>= fun v =>
        if v.isEscape then k (.escaped v) fuel room else k (.values [v]) fuel room := by
    rw [operandValues_cons, bind_assoc]
    refine congrArg (Bind.bind _) (funext fun v => ?_)
    cases v.isEscape <;> rfl
  simp only [step]
  exact Settles.deeper_bind_iff (a := fun fuel room => evaluate fuel room e frame) (improving_evaluate e frame) rest

/-- The negation of a form, where `not` has its built-in meaning. -/
theorem settles_evaluate_not_iff {c : Value}
    (builtin : m.frames.lookup? frame (.name "not") = some (.primitive .not)) :
    Settles (fun fuel room => evaluate fuel room (.list i [.symbol "not", c]) frame) m o ↔
      Settles (fun fuel room => evaluate fuel room c frame >>= fun v =>
        if v.isEscape then pure v else pure (.bool v.isFalse)) m o := by
  have go (vs : Operands) : Improving fun fuel room => (vs.after (.primitive .not)).go frame fuel room :=
    improving_go (vs.after (.primitive .not)) frame
  refine (settles_evaluate_operands_iff rfl).trans ?_
  refine (settles_operands_cons_iff (fun vs => improving_go vs frame) rfl (yields_symbol builtin)).trans ?_
  refine (settles_operands_one_iff go).trans ?_
  have called (v : Value) : Improving fun fuel room => if v.isEscape then pure v else
      (calls fuel).callInPlace room frame (.primitive .not) [v] :=
    Improving.ite _ (Improving.plain (pure v)) (improving_callInPlace frame (.primitive .not) [v])
  have plain (v : Value) : Improving fun _ _ => if v.isEscape then pure v else pure (.bool v.isFalse) :=
    Improving.plain _
  refine Settles.bind_same (improving_evaluate c frame) (improving_evaluate c frame) called plain
    (fun _ => Iff.rfl) fun v n _ => ?_
  cases v.isEscape with
  | true => exact Iff.rfl
  | false =>
    have negated : Settles (fun fuel room => apply fuel room (.primitive .not) [v] frame) n
        (.ok (.bool v.isFalse), n) := ⟨1, 0, rfl, not_stopped_ok⟩
    exact (negated.iff_eq (improving_apply _ _ _)).trans settles_pure_iff.symm

theorem improving_guarded_rest (onFalse : Bool) (frame : FrameId) (cs : List Value) (v : Value) :
    Improving fun fuel room => if v.isEscape then pure v else
      if v.isFalse == onFalse then inOrder frame cs fuel room else pure .unspecified :=
  Improving.ite _ (Improving.plain (pure v))
    (Improving.ite _ (improving_inOrder frame cs) (Improving.plain (pure Value.unspecified)))

theorem settles_evaluate_unspecified_iff :
    Settles (fun fuel room => evaluate fuel room .unspecified frame) m o ↔
      Settles (fun _ _ => pure .unspecified) m o :=
  (Settles.iff_eq ⟨1, 0, rfl, not_stopped_ok⟩ (improving_evaluate _ _)).trans settles_pure_iff.symm

section Guarded

variable {c body : Value} {cs : List Value} (runs : RunsInOrder cs body)
include runs

theorem settles_evaluate_when_iff :
    Settles (fun fuel room => evaluate fuel room (.list i [.symbol "if", c, body, .unspecified]) frame) m o ↔
      Settles (guarded false frame c cs) m o := by
  have branches (v : Value) : Improving (v.unlessEscape fun fuel room =>
      evaluate fuel room (if v.isFalse then .unspecified else body) frame) :=
    Improving.unlessEscape (improving_evaluate _ frame) v
  refine settles_evaluate_test_iff.trans ?_
  refine Settles.bind_same (improving_evaluate c frame) (improving_evaluate c frame) branches
    (improving_guarded_rest false frame cs) (fun _ => Iff.rfl) fun v n _ => ?_
  unfold Value.unlessEscape
  cases v.isEscape with
  | true => exact Iff.rfl
  | false =>
    cases v.isFalse with
    | true => exact settles_evaluate_unspecified_iff
    | false => exact runs frame n o

theorem settles_evaluate_unless_iff {j : Nat}
    (builtin : m.frames.lookup? frame (.name "not") = some (.primitive .not)) :
    Settles (fun fuel room => evaluate fuel room
        (.list i [.symbol "if", .list j [.symbol "not", c], body, .unspecified]) frame) m o ↔
      Settles (guarded true frame c cs) m o := by
  have branches (v : Value) : Improving (v.unlessEscape fun fuel room =>
      evaluate fuel room (if v.isFalse then .unspecified else body) frame) :=
    Improving.unlessEscape (improving_evaluate _ frame) v
  have negated : Improving fun fuel room => evaluate fuel room c frame >>= fun v =>
      if v.isEscape then pure v else pure (.bool v.isFalse) :=
    Improving.andThen (improving_evaluate c frame) _
  refine settles_evaluate_test_iff.trans ?_
  refine (Settles.bind_same (improving_evaluate _ frame) negated branches branches
    (fun _ => settles_evaluate_not_iff builtin) fun _ _ _ => Iff.rfl).trans ?_
  simp only [bind_assoc]
  have rest (v : Value) : Improving fun fuel room =>
      (if v.isEscape then pure v else pure (.bool v.isFalse)) >>= fun u => u.unlessEscape (fun fuel room =>
        evaluate fuel room (if u.isFalse then .unspecified else body) frame) fuel room :=
    Improving.bind (Improving.plain _) branches
  refine Settles.bind_same (improving_evaluate c frame) (improving_evaluate c frame) rest
    (improving_guarded_rest true frame cs) (fun _ => Iff.rfl) fun v n _ => ?_
  cases escape : v.isEscape with
  | true =>
    simp only [if_true, pure_bind, Value.unlessEscape, escape]
  | false =>
    cases v.isFalse with
    | true => exact runs frame n o
    | false => exact settles_evaluate_unspecified_iff

end Guarded

/-! ## Bindings -/

/-- Evaluates forms from left to right, and in a new frame, where names stand for their values, others one
after another. A closure is made before all this. -/
def binding (frame : FrameId) (names xs cs : List Value) : Limited Value := fun fuel room => do
  let _ ← newObject
  match ← operandValues xs frame fuel room with
  | .escaped v => return v
  | .values vs =>
    let inside ← newFrame room (.list 0 names) vs (some frame)
    inOrder inside cs fuel room

/-- What a use of `let` becomes. -/
def BindingCore (names xs cs : List Value) (core : Value) : Prop :=
  ∃ i j k body, RunsInOrder cs body ∧
    core = .list i (.list j [.symbol "lambda", .list k names, body] :: xs)

theorem bindingParts_delivers (names xs es : List Value) :
    Delivers (bindingParts names xs es) fun p => AreExpansions xs p.1 ∧ AreExpansions es p.2.1 ∧
      BindingCore names p.1 p.2.1 p.2.2 := by
  refine .bind (.list names) ?_
  rintro _ ⟨k, rfl⟩
  refine .next fun _ => .bind (bodyParts_delivers es) fun (cs, body) ⟨forms, inOrder⟩ => .bind (.list _) ?_
  rintro _ ⟨j, rfl⟩
  refine .bind (expandEach_delivers xs) fun xs' bound => .bind (.list _) ?_
  rintro _ ⟨i, rfl⟩
  exact .pure ⟨bound, forms, i, j, k, body, inOrder, rfl⟩

/-- What a binding goes on as, given the values of its forms. -/
def bindingRest (frame : FrameId) (names cs : List Value) : Operands → Limited Value
  | .escaped v => fun _ _ => pure v
  | .values vs => fun fuel room => newFrame room (.list 0 names) vs (some frame) >>= fun inside =>
      inOrder inside cs fuel room

theorem improving_bindingRest (frame : FrameId) (names cs : List Value) (vs : Operands) :
    Improving (bindingRest frame names cs vs) := by
  cases vs with
  | escaped v => exact Improving.plain _
  | values vs =>
    exact fun hf hr => .bind (newFrame_approximates (s := .more 0) hr _ _ _) fun inside =>
      improving_inOrder inside cs hf hr

theorem binding_eq (frame : FrameId) (names xs cs : List Value) (fuel room : Nat) :
    binding frame names xs cs fuel room = newObject >>= fun _ =>
      operandValues xs frame fuel room >>= fun vs => bindingRest frame names cs vs fuel room := by
  refine congrArg (Bind.bind _) (funext fun _ => congrArg (Bind.bind _) (funext fun vs => ?_))
  cases vs <;> rfl

theorem BindingCore.settles_iff {names xs cs : List Value} {core : Value} (h : BindingCore names xs cs core) :
    Settles (fun fuel room => evaluate fuel room core frame) m o ↔ Settles (binding frame names xs cs) m o := by
  obtain ⟨i, j, k, body, runs, rfl⟩ := h
  have closure : Yields m frame (.list j [.symbol "lambda", .list k names, body])
      (.closure m.nextObject (.list k names) body frame) (m.made 1) := ⟨1, 0, rfl, not_stopped_ok⟩
  refine (settles_evaluate_operands_iff rfl).trans ?_
  refine (settles_operands_cons_iff (fun vs => improving_go vs frame) rfl closure).trans ?_
  change _ ↔ Settles (fun fuel room => binding frame names xs cs fuel room) m o
  simp only [binding_eq]
  have called (vs : Operands) : Improving fun fuel room =>
      (vs.after (.closure m.nextObject (.list k names) body frame)).go frame fuel room :=
    improving_go (vs.after (.closure m.nextObject (.list k names) body frame)) frame
  refine Settles.bind_same (improving_operandValues xs frame) (improving_operandValues xs frame) called
    (improving_bindingRest frame names cs) (fun _ => Iff.rfl) fun vs n _ => ?_
  cases vs with
  | escaped v => exact Iff.rfl
  | values vs =>
    have entered : Improving fun fuel room => newFrame room (.list 0 names) vs (some frame) :=
      fun _ hr => newFrame_approximates (s := .more 0) hr _ _ _
    exact Settles.bind_same entered entered (fun inside => improving_evaluate body inside)
      (fun inside => improving_inOrder inside cs) (fun _ => Iff.rfl) fun inside l _ => runs inside l o

end SmallLisp
