import SmallLisp.Proofs.QuotedCode
/-!
# What forms settle on

A form settles on what its parts settle on one after another. The steps and the levels that the parts take are
their own affair, so a form can be read as a computation on its parts that knows of neither.
-/
namespace SmallLisp

open Run

/-- A computation within limits. -/
abbrev Limited (α : Type) := (fuel room : Nat) → Run α

variable {α β : Type} {m n : Machine} {frame : FrameId}

theorem Improving.bind {a : Limited α} {k : α → Limited β} (first : Improving a)
    (rest : ∀ x, Improving (k x)) :
    Improving fun fuel room => a fuel room >>= fun x => k x fuel room :=
  fun hf hr => .bind (first hf hr) fun x => rest x hf hr

/-- A computation without limits. -/
theorem Improving.plain (a : Run α) : Improving fun _ _ => a :=
  fun _ _ => .refl a

/-- What follows may know of no limits. -/
theorem Improving.andThen {a : Limited α} (first : Improving a) (k : α → Run β) :
    Improving fun fuel room => a fuel room >>= k :=
  fun hf hr => .bind (first hf hr) fun x => .refl (k x)

theorem settles_plain_iff {a : Run α} {o : Outcome α} :
    Settles (fun _ _ => a) m o ↔ outcome a m = o ∧ ¬ o.IsEarly :=
  ⟨fun ⟨_, _, settles⟩ => settles, fun settles => ⟨0, 0, settles⟩⟩

theorem settles_pure_iff {x : α} {o : Outcome α} :
    Settles (fun _ _ => (pure x : Run α)) m o ↔ o = (.ok x, m) := by
  rw [settles_plain_iff]
  constructor
  · rintro ⟨rfl, _⟩
    rfl
  · rintro rfl
    exact ⟨rfl, not_stopped_ok⟩

namespace Settles

variable {a a' : Limited α} {k k' : α → Limited β} {o : Outcome β}

/-- What comes first fails, or the rest goes on from its value. -/
theorem bind_cases (first : Improving a) (rest : ∀ x, Improving (k x)) :
    Settles (fun fuel room => a fuel room >>= fun x => k x fuel room) m o ↔
      (∃ x n, Settles a m (.ok x, n) ∧ Settles (k x) n o) ∨
        ∃ h n, Settles a m (.error h, n) ∧ o = (.error h, n) := by
  constructor
  · rintro ⟨fuel, room, rfl, conclusive⟩
    rcases ended : outcome (a fuel room) m with ⟨h | x, n⟩
    · rw [outcome_bind_of_error ended] at conclusive
      refine Or.inr ⟨h, n, ⟨fuel, room, ended, ?_⟩, outcome_bind_of_error ended _⟩
      exact fun early => conclusive early.of_error
    · rw [outcome_bind_of_ok ended] at conclusive ⊢
      exact Or.inl ⟨x, n, ⟨fuel, room, ended, not_stopped_ok⟩, fuel, room, rfl, conclusive⟩
  · rintro (⟨x, n, done, settles⟩ | ⟨h, n, ⟨fuel, room, ended, conclusive⟩, rfl⟩)
    · exact (bind_iff first (rest x) done).mpr settles
    · exact ⟨fuel, room, outcome_bind_of_error ended _, fun early => conclusive early.of_error⟩

/-- Both parts may be exchanged for others that settle on the same. -/
theorem bind_same (first : Improving a) (first' : Improving a') (rest : ∀ x, Improving (k x))
    (rest' : ∀ x, Improving (k' x)) (same : ∀ o, Settles a m o ↔ Settles a' m o)
    (go : ∀ x n, Settles a m (.ok x, n) → (Settles (k x) n o ↔ Settles (k' x) n o)) :
    Settles (fun fuel room => a fuel room >>= fun x => k x fuel room) m o ↔
      Settles (fun fuel room => a' fuel room >>= fun x => k' x fuel room) m o := by
  rw [bind_cases first rest, bind_cases first' rest']
  simp only [← same]
  refine or_congr ⟨?_, ?_⟩ Iff.rfl
  · rintro ⟨x, n, done, settles⟩
    exact ⟨x, n, done, (go x n done).mp settles⟩
  · rintro ⟨x, n, done, settles⟩
    exact ⟨x, n, done, (go x n done).mpr settles⟩

/-- A part one level deeper settles on the same. -/
theorem deeper_bind_iff (first : Improving a) (rest : ∀ x, Improving (k x)) :
    Settles (fun fuel room => deeper room (a fuel) >>= fun x => k x fuel room) m o ↔
      Settles (fun fuel room => a fuel room >>= fun x => k x fuel room) m o := by
  constructor
  · refine of_approximates fun fuel room => ⟨fuel, room, .bind ?_ fun x => .refl _⟩
    exact .deeper_left fun r hr => first (Nat.le_refl _) (Nat.le_of_lt hr)
  · refine of_approximates fun fuel room => ⟨fuel, room + 1, .bind (.refl _) fun x => ?_⟩
    exact rest x (Nat.le_refl _) (Nat.le_succ _)

end Settles

theorem Improving.deeper {a : Limited α} (improving : Improving a) :
    Improving fun fuel room => deeper room (a fuel) :=
  fun hf hr => Run.Approximates.deeper (s := .more 0) hr fun _ _ fits => improving hf fits

theorem settles_deeper_iff {a : Limited α} {o : Outcome α} (improving : Improving a) :
    Settles (fun fuel room => deeper room (a fuel)) m o ↔ Settles a m o := by
  have same := Settles.deeper_bind_iff (k := fun x _ _ => pure x) (m := m) (o := o) improving
    fun x => Improving.plain (pure x)
  simpa only [bind_pure] using same

/-! ## Evaluation -/

/-- What an evaluation goes on as, given the value of its first part, which may be an escape. -/
def Value.unlessEscape (v : Value) (rest : Limited Value) : Limited Value :=
  if v.isEscape then fun _ _ => pure v else rest

theorem Improving.unlessEscape {rest : Limited Value} (improving : Improving rest) (v : Value) :
    Improving (v.unlessEscape rest) := by
  unfold Value.unlessEscape
  split
  · exact Improving.plain (pure v)
  · exact improving

theorem settles_unlessEscape_congr {rest rest' : Limited Value} {o : Outcome Value} (v : Value)
    (same : Settles rest m o ↔ Settles rest' m o) :
    Settles (v.unlessEscape rest) m o ↔ Settles (v.unlessEscape rest') m o := by
  unfold Value.unlessEscape
  split
  · exact Iff.rfl
  · exact same

/-- Evaluates one of two forms by the value of a test. -/
def branch (test consequent alternative : Value) (frame : FrameId) : Limited Value :=
  fun fuel room => evaluate fuel room test frame >>= fun v =>
    v.unlessEscape (fun fuel room =>
      evaluate fuel room (if v.isFalse then alternative else consequent) frame) fuel room

theorem settles_evaluate_test_iff {i : Nat} {t c e : Value} {o : Outcome Value} :
    Settles (fun fuel room => evaluate fuel room (.list i [.symbol "if", t, c, e]) frame) m o ↔
      Settles (branch t c e frame) m o := by
  rw [← Settles.succ_iff (improving_evaluate _ _)]
  have step (fuel room : Nat) : evaluate (fuel + 1) room (.list i [.symbol "if", t, c, e]) frame =
      deeper room (fun room => evaluate fuel room t frame) >>= fun v =>
        v.unlessEscape (fun fuel room => evaluate fuel room (if v.isFalse then e else c) frame) fuel room := by
    refine ((calls fuel).evaluation_of_keyword room i (k := .test) rfl [t, c, e] frame).trans ?_
    simp only [Form.step, Form.test, bind_assoc]
    refine congrArg (Bind.bind _) (funext fun v => ?_)
    unfold Value.unlessEscape
    cases v.isEscape <;> cases v.isFalse <;> rfl
  simp only [step]
  exact Settles.deeper_bind_iff (a := fun fuel room => evaluate fuel room t frame)
    (improving_evaluate t frame) fun v => Improving.unlessEscape (improving_evaluate _ frame) v

/-- Evaluates forms one after another, for the value of the last. -/
def inOrder (frame : FrameId) : List Value → Limited Value
  | [] => fun _ _ => pure .unspecified
  | [c] => fun fuel room => evaluate fuel room c frame
  | c :: cs => fun fuel room => evaluate fuel room c frame >>= fun v =>
      v.unlessEscape (inOrder frame cs) fuel room

theorem improving_inOrder (frame : FrameId) (cs : List Value) : Improving (inOrder frame cs) := by
  induction cs with
  | nil => exact Improving.plain _
  | cons c cs ih =>
    cases cs with
    | nil => exact improving_evaluate c frame
    | cons => exact Improving.bind (improving_evaluate c frame) fun v => Improving.unlessEscape ih v

theorem settles_evaluate_sequence_iff {i : Nat} {c : Value} {cs : List Value} {o : Outcome Value} :
    Settles (fun fuel room => evaluate fuel room (.list i (.symbol "begin" :: c :: cs)) frame) m o ↔
      Settles (inOrder frame (c :: cs)) m o := by
  have forms {m : Machine} (cs : List Value) :
      Settles (fun fuel room => Form.sequence (fun e => deeper room fun room => evaluate fuel room e frame)
          frame cs >>= (calls fuel).continued room) m o ↔ Settles (inOrder frame cs) m o := by
    induction cs generalizing m with
    | nil => exact Iff.rfl
    | cons c cs ih =>
      cases cs with
      | nil => exact Iff.rfl
      | cons c' cs =>
        have continues (fuel room : Nat) (v : Value) :
            (do
              if v.isEscape then return Next.done v
              Form.sequence (fun e => deeper room fun room => evaluate fuel room e frame) frame (c' :: cs) :
                Run Next) >>= (calls fuel).continued room =
              v.unlessEscape (fun fuel room => Form.sequence (fun e => deeper room fun room =>
                evaluate fuel room e frame) frame (c' :: cs) >>= (calls fuel).continued room) fuel room := by
          unfold Value.unlessEscape
          cases v.isEscape <;> rfl
        have improving : Improving fun fuel room => Form.sequence (fun e => deeper room fun room =>
            evaluate fuel room e frame) frame (c' :: cs) >>= (calls fuel).continued room := by
          intro fuel fuel' room room' hf hr
          have approximates := calls_approximates (s := .more 0) hf
          refine .bind (Form.sequence_approximates (s := .more 0) (fun e => ?_) frame (c' :: cs)) fun next => ?_
          · exact .deeper hr fun _ _ h => approximates.evaluate h e frame
          · cases next with
            | done v => exact .refl _
            | tail form frame => exact approximates.evaluate hr form frame
        simp only [Form.sequence, bind_assoc]
        simp only [continues]
        refine (Settles.deeper_bind_iff (a := fun fuel room => evaluate fuel room c frame)
          (improving_evaluate c frame) fun v => Improving.unlessEscape improving v).trans ?_
        refine Settles.bind_same (improving_evaluate c frame) (improving_evaluate c frame)
          (fun v => Improving.unlessEscape improving v)
          (fun v => Improving.unlessEscape (improving_inOrder frame _) v)
          (fun _ => Iff.rfl) fun v n _ => settles_unlessEscape_congr v ih
  rw [← Settles.succ_iff (improving_evaluate _ _)]
  have step (fuel room : Nat) : evaluate (fuel + 1) room (.list i (.symbol "begin" :: c :: cs)) frame =
      Form.sequence (fun e => deeper room fun room => evaluate fuel room e frame) frame (c :: cs) >>=
        (calls fuel).continued room :=
    (calls fuel).evaluation_of_keyword room i (k := .sequence) rfl (c :: cs) frame
  simp only [step]
  exact forms (c :: cs)

/-- The operands with one more before them. -/
def Operands.after (v : Value) : Operands → Operands
  | .values vs => .values (v :: vs)
  | .escaped u => .escaped u

theorem operandValues_cons (e : Value) (es : List Value) (frame : FrameId) (fuel room : Nat) :
    operandValues (e :: es) frame fuel room =
      deeper room (fun room => evaluate fuel room e frame) >>= fun v =>
        if v.isEscape then pure (.escaped v) else Operands.after v <$> operandValues es frame fuel room := by
  unfold operandValues
  rw [Form.operands]
  refine congrArg (Bind.bind _) (funext fun v => ?_)
  cases v.isEscape with
  | true => rfl
  | false =>
    rw [map_eq_pure_bind]
    refine congrArg (Bind.bind _) (funext fun vs => ?_)
    cases vs <;> rfl

theorem improving_go (vs : Operands) (frame : FrameId) :
    Improving fun fuel room => vs.go frame fuel room := by
  rcases vs with (_ | ⟨procedure, args⟩) | v
  · exact Improving.plain _
  · exact improving_callInPlace frame procedure args
  · exact Improving.plain _

/-- A form headed by no keyword evaluates its operands. -/
theorem settles_evaluate_operands_iff {i : Nat} {head : Value} {rest : List Value} {o : Outcome Value}
    (noKeyword : CoreKeyword.ofHead? head = none) :
    Settles (fun fuel room => evaluate fuel room (.list i (head :: rest)) frame) m o ↔
      Settles (fun fuel room => operandValues (head :: rest) frame fuel room >>=
        fun vs => vs.go frame fuel room) m o := by
  rw [← Settles.succ_iff (improving_evaluate _ _)]
  simp only [evaluate_application noKeyword]

/-- The first operand has been evaluated. -/
theorem settles_operands_cons_iff {e v : Value} {es : List Value} {k : Operands → Limited α} {o : Outcome α}
    (improving : ∀ vs, Improving (k vs)) (here : v.isEscape = false)
    (done : Settles (fun fuel room => evaluate fuel room e frame) m (.ok v, n)) :
    Settles (fun fuel room => operandValues (e :: es) frame fuel room >>= fun vs => k vs fuel room) m o ↔
      Settles (fun fuel room => operandValues es frame fuel room >>= fun vs => k (vs.after v) fuel room) n o := by
  have rest (u : Value) : Improving fun fuel room =>
      (if u.isEscape then pure (.escaped u) else Operands.after u <$> operandValues es frame fuel room) >>=
        fun vs => k vs fuel room := by
    cases u.isEscape with
    | true => exact improving (.escaped u)
    | false =>
      simp only [Bool.false_eq_true, if_false, map_eq_pure_bind, bind_assoc, pure_bind]
      exact Improving.bind (improving_operandValues es frame) fun vs => improving (vs.after u)
  simp only [operandValues_cons, bind_assoc]
  refine (Settles.deeper_bind_iff (a := fun fuel room => evaluate fuel room e frame)
    (improving_evaluate e frame) rest).trans ?_
  refine (Settles.bind_iff (improving_evaluate e frame) (rest v) done).trans ?_
  rw [here]
  simp only [Bool.false_eq_true, if_false, map_eq_pure_bind, bind_assoc, pure_bind]

/-! ## Expansion -/

theorem Settles.congr_at {a a' : Limited α} {o : Outcome α}
    (same : ∀ fuel room, outcome (a fuel room) m = outcome (a' fuel room) m) :
    Settles a m o ↔ Settles a' m o := by
  unfold Settles
  simp only [same]

/-- Expands forms one after another. -/
def expandEach (es : List Value) (toplevel : Bool) : Limited (List Value) :=
  fun fuel room => es.mapM fun e => expand fuel room e toplevel

theorem improving_expandEach (es : List Value) (toplevel : Bool) : Improving (expandEach es toplevel) :=
  fun hf hr => .mapM es fun e => improving_expand e toplevel hf hr

variable {i : Nat} {toplevel : Bool} {es : List Value}

/-- The parts of a form are expanded one level deeper. -/
theorem settles_expandParts_iff {k : List Value → Run α} {o : Outcome α} :
    Settles (fun fuel room => (es.mapM fun e => deeper room fun room => expand fuel room e toplevel) >>= k)
        m o ↔
      Settles (fun fuel room => expandEach es toplevel fuel room >>= k) m o := by
  constructor
  · refine Settles.of_approximates fun fuel room => ⟨fuel, room, .bind (.mapM es fun e => ?_) fun _ => .refl _⟩
    exact .deeper_left fun r hr => improving_expand e toplevel (Nat.le_refl _) (Nat.le_of_lt hr)
  · exact Settles.of_approximates fun fuel room => ⟨fuel, room + 1, .refl _⟩

theorem settles_expandEach_cons_iff {e : Value} {k : List Value → Run α} {o : Outcome α} :
    Settles (fun fuel room => expandEach (e :: es) toplevel fuel room >>= k) m o ↔
      Settles (fun fuel room => expand fuel room e toplevel >>= fun c =>
        expandEach es toplevel fuel room >>= fun cs => k (c :: cs)) m o := by
  simp only [expandEach, List.mapM_cons, bind_assoc, pure_bind]

/-- A symbol is its own expansion. -/
theorem settles_expandEach_symbol_iff {name : String} {k : List Value → Run α} {o : Outcome α} :
    Settles (fun fuel room => expandEach (.symbol name :: es) toplevel fuel room >>= k) m o ↔
      Settles (fun fuel room => expandEach es toplevel fuel room >>= fun cs => k (.symbol name :: cs)) m o := by
  have itself : Settles (fun fuel room => expand fuel room (.symbol name) toplevel) m
      (.ok (.symbol name), m) := ⟨1, 0, rfl, not_stopped_ok⟩
  refine settles_expandEach_cons_iff.trans ?_
  exact Settles.bind_iff (improving_expand _ _)
    (Improving.andThen (improving_expandEach es toplevel) fun cs => k (.symbol name :: cs)) itself

variable {o : Outcome Value}

theorem settles_expand_test_iff {parts : List Value} {t c e : Value}
    (shape : parts = [t, c, e] ∨ parts = [t, c] ∧ e = .unspecified) :
    Settles (fun fuel room => expand fuel room (.list i (.symbol "if" :: parts)) toplevel) m o ↔
      Settles (fun fuel room => expandEach [t, c, e] false fuel room >>= fun cs =>
        newList (.symbol "if" :: cs)) m o := by
  rw [← Settles.succ_iff (improving_expand _ _)]
  refine Iff.trans ?_ settles_expandEach_symbol_iff
  refine Iff.trans ?_ settles_expandParts_iff
  obtain rfl | ⟨rfl, rfl⟩ := shape <;> exact Iff.rfl

theorem settles_expand_sequence_iff {e : Value} :
    Settles (fun fuel room => expand fuel room (.list i (.symbol "begin" :: e :: es)) toplevel) m o ↔
      Settles (fun fuel room => expandEach (e :: es) toplevel fuel room >>= fun cs =>
        newList (.symbol "begin" :: cs)) m o := by
  rw [← Settles.succ_iff (improving_expand _ _)]
  exact (settles_expandParts_iff (k := newList)).trans settles_expandEach_symbol_iff

theorem settles_expand_lambda_iff {ps e : Value} (parameters : Form.areParameters ps = true) :
    Settles (fun fuel room => expand fuel room (.list i (.symbol "lambda" :: ps :: e :: es)) toplevel) m o ↔
      Settles (fun fuel room => Form.body (e :: es) >>= fun body =>
        expand fuel room body false >>= fun core => newList [.symbol "lambda", ps, core]) m o := by
  rw [← Settles.succ_iff (improving_expand _ _)]
  have step (fuel room : Nat) :
      expand (fuel + 1) room (.list i (.symbol "lambda" :: ps :: e :: es)) toplevel =
        Form.body (e :: es) >>= fun body => deeper room (fun room => expand fuel room body false) >>=
          fun core => newList [.symbol "lambda", ps, core] := by
    change (Form.require room _ _ (Form.areParameters ps) >>= _) = _
    rw [parameters]
    rfl
  simp only [step]
  have inside (body : Value) : Improving fun fuel room => expand fuel room body false >>= fun core =>
      newList [.symbol "lambda", ps, core] :=
    Improving.andThen (improving_expand body false) _
  have deeper (body : Value) : Improving fun fuel room =>
      deeper room (fun room => expand fuel room body false) >>= fun core =>
        newList [.symbol "lambda", ps, core] :=
    Improving.andThen (Improving.deeper (improving_expand body false)) _
  refine Settles.bind_same (Improving.plain _) (Improving.plain _) deeper inside (fun _ => Iff.rfl) ?_
  exact fun body n _ => Settles.deeper_bind_iff (a := fun fuel room => expand fuel room body false)
    (k := fun core _ _ => newList [.symbol "lambda", ps, core]) (improving_expand body false)
    fun core => Improving.plain _

section Heads

variable {head : Value} {rest : List Value} (noKeyword : Keyword.ofHead? head = none)
include noKeyword

/-- A form headed by neither a keyword nor the name of a transformer. -/
theorem settles_expand_application_iff (missing : m.transformerOf? head = none) :
    Settles (fun fuel room => expand fuel room (.list i (head :: rest)) toplevel) m o ↔
      Settles (fun fuel room => expandEach (head :: rest) false fuel room >>= newList) m o := by
  rw [← Settles.succ_iff (improving_expand _ _)]
  refine Iff.trans (Settles.congr_at fun fuel room => ?_) settles_expandParts_iff
  change outcome ((calls fuel).expansion room (.list i (head :: rest)) toplevel) m = _
  unfold Calls.expansion
  simp only [noKeyword]
  rw [outcome_bind_of_ok (ends_transformer?.mpr ⟨missing.symm, rfl⟩)]
  rfl

/-- The use of a transformer is expanded as what the transformer makes of it. -/
theorem settles_expand_use_iff {t e : Value} (found : m.transformerOf? head = some t)
    (made : Settles (fun fuel room => apply fuel room t rest Machine.root) m (.ok e, n)) :
    Settles (fun fuel room => expand fuel room (.list i (head :: rest)) toplevel) m o ↔
      Settles (fun fuel room => expand fuel room e false) n o := by
  have improving (e : Value) : Improving fun fuel room => deeper room fun room => expand fuel room e false :=
    Improving.deeper (improving_expand e false)
  rw [← Settles.succ_iff (improving_expand _ _)]
  calc
    _ ↔ Settles (fun fuel room => deeper room (fun room => apply fuel room t rest Machine.root) >>= fun e =>
          deeper room fun room => expand fuel room e false) m o := by
        refine Settles.congr_at fun fuel room => ?_
        change outcome ((calls fuel).expansion room (.list i (head :: rest)) toplevel) m = _
        unfold Calls.expansion
        simp only [noKeyword]
        rw [outcome_bind_of_ok (ends_transformer?.mpr ⟨found.symm, rfl⟩)]
        rfl
    _ ↔ Settles (fun fuel room => apply fuel room t rest Machine.root >>= fun e =>
          deeper room fun room => expand fuel room e false) m o :=
        Settles.deeper_bind_iff (a := fun fuel room => apply fuel room t rest Machine.root)
          (improving_apply t rest Machine.root) improving
    _ ↔ Settles (fun fuel room => deeper room fun room => expand fuel room e false) n o :=
        Settles.bind_iff (improving_apply t rest Machine.root) (improving e) made
    _ ↔ _ := settles_deeper_iff (improving_expand e false)

end Heads

end SmallLisp
