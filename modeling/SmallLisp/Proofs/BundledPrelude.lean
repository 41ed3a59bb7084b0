import SmallLisp.Proofs.DerivedForms
import SmallLisp.Proofs.RootedSessions
/-!
# The bundled prelude

A session that starts with the bundled prelude has its transformers registered, and the procedures that they
call have their meaning. So it is as long as no one defines them anew.
-/
namespace SmallLisp

open Run

/-! ## Whether the prelude is in force -/

/-- A name stands for a built-in procedure in a frame. -/
def Frames.hasBuiltin (fs : Frames) (f : FrameId) (name : String) (p : Primitive) : Bool :=
  (fs.lookup? f (.name name)).any (Value.same (.primitive p))

theorem Frames.lookup?_of_hasBuiltin {fs : Frames} {f : FrameId} {name : String} {p : Primitive}
    (h : fs.hasBuiltin f name p = true) : fs.lookup? f (.name name) = some (.primitive p) :=
  Value.eq_some_of_same_builtin rfl h

/-- The list procedures that the transformers of the prelude call. -/
def Prelude.listProcedures : List (String × Primitive) :=
  [("null?", .isKind .empty), ("=", .compare .equal), ("length", .length), ("car", .car), ("cdr", .cdr),
    ("cons", .cons), ("append", .append)]

def Frames.hasListProcedures (fs : Frames) (f : FrameId) : Bool :=
  Prelude.listProcedures.all fun (name, p) => fs.hasBuiltin f name p

theorem Frames.hasListProcedures_sound {fs : Frames} {f : FrameId} (h : fs.hasListProcedures f = true) :
    fs.HasListProcedures f := by
  have bound (name : String) (p : Primitive) (mem : (name, p) ∈ Prelude.listProcedures) :
      fs.lookup? f (.name name) = some (.primitive p) :=
    lookup?_of_hasBuiltin (List.all_eq_true.mp h _ mem)
  constructor <;> exact bound _ _ (by simp [Prelude.listProcedures])

def Machine.hasPrelude (m : Machine) : Bool :=
  (m.transformers.get? (.name "and")).any (Value.isTransformer "args" conjunctionCode) &&
    (m.transformers.get? (.name "or")).any (Value.isTransformer "args" disjunctionCode) &&
    (m.transformers.get? (.name "when")).any (Value.isTransformer "form" onTrueCode) &&
    (m.transformers.get? (.name "unless")).any (Value.isTransformer "form" onFalseCode) &&
    (m.transformers.get? (.name "let")).any (Value.same (.primitive .expandLet))

theorem Machine.hasPrelude_sound {m : Machine} (h : m.hasPrelude = true) : m.HasPrelude := by
  simp only [hasPrelude, Bool.and_eq_true] at h
  obtain ⟨⟨⟨⟨conjunction, disjunction⟩, onTrue⟩, onFalse⟩, binding⟩ := h
  exact ⟨conjunction, disjunction, onTrue, onFalse, binding⟩

/-! ## The bundled text -/

namespace Prelude

/-- The text line by line. -/
def rows : List String :=
  ["(define-macro and (lambda args\n", "  (if (null? args) #t\n", "      (if (= (length args) 1) (car args)\n",
    "          `(if ,(car args) (and ,@(cdr args)) #f)))))\n", "\n",
    "(define-macro or (lambda args\n", "  (if (null? args) #f\n", "      (if (= (length args) 1) (car args)\n",
    "          `(let ((or-value ,(car args)))\n", "             (if or-value or-value (or ,@(cdr args))))))))\n", "\n",
    "(define-macro when (lambda form\n", "  `(if ,(car form) (begin ,@(cdr form)))))\n", "\n",
    "(define-macro unless (lambda form\n", "  `(if (not ,(car form)) (begin ,@(cdr form)))))\n"]

set_option maxRecDepth 100000 in
theorem text_eq_rows : text = String.ofList (rows.flatMap String.toList) :=
  rfl

theorem toList_text : text.toList = rows.flatMap String.toList := by
  rw [text_eq_rows, String.toList_ofList]

end Prelude

namespace Session

/-- A fresh session that has been started with the bundled prelude. -/
def bundled : Session :=
  performed Limits.standard (fresh 0 .zeros) [.start .configured [] bundledFiles]

theorem bundled_rooted : bundled.machine.Rooted :=
  performed_rooted Limits.standard 0 .zeros _

/-- The bundled text, its lines to be read. -/
def preludePort : Reader.Port :=
  ⟨[], Text.lines (Text.unifyBreaks (Prelude.rows.flatMap String.toList)), (fresh 0 .zeros).symbols⟩

theorem preludePort_eq :
    Reader.Port.ofText (String.ofList (Text.unifyBreaks Prelude.text.toList)) (fresh 0 .zeros).symbols = preludePort := by
  unfold Reader.Port.ofText preludePort
  rw [String.toList_ofList, Prelude.toList_text]

/-- The forms of the bundled text, each expanded and evaluated before the next is read. -/
def preludeRun (port : Reader.Port) : Act Value :=
  foldPort Limits.standard (fun _ form => do evaluate Limits.standard (← expand Limits.standard form true))
    (port.unread + 1) port .unspecified

/-- A start comes to the evaluation of the prelude. -/
theorem performed_start {engine : Engine} {s : Session} {choice : PreludeChoice} {vars : Settings.Variables}
    {files : Settings.Files} {code : String} (text : preludeText choice vars files = .ok code) :
    performed engine s [.start choice vars files] = (outcome (eval engine code) s).2 := by
  have last {α β : Type} (a : Act α) (k : α → β) : (outcome (do return k (← a)) s).2 = (outcome a s).2 := by
    rw [outcome_bind]
    rcases outcome a s with ⟨_ | _, _⟩ <;> rfl
  have started : start engine choice vars files = (do let _ ← eval engine code; return ()) := by
    unfold start
    rw [text]
  refine (last (start engine choice vars files) fun _ => Reply.started).trans ?_
  rw [started]
  exact last (eval engine code) fun _ => ()

theorem eval_eq_preludeRun (code : String) (s : Session) :
    outcome (eval Limits.standard code) s = outcome (preludeRun (Reader.Port.ofText code s.symbols)) s :=
  rfl

theorem bundled_eq : bundled = (outcome (preludeRun preludePort) (fresh 0 .zeros)).2 := by
  have text : preludeText .configured [] bundledFiles =
      .ok (String.ofList (Text.unifyBreaks Prelude.text.toList)) := rfl
  unfold bundled
  rw [performed_start text, eval_eq_preludeRun, preludePort_eq]

/-- The prelude is in force from the start. -/
theorem bundled_inForce : bundled.machine.hasPrelude = true ∧
    bundled.machine.frames.hasListProcedures Machine.root = true ∧
    bundled.machine.frames.hasBuiltin Machine.root "not" .not = true ∧
    (bundled.machine.transformers.get? (.name "not")).isNone = true := by
  rw [bundled_eq]
  decide +kernel

theorem bundled_ready : bundled.machine.Ready where
  founded := bundled_rooted.founded
  prelude := Machine.hasPrelude_sound bundled_inForce.1
  procedures := Frames.hasListProcedures_sound bundled_inForce.2.1

end Session

/-- So it is in every state in which its names are not registered anew and the list procedures have their
meaning. -/
theorem Machine.Rooted.ready {m : Machine} (rooted : m.Rooted)
    (kept : ∀ name ∈ ["and", "or", "when", "unless", "let"],
      m.transformers.get? (.name name) = Session.bundled.machine.transformers.get? (.name name))
    (procedures : m.frames.HasListProcedures root) : m.Ready := by
  have h := Session.bundled_ready.prelude
  refine ⟨rooted.founded, ⟨?_, ?_, ?_, ?_, ?_⟩, procedures⟩
  · rw [kept _ (by simp)]
    exact h.conjunction
  · rw [kept _ (by simp)]
    exact h.disjunction
  · rw [kept _ (by simp)]
    exact h.onTrue
  · rw [kept _ (by simp)]
    exact h.onFalse
  · rw [kept _ (by simp)]
    exact h.binding

end SmallLisp
