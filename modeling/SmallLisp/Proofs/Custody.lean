import SmallLisp.Proofs.Agreement
import SmallLisp.Proofs.Commands
/-!
# Sessions in custody

A custody says when a machine is safe in a world and which values are good there, and how the machines of other sessions
stand beside it. Engines serve under it when their operations leave a safe machine safe, in a later world, with others
beside them doing the same. Then so does everything that a session does with a text, and every command. This is shown
here once, form by form of a text and command by command.
-/
namespace SmallLisp

open Run

structure Custody (ι : Type) where
  World : Type
  /-- A session may have come from the first world to the second. -/
  Later : World → World → Prop
  Safe : World → Machine → Prop
  Good : World → Value → Prop
  /-- The machine of another session, beside this one. -/
  beside : ι → Machine → Machine
  refl : ∀ w, Later w w
  trans : ∀ {u v w}, Later u v → Later v w → Later u w
  later : ∀ {w w' v}, Later w w' → Good w v → Good w' v
  unspecified : ∀ {w}, Good w .unspecified

/-- States that have a machine. -/
class Housing (σ : Type) where
  machine : σ → Machine
  house : σ → Machine → σ

instance : Housing Machine := ⟨id, fun _ m => m⟩

instance : Housing Session := ⟨Session.machine, fun s m => { s with machine := m }⟩

namespace Custody

open Housing

variable {ι ε σ α β : Type} {C : Custody ι}

/-- The other state beside one. -/
def aside [Housing σ] (C : Custody ι) (i : ι) (s : σ) : σ :=
  house s (C.beside i (machine s))

/-- From a safe state a computation leads to one that is safe in a later world, where what it gives has a property. The
others do the same from the states beside. -/
def Keeps [Housing σ] (C : Custody ι) (w : C.World) (b : ι → Stateful ε σ α) (a : Stateful ε σ α)
    (Q : C.World → α → Prop) : Prop :=
  ∀ s, C.Safe w (machine s) →
    (∀ i, outcome (b i) (C.aside i s) = ((outcome a s).1, C.aside i (outcome a s).2)) ∧
    ∃ w', C.Later w w' ∧ C.Safe w' (machine (outcome a s).2) ∧ ∀ x, (outcome a s).1 = .ok x → Q w' x

namespace Keeps

variable [Housing σ] {w : C.World} {b : ι → Stateful ε σ α} {a : Stateful ε σ α}
  {k : ι → α → Stateful ε σ β} {k' : α → Stateful ε σ β} {P : C.World → α → Prop} {Q : C.World → β → Prop}

theorem pure {x : α} (h : P w x) : C.Keeps w (fun _ => (pure x : Stateful ε σ α)) (pure x) P := by
  refine fun s safe => ⟨fun _ => rfl, w, C.refl w, safe, ?_⟩
  rintro _ ⟨⟩
  exact h

theorem throw (e : ε) : C.Keeps w (fun _ => (throw e : Stateful ε σ α)) (throw e) P :=
  fun _ safe => ⟨fun _ => rfl, w, C.refl w, safe, nofun⟩

theorem bind (first : C.Keeps w b a P)
    (rest : ∀ w', C.Later w w' → ∀ x, P w' x → C.Keeps w' (fun i => k i x) (k' x) Q) :
    C.Keeps w (fun i => b i >>= k i) (a >>= k') Q := by
  intro s safe
  obtain ⟨same, w', later, safe', good⟩ := first s safe
  rcases ended : outcome a s with ⟨e | x, t⟩
  · rw [ended] at same safe'
    rw [outcome_bind_of_error ended]
    exact ⟨fun i => outcome_bind_of_error (same i) _, w', later, safe', nofun⟩
  · rw [ended] at same safe' good
    rw [outcome_bind_of_ok ended]
    obtain ⟨same', w'', later', rest⟩ := rest w' later x (good x rfl) t safe'
    exact ⟨fun i => (outcome_bind_of_ok (same i) _).trans (same' i), w'', C.trans later later', rest⟩

/-- A computation whose result does not matter. -/
theorem next (first : C.Keeps w b a fun _ _ => True)
    (rest : ∀ w', C.Later w w' → ∀ x, C.Keeps w' (fun i => k i x) (k' x) Q) :
    C.Keeps w (fun i => b i >>= k i) (a >>= k') Q :=
  first.bind fun w' later x _ => rest w' later x

/-- The state is read, but not where those beside differ from it. -/
theorem get_bind {k : ι → σ → Stateful ε σ β} {k' : σ → Stateful ε σ β}
    (blind : ∀ i s, k i (C.aside i s) = k i s)
    (rest : ∀ s, C.Safe w (machine s) → C.Keeps w (fun i => k i s) (k' s) Q) :
    C.Keeps w (fun i => get >>= k i) (get >>= k') Q := by
  intro s safe
  obtain ⟨same, rest⟩ := rest s safe s safe
  rw [outcome_bind_of_ok (outcome_get s)]
  refine ⟨fun i => ?_, rest⟩
  rw [outcome_bind_of_ok (outcome_get _), blind]
  exact same i

/-- A change of the state, the same in those beside. -/
theorem modifyGet {g : σ → α × σ} (blind : ∀ i s, g (C.aside i s) = ((g s).1, C.aside i (g s).2))
    (safe : ∀ s, C.Safe w (machine s) → ∃ w', C.Later w w' ∧ C.Safe w' (machine (g s).2) ∧ P w' (g s).1) :
    C.Keeps w (fun _ => (modifyGet g : Stateful ε σ α)) (modifyGet g) P := by
  intro s here
  obtain ⟨w', later, safe', good⟩ := safe s here
  refine ⟨fun i => congrArg (fun r => (Except.ok r.1, r.2)) (blind i s), w', later, safe', ?_⟩
  rintro _ ⟨⟩
  exact good

/-- A continuation is spent after a run. -/
theorem spending {b : ι → Run α} {a : Run α} {P : C.World → α → Prop} (h : C.Keeps w b a P) (k : Nat)
    (blind : ∀ i m, C.beside i (m.spent k) = (C.beside i m).spent k)
    (safe : ∀ w m, C.Safe w m → C.Safe w (m.spent k)) :
    C.Keeps w (fun i => Run.spending k (b i)) (Run.spending k a) P := by
  intro m here
  obtain ⟨same, w', later, safe', good⟩ := h m here
  refine ⟨fun i => ?_, w', later, safe w' _ safe', good⟩
  simp only [outcome_spending, same]
  exact congrArg (Prod.mk _) (blind i _).symm

end Keeps

/-- What the engines of sessions do under a custody. -/
structure Serves (C : Custody ι) (engines : ι → Engine) (engine : Engine) : Prop where
  nesting : ∀ i, (engines i).nesting = engine.nesting
  written : ∀ {w} line, C.Keeps w (fun _ => writeLine line) (writeLine line) fun _ _ => True
  source : ∀ {w v}, C.Good w v →
    C.Keeps w (fun _ => Run.source engine.nesting v) (Run.source engine.nesting v) fun _ _ => True
  /-- The value of a datum that has been read. -/
  instantiate : ∀ {w d p q}, Reader.read engine.nesting p = (.ok (some d), q) →
    C.Keeps w (fun _ => Session.instantiate d) (Session.instantiate d) C.Good
  expand : ∀ {w form}, C.Good w form →
    C.Keeps w (fun i => (engines i).calls.expand engine.nesting form true)
      (engine.calls.expand engine.nesting form true) C.Good
  evaluate : ∀ {w core}, C.Good w core →
    C.Keeps w (fun i => (engines i).calls.evaluate engine.nesting core Machine.root)
      (engine.calls.evaluate engine.nesting core Machine.root) C.Good

/-- The lines written may be taken. -/
def Releases (C : Custody ι) : Prop :=
  ∀ ⦃w⦄, C.Keeps w (fun _ => Session.takeOutput) Session.takeOutput fun _ _ => True

/-- No other session is looked at. -/
def alone (C : Custody ι) : Custody Empty :=
  { C with beside := fun i => i.elim }

theorem Keeps.alone [Housing σ] {w : C.World} {b : ι → Stateful ε σ α} {b' : Empty → Stateful ε σ α}
    {a : Stateful ε σ α} {P : C.World → α → Prop} (h : C.Keeps w b a P) : C.alone.Keeps w b' a P :=
  fun s safe => ⟨fun i => i.elim, (h s safe).2⟩

theorem Serves.alone {engines : ι → Engine} {engines' : Empty → Engine} {engine : Engine}
    (serves : C.Serves engines engine) : C.alone.Serves engines' engine where
  nesting i := i.elim
  written line := (serves.written line).alone
  source good := (serves.source good).alone
  instantiate read := (serves.instantiate read).alone
  expand good := (serves.expand good).alone
  evaluate good := (serves.evaluate good).alone

end Custody

namespace Session

open Custody

variable {ι α : Type} {C : Custody ι} {w : C.World} {engines : ι → Engine} {engine : Engine}
  {P : C.World → α → Prop}

/-- What a request is answered with is good. -/
def Answer.Judged (C : Custody ι) (w : C.World) : Answer → Prop
  | value v => C.Good w v
  | text _ => True
  | cores forms => ∀ core ∈ forms, C.Good w core

theorem fail_keeps (f : Failure) : C.Keeps w (fun _ => (Session.fail f : Act α)) (Session.fail f) P :=
  .throw (Halt.failed f)

theorem run_keeps {b : ι → Run α} {a : Run α} (h : C.Keeps w b a P) :
    C.Keeps w (fun i => run (b i)) (run a) P := by
  intro s safe
  obtain ⟨same, rest⟩ := h s.machine safe
  refine ⟨fun i => ?_, rest⟩
  exact congrArg (fun o => (o.1, { s with machine := o.2 })) (same i)

theorem outcome_keeps {b : ι → Act String} {a : Act String} {P : C.World → String → Prop} (h : C.Keeps w b a P) :
    C.Keeps w (fun i => Repl.outcome (b i)) (Repl.outcome a) fun _ _ => True := by
  intro s safe
  obtain ⟨same, w', later, safe', _⟩ := h s safe
  simp only [outcome_reported, same]
  rcases ended : outcome a s with ⟨(f | _) | x, t⟩ <;>
  · rw [ended] at safe'
    exact ⟨fun _ => rfl, w', later, safe', fun _ _ => trivial⟩

/-- A computation on the symbol table alone, which all sessions share. -/
theorem enter_keeps (table : SymbolTable) :
    C.Keeps w (fun _ => (modify fun s => { s with symbols := table } : Act Unit))
      (modify fun s => { s with symbols := table }) fun _ _ => True :=
  .modifyGet (fun _ _ => rfl) fun _ safe => ⟨w, C.refl w, safe, trivial⟩

variable (serves : C.Serves engines engine)
include serves

theorem reporting_keeps {b : ι → Act α} {a : Act α} (h : C.Keeps w b a P) :
    C.Keeps w (fun i => reporting (b i)) (reporting a) fun w found => ∀ x, found = some x → P w x := by
  intro s safe
  obtain ⟨same, w', later, safe', good⟩ := h s safe
  simp only [outcome_reporting, same]
  rcases ended : outcome a s with ⟨(f | _) | x, t⟩
  -- The report of a failure is a line that is written where the failure left the machine.
  · rw [ended] at safe'
    have written : C.Keeps w' (fun _ => run (writeLine f.report) >>= fun _ => Pure.pure (none : Option α))
        (run (writeLine f.report) >>= fun _ => Pure.pure none) fun w found => ∀ x, found = some x → P w x :=
      (run_keeps (serves.written _)).next fun _ _ _ => .pure nofun
    obtain ⟨same', w'', later', rest⟩ := written t safe'
    exact ⟨same', w'', C.trans later later', rest⟩
  · rw [ended] at safe'
    exact ⟨fun _ => rfl, w', later, safe', nofun⟩
  · rw [ended] at safe' good
    refine ⟨fun _ => rfl, w', later, safe', ?_⟩
    rintro _ ⟨⟩ _ ⟨⟩
    exact good x rfl

theorem printed_keeps {v : Value} (good : C.Good w v) :
    C.Keeps w (fun i => printed (engines i) v) (printed engine v) fun _ _ => True := by
  simp only [printed, serves.nesting]
  exact run_keeps (serves.source good)

theorem readForm_keeps (port : Reader.Port) :
    C.Keeps w (fun i => readForm (engines i) port) (readForm engine port)
      fun w read => ∀ form, read.1 = some form → C.Good w form := by
  simp only [readForm, serves.nesting]
  refine .get_bind (fun _ _ => rfl) fun s _ => ?_
  rcases read : Reader.read engine.nesting { port with symbols := s.symbols } with ⟨f | _ | d, port⟩
  · exact (enter_keeps port.symbols).next fun _ _ _ => fail_keeps f
  · exact (enter_keeps port.symbols).next fun _ _ _ => .pure nofun
  · refine (enter_keeps port.symbols).next fun _ _ _ => (serves.instantiate read).bind fun _ _ v hv => .pure ?_
    rintro _ ⟨⟩
    exact hv

/-- What is folded over the forms of a text stays as it should. -/
theorem foldForms_keeps {steps : ι → α → Value → Act α} {step : α → Value → Act α}
    (stays : ∀ {w w' a}, C.Later w w' → P w a → P w' a)
    (each : ∀ {w a form}, P w a → C.Good w form → C.Keeps w (fun i => steps i a form) (step a form) P)
    {a : α} (ha : P w a) (code : String) :
    C.Keeps w (fun i => foldForms (engines i) (steps i) a code) (foldForms engine step a code) P := by
  -- Each form leads to a later world, so the induction on the fuel is for all worlds.
  have port (fuel : Nat) {w : C.World} (port : Reader.Port) {a : α} (ha : P w a) :
      C.Keeps w (fun i => foldPort (engines i) (steps i) fuel port a) (foldPort engine step fuel port a) P := by
    induction fuel generalizing w port a with
    | zero => exact .pure ha
    | succ fuel ih =>
      refine (readForm_keeps serves port).bind fun w' later (form, port) good => ?_
      cases form with
      | none => exact .pure (stays later ha)
      | some form => exact (each (stays later ha) (good form rfl)).bind fun _ _ a ha => ih port ha
  exact .get_bind (fun _ _ => rfl) fun s _ => port _ _ ha

theorem expand_keeps {form : Value} (good : C.Good w form) :
    C.Keeps w (fun i => expand (engines i) form true) (expand engine form true) C.Good := by
  simp only [expand, serves.nesting]
  exact run_keeps (serves.expand good)

/-- Escapes that have come to the top are refused. -/
theorem evaluate_keeps {core : Value} (good : C.Good w core) :
    C.Keeps w (fun i => evaluate (engines i) core) (evaluate engine core) C.Good := by
  simp only [evaluate, serves.nesting]
  refine (run_keeps (serves.evaluate good)).bind fun w' _ v hv => ?_
  split
  · exact Keeps.bind (P := fun _ _ => False) (fail_keeps _) fun _ _ _ no => no.elim
  · exact .pure hv

theorem parse_keeps (code : String) :
    C.Keeps w (fun i => parse (engines i) code) (parse engine code)
      fun w cores => ∀ core ∈ cores, C.Good w core := by
  have forms : C.Keeps w (fun i => foldForms (engines i) (parseForm (engines i)) [] code)
      (foldForms engine (parseForm engine) [] code) fun w cores => ∀ core ∈ cores, C.Good w core := by
    refine foldForms_keeps serves (fun later good core mem => C.later later (good core mem)) ?_ nofun code
    intro w cores form hcores hform
    refine (expand_keeps serves hform).bind fun w' later core hcore => .pure ?_
    exact List.forall_mem_cons.mpr ⟨hcore, fun core mem => C.later later (hcores core mem)⟩
  exact forms.bind fun _ _ cores good => .pure fun core mem => good core (List.mem_reverse.mp mem)

theorem loadedText_keeps {done : Option (Value × Value)} (good : ∀ x, done = some x → C.Good w x.2) :
    C.Keeps w (fun i => loadedText (engines i) done) (loadedText engine done) fun _ _ => True := by
  unfold loadedText
  split
  · exact .pure trivial
  · exact .pure trivial
  · split
    · exact .pure trivial
    · exact printed_keeps serves (good _ rfl)

section Top

variable {tops : ι → Value → Act Value} {top : Value → Act Value}
  (top_keeps : ∀ {w core}, C.Good w core → C.Keeps w (fun i => tops i core) (top core) C.Good)
include top_keeps

theorem evalBy_keeps (code : String) :
    C.Keeps w (fun i => evalBy (tops i) (engines i) code) (evalBy top engine code) C.Good := by
  refine foldForms_keeps serves (P := C.Good) (fun later good => C.later later good) ?_ C.unspecified code
  exact fun _ hform => (expand_keeps serves hform).bind fun _ _ _ hcore => top_keeps hcore

theorem loadBy_keeps (code : String) :
    C.Keeps w (fun i => loadBy (tops i) (engines i) code) (loadBy top engine code) fun _ _ => True := by
  have forms : C.Keeps w
      (fun i => foldForms (engines i) (fun _ => loadForm (tops i) (engines i)) (.unspecified, .unspecified) code)
      (foldForms engine (fun _ => loadForm top engine) (.unspecified, .unspecified) code)
      fun w done => C.Good w done.2 := by
    refine foldForms_keeps serves (P := fun w (done : Value × Value) => C.Good w done.2)
      (fun later good => C.later later good) ?_ C.unspecified code
    exact fun _ hform => (expand_keeps serves hform).bind fun _ _ _ hcore => (top_keeps hcore).bind
      fun _ _ _ hv => .pure hv
  exact (reporting_keeps serves forms).bind fun _ _ _ good => loadedText_keeps serves good

theorem serveBy_keeps (request : Request) :
    C.Keeps w (fun i => request.serveBy (tops i) (engines i)) (request.serveBy top engine)
      fun w answer => answer.Judged C w := by
  cases request with
  | eval code => exact (evalBy_keeps serves top_keeps code).bind fun _ _ _ good => .pure good
  | load code => exact (loadBy_keeps serves top_keeps code).bind fun _ _ _ _ => .pure trivial
  | parse code => exact (parse_keeps serves code).bind fun _ _ _ good => .pure good

end Top

theorem eval_keeps (code : String) : C.Keeps w (fun i => eval (engines i) code) (eval engine code) C.Good :=
  evalBy_keeps serves (evaluate_keeps serves) code

theorem serve_keeps (request : Request) :
    C.Keeps w (fun i => request.serve (engines i)) (request.serve engine) fun w answer => answer.Judged C w := by
  simp only [Request.serve_eq]
  exact serveBy_keeps serves (evaluate_keeps serves) request

theorem start_keeps (choice : PreludeChoice) (vars : Settings.Variables) (files : Settings.Files) :
    C.Keeps w (fun i => start (engines i) choice vars files) (start engine choice vars files) fun _ _ => True := by
  unfold start
  split
  · exact fail_keeps _
  · exact (eval_keeps serves _).bind fun _ _ _ _ => .pure trivial

theorem evalPrinted_keeps (request : Json) :
    C.Keeps w (fun i => Repl.evalPrinted (engines i) request) (Repl.evalPrinted engine request) fun _ _ => True := by
  unfold Repl.evalPrinted
  split
  · exact (eval_keeps serves _).bind fun _ _ _ good => printed_keeps serves good
  · exact fail_keeps _

variable (releases : C.Releases)
include releases

theorem respond_keeps (request : Json) :
    C.Keeps w (fun i => Repl.respond (engines i) request) (Repl.respond engine request) fun _ _ => True := by
  unfold Repl.respond
  split
  · dsimp only
    split
    · refine Keeps.next (@releases w) fun _ _ _ => (outcome_keeps (evalPrinted_keeps serves _)).next fun _ _ _ => ?_
      exact Keeps.next (@releases _) fun _ _ _ => .pure trivial
    · exact .pure trivial
  · exact .pure trivial

theorem perform_keeps (command : Command) :
    C.Keeps w (fun i => command.perform (engines i)) (command.perform engine) fun _ _ => True := by
  cases command with
  | start choice vars files => exact (start_keeps serves choice vars files).next fun _ _ _ => .pure trivial
  | serve request => exact (serve_keeps serves request).bind fun _ _ _ _ => .pure trivial
  | respond request => exact (respond_keeps serves releases request).next fun _ _ _ => .pure trivial

/-- Whatever a session has done, its machine is safe. -/
theorem performed_safe {s : Session} (safe : C.Safe w s.machine) (commands : List Command) :
    ∃ w', C.Later w w' ∧ C.Safe w' (performed engine s commands).machine := by
  induction commands generalizing w s with
  | nil => exact ⟨w, C.refl w, safe⟩
  | cons command rest ih =>
    obtain ⟨_, w', later, safe', _⟩ := perform_keeps serves releases command s safe
    obtain ⟨w'', later', safe''⟩ := ih safe'
    exact ⟨w'', C.trans later later', safe''⟩

end Session

/-! ## The custody of a discipline -/

mutual

/-- The value of a datum has what every value has from its parts. -/
theorem Hereditary.ofDatum {Good : Value → Prop} (h : Hereditary Good) (d : Datum) (next : Nat) :
    Good (Value.ofDatum d next).1 := by
  cases d with
  | symbol name => exact h.symbol name
  | int n => exact h.int n
  | float x => exact h.float x
  | string s => exact h.string s
  | bool b => exact h.bool b
  | list items => exact h.list.mpr (h.ofData items _)

theorem Hereditary.ofData {Good : Value → Prop} (h : Hereditary Good) (ds : List Datum) (next : Nat) :
    ∀ v ∈ (Value.ofData ds next).1, Good v := by
  cases ds with
  | nil => exact nofun
  | cons d ds =>
    intro v hv
    rcases List.mem_cons.mp hv with rfl | hv
    · exact h.ofDatum d next
    · exact h.ofData ds _ v hv

end

namespace Discipline

variable {α : Type} {D : Discipline} {since : Machine}

/-- The machines to which a discipline leads from a state, and the same beside them. -/
def custody (D : Discipline) (since : Machine) : Custody Unit where
  World := Unit
  Later _ _ := True
  Safe _ m := D.Moves since m ∧ D.Holds m
  Good _ := D.Good
  beside _ m := m
  refl _ := trivial
  trans _ _ := trivial
  later _ h := h
  unspecified := D.hereditary.unspecified

theorem Agree.keeps {w : (D.custody since).World} {b a : Run α} {Q : α → Machine → Prop} {P : α → Prop}
    (agree : D.Agree since b a) (meets : D.Meets a Q) (good : ∀ x n, D.Moves since n → Q x n → P x) :
    (D.custody since).Keeps w (fun _ => b) a fun _ => P := by
  rintro m ⟨moves, holds⟩
  obtain ⟨moves', holds', met⟩ := meets m holds
  have moved := D.trans moves moves'
  refine ⟨fun _ => agree m moves, w, trivial, ⟨moved, holds'⟩, fun x given => ?_⟩
  exact good x _ moved (met x _ (Prod.ext given rfl))

/-- Engines serve whose operations agree along a run and respect the discipline, if what comes to the top is good. -/
theorem custody_serves {engine engine' : Engine} (nesting : engine'.nesting = engine.nesting)
    (agree : Calls.Agree D since engine'.calls engine.calls) (respects : Calls.Respects D engine.calls)
    (registers : D.Registers) (final : ∀ v n, D.Moves since n → D.Final v n → D.Good v) :
    (D.custody since).Serves (fun _ => engine') engine where
  nesting _ := nesting
  written line := (Agree.refl _).keeps (.of_gives (writeLine_gives line)) fun _ _ _ _ => trivial
  source _ := (Agree.refl _).keeps (.of_gives (source_gives _ _)) fun _ _ _ _ => trivial
  instantiate {w d _ _} _ := by
    refine Session.run_keeps (.modifyGet (fun _ _ => rfl) fun m safe => ?_)
    have quiet : m.Quiet { m with nextObject := (Value.ofDatum d m.nextObject).2 } := ⟨rfl, rfl, rfl⟩
    exact ⟨w, trivial, ⟨D.trans safe.1 (D.quiet quiet), safe.2.quiet quiet⟩, D.hereditary.ofDatum d _⟩
  expand good := (agree.expand _ _ _).keeps (respects.expand _ (fun _ => registers) good) fun _ _ _ h => h
  evaluate good := (agree.evaluate _ _ _).keeps (respects.evaluate _ _ good) final

theorem custody_releases : (D.custody since).Releases := by
  refine fun w => .modifyGet (fun _ _ => rfl) fun s safe => ?_
  have quiet : s.machine.Quiet { s.machine with output := #[] } := ⟨rfl, rfl, rfl⟩
  exact ⟨w, trivial, ⟨D.trans safe.1 (D.quiet quiet), safe.2.quiet quiet⟩, trivial⟩

end Discipline

end SmallLisp
