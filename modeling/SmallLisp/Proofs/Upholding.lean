import SmallLisp.Proofs.Custody
import SmallLisp.Proofs.Obedience
import SmallLisp.Proofs.RoundTrip
import SmallLisp.Proofs.Tokens
/-!
# What computations uphold

Two things hold of every computation at once. It does not look at the lines written before it, so it does the
same behind any others and writes its own after them. And a property of the symbols that a text can
write, which passes between a value and its parts, it keeps for all values that the state holds. Neither
needs the other, but both follow the same steps, of an operation of the evaluator and of a session.
-/
namespace SmallLisp

open Run Custody

/-- A property of the symbols that a text can write, which every value but a symbol has just when its parts
have it. -/
structure Inherited (Good : Value → Prop) : Prop where
  symbol : ∀ {name : String}, Reader.IsAtomToken name.toList → Good (.symbol name)
  parts : ∀ {v : Value}, v.name? = none → (Good v ↔ ∀ u ∈ v.parts, Good u)

/-- The state with other lines written before its own. -/
def Machine.behind (m : Machine) (earlier : Array String) : Machine :=
  { m with output := earlier ++ m.output }

namespace Inherited

variable {Good : Value → Prop} (good : Inherited Good)
include good

theorem atom {v : Value} (unnamed : v.name? = none) (none : v.parts = []) : Good v := by
  rw [good.parts unnamed, none]
  simp

theorem list {i : Nat} {items : List Value} : Good (.list i items) ↔ ∀ v ∈ items, Good v :=
  good.parts rfl

theorem closure {i : Nat} {parameters body : Value} {home : FrameId} :
    Good (.closure i parameters body home) ↔ Good parameters ∧ Good body := by
  rw [good.parts rfl]
  simp [Value.parts]

theorem escape {k : Nat} {v : Value} : Good (.escape k v) ↔ Good v := by
  rw [good.parts rfl]
  simp [Value.parts]

theorem unspecified : Good .unspecified :=
  good.atom rfl rfl

theorem core {name : String} (h : name ∈ coreNames) : Good (.symbol name) := by
  have tokens : ∀ name ∈ coreNames, name.toList ≠ [] ∧ name.toList.all Reader.isAtomChar = true := by
    decide
  obtain ⟨nonempty, all⟩ := tokens name h
  exact good.symbol (.of_all nonempty all)

theorem received {v : Value} (h : Good v) (k : Nat) : Good (v.received k) := by
  unfold Value.received
  split
  · split
    · exact good.escape.mp h
    · exact h
  · exact h

/-- States are safe whose values have the property, and beside them stand those with other lines. -/
def custody : Custody (Array String) where
  World := Unit
  Later _ _ := True
  Safe _ m := m.Stores Good
  Good _ := Good
  beside earlier m := m.behind earlier
  refl _ := trivial
  trans _ _ := trivial
  later _ h := h
  unspecified := good.unspecified

section Runs

variable {α : Type} {w : good.custody.World}

/-- A change of the state that neither the lines written nor the values held have to do with. -/
theorem still_keeps {g : Machine → α × Machine}
    (blind : ∀ earlier m, g (m.behind earlier) = ((g m).1, (g m).2.behind earlier))
    (stores : ∀ m : Machine, m.Stores Good → (g m).2.Stores Good) :
    good.custody.Keeps w (fun _ => modifyGet g) (modifyGet g : Run α) fun _ _ => True :=
  .modifyGet blind fun m safe => ⟨w, trivial, stores m safe, trivial⟩

theorem newObject_keeps : good.custody.Keeps w (fun _ => newObject) newObject fun _ _ => True :=
  good.still_keeps (fun _ _ => rfl) fun _ stores => stores.congr rfl rfl

/-- A line is written after those that are there. -/
theorem writeLine_keeps (line : String) :
    good.custody.Keeps w (fun _ => writeLine line) (writeLine line) fun _ _ => True := by
  refine good.still_keeps (fun earlier m => ?_) fun _ stores => stores.congr rfl rfl
  have pushed : (earlier ++ m.output).push line = earlier ++ m.output.push line := Array.push_append
  exact congrArg (fun output => ((), { m with output })) pushed

end Runs

/-- What computations uphold is a judgement. -/
def judgement : Judgement where
  World := Unit
  Later _ _ := True
  Good _ := Good
  At _ m := m.Stores Good
  Holds w a Q := good.custody.Keeps w (fun _ => a) a Q
  refl _ := trivial
  trans _ _ := trivial
  later _ h := h
  symbol := good.core
  int _ := good.atom rfl rfl
  float _ := good.atom rfl rfl
  nan _ := good.atom rfl rfl
  bool _ := good.atom rfl rfl
  unspecified := good.unspecified
  items h := good.list.mp h
  pure_holds h := .pure h
  throw_holds h := .throw h
  bind_holds h rest := h.bind rest
  get_holds blind rest := .get_bind (fun earlier m => blind m (earlier ++ m.output)) rest
  newObject_holds := good.newObject_keeps
  newList_holds h := good.newObject_keeps.next fun _ _ _ => .pure (good.list.mpr h)
  writeLine_holds := good.writeLine_keeps
  draw_holds := good.still_keeps (fun _ _ => rfl) fun _ stores => stores.congr rfl rfl

/-- Upholding is a regime: any frame may be bound in, and transformers registered. -/
def regime : Regime Unit where
  toJudgement := good.judgement
  Beside w _ a Q := good.custody.Keeps w (fun _ => a) a Q
  Final _ := Good
  Home _ _ := True
  Registers := True
  same h := h
  bind_beside h rest := h.bind rest
  final h := h
  good h _ := h
  root h := h trivial
  home _ _ := trivial
  opens h := ⟨trivial, (good.closure.mp h).2⟩
  closes hparameters hbody _ := good.closure.mpr ⟨hparameters, hbody⟩
  found holds _ found := Machine.Stores.lookup? holds found
  transformer holds := Machine.Stores.transformers holds
  escapes _ _ h := good.escape.mpr h
  frame_holds bound _ := good.still_keeps (fun _ _ => rfl) fun _ stores => stores.frame bound _
  register_holds _ _ h := good.still_keeps (fun _ _ => rfl) fun _ stores => stores.register h

theorem bindsFreely : good.regime.BindsFreely :=
  fun _ _ _ hb => good.still_keeps (fun _ _ => rfl) fun _ stores => stores.define hb _

theorem owns : good.regime.Owns := by
  intro _ _ _ body
  have opened : good.custody.Keeps () (fun _ => openContinuation) openContinuation fun _ _ => True :=
    good.still_keeps (fun _ _ => rfl) fun _ stores => stores.congr rfl rfl
  refine opened.next fun _ _ k => ?_
  have spent := Keeps.spending (body () k (fun _ h => h) (good.atom rfl rfl)) k (fun _ _ => rfl)
    fun _ _ stores => stores.congr rfl rfl
  exact spent.bind fun _ _ _ h => .pure (good.received h k)

/-- Every run upholds an inherited property. -/
theorem calls_obey (fuel : Nat) : Calls.Obeys good.regime (fun _ => calls fuel) (calls fuel) :=
  SmallLisp.calls_obey good.bindsFreely good.owns (fun h => h) fuel

end Inherited

/-! ## Sessions -/

/-- An outcome is an application. Comparing the two sides anywhere else would open the computation. -/
theorem Run.outcome_apply {ε σ α : Type} (a : Stateful ε σ α) (m : σ) : outcome a m = a m := rfl

mutual

/-- The value of a datum that was read. -/
theorem Inherited.ofDatum {Good : Value → Prop} (good : Inherited Good) {d : Datum} (h : d.IsReadable)
    (next : Nat) : Good (Value.ofDatum d next).1 := by
  cases h with
  | symbol token => exact good.symbol token
  | list items => exact good.list.mpr (good.ofData items _)
  | _ => exact good.atom rfl rfl

theorem Inherited.ofData {Good : Value → Prop} (good : Inherited Good) {ds : List Datum}
    (h : ∀ d ∈ ds, d.IsReadable) (next : Nat) : ∀ v ∈ (Value.ofData ds next).1, Good v := by
  cases ds with
  | nil => exact nofun
  | cons d ds =>
    obtain ⟨first, later⟩ := List.forall_mem_cons.mp h
    exact List.forall_mem_cons.mpr ⟨good.ofDatum first next, good.ofData later _⟩

end

namespace Inherited

variable {Good : Value → Prop} (good : Inherited Good)
include good

/-- Engines serve whatever the lines are behind which they write. -/
theorem serves (limits : Limits) : good.custody.Serves (fun _ => limits) limits where
  nesting _ := rfl
  written := good.writeLine_keeps
  source _ := Judgement.source_holds (J := good.judgement) _
  instantiate read := by
    have readable := (Reader.isReadableIn_of_form ((outcome_apply _ _).trans read)).1
    refine Session.run_keeps (.modifyGet (fun _ _ => rfl) fun m safe => ?_)
    exact ⟨(), trivial, safe.congr rfl rfl, good.ofDatum readable m.nextObject⟩
  expand h := (good.calls_obey limits.steps).expand (w := ()) _ (fun _ => trivial) h
  evaluate h := (good.calls_obey limits.steps).evaluate (w := ()) _ trivial h

/-- Lines are taken from a session beside which no other stands. -/
theorem releases : good.custody.alone.Releases :=
  fun _ => .modifyGet (fun i => i.elim) fun _ stores => ⟨(), trivial, stores.congr rfl rfl, trivial⟩

end Inherited

namespace Session

/-- The session with other lines written before its own. -/
def behind (s : Session) (earlier : Array String) : Session :=
  { s with machine := s.machine.behind earlier }

/-- The session with no line written. -/
def silent (s : Session) : Session :=
  { s with machine := { s.machine with output := #[] } }

/-- A response to a request for evaluation: what was written before it is dropped, and what was written
meanwhile is taken. -/
theorem outcome_evaluated (engine : Engine) (request : Json) (s : Session) :
    outcome (Repl.evaluated engine request) s =
      match outcome (Repl.evalPrinted engine request) s.silent with
      | (.ok text, t) => (.ok ⟨.ok text, t.machine.output.toList⟩, t.silent)
      | (.error (.failed f), t) => (.ok ⟨.error f.report, t.machine.output.toList⟩, t.silent)
      | (.error .outOfSteps, t) => (.error .outOfSteps, t) := by
  have taken : outcome takeOutput s = (.ok s.machine.output.toList, s.silent) := rfl
  unfold Repl.evaluated
  rw [outcome_bind_of_ok taken, outcome_bind, outcome_reported]
  rcases outcome (Repl.evalPrinted engine request) s.silent with ⟨(f | _) | text, t⟩ <;> rfl

section Stores

variable {Good : Value → Prop} (good : Inherited Good)
include good

/-- Whatever a session has done, the values that it holds have the property. -/
theorem performed_stores (limits : Limits) {s : Session} (h : s.machine.Stores Good) (commands : List Command) :
    (performed limits s commands).machine.Stores Good := by
  have serves : good.custody.alone.Serves (fun i => i.elim) limits := (good.serves limits).alone
  obtain ⟨_, _, stores⟩ := performed_safe (w := ()) serves good.releases h commands
  exact stores

theorem fresh_stores (table : Nat) (draws : Draws) : (fresh table draws).machine.Stores Good := by
  refine ⟨fun f b mem => ?_, List.forall_mem_singleton.mpr (good.atom rfl rfl)⟩
  obtain ⟨named, inside, rfl⟩ := mem_fresh_bindings mem
  have procedures : (Machine.builtins.all fun named => named.2.name?.isNone && named.2.parts.isEmpty) =
      true := rfl
  have this := List.all_eq_true.mp procedures named inside
  rw [Bool.and_eq_true, Option.isNone_iff_eq_none, List.isEmpty_iff] at this
  exact good.atom this.1 this.2

end Stores

end Session

end SmallLisp
