import SmallLisp.Proofs.Discipline
import SmallLisp.Proofs.Obedience
/-!
# Operations that respect a discipline

To respect a discipline is to obey a regime, so a step of each operation respects it when the calls that it makes do.
Expansion asks for more than the other two: what a transformer gives must be good, an escape included.
-/
namespace SmallLisp

open Run

namespace Discipline

variable {D : Discipline} {room : Nat} {frame : FrameId}

/-- Respect for a discipline is a regime. -/
def regime (D : Discipline) : Regime Unit where
  toJudgement := D.judgement
  Beside m _ a Q := D.judgement.Holds m a Q
  Final m v := D.Final v m
  Home _ _ := True
  Registers := D.Registers
  same h := h
  bind_beside h rest := D.judgement.bind_holds h rest
  final h := Or.inl h
  good := Final.good
  root h := h trivial
  home _ _ := trivial
  opens h := ⟨trivial, (D.closure.mp h).2⟩
  closes hparameters hbody _ := D.closure.mpr ⟨hparameters, hbody⟩
  found here _ found := (here.1 ▸ here.2).stores.lookup? found
  transformer here := (here.1 ▸ here.2).transformers
  escapes here live h := Or.inr ⟨_, _, rfl, h, here.1 ▸ live⟩
  frame_holds bound _ holds := ⟨D.frame _ _ _, holds.frame bound _, fun _ _ _ => trivial⟩
  register_holds _ registers h holds := ⟨registers _ _, holds.register h, fun _ _ _ => trivial⟩

theorem regime_bindsFreely (D : Discipline) : D.regime.BindsFreely :=
  fun _ _ _ hb holds => ⟨D.define _ _ _, holds.define hb _, fun _ _ _ => trivial⟩

/-- A call that owns a continuation takes the value out of the escapes to it. -/
theorem Final.received {m : Machine} {v : Value} (h : D.Final v m) (k : Nat) :
    D.Final (v.received k) { m with continuations := m.continuations.setIfInBounds k false } := by
  rcases h with good | ⟨i, w, rfl, good, live⟩
  · refine Or.inl ?_
    unfold Value.received
    split
    · split
      · exact D.escape good
      · exact good
    · exact good
  · unfold Value.received
    dsimp only
    split
    · exact Or.inl good
    · rename_i other
      refine Or.inr ⟨i, w, rfl, good, ?_⟩
      unfold Machine.isLive at live ⊢
      simpa [Array.getD_eq_getD_getElem?, Array.getElem?_setIfInBounds, Ne.symm other] using live

theorem regime_owns (D : Discipline) : D.regime.Owns := by
  intro m go go' body holds
  obtain ⟨moves, holds', final⟩ := body { m with continuations := m.continuations.push true }
    m.continuations.size (fun _ good => good) (D.continuation _) (holds.continuations _)
  rw [outcome_bind_of_ok (outcome_openContinuation m), outcome_bind, outcome_spending]
  rcases ended : outcome (go' m.continuations.size)
      { m with continuations := m.continuations.push true } with ⟨e | v, n⟩
  · rw [ended] at moves holds'
    exact ⟨D.owner moves, holds'.continuations _, nofun⟩
  · rw [ended] at moves holds'
    refine ⟨D.owner moves, holds'.continuations _, ?_⟩
    rintro _ _ ⟨⟩
    exact Final.received (final v n ended) _

theorem lookup_meets (f : FrameId) (target : Value) :
    D.Meets (lookup room f target) fun v _ => D.Good v :=
  fun m => Regime.lookup_holds (R := D.regime) (w := m) target trivial

theorem define_meets (f : FrameId) (target : Value) {v : Value} (hv : D.Good v) :
    D.Meets (Run.define room f target v) fun _ _ => True :=
  fun m => D.regime_bindsFreely.define_holds (w := m) f target hv

theorem assign_meets (f : FrameId) (target : Value) {v : Value} (hv : D.Good v) :
    D.Meets (Run.assign room f target v) fun _ _ => True :=
  fun m => D.regime_bindsFreely.assign_holds (w := m) f target hv

theorem newFrame_meets (parameters : Value) {args : List Value} (hargs : ∀ v ∈ args, D.Good v)
    (outer : Option FrameId) :
    D.Meets (newFrame room parameters args outer) fun _ _ => True :=
  fun m => D.judgement.bind_holds (Judgement.bindParameters_holds (J := D.judgement) (w := m) parameters hargs)
    fun n _ bs hbs holds => ⟨D.frame n bs outer, holds.frame hbs outer, fun _ _ _ => trivial⟩

end Discipline

namespace Form

open Discipline

theorem bindingParts_meets {D : Discipline} {es : List Value} (h : ∀ e ∈ es, D.Good e) :
    D.Meets (bindingParts es) fun part _ => D.Good part.2 :=
  fun m => bindingParts_holds (R := D.regime) (w := m) h

variable {D : Discipline} {nested : Value → Run Value} {room : Nat} {frame : FrameId}
  (hnested : ∀ e, D.Good e → D.Meets (nested e) D.Final)
include hnested

theorem partsBeside (frame : FrameId) : PartsBeside D.regime frame (fun _ => nested) nested :=
  fun _ _ _ he => hnested _ he _

theorem operands_meets {es : List Value} (hes : ∀ e ∈ es, D.Good e) :
    D.Meets (operands nested es) fun vs m => vs.Judged D.regime m :=
  fun m => operands_beside (R := D.regime) (w := m) (partsBeside hnested Machine.root) trivial hes

theorem step_meets (k : CoreKeyword) {parts : List Value} (hparts : ∀ e ∈ parts, D.Good e) :
    D.Meets (step nested room frame k parts) fun next m => next.Judged D.regime m := by
  intro m
  have nested := partsBeside hnested frame
  have items : D.regime.AllGood m (k.symbol :: parts) :=
    List.forall_mem_cons.mpr ⟨D.hereditary.symbol _, hparts⟩
  refine step_beside (R := D.regime) (w := m) (i := 0) nested trivial hparts ?_
  refine bindsBeside_of_free D.regime_bindsFreely nested trivial ?_
  rintro _ _ ⟨⟩
  exact items

end Form

namespace Calls

open Discipline

/-- On good input the operations respect the discipline. -/
structure Respects (D : Discipline) (c : Calls) : Prop where
  evaluate : ∀ room frame {form}, D.Good form → D.Meets (c.evaluate room form frame) D.Final
  apply : ∀ room caller {procedure args}, D.Good procedure → (∀ v ∈ args, D.Good v) →
    D.Meets (c.apply room procedure args caller) D.Final
  expand : ∀ room {form toplevel}, (toplevel = true → D.Registers) → D.Good form →
    D.Meets (c.expand room form toplevel) fun v _ => D.Good v

variable {D : Discipline} {c : Calls} {room : Nat}

namespace Respects

theorem obeys (h : Respects D c) : Obeys D.regime (fun _ => c) c where
  evaluate room _ hform := h.evaluate room _ hform _
  apply room caller hprocedure hargs := h.apply room caller hprocedure hargs _
  expand room registers hform := h.expand room registers hform _

theorem of_obeys (h : Obeys D.regime (fun _ => c) c) : Respects D c where
  evaluate room _ _ hform _ := h.evaluate room trivial hform
  apply room caller _ _ hprocedure hargs _ := h.apply room caller hprocedure hargs
  expand room _ _ registers hform _ := h.expand room registers hform

theorem refuse_meets {α : Type} {Q : α → Machine → Prop} (form : Value) (fault : FormFault) :
    D.Meets (Form.refuse room form fault : Run α) Q :=
  fun m => Judgement.refuse_holds (J := D.judgement) (w := m) form fault

theorem require_meets (form : Value) (fault : FormFault) (ok : Bool) :
    D.Meets (Form.require room form fault ok) fun _ _ => ok = true :=
  fun m => Judgement.require_holds (J := D.judgement) (w := m) form fault ok

theorem halted : Respects D Calls.halted :=
  of_obeys .halted

/-- One more step, when what the calls give on application is good. -/
theorem next (h : Respects D c)
    (happly : ∀ room caller {procedure args}, D.Good procedure → (∀ v ∈ args, D.Good v) →
      D.Meets (c.apply room procedure args caller) fun v _ => D.Good v) : Respects D c.next :=
  have expands : Expands D.regime (fun _ => c) c :=
    { expand := h.obeys.expand
      transform := fun room ht hargs => happly room _ ht hargs _
      evaluate := fun room _ hform => h.obeys.evaluate room trivial hform }
  of_obeys (h.obeys.next D.regime_bindsFreely D.regime_owns expands)

end Respects

/-- A discipline under which every value is good is respected by every run. -/
theorem respects_of_all_good (all : ∀ v, D.Good v) (fuel : Nat) : Respects D (calls fuel) := by
  induction fuel with
  | zero => exact Respects.halted
  | succ fuel ih =>
    refine ih.next fun room caller _ _ hp hargs => ?_
    exact (ih.apply room caller hp hargs).mono fun v _ _ => all v

end Calls

/-! ## Operations that follow others

A run that respects a discipline may be followed by another that has its outcome wherever they are asked for it. One
more step of operations that are followed is followed as well. -/

namespace Discipline

variable {D : Discipline} {Here : Machine → Prop} {Early : Halt → Prop} {α β : Type} {m : Machine}

/-- In a state that is here the second computation has the outcome of the first, unless that is stopped early. -/
def Follows (Here : Machine → Prop) (Early : Halt → Prop) (m : Machine) (a b : Run α) : Prop :=
  Here m → Stopped Early (outcome a m) ∨ outcome b m = outcome a m

theorem Follows.bind {a b : Run α} {k k' : α → Run β} {P : Machine → α → Prop}
    (stays : ∀ {m n}, D.Moves m n → Here m → Here n) (h : Follows Here Early m a b) (holds : D.Holds m)
    (judged : D.judgement.Holds m a P)
    (rest : ∀ n x, D.Moves m n → D.Holds n → P n x → Follows Here Early n (k x) (k' x)) :
    Follows Here Early m (a >>= k) (b >>= k') := by
  intro here
  obtain ⟨moves, holds', good⟩ := judged holds
  rw [outcome_bind, outcome_bind]
  rcases h here with ⟨e, n, ended, early⟩ | same
  · rw [ended]
    exact Or.inl ⟨e, n, rfl, early⟩
  · rw [same]
    rcases ended : outcome a m with ⟨e | x, n⟩
    · exact Or.inr rfl
    · rw [ended] at moves holds'
      exact rest n x moves holds' (good x n ended) (stays moves here)

/-- To respect a discipline and to be followed is a regime, where what the discipline allows stays here. -/
def following (D : Discipline) (Here : Machine → Prop) (Early : Halt → Prop) (Registers : Prop)
    (stays : ∀ {m n}, D.Moves m n → Here m → Here n) (registers : Registers → D.Registers) : Regime Unit :=
  { D.regime with
    Beside := fun m b a Q => D.judgement.Holds m a Q ∧ (D.Holds m → Follows Here Early m a (b ()))
    Registers := Registers
    same := fun h => ⟨h, fun _ _ => Or.inr rfl⟩
    bind_beside := fun first rest =>
      ⟨D.judgement.bind_holds first.1 fun n moves x hx => (rest n moves x hx).1, fun holds =>
        (first.2 holds).bind stays holds first.1 fun n x moves holds' hx => (rest n moves x hx).2 holds'⟩
    root := fun h => h trivial
    register_holds := fun name allowed => D.regime.register_holds name (registers allowed) }

end Discipline

/-- No transformer is registered or taken away. -/
def keepingTransformers : Discipline where
  Good _ := True
  Moves m n := n.transformers = m.transformers
  hereditary := by constructor <;> simp
  closure := by simp
  escape := by simp
  continuation := by simp
  primitive := by simp
  control := by simp
  trans h h' := h'.trans h
  quiet h := h.transformers
  define _ _ _ := rfl
  frame _ _ _ := rfl
  owner h := h

theorem keepingTransformers_holds (m : Machine) : keepingTransformers.Holds m :=
  ⟨fun _ _ _ => trivial, fun _ _ => trivial⟩

theorem transformers_evaluate (fuel room : Nat) (form : Value) (frame : FrameId) (m : Machine) :
    (outcome (evaluate fuel room form frame) m).2.transformers = m.transformers := by
  have respects := Calls.respects_of_all_good (D := keepingTransformers) (fun _ => trivial) fuel
  have run : keepingTransformers.Meets (evaluate fuel room form frame) _ :=
    respects.evaluate room frame trivial
  exact (run m (keepingTransformers_holds m)).1

theorem transformers_apply (fuel room : Nat) (procedure : Value) (args : List Value)
    (caller : FrameId) (m : Machine) :
    (outcome (apply fuel room procedure args caller) m).2.transformers = m.transformers := by
  have respects := Calls.respects_of_all_good (D := keepingTransformers) (fun _ => trivial) fuel
  have run : keepingTransformers.Meets (apply fuel room procedure args caller) _ :=
    respects.apply room caller trivial fun _ _ => trivial
  exact (run m (keepingTransformers_holds m)).1

/-- Inside a form no transformer is registered. -/
theorem transformers_expand (fuel room : Nat) (form : Value) (m : Machine) :
    (outcome (expand fuel room form false) m).2.transformers = m.transformers := by
  have respects := Calls.respects_of_all_good (D := keepingTransformers) (fun _ => trivial) fuel
  have run : keepingTransformers.Meets (expand fuel room form false) _ :=
    respects.expand room (by simp) trivial
  exact (run m (keepingTransformers_holds m)).1

end SmallLisp
