import SmallLisp.Proofs.Levels
import SmallLisp.Proofs.Regime
/-!
# Operations that obey a regime

One lemma for each operation: a step of it obeys a regime when the calls that it makes do. Expansion asks for more than
the other two, since what a transformer gives must be good, an escape included.
-/
namespace SmallLisp

open Run Judgement

variable {ι : Type} {R : Regime ι}

/-- A call that owns a continuation comes to something final when its body does, from wherever the body begins with the
continuation and with all that is good now. -/
def Regime.Owns (R : Regime ι) : Prop :=
  ∀ ⦃w : R.World⦄ ⦃go : ι → Nat → Run Value⦄ ⦃go' : Nat → Run Value⦄,
    (∀ w' k, (∀ v, R.Good w v → R.Good w' v) → R.Good w' (.continuation k) →
      R.Beside w' (fun i => go i k) (go' k) R.Final) →
    R.Beside w
      (fun i => do
        let k ← openContinuation
        let v ← spending k (go i k)
        return v.received k)
      (do
        let k ← openContinuation
        let v ← spending k (go' k)
        return v.received k) R.Final

namespace Calls

variable {c : ι → Calls} {c' : Calls} {w : R.World} {room : Nat} {frame : FrameId} {form procedure : Value}
  {args : List Value} {toplevel : Bool}

/-- What expansion asks of the calls that it makes. Bodies of transformers are run only where these may be
registered. -/
structure Expands (R : Regime ι) (c : ι → Calls) (c' : Calls) : Prop where
  expand : ∀ {w form toplevel} room, (toplevel = true → R.Registers) → R.Good w form →
    R.Beside w (fun i => (c i).expand room form toplevel) (c'.expand room form toplevel) R.Good
  transform : ∀ {w transformer args} room, R.Good w transformer → R.AllGood w args →
    R.Beside w (fun i => (c i).apply room transformer args Machine.root)
      (c'.apply room transformer args Machine.root) R.Good
  evaluate : ∀ {w form} room, R.Registers → R.Good w form →
    R.Beside w (fun i => (c i).evaluate room form Machine.root) (c'.evaluate room form Machine.root) R.Final

/-- The operations obey a regime. -/
structure Obeys (R : Regime ι) (c : ι → Calls) (c' : Calls) : Prop where
  evaluate : ∀ {w form frame} room, R.Home w frame → R.Good w form →
    R.Beside w (fun i => (c i).evaluate room form frame) (c'.evaluate room form frame) R.Final
  apply : ∀ {w procedure args} room caller, R.Good w procedure → R.AllGood w args →
    R.Beside w (fun i => (c i).apply room procedure args caller) (c'.apply room procedure args caller) R.Final
  expand : ∀ {w form toplevel} room, (toplevel = true → R.Registers) → R.Good w form →
    R.Beside w (fun i => (c i).expand room form toplevel) (c'.expand room form toplevel) R.Good

namespace Obeys

variable (h : Obeys R c c')
include h

theorem callInPlace (caller : FrameId) (hprocedure : R.Good w procedure) (hargs : R.AllGood w args) :
    R.Beside w (fun i => (c i).callInPlace room caller procedure args)
      (c'.callInPlace room caller procedure args) R.Final := by
  unfold Calls.callInPlace
  split
  · obtain ⟨home, body⟩ := R.opens hprocedure
    refine (Regime.newFrame_holds _ hargs home).beside fun w' later inside here => ?_
    exact h.evaluate _ here (R.later later body)
  · exact h.apply _ _ hprocedure hargs

theorem evaluation (free : R.BindsFreely) (here : R.Home w frame) (hform : R.Good w form) :
    R.Beside w (fun i => (c i).evaluation room form frame) (c'.evaluation room form frame) R.Final := by
  have parts : Form.PartsBeside R frame (fun i e => deeper room fun room => (c i).evaluate room e frame)
      fun e => deeper room fun room => c'.evaluate room e frame :=
    fun _ _ here he => .deeper fun r => h.evaluate r here he
  exact Form.evaluateBy_beside parts (h.evaluate _) (h.callInPlace frame) here hform
    (Form.bindsBeside_of_free free parts here fun i vs same => R.items (same ▸ hform))

theorem application (owns : procedure = .control .callWithEscape → R.Owns) (caller : FrameId)
    (hprocedure : R.Good w procedure) (hargs : R.AllGood w args) :
    R.Beside w (fun i => (c i).application room procedure args caller)
      (c'.application room procedure args caller) R.Final := by
  unfold Calls.application
  split
  · obtain ⟨home, body⟩ := R.opens hprocedure
    refine (Regime.newFrame_holds _ hargs home).beside fun w' later inside here => .deeper fun r => ?_
    exact h.evaluate _ here (R.later later body)
  · exact R.same (Regime.invoke_holds _ hargs)
  · refine (twoOperands_holds _ hargs).beside fun w₁ _ (f, operands) both => ?_
    refine (listOperand_holds _ both.2).beside fun w₂ later vs hvs => .deeper fun r => ?_
    exact h.apply _ _ (R.later later both.1) hvs
  · refine (oneOperand_holds _ hargs).beside fun w₁ _ form hform => ?_
    refine (Regime.Beside.deeper fun r => h.expand r (by simp) hform).bind fun w₂ _ core hcore => .deeper fun r => ?_
    exact R.root fun here => h.evaluate _ here hcore
  · refine (oneOperand_holds _ hargs).beside fun w₁ _ f hf => ?_
    refine owns rfl fun w₂ k kept continuation => .deeper fun r => ?_
    exact h.apply _ _ (kept f hf) (List.forall_mem_singleton.mpr continuation)
  · exact (R.same (run_holds _ hargs)).mono fun _ _ _ good => R.final good
  · exact (source_holds _).beside fun _ _ _ _ => Regime.fail_beside _

/-- When what is final is good, an expansion asks for no more. -/
theorem expands (good : ∀ {w v}, R.Final w v → R.Good w v) : Expands R c c' where
  expand := h.expand
  transform room ht hargs := (h.apply room _ ht hargs).mono fun _ _ _ final => good final
  evaluate room _ hform := R.root fun here => h.evaluate room here hform

end Obeys

namespace Expands

variable (h : Expands R c c')
include h

theorem inner (toplevel : Bool) (registers : toplevel = true → R.Registers) (hform : R.Good w form) :
    R.Beside w (fun i => deeper room fun room => (c i).expand room form toplevel)
      (deeper room fun room => c'.expand room form toplevel) R.Good :=
  .deeper fun _ => h.expand _ registers hform

theorem definition {head : Value} {rest : List Value} (registers : toplevel = true → R.Registers)
    (hhead : R.Good w head) (hrest : R.AllGood w rest) :
    R.Beside w (fun i => (c i).definition room form head rest toplevel)
      (c'.definition room form head rest toplevel) R.Good := by
  unfold Calls.definition
  dsimp only
  split
  · exact Regime.refuse_beside _ _
  · obtain ⟨target, late⟩ := allGood_cons.mp hrest
    obtain ⟨hname, hps⟩ := allGood_cons.mp (R.items target)
    refine (require_holds _ _ _).beside fun w₁ l₁ _ _ => ?_
    refine (R.newList_holds (AllGood.later hps l₁)).beside fun w₂ l₂ parameters hps => ?_
    have code := AllGood.later late (R.trans l₁ l₂)
    refine (R.newList_holds (allGood_cons.mpr ⟨keyword .lambda, allGood_cons.mpr ⟨hps, code⟩⟩)).beside
      fun w₃ l₃ closure hclosure => ?_
    have later := R.trans (R.trans l₁ l₂) l₃
    refine (Regime.triple_beside (R.later later hhead) (R.later later hname) hclosure).bind
      fun w₄ _ plain hplain => ?_
    exact h.inner toplevel registers hplain
  · obtain ⟨hname, late⟩ := allGood_cons.mp hrest
    refine (h.inner false nofun (late _ (by simp))).bind fun w₁ l₁ core hcore => ?_
    split
    · refine (require_holds _ _ _).beside fun w₂ l₂ _ top => ?_
      refine (Regime.Beside.deeper fun r => h.evaluate _ (registers top) (R.later l₂ hcore)).bind
        fun w₃ _ transformer final => ?_
      refine (require_holds _ _ _).beside fun w₄ l₄ _ procedure => ?_
      have plain : transformer.isEscape = false := by
        cases transformer <;> first | rfl | cases procedure
      exact (R.register_holds _ (registers top) (R.later l₄ (R.good final plain))).beside fun _ _ _ _ =>
        Regime.pure_beside R.unspecified
    · exact Regime.triple_beside (R.later l₁ hhead) (R.later l₁ hname) hcore
  · exact Regime.refuse_beside _ _
  · exact Regime.refuse_beside _ _

/-- A list of expanded parts. -/
theorem partList (toplevel : Bool) (registers : toplevel = true → R.Registers) {es : List Value}
    (hes : R.AllGood w es) :
    R.Beside w
      (fun i => es.mapM (fun e => deeper room fun room => (c i).expand room e toplevel) >>= newList)
      (es.mapM (fun e => deeper room fun room => c'.expand room e toplevel) >>= newList) R.Good :=
  (Regime.Beside.mapM fun _ later e mem => h.inner toplevel registers (R.later later (hes e mem))).bind
    fun _ _ _ hvs => R.same (R.newList_holds hvs)

theorem expansion (registers : toplevel = true → R.Registers) (hform : R.Good w form) :
    R.Beside w (fun i => (c i).expansion room form toplevel) (c'.expansion room form toplevel) R.Good := by
  unfold Calls.expansion
  dsimp only
  split
  · exact Regime.refuse_beside _ _
  · rename_i i head rest
    have items := R.items hform
    obtain ⟨first, others⟩ := allGood_cons.mp items
    split
    · exact (require_holds _ _ _).beside fun _ later _ _ => Regime.pure_beside (R.later later hform)
    · split
      · obtain ⟨test, consequent⟩ := allGood_cons.mp others
        refine h.partList false nofun (allGood_cons.mpr ⟨first, ?_⟩)
        exact Judgement.allGood_triple test (consequent _ (by simp)) R.unspecified
      · exact h.partList false nofun items
      · exact Regime.refuse_beside _ _
    · split
      · refine (require_holds _ _ _).beside fun w₁ l₁ _ _ => ?_
        refine (h.inner false nofun (R.later l₁ (others _ (by simp)))).bind fun w₂ l₂ core hcore => ?_
        have later := R.trans l₁ l₂
        exact Regime.triple_beside (R.later later first) (R.later later (others _ (by simp))) hcore
      · exact Regime.refuse_beside _ _
    · exact h.definition registers first others
    · exact h.definition registers first others
    · split
      · exact Regime.pure_beside R.unspecified
      · exact h.partList toplevel registers items
    · split
      · obtain ⟨hps, code⟩ := allGood_cons.mp others
        refine (require_holds _ _ _).beside fun w₁ l₁ _ _ => ?_
        refine (body_holds (AllGood.later code l₁)).beside fun w₂ l₂ body hbody => ?_
        refine (h.inner false nofun hbody).bind fun w₃ l₃ core hcore => ?_
        have later := R.trans (R.trans l₁ l₂) l₃
        exact Regime.triple_beside (R.later later first) (R.later later hps) hcore
      · exact Regime.refuse_beside _ _
    · split
      · exact (ofTemplate_holds (others _ (by simp))).beside fun _ _ _ he => h.inner false nofun he
      · exact Regime.refuse_beside _ _
    · refine (Regime.transformer?_holds head).beside fun w₁ later found ht => ?_
      cases found with
      | some transformer =>
        refine (Regime.Beside.deeper fun r => h.transform _ (ht _ rfl) (AllGood.later others later)).bind
          fun w₂ _ e he => ?_
        exact h.inner false nofun he
      | none => exact h.partList false nofun (AllGood.later items later)
  · exact Regime.pure_beside hform

end Expands

namespace Obeys

theorem halted : Obeys R (fun _ => Calls.halted) Calls.halted where
  evaluate _ _ _ := Regime.throw_beside _
  apply _ _ _ _ := Regime.throw_beside _
  expand _ _ _ := Regime.throw_beside _

/-- One more step of each operation. -/
theorem next (h : Obeys R c c') (free : R.BindsFreely) (owns : R.Owns) (expands : Expands R c c') :
    Obeys R (fun i => (c i).next) c'.next where
  evaluate _ here hform := h.evaluation free here hform
  apply _ caller hprocedure hargs := h.application (fun _ => owns) caller hprocedure hargs
  expand _ registers hform := expands.expansion registers hform

end Obeys

end Calls

/-- Every run obeys a regime that lets it bind, that calls with continuations keep and under which what is final is
good. -/
theorem calls_obey (free : R.BindsFreely) (owns : R.Owns) (good : ∀ {w v}, R.Final w v → R.Good w v) (fuel : Nat) :
    Calls.Obeys R (fun _ => calls fuel) (calls fuel) := by
  induction fuel with
  | zero => exact Calls.Obeys.halted
  | succ fuel ih => exact ih.next free owns (ih.expands good)

end SmallLisp
