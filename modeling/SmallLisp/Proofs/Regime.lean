import SmallLisp.Proofs.Judgement
/-!
# Regimes

A regime judges the operations of the evaluator, each beside a family of others that should do the same. It adds to a
judgement what code may do to frames, transformers and continuations. When the calls that a step of an operation makes
obey it, so does the step: this is shown here once, form by form, and whatever is to hold of every run is a regime.
-/
namespace SmallLisp

open Run

structure Regime (ι : Type) extends Judgement where
  /-- A computation is judged beside others. -/
  Beside : {α : Type} → World → (ι → Run α) → Run α → (World → α → Prop) → Prop
  /-- What an evaluation may come to: a good value, or an escape. -/
  Final : World → Value → Prop
  /-- Code may run in the frame. -/
  Home : World → FrameId → Prop
  /-- Transformers may be registered. -/
  Registers : Prop
  same : ∀ {α w} {a : Run α} {Q : World → α → Prop}, Holds w a Q → Beside w (fun _ => a) a Q
  bind_beside : ∀ {α β w} {b : ι → Run α} {a : Run α} {k : ι → α → Run β} {k' : α → Run β}
    {P : World → α → Prop} {Q : World → β → Prop}, Beside w b a P →
    (∀ w', Later w w' → ∀ x, P w' x → Beside w' (fun i => k i x) (k' x) Q) →
    Beside w (fun i => b i >>= k i) (a >>= k') Q
  final : ∀ {w v}, Good w v → Final w v
  good : ∀ {w v}, Final w v → v.isEscape = false → Good w v
  root : ∀ {α w} {b : ι → Run α} {a : Run α} {Q : World → α → Prop},
    (Home w Machine.root → Beside w b a Q) → Beside w b a Q
  home : ∀ {w w' f}, Later w w' → Home w f → Home w' f
  opens : ∀ {w i parameters body f}, Good w (.closure i parameters body f) → Home w f ∧ Good w body
  closes : ∀ {w i parameters body f}, Good w parameters → Good w body → Home w f →
    Good w (.closure i parameters body f)
  found : ∀ {w m f key v}, At w m → Home w f → m.frames.lookup? f key = some v → Good w v
  transformer : ∀ {w m}, At w m → ∀ b ∈ m.transformers, Good w b.value
  /-- A continuation is invoked while its owner is on the way. -/
  escapes : ∀ {w m k v}, At w m → m.isLive k = true → Good w v → Final w (.escape k v)
  frame_holds : ∀ {w f} {bs : Bindings}, (∀ b ∈ bs, Good w b.value) → Home w f →
    Holds w (modifyGet fun m =>
      ((m.frames.new bs (some f)).1, { m with frames := (m.frames.new bs (some f)).2 })) Home
  register_holds : ∀ {w transformer} name, Registers → Good w transformer →
    Holds w (register name transformer) fun _ _ => True

namespace Regime

variable {ι : Type} {R : Regime ι} {α β : Type} {w w' : R.World} {room : Nat} {frame : FrameId}

theorem fail_beside {Q : R.World → α → Prop} (f : Failure) : R.Beside w (fun _ => fail f) (fail f : Run α) Q :=
  R.same (Judgement.fail_holds f)

theorem throw_beside {Q : R.World → α → Prop} (h : Halt) : R.Beside w (fun _ => throw h) (throw h : Run α) Q :=
  R.same (R.throw_holds h)

theorem pure_beside {x : α} {Q : R.World → α → Prop} (h : Q w x) : R.Beside w (fun _ => pure x) (pure x) Q :=
  R.same (R.pure_holds h)

theorem refuse_beside {Q : R.World → α → Prop} (form : Value) (fault : FormFault) :
    R.Beside w (fun _ => Form.refuse room form fault) (Form.refuse room form fault : Run α) Q :=
  R.same (Judgement.refuse_holds form fault)

namespace Beside

variable {P : R.World → α → Prop} {Q : R.World → β → Prop} {b : ι → Run α} {a : Run α}

theorem bind {k : ι → α → Run β} {k' : α → Run β} (h : R.Beside w b a P)
    (rest : ∀ w', R.Later w w' → ∀ x, P w' x → R.Beside w' (fun i => k i x) (k' x) Q) :
    R.Beside w (fun i => b i >>= k i) (a >>= k') Q :=
  R.bind_beside h rest

theorem mono {P' : R.World → α → Prop} (h : R.Beside w b a P)
    (weaker : ∀ w' x, R.Later w w' → P w' x → P' w' x) : R.Beside w b a P' := by
  rw [← bind_pure a, show b = fun i => b i >>= pure from funext fun i => (bind_pure (b i)).symm]
  exact h.bind fun w' later x hx => pure_beside (weaker w' x later hx)

theorem deeper {go : ι → Nat → Run α} {go' : Nat → Run α} (h : ∀ r, R.Beside w (fun i => go i r) (go' r) P) :
    R.Beside w (fun i => Run.deeper room (go i)) (Run.deeper room go') P := by
  cases room with
  | zero => exact fail_beside _
  | succ room => exact h room

/-- Good values that are made one after another. -/
theorem mapM {f : ι → α → Run Value} {f' : α → Run Value} {xs : List α}
    (h : ∀ w', R.Later w w' → ∀ x ∈ xs, R.Beside w' (fun i => f i x) (f' x) R.Good) :
    R.Beside w (fun i => xs.mapM (f i)) (xs.mapM f') R.AllGood := by
  induction xs generalizing w with
  | nil => exact pure_beside nofun
  | cons x xs ih =>
    simp only [List.mapM_cons]
    refine (h w (R.refl w) x (by simp)).bind fun w₁ later y hy => ?_
    refine (ih fun w' later' x mem => h w' (R.trans later later') x (by simp [mem])).bind fun w₂ later' ys hys => ?_
    exact pure_beside (Judgement.allGood_cons.mpr ⟨R.later later' hy, hys⟩)

end Beside

/-- A good list of three good values. -/
theorem triple_beside {u v x : Value} (hu : R.Good w u) (hv : R.Good w v) (hx : R.Good w x) :
    R.Beside w (fun _ => newList [u, v, x]) (newList [u, v, x]) R.Good :=
  R.same (R.newList_holds (Judgement.allGood_triple hu hv hx))

theorem lookup_holds (target : Value) (here : R.Home w frame) : R.Holds w (lookup room frame target) R.Good := by
  refine (Judgement.keyOf_holds target).bind fun w' later key _ => R.get_holds (fun _ _ => rfl) fun m at_ => ?_
  split
  · exact R.pure_holds (R.found at_ (R.home later here) ‹_›)
  · exact (Judgement.bare_holds target).next fun _ _ _ => Judgement.fail_holds _

theorem newFrame_holds (parameters : Value) {args : List Value} (h : R.AllGood w args) (here : R.Home w frame) :
    R.Holds w (newFrame room parameters args (some frame)) R.Home :=
  (Judgement.bindParameters_holds parameters h).bind fun _ later _ bound =>
    R.frame_holds bound (R.home later here)

theorem transformer?_holds (head : Value) :
    R.Holds w (transformer? head) fun w found => ∀ t, found = some t → R.Good w t := by
  unfold transformer?
  split
  · exact R.get_holds (fun _ _ => rfl) fun m at_ => R.pure_holds fun t found =>
      Bindings.of_get? (R.transformer at_) found
  · exact R.pure_holds nofun

theorem invoke_holds (k : Nat) {args : List Value} (h : R.AllGood w args) :
    R.Holds w (invoke k args) R.Final := by
  refine R.get_holds (fun _ _ => rfl) fun m at_ => ?_
  cases live : m.isLive k with
  | false => exact Judgement.Holds.bind (P := fun _ _ => False) (Judgement.fail_holds _) fun _ _ _ no => no.elim
  | true =>
    rcases args with _ | ⟨v, _ | ⟨_, _⟩⟩
    · exact R.pure_holds (R.escapes at_ live R.unspecified)
    · exact R.pure_holds (R.escapes at_ live (h v (by simp)))
    · exact Judgement.fail_holds _

end Regime

/-- A computation that all share. -/
theorem Judgement.Holds.beside {ι α β : Type} {R : Regime ι} {w : R.World} {P : R.World → α → Prop}
    {Q : R.World → β → Prop} {a : Run α} {k : ι → α → Run β} {k' : α → Run β} (h : R.Holds w a P)
    (rest : ∀ w', R.Later w w' → ∀ x, P w' x → R.Beside w' (fun i => k i x) (k' x) Q) :
    R.Beside w (fun i => a >>= k i) (a >>= k') Q :=
  (R.same h).bind rest

/-! ## Forms -/

variable {ι : Type}

/-- The values of operands are good, or the escape that ends them is final. -/
def Operands.Judged (R : Regime ι) (w : R.World) : Operands → Prop
  | .values vs => R.AllGood w vs
  | .escaped v => R.Final w v

/-- What a form comes to is final, or what it goes on with may run where it is to run. -/
def Next.Judged (R : Regime ι) (w : R.World) : Next → Prop
  | .done v => R.Final w v
  | .tail form frame => R.Good w form ∧ R.Home w frame

theorem CoreKeyword.eq_symbol_of_ofHead? {head : Value} {k : CoreKeyword} (h : ofHead? head = some k) :
    head = k.symbol := by
  unfold ofHead? at h
  split at h
  · have named := List.find?_some h
    rw [symbol, eq_of_beq named]
  · cases h

/-- Good values may be bound in any frame. -/
def Regime.BindsFreely (R : Regime ι) : Prop :=
  ∀ ⦃w f⦄ ⦃b : Binding⦄, R.Good w b.value → R.Holds w (Run.bind f b) fun _ _ => True

namespace Regime.BindsFreely

variable {R : Regime ι} (free : R.BindsFreely) {w : R.World} {room : Nat} {v : Value}
include free

theorem define_holds (f : FrameId) (target : Value) (hv : R.Good w v) :
    R.Holds w (Run.define room f target v) fun _ _ => True := by
  unfold Run.define
  split
  · exact free hv
  · exact (Judgement.bare_holds target).next fun _ _ _ => Judgement.fail_holds _

theorem assign_holds (f : FrameId) (target : Value) (hv : R.Good w v) :
    R.Holds w (Run.assign room f target v) fun _ _ => True := by
  refine (Judgement.find_holds f target).next fun w' later owner => ?_
  refine Judgement.Holds.bind (P := fun w b => R.Good w b.value) (Judgement.ofExcept_holds fun b hb => ?_)
    fun _ _ _ hb => free hb
  rw [(Binding.ofTarget_eq_ok hb).2.1]
  exact R.later later hv

end Regime.BindsFreely

namespace Form

open Judgement

variable {R : Regime ι} {nested : ι → Value → Run Value} {plain : Value → Run Value} {room : Nat} {frame : FrameId}
  {w : R.World} {es : List Value}

/-- The parts of a form are evaluated as the regime asks, each when the run has got to it. -/
def PartsBeside (R : Regime ι) (frame : FrameId) (nested : ι → Value → Run Value) (plain : Value → Run Value) : Prop :=
  ∀ ⦃w e⦄, R.Home w frame → R.Good w e → R.Beside w (fun i => nested i e) (plain e) R.Final

/-- A part of a form: an escape ends the form. -/
theorem part_beside {α : Type} {b : ι → Run Value} {a : Run Value} {stop : Value → α} {go : ι → Value → Run α}
    {go' : Value → Run α} {P : R.World → α → Prop} (h : R.Beside w b a R.Final)
    (hstop : ∀ w' v, R.Final w' v → P w' (stop v))
    (hgo : ∀ w', R.Later w w' → ∀ v, R.Good w' v → R.Beside w' (fun i => go i v) (go' v) P) :
    R.Beside w (fun i => b i >>= fun v => if v.isEscape then pure (stop v) else go i v)
      (a >>= fun v => if v.isEscape then pure (stop v) else go' v) P := by
  refine h.bind fun w' later v final => ?_
  cases here : v.isEscape with
  | true => exact Regime.pure_beside (hstop w' v final)
  | false => exact hgo w' later v (R.good final here)

theorem bindingParts_holds (h : R.AllGood w es) :
    R.Holds w (bindingParts es) fun w part => R.Good w part.2 := by
  unfold bindingParts
  split
  · exact R.pure_holds (h _ (by simp))
  · split
    · exact fail_holds _
    · exact fail_holds _

theorem lambda_holds (here : R.Home w frame) (h : R.AllGood w es) :
    R.Holds w (lambda frame es) (Next.Judged R) := by
  unfold lambda
  split
  · exact fail_holds _
  · obtain ⟨parameters, forms⟩ := allGood_cons.mp h
    refine (body_holds forms).bind fun w₁ later body hbody => R.newObject_holds.next fun w₂ later' i => ?_
    have both := R.trans later later'
    exact R.pure_holds (R.final (R.closes (R.later both parameters) (R.later later' hbody) (R.home both here)))

section Parts

variable (parts : PartsBeside R frame nested plain) (here : R.Home w frame) (h : R.AllGood w es)
include parts here h

theorem operands_beside :
    R.Beside w (fun i => operands (nested i) es) (operands plain es) (Operands.Judged R) := by
  induction es generalizing w with
  | nil => exact Regime.pure_beside h
  | cons e es ih =>
    obtain ⟨first, others⟩ := allGood_cons.mp h
    refine part_beside (parts here first) (fun _ _ final => final) fun w₁ later v hv => ?_
    refine (ih (R.home later here) (others.later later)).bind fun w₂ later' vs hvs => ?_
    cases vs with
    | values vs => exact Regime.pure_beside (allGood_cons.mpr ⟨R.later later' hv, hvs⟩)
    | escaped v => exact Regime.pure_beside hvs

theorem sequence_beside :
    R.Beside w (fun i => sequence (nested i) frame es) (sequence plain frame es) (Next.Judged R) := by
  induction es generalizing w with
  | nil => exact Regime.pure_beside (R.final R.unspecified)
  | cons e es ih =>
    obtain ⟨first, others⟩ := allGood_cons.mp h
    cases es with
    | nil => exact Regime.pure_beside ⟨first, here⟩
    | cons e' es =>
      refine part_beside (parts here first) (fun _ _ final => final) fun w₁ later v _ => ?_
      exact ih (R.home later here) (others.later later)

theorem test_beside :
    R.Beside w (fun i => test (nested i) frame es) (test plain frame es) (Next.Judged R) := by
  cases es with
  | nil => exact Regime.fail_beside _
  | cons condition branches =>
    obtain ⟨first, others⟩ := allGood_cons.mp h
    refine part_beside (parts here first) (fun _ _ final => final) fun w' later v _ => ?_
    have goes {e : Value} (mem : e ∈ branches) : R.Good w' e ∧ R.Home w' frame :=
      ⟨R.later later (others e mem), R.home later here⟩
    split
    · split
      · exact Regime.pure_beside (goes (by simp))
      · exact Regime.pure_beside (R.final R.unspecified)
    · split
      · exact Regime.pure_beside (goes (by simp))
      · exact Regime.fail_beside _

variable (free : R.BindsFreely)
include free

theorem define_beside :
    R.Beside w (fun i => define (nested i) room frame es) (define plain room frame es) (Next.Judged R) := by
  refine (bindingParts_holds h).beside fun w₁ later (target, e) he => ?_
  refine part_beside (parts (R.home later here) he) (fun _ _ final => final) fun w₂ _ v hv => ?_
  exact (free.define_holds frame target hv).beside fun _ later' _ _ => Regime.pure_beside (R.final (R.later later' hv))

theorem assign_beside :
    R.Beside w (fun i => assign (nested i) room frame es) (assign plain room frame es) (Next.Judged R) := by
  refine (bindingParts_holds h).beside fun w₁ later (target, e) he => ?_
  refine part_beside (parts (R.home later here) he) (fun _ _ final => final) fun w₂ _ v hv => ?_
  exact (free.assign_holds frame target hv).beside fun _ _ _ _ => Regime.pure_beside (R.final R.unspecified)

end Parts

/-- Where a form is one that binds its target, the regime allows the binding. -/
structure BindsBeside (R : Regime ι) (w : R.World) (nested : ι → Value → Run Value) (plain : Value → Run Value)
    (room : Nat) (frame : FrameId) (form : Value) : Prop where
  define : ∀ i es, form = .list i (CoreKeyword.define.symbol :: es) →
    R.Beside w (fun i => define (nested i) room frame es) (define plain room frame es) (Next.Judged R)
  assign : ∀ i es, form = .list i (CoreKeyword.assign.symbol :: es) →
    R.Beside w (fun i => assign (nested i) room frame es) (assign plain room frame es) (Next.Judged R)

theorem bindsBeside_of_free (free : R.BindsFreely) (parts : PartsBeside R frame nested plain)
    (here : R.Home w frame) {form : Value} (h : ∀ i vs, form = .list i vs → R.AllGood w vs) :
    BindsBeside R w nested plain room frame form where
  define i _ same := define_beside parts here (allGood_cons.mp (h i _ same)).2 free
  assign i _ same := assign_beside parts here (allGood_cons.mp (h i _ same)).2 free

theorem step_beside (parts : PartsBeside R frame nested plain) (here : R.Home w frame) {k : CoreKeyword} {i : Nat}
    (h : R.AllGood w es) (binds : BindsBeside R w nested plain room frame (.list i (k.symbol :: es))) :
    R.Beside w (fun i => step (nested i) room frame k es) (step plain room frame k es) (Next.Judged R) := by
  cases k with
  | quote =>
    cases es with
    | nil => exact Regime.fail_beside _
    | cons v rest => exact Regime.pure_beside (R.final (h v (by simp)))
  | test => exact test_beside parts here h
  | assign => exact binds.assign i es rfl
  | define => exact binds.define i es rfl
  | lambda => exact R.same (lambda_holds here h)
  | sequence => exact sequence_beside parts here h

theorem evaluateBy_beside {tail : ι → Value → FrameId → Run Value} {tail' : Value → FrameId → Run Value}
    {call : ι → Value → List Value → Run Value} {call' : Value → List Value → Run Value}
    (parts : PartsBeside R frame nested plain)
    (tails : ∀ {w e f}, R.Home w f → R.Good w e → R.Beside w (fun i => tail i e f) (tail' e f) R.Final)
    (calls : ∀ {w p args}, R.Good w p → R.AllGood w args →
      R.Beside w (fun i => call i p args) (call' p args) R.Final)
    (here : R.Home w frame) {form : Value} (h : R.Good w form)
    (binds : BindsBeside R w nested plain room frame form) :
    R.Beside w (fun i => evaluateBy (nested i) (tail i) (call i) room frame form)
      (evaluateBy plain tail' call' room frame form) R.Final := by
  unfold evaluateBy
  split
  · exact (R.same (Regime.lookup_holds _ here)).mono fun _ _ _ good => R.final good
  · exact Regime.fail_beside _
  · have items := R.items h
    split
    · rename_i k keyword
      obtain rfl := CoreKeyword.eq_symbol_of_ofHead? keyword
      refine (step_beside parts here (allGood_cons.mp items).2 binds).bind fun w' _ next judged => ?_
      cases next with
      | done v => exact Regime.pure_beside judged
      | tail form frame => exact tails judged.2 judged.1
    · refine (operands_beside parts here items).bind fun w' _ vs judged => ?_
      rcases vs with (_ | ⟨procedure, args⟩) | v
      · exact Regime.fail_beside _
      · obtain ⟨first, others⟩ := allGood_cons.mp judged
        exact calls first others
      · exact Regime.pure_beside judged
  · exact Regime.pure_beside (R.final h)

end Form

end SmallLisp
