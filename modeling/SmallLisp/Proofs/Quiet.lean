import SmallLisp.Proofs.Judgement
import SmallLisp.Proofs.Outcome
/-!
# Quiet computations

Primitives and the helpers of expansion touch neither frames nor transformers nor continuations, and what
they give is built from their operands: it has every property that passes from lists to their elements and
back and that atoms have.
-/
namespace SmallLisp

/-- What a quiet computation leaves as it is. -/
structure Machine.Quiet (m n : Machine) : Prop where
  frames : n.frames = m.frames
  transformers : n.transformers = m.transformers
  continuations : n.continuations = m.continuations

namespace Machine.Quiet

variable {l m n : Machine}

theorem refl (m : Machine) : Quiet m m := ⟨rfl, rfl, rfl⟩

theorem trans (h : Quiet l m) (h' : Quiet m n) : Quiet l n :=
  ⟨h'.frames.trans h.frames, h'.transformers.trans h.transformers,
    h'.continuations.trans h.continuations⟩

end Machine.Quiet

/-- A property that lists share with their elements and that atoms have. -/
structure Hereditary (Good : Value → Prop) : Prop where
  symbol : ∀ name, Good (.symbol name)
  int : ∀ n, Good (.int n)
  float : ∀ x, Good (.float x)
  nan : ∀ i, Good (.nan i)
  string : ∀ s, Good (.string s)
  bool : ∀ b, Good (.bool b)
  unspecified : Good .unspecified
  list : ∀ {i items}, Good (.list i items) ↔ ∀ v ∈ items, Good v

namespace Run

variable {α β : Type}

/-- A quiet computation all of whose results have a property. -/
def Gives (a : Run α) (Q : α → Prop) : Prop :=
  ∀ m, m.Quiet (outcome a m).2 ∧ ∀ x n, outcome a m = (.ok x, n) → Q x

namespace Gives

variable {a : Run α} {Q : α → Prop}

theorem pure {x : α} (h : Q x) : Gives (pure x) Q := by
  intro m
  refine ⟨.refl m, ?_⟩
  rintro _ _ ⟨⟩
  exact h

theorem throw (h : Halt) : Gives (throw h : Run α) Q := by
  intro m
  refine ⟨.refl m, ?_⟩
  rintro _ _ ⟨⟩

theorem fail (f : Failure) : Gives (fail f : Run α) Q :=
  throw (.failed f)

theorem bind {k : α → Run β} {Q' : β → Prop} (ha : Gives a Q) (hk : ∀ x, Q x → Gives (k x) Q') :
    Gives (a >>= k) Q' := by
  intro m
  obtain ⟨quiet, good⟩ := ha m
  rw [outcome_bind]
  cases ho : outcome a m with
  | mk r n =>
    rw [ho] at quiet
    cases r with
    | error h => exact ⟨quiet, by rintro _ _ ⟨⟩⟩
    | ok x =>
      obtain ⟨quiet', good'⟩ := hk x (good x n ho) n
      exact ⟨quiet.trans quiet', good'⟩

/-- A computation whose result does not matter. -/
theorem next {k : α → Run β} {Q' : β → Prop} (ha : Gives a fun _ => True)
    (hk : ∀ x, Gives (k x) Q') : Gives (a >>= k) Q' :=
  ha.bind fun x _ => hk x

theorem get : Gives get fun _ => True := fun m => ⟨.refl m, fun _ _ _ => trivial⟩

theorem ofExcept {e : Except Failure α} (h : ∀ x, e = .ok x → Q x) : Gives (ofExcept e) Q := by
  cases e with
  | error f => exact fail f
  | ok x => exact pure (h x rfl)

theorem mapM {f : α → Run β} {Q : β → Prop} {xs : List α} (h : ∀ x ∈ xs, Gives (f x) Q) :
    Gives (xs.mapM f) fun ys => ∀ y ∈ ys, Q y := by
  induction xs with
  | nil => exact pure (by simp)
  | cons x xs ih =>
    rw [List.mapM_cons]
    refine (h x (by simp)).bind fun y hy => ?_
    refine (ih fun x hx => h x (by simp [hx])).bind fun ys hys => ?_
    exact pure (by simpa [hy] using hys)

end Gives

theorem modifyGet_gives {g : Machine → α × Machine} (h : ∀ m : Machine, m.Quiet (g m).2) :
    Gives (modifyGet g) fun _ => True :=
  fun m => ⟨h m, fun _ _ _ => trivial⟩

theorem newObject_gives : Gives newObject fun _ => True :=
  modifyGet_gives fun _ => ⟨rfl, rfl, rfl⟩

theorem source_gives (room : Nat) (v : Value) : Gives (source room v) fun _ => True :=
  Gives.get.next fun _ => .ofExcept fun _ _ => trivial

theorem bare_gives (room : Nat) (v : Value) : Gives (bare room v) fun _ => True :=
  Gives.get.next fun _ => .ofExcept fun _ _ => trivial

theorem writeLine_gives (line : String) : Gives (writeLine line) fun _ => True :=
  fun _ => ⟨⟨rfl, rfl, rfl⟩, fun _ _ _ => trivial⟩

theorem draw_gives : Gives draw fun _ => True :=
  modifyGet_gives fun _ => ⟨rfl, rfl, rfl⟩

end Run

open Run

namespace Hereditary

variable {Good : Value → Prop} (good : Hereditary Good)
include good

theorem newList_gives {items : List Value} (h : ∀ v ∈ items, Good v) :
    Gives (newList items) Good :=
  newObject_gives.next fun _ => .pure (good.list.mpr h)

/-- What quiet computations give is a judgement. -/
def judgement : Judgement where
  World := Unit
  Later _ _ := True
  Good _ := Good
  At _ _ := True
  Holds _ a Q := Gives a (Q ())
  refl _ := trivial
  trans _ _ := trivial
  later _ h := h
  symbol _ := good.symbol _
  int := good.int
  float := good.float
  nan := good.nan
  bool := good.bool
  unspecified := good.unspecified
  items h := good.list.mp h
  pure_holds h := .pure h
  throw_holds h := .throw h
  bind_holds h rest := h.bind fun x hx => rest () trivial x hx
  get_holds _ rest := Gives.get.next fun m => rest m trivial
  newObject_holds := newObject_gives
  newList_holds h := good.newList_gives h
  writeLine_holds := writeLine_gives
  draw_holds := draw_gives

theorem oneOperand_gives (name : String) {args : List Value} (h : ∀ v ∈ args, Good v) :
    Gives (oneOperand name args) Good :=
  Judgement.oneOperand_holds (J := good.judgement) (w := ()) name h

theorem twoOperands_gives (name : String) {args : List Value} (h : ∀ v ∈ args, Good v) :
    Gives (twoOperands name args) fun vs => Good vs.1 ∧ Good vs.2 :=
  Judgement.twoOperands_holds (J := good.judgement) (w := ()) name h

theorem listOperand_gives (room : Nat) (name : String) {v : Value} (h : Good v) :
    Gives (listOperand room name v) fun items => ∀ v ∈ items, Good v :=
  Judgement.listOperand_holds (J := good.judgement) (w := ()) name h

theorem body_gives {es : List Value} (h : ∀ e ∈ es, Good e) : Gives (Form.body es) Good :=
  Judgement.body_holds (J := good.judgement) (w := ()) h

theorem ofTemplate_gives (room : Nat) {template : Value} (h : Good template) :
    Gives (Form.ofTemplate room template) Good :=
  Judgement.ofTemplate_holds (J := good.judgement) (w := ()) h

end Hereditary

/-- What a primitive gives is built from its operands, and nothing else is touched. -/
theorem Primitive.run_gives {Good : Value → Prop} (good : Hereditary Good) (p : Primitive) (room : Nat)
    {args : List Value} (h : ∀ v ∈ args, Good v) : Gives (p.run room args) Good :=
  Judgement.run_holds (J := good.judgement) (w := ()) p h

end SmallLisp
