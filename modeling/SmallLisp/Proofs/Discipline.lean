import SmallLisp.Proofs.Quiet
import SmallLisp.Proofs.StoredValues
/-!
# Disciplines

A discipline says which values are good and which moves of the state are allowed. When every operation
respects it on good input, so does one more step of it. Whatever a run does, it then moves the state
as allowed and leaves only good values in frames and among the transformers.
-/
namespace SmallLisp

open Run

structure Discipline where
  Good : Value → Prop
  Moves : Machine → Machine → Prop
  hereditary : Hereditary Good
  closure : ∀ {i parameters body home},
    Good (.closure i parameters body home) ↔ Good parameters ∧ Good body
  escape : ∀ {k v}, Good (.escape k v) → Good v
  continuation : ∀ k, Good (.continuation k)
  primitive : ∀ p, Good (.primitive p)
  control : ∀ c, Good (.control c)
  trans : ∀ {l m n}, Moves l m → Moves m n → Moves l n
  quiet : ∀ {m n : Machine}, m.Quiet n → Moves m n
  define : ∀ m f b, Moves m { m with frames := m.frames.define f b }
  frame : ∀ m bindings outer, Moves m { m with frames := (m.frames.new bindings outer).2 }
  /-- A continuation is opened, a run follows, and the continuation is spent. -/
  owner : ∀ {m n : Machine}, Moves { m with continuations := m.continuations.push true } n →
    Moves m { n with continuations := n.continuations.setIfInBounds m.continuations.size false }

namespace Discipline

variable (D : Discipline)

/-- Everything that the state holds is good. -/
structure Holds (m : Machine) : Prop where
  frames : ∀ f, ∀ b ∈ m.frames.bindingsOf f, D.Good b.value
  transformers : ∀ b ∈ m.transformers, D.Good b.value

/-- A good value, or an escape that takes one to the owner of a live continuation. -/
def Final (v : Value) (m : Machine) : Prop :=
  D.Good v ∨ ∃ k w, v = .escape k w ∧ D.Good w ∧ m.isLive k = true

/-- A computation that respects the discipline, with what its results satisfy. -/
def Meets {α : Type} (a : Run α) (Q : α → Machine → Prop) : Prop :=
  ∀ m, D.Holds m → D.Moves m (outcome a m).2 ∧ D.Holds (outcome a m).2 ∧
    ∀ x n, outcome a m = (.ok x, n) → Q x n

/-- New transformers may be registered. -/
def Registers : Prop :=
  ∀ m b, D.Moves m { m with transformers := m.transformers.put b }

variable {D} {m n : Machine}

theorem Final.good {v : Value} (h : D.Final v m) (here : v.isEscape = false) : D.Good v := by
  rcases h with h | ⟨k, w, rfl, _, _⟩
  · exact h
  · cases here

theorem moves_refl (m : Machine) : D.Moves m m := D.quiet (.refl m)

namespace Holds

theorem quiet (h : D.Holds m) (hq : m.Quiet n) : D.Holds n where
  frames := by
    rw [hq.frames]
    exact h.frames
  transformers := by
    rw [hq.transformers]
    exact h.transformers

theorem continuations (h : D.Holds m) (cs : Array Bool) :
    D.Holds { m with continuations := cs } :=
  ⟨h.frames, h.transformers⟩

theorem stores (h : D.Holds m) : m.Stores D.Good := ⟨h.frames, h.transformers⟩

theorem of_stores (h : m.Stores D.Good) : D.Holds m := ⟨h.frames, h.transformers⟩

theorem define (h : D.Holds m) {b : Binding} (hb : D.Good b.value) (f : FrameId) :
    D.Holds { m with frames := m.frames.define f b } :=
  of_stores (h.stores.define hb f)

theorem frame (h : D.Holds m) {bs : Bindings} (hbs : ∀ b ∈ bs, D.Good b.value)
    (outer : Option FrameId) : D.Holds { m with frames := (m.frames.new bs outer).2 } :=
  of_stores (h.stores.frame hbs outer)

theorem register (h : D.Holds m) {b : Binding} (hb : D.Good b.value) :
    D.Holds { m with transformers := m.transformers.put b } :=
  of_stores (h.stores.register hb)

end Holds

theorem Meets.of_gives {α : Type} {a : Run α} {P : α → Prop} (h : Gives a P) : D.Meets a fun x _ => P x := by
  intro m holds
  obtain ⟨quiet, good⟩ := h m
  exact ⟨D.quiet quiet, holds.quiet quiet, good⟩

/-- What respects a discipline is a judgement. Its worlds are states, and it asks for nothing in those that hold more
than good values. -/
def judgement (D : Discipline) : Judgement where
  World := Machine
  Later := D.Moves
  Good _ := D.Good
  At m n := n = m ∧ D.Holds m
  Holds m a Q := D.Holds m → D.Moves m (outcome a m).2 ∧ D.Holds (outcome a m).2 ∧
    ∀ x n, outcome a m = (.ok x, n) → Q n x
  refl := moves_refl
  trans := D.trans
  later _ h := h
  symbol _ := D.hereditary.symbol _
  int := D.hereditary.int
  float := D.hereditary.float
  nan := D.hereditary.nan
  bool := D.hereditary.bool
  unspecified := D.hereditary.unspecified
  items h := D.hereditary.list.mp h
  pure_holds h holds := ⟨moves_refl _, holds, by rintro _ _ ⟨⟩; exact h⟩
  throw_holds _ holds := ⟨moves_refl _, holds, nofun⟩
  bind_holds := by
    intro α β m a k P Q first rest holds
    obtain ⟨moves, holds', good⟩ := first holds
    rw [outcome_bind]
    rcases ended : outcome a m with ⟨e | x, n⟩
    · rw [ended] at moves holds'
      exact ⟨moves, holds', nofun⟩
    · rw [ended] at moves holds'
      obtain ⟨moves', rest⟩ := rest n moves x (good x n ended) holds'
      exact ⟨D.trans moves moves', rest⟩
  get_holds _ rest holds := rest _ ⟨rfl, holds⟩ holds
  newObject_holds := Meets.of_gives newObject_gives _
  newList_holds h := Meets.of_gives (D.hereditary.newList_gives h) _
  writeLine_holds line := Meets.of_gives (writeLine_gives line) _
  draw_holds := Meets.of_gives draw_gives _

namespace Meets

variable {α β : Type} {a : Run α} {Q Q' : α → Machine → Prop}

theorem mono (h : D.Meets a Q) (hQ : ∀ x n, Q x n → Q' x n) : D.Meets a Q' :=
  fun m => Judgement.Holds.mono (J := D.judgement) (w := m) (h m) fun n x _ => hQ x n

theorem throw (e : Halt) : D.Meets (throw e : Run α) Q :=
  fun _ => D.judgement.throw_holds e

theorem fail (f : Failure) : D.Meets (fail f : Run α) Q :=
  throw (.failed f)

/-- What follows may use what is known of the result in the state where it is there. -/
theorem bind_at {k : α → Run β} {Q' : β → Machine → Prop} (ha : D.Meets a Q)
    (hk : ∀ x n, Q x n → D.Holds n → D.Moves n (outcome (k x) n).2 ∧
      D.Holds (outcome (k x) n).2 ∧ ∀ y l, outcome (k x) n = (.ok y, l) → Q' y l) :
    D.Meets (a >>= k) Q' :=
  fun m => D.judgement.bind_holds (ha m) fun n _ x hx holds => hk x n hx holds

theorem bind {P : α → Prop} {k : α → Run β} {Q' : β → Machine → Prop}
    (ha : D.Meets a fun x _ => P x) (hk : ∀ x, P x → D.Meets (k x) Q') : D.Meets (a >>= k) Q' :=
  ha.bind_at fun x n hx holds => hk x hx n holds

theorem pure {P : α → Prop} {x : α} (h : P x) : D.Meets (pure x) fun x _ => P x :=
  of_gives (.pure h)

theorem deeper {room : Nat} {go : Nat → Run α} (h : ∀ r, D.Meets (go r) Q) :
    D.Meets (Run.deeper room go) Q := by
  cases room with
  | zero => exact fail _
  | succ room => exact h room

end Meets

end Discipline

end SmallLisp
