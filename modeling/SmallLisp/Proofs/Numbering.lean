import SmallLisp.Proofs.Custody
import SmallLisp.Proofs.ExpansionInStep
/-!
# Numbered states

A state is numbered when the number of the next object is above those of all objects that it holds. It is
then like itself, each of its objects matched with itself. A run without expanded bodies is in step with
itself, so it leaves a numbered state, and every session has one.
-/
namespace SmallLisp

open Run

namespace Value

mutual

/-- Whether the objects of a value all have numbers below a bound. -/
def isBelow (bound : Nat) : Value → Bool
  | nan i => i < bound
  | list i items => i < bound && areBelow bound items
  | closure i parameters body _ => i < bound && parameters.isBelow bound && body.isBelow bound
  | escape _ v => v.isBelow bound
  | _ => true

def areBelow (bound : Nat) : List Value → Bool
  | [] => true
  | v :: vs => v.isBelow bound && areBelow bound vs

end

mutual

/-- Such a value is like itself. -/
theorem Like.of_isBelow {bound : Nat} {expanding : Prop} (v : Value) (h : v.isBelow bound = true) :
    Like (.below bound expanding) .plain v v := by
  cases v with
  | nan i => exact .nan ⟨rfl, by simpa [isBelow] using h⟩
  | list i items =>
    simp only [isBelow, Bool.and_eq_true, decide_eq_true_eq] at h
    exact .list ⟨rfl, h.1⟩ (Like.of_areBelow items h.2)
  | closure i parameters body home =>
    simp only [isBelow, Bool.and_eq_true, decide_eq_true_eq] at h
    exact .closure ⟨rfl, h.1.1⟩ (Reading.allowed_plain _) (Like.of_isBelow parameters h.1.2)
      (Like.of_isBelow body h.2)
  | escape k v => exact .escape (Like.of_isBelow v (by simpa only [isBelow] using h))
  | _ => exact .atom rfl

theorem Like.of_areBelow {bound : Nat} {expanding : Prop} (vs : List Value)
    (h : areBelow bound vs = true) : LikeLists (.below bound expanding) vs vs := by
  cases vs with
  | nil => exact .nil
  | cons v vs =>
    simp only [areBelow, Bool.and_eq_true] at h
    exact .cons (Like.of_isBelow v h.1) (Like.of_areBelow vs h.2)

end

variable {w : Matching} {bound : Nat} {v v' : Value}

/-- What is like another value without expanded bodies has matched objects only. -/
theorem Like.isBelow {r : Reading} (h : Like w r v v') (plain : r = .plain) (strict : ¬ w.expanding)
    (within : ∀ {i j}, w.objects i j → i < bound) : v.isBelow bound = true := by
  induction h with
  | @atom r v isAtom => cases v <;> first | rfl | cases isAtom
  | nan matched => simpa [Value.isBelow] using within matched
  | @closure r r' _ _ _ _ _ _ _ matched allowed _ _ ps body =>
    cases r' with
    | plain => simp [Value.isBelow, within matched, ps rfl, body rfl]
    | expanded => exact absurd (allowed rfl) strict
  | escape _ h => simpa only [Value.isBelow] using h rfl
  | list matched hitems items =>
    simp only [Value.isBelow, within matched, decide_true, Bool.true_and]
    clear hitems
    induction items with
    | nil => rfl
    | cons first _ ih =>
      obtain ⟨_, first⟩ := first
      simp [areBelow, first rfl, ih]
  | _ => cases plain

theorem areBelow_of_list {i : Nat} {items : List Value} (h : (list i items).isBelow bound = true) :
    areBelow bound items = true := by
  simp only [isBelow, Bool.and_eq_true] at h
  exact h.2

theorem isBelow_mono {bound' : Nat} (h : v.isBelow bound = true) (le : bound ≤ bound') :
    v.isBelow bound' = true := by
  have like : Like (.below bound False) .plain v v := .of_isBelow v h
  exact like.isBelow rfl id fun matched => Nat.lt_of_lt_of_le matched.2 le

mutual

/-- The lists of a datum are numbered from `next` on. -/
theorem ofDatum_isBelow (d : Datum) (next : Nat) :
    next ≤ (ofDatum d next).2 ∧ (ofDatum d next).1.isBelow (ofDatum d next).2 = true := by
  cases d with
  | list items =>
    obtain ⟨le, below⟩ := ofData_areBelow items (next + 1)
    simp only [ofDatum, isBelow, below, Bool.and_true, decide_eq_true_eq]
    exact ⟨by omega, by omega⟩
  | _ => exact ⟨Nat.le_refl _, rfl⟩

theorem ofData_areBelow (ds : List Datum) (next : Nat) :
    next ≤ (ofData ds next).2 ∧ areBelow (ofData ds next).2 (ofData ds next).1 = true := by
  cases ds with
  | nil => exact ⟨Nat.le_refl _, rfl⟩
  | cons d ds =>
    obtain ⟨le, first⟩ := ofDatum_isBelow d next
    obtain ⟨le', rest⟩ := ofData_areBelow ds (ofDatum d next).2
    simp only [ofData, areBelow, rest, isBelow_mono first le', Bool.and_true, and_true]
    exact Nat.le_trans le le'

end

end Value

/-- The objects of a target and of the value bound to it have numbers below a bound. -/
structure Binding.IsBelow (bound : Nat) (b : Binding) : Prop where
  target : b.target.isBelow bound = true
  value : b.value.isBelow bound = true

namespace Binding.IsBelow

variable {bound bound' : Nat} {b : Binding}

theorem mono (h : b.IsBelow bound) (le : bound ≤ bound') : b.IsBelow bound' :=
  ⟨Value.isBelow_mono h.target le, Value.isBelow_mono h.value le⟩

theorem like (h : b.IsBelow bound) (expanding : Prop) : b.Like (.below bound expanding) b :=
  ⟨.of_isBelow _ h.target, .of_isBelow _ h.value⟩

end Binding.IsBelow

/-- The objects that a state holds have numbers below that of the next object. -/
structure Machine.Numbered (m : Machine) : Prop where
  frames : ∀ f, ∀ b ∈ m.frames.bindingsOf f, b.IsBelow m.nextObject
  transformers : ∀ b ∈ m.transformers, b.IsBelow m.nextObject

namespace Machine

variable {w : Matching} {m m' : Machine}

theorem Numbered.like (h : m.Numbered) (expanding : Prop) (count : Nat) :
    m.Like (.below m.nextObject expanding) (m.made count) where
  frames := by
    refine ⟨rfl, fun f => ?_⟩
    have bindings := h.frames f
    simp only [made]
    unfold Frames.bindingsOf at bindings
    cases found : m.frames.get? f with
    | none => exact .none
    | some frame =>
      rw [found] at bindings
      refine .some ⟨List.forall₂_same.mpr fun b mem => ?_, rfl⟩
      exact (bindings b mem).like expanding
  transformers := List.forall₂_same.mpr fun b mem => (h.transformers b mem).like expanding
  continuations := rfl
  objects matched := ⟨matched.2, Nat.lt_of_lt_of_le (matched.1 ▸ matched.2) (Nat.le_add_right _ _)⟩
  output := List.forall₂_same.mpr fun line _ => .same line
  draws := rfl

/-- A state that is like another without expanded bodies is numbered. -/
theorem Like.numbered (h : m.Like w m') (strict : ¬ w.expanding) : m.Numbered := by
  have all {bs bs' : Bindings} (likes : Bindings.Like w bs bs') :
      ∀ b ∈ bs, b.IsBelow m.nextObject := by
    induction likes with
    | nil => exact nofun
    | cons first _ ih =>
      intro b mem
      rcases List.mem_cons.mp mem with rfl | mem
      · exact ⟨first.target.isBelow rfl strict fun matched => (h.objects matched).1,
          first.value.isBelow rfl strict fun matched => (h.objects matched).1⟩
      · exact ih b mem
  exact ⟨fun f => all (h.frames.bindingsOf f), all h.transformers⟩

end Machine

/-! ## Sessions -/

/-- The custody of numbered states. Its worlds say how many objects there are. -/
def numbering : Custody Empty where
  World := Nat
  Later n n' := n ≤ n'
  Safe n m := m.Numbered ∧ m.nextObject = n
  Good n v := v.isBelow n = true
  beside i := i.elim
  refl := Nat.le_refl
  trans := Nat.le_trans
  later le h := Value.isBelow_mono h le
  unspecified := rfl

namespace numbering

variable {α : Type} {n : Nat} {P : Nat → α → Prop}

/-- A run that is in step with itself. -/
theorem keeps_of_inStep {a : Run α} {R : Matching → α → α → Prop} (h : InStep .even (.below n False) a a R)
    (held : ∀ {w bound x}, ¬ w.expanding → (∀ {i j}, w.objects i j → i < bound) → R w x x → P bound x) :
    numbering.Keeps n (fun _ => a) a P := by
  rintro m ⟨numbered, rfl⟩
  obtain stops | ⟨w, grown, endings⟩ := h (fun _ => id) m m (numbered.like False 0)
  · exact stops.elim
  have strict : ¬ w.expanding := grown.2.not.mpr id
  -- An object that was there is matched with itself from the start, and matched objects are still there.
  have grows {t : Machine} (like : t.Like w t) : m.nextObject ≤ t.nextObject := by
    by_contra small
    exact Nat.lt_irrefl _ (like.objects (grown.1 ⟨rfl, Nat.lt_of_not_le small⟩)).1
  refine ⟨fun i => i.elim, ?_⟩
  rcases ended : outcome a m with ⟨e | x, t⟩
  · rw [ended] at endings
    cases endings with
    | failed _ like => exact ⟨_, grows like, ⟨like.numbered strict, rfl⟩, nofun⟩
    | outOfSteps like => exact ⟨_, grows like, ⟨like.numbered strict, rfl⟩, nofun⟩
  · rw [ended] at endings
    cases endings with
    | ok hx like =>
      refine ⟨_, grows like, ⟨like.numbered strict, rfl⟩, ?_⟩
      rintro _ ⟨⟩
      exact held strict (fun matched => (like.objects matched).1) hx

theorem keeps_value {a : Run Value} (h : InStep .even (.below n False) a a LikeValues) :
    numbering.Keeps n (fun _ => a) a numbering.Good :=
  keeps_of_inStep h fun strict within like => like.isBelow rfl strict within

theorem instantiate_keeps (d : Datum) :
    numbering.Keeps n (fun _ => Session.instantiate d) (Session.instantiate d) numbering.Good := by
  refine Session.run_keeps (.modifyGet (fun i => i.elim) ?_)
  rintro m ⟨numbered, rfl⟩
  obtain ⟨grown, below⟩ := Value.ofDatum_isBelow d m.nextObject
  refine ⟨_, grown, ⟨⟨fun f b mem => ?_, fun b mem => ?_⟩, rfl⟩, below⟩
  · exact (numbered.frames f b mem).mono grown
  · exact (numbered.transformers b mem).mono grown

/-- Engines number the objects that they make. -/
theorem serves (limits : Limits) : numbering.Serves (fun _ => limits) limits where
  nesting i := i.elim
  written _ := keeps_of_inStep (writeLine_inStep (.same _)) fun _ _ _ => trivial
  source held := keeps_of_inStep (source_inStep (p := .even) rfl (Value.Like.of_isBelow _ held).shown)
    fun _ _ _ => trivial
  instantiate _ := instantiate_keeps _
  expand held := keeps_value ((calls_inStep (p := .even) rfl).expand (p := .even) rfl (.of_isBelow _ held) true)
  evaluate held := keeps_value ((calls_inStep (p := .even) rfl).evaluate (p := .even) rfl
    (Reading.allowed_plain _) (.of_isBelow _ held) Machine.root)

theorem releases : numbering.Releases :=
  fun n => .modifyGet (fun i => i.elim) fun _ ⟨numbered, same⟩ =>
    ⟨n, Nat.le_refl n, ⟨⟨numbered.frames, numbered.transformers⟩, same⟩, trivial⟩

end numbering

namespace Session

theorem fresh_numbered (table : Nat) (draws : Draws) : (fresh table draws).machine.Numbered where
  frames f b mem := by
    have all : (Machine.builtins.all fun named => named.2.isBelow 0) = true := rfl
    obtain ⟨named, inside, rfl⟩ := mem_fresh_bindings mem
    exact ⟨rfl, List.all_eq_true.mp all named inside⟩
  transformers b mem := by
    obtain rfl := List.mem_singleton.mp mem
    exact ⟨rfl, rfl⟩

/-- The state of a session is numbered, whatever its commands were and however they ended. -/
theorem performed_numbered (limits : Limits) (table : Nat) (draws : Draws) (commands : List Command) :
    (performed limits (fresh table draws) commands).machine.Numbered := by
  obtain ⟨_, _, numbered, _⟩ :=
    performed_safe (numbering.serves limits) numbering.releases ⟨fresh_numbered table draws, rfl⟩ commands
  exact numbered

end Session

end SmallLisp
