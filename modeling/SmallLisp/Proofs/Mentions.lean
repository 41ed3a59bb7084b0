import SmallLisp.Proofs.Discipline
/-!
# What a value refers to

A value refers to the frame in which a closure was made, and to the continuation that an escape is on its way
to. Either can be an element of a list, a constant in the body of a closure, or what an escape carries, and a
run can get at it in each of these places. Links from frame to frame are fixed when a frame is made: a
definition changes bindings only.
-/
namespace SmallLisp

open Run

inductive Ref where
  | frame (f : FrameId)
  | continuation (k : Nat)

/-- How far a value is looked into: whether the bodies of closures are, and what escapes carry. -/
structure View where
  bodies : Prop
  carried : (k : Nat) → Prop

namespace View

def all : View := ⟨True, fun _ => True⟩

/-- Escapes are looked into that may be taken for one to a continuation made from now on. -/
def since (base : Nat) : View := ⟨True, (base ≤ ·)⟩

/-- Code and data, without what escapes carry. -/
def code : View := ⟨True, fun _ => False⟩

/-- Lists and the homes of closures, nothing else. -/
def data : View := ⟨False, fun _ => False⟩

end View

variable {w w' : View} {p q : Ref → Prop} {r : Ref}

inductive Value.Mentions (w : View) : Value → Ref → Prop
  | home {i parameters body f} : Mentions w (.closure i parameters body f) (.frame f)
  | body {i parameters body home r} : w.bodies → Mentions w body r →
      Mentions w (.closure i parameters body home) r
  | item {i items v r} : v ∈ items → Mentions w v r → Mentions w (.list i items) r
  | target {k v} : Mentions w (.escape k v) (.continuation k)
  | carried {k v r} : w.carried k → Mentions w v r → Mentions w (.escape k v) r

/-- A value refers only to what has a property. -/
def Value.StaysIn (w : View) (p : Ref → Prop) (v : Value) : Prop :=
  ∀ r, v.Mentions w r → p r

theorem Value.Mentions.mono {v : Value} (h : v.Mentions w r) (bodies : w.bodies → w'.bodies)
    (carried : ∀ k, w.carried k → w'.carried k) : v.Mentions w' r := by
  induction h with
  | home => exact .home
  | body inside _ ih => exact .body (bodies inside) ih
  | item mem _ ih => exact .item mem ih
  | target => exact .target
  | carried inside _ ih => exact .carried (carried _ inside) ih

namespace Value.StaysIn

theorem mono {v : Value} (h : v.StaysIn w p) (le : ∀ r, p r → q r) : v.StaysIn w q :=
  fun r mentions => le r (h r mentions)

theorem list {i : Nat} {items : List Value} :
    (Value.list i items).StaysIn w p ↔ ∀ v ∈ items, v.StaysIn w p := by
  constructor
  · intro h v mem r mentions
    exact h r (.item mem mentions)
  · intro h r mentions
    cases mentions with
    | item mem mentions => exact h _ mem r mentions

theorem closure {i : Nat} {parameters body : Value} {home : FrameId} :
    (Value.closure i parameters body home).StaysIn w p ↔
      p (.frame home) ∧ (w.bodies → body.StaysIn w p) := by
  constructor
  · intro h
    exact ⟨h _ .home, fun inside r mentions => h r (.body inside mentions)⟩
  · rintro ⟨here, inside⟩ r mentions
    cases mentions with
    | home => exact here
    | body looked mentions => exact inside looked r mentions

theorem escape {k : Nat} {v : Value} :
    (Value.escape k v).StaysIn w p ↔ p (.continuation k) ∧ (w.carried k → v.StaysIn w p) := by
  constructor
  · intro h
    exact ⟨h _ .target, fun inside r mentions => h r (.carried inside mentions)⟩
  · rintro ⟨target, inside⟩ r mentions
    cases mentions with
    | target => exact target
    | carried looked mentions => exact inside looked r mentions

theorem hereditary (w : View) (p : Ref → Prop) : Hereditary (Value.StaysIn w p) where
  symbol _ := nofun
  int _ := nofun
  float _ := nofun
  nan _ := nofun
  string _ := nofun
  bool _ := nofun
  unspecified := nofun
  list := list

/-- The owner of a continuation takes out what an escape to it carries. -/
theorem received {k : Nat} {v : Value} (h : v.StaysIn w p) (looked : w.carried k) :
    (v.received k).StaysIn w p := by
  unfold Value.received
  split
  · rename_i k' v
    split
    · rename_i same
      subst same
      exact (escape.mp h).2 looked
    · exact h
  · exact h

/-- What escapes carry does not matter if each is to a continuation that has been made before. -/
theorem since {base : Nat} {v : Value} (made : v.StaysIn .all fun r => ∀ k, r = .continuation k → k < base)
    (h : v.StaysIn .code p) : v.StaysIn (.since base) p := by
  intro r mentions
  refine h r ?_
  induction mentions with
  | home => exact .home
  | body looked _ ih =>
    have inside := (closure.mp made).2 trivial
    exact .body trivial (ih inside ((closure.mp h).2 trivial))
  | item mem _ ih => exact .item mem (ih (list.mp made _ mem) (list.mp h _ mem))
  | target => exact .target
  | carried looked _ _ =>
    exact absurd ((escape.mp made).1 _ rfl) (Nat.not_lt_of_le looked)

end Value.StaysIn

namespace Frames

variable {fs : Frames} {f g : FrameId} {key : Key}

/-- The frame that encloses a frame. -/
def outer? (fs : Frames) (f : FrameId) : Option FrameId :=
  (fs.get? f).bind (·.outer)

theorem get?_new (fs : Frames) (bs : Bindings) (outer : Option FrameId) (g : FrameId) :
    (fs.new bs outer).2.get? g = if g = fs.all.size then some ⟨bs, outer⟩ else fs.get? g :=
  Array.getElem?_push

@[simp] theorem size_new (fs : Frames) (bs : Bindings) (outer : Option FrameId) :
    (fs.new bs outer).2.all.size = fs.all.size + 1 :=
  Array.size_push _

@[simp] theorem size_define (fs : Frames) (f : FrameId) (b : Binding) :
    (fs.define f b).all.size = fs.all.size :=
  Array.size_modify

theorem outer?_new (fs : Frames) (bs : Bindings) (outer : Option FrameId) (g : FrameId) :
    (fs.new bs outer).2.outer? g = if g = fs.all.size then outer else fs.outer? g := by
  unfold outer?
  rw [get?_new]
  by_cases last : g = fs.all.size
  · simp [last]
  · simp [last]

@[simp] theorem outer?_define (fs : Frames) (f g : FrameId) (b : Binding) :
    (fs.define f b).outer? g = fs.outer? g := by
  unfold outer?
  rw [get?_define]
  split
  · rename_i same
    subst same
    cases fs.get? f <;> rfl
  · rfl

theorem get?_of_size_le (h : fs.all.size ≤ f) : fs.get? f = none :=
  Array.getElem?_eq_none h

theorem lt_of_outer? (h : fs.outer? f = some g) : f < fs.all.size := by
  rcases Nat.lt_or_ge f fs.all.size with inside | beyond
  · exact inside
  · unfold outer? at h
    rw [get?_of_size_le beyond] at h
    cases h

theorem lt_of_mem_bindingsOf {b : Binding} (h : b ∈ fs.bindingsOf f) : f < fs.all.size := by
  rcases Nat.lt_or_ge f fs.all.size with inside | beyond
  · exact inside
  · unfold bindingsOf at h
    rw [get?_of_size_le beyond] at h
    cases h

/-- What holds of a frame, and of the enclosing frame of each frame that it holds of, holds along the
chain. -/
theorem forall_mem_chain {p : FrameId → Prop} (step : ∀ {f g}, p f → fs.outer? f = some g → p g) (h : p f) :
    ∀ g ∈ fs.chain f, p g := by
  unfold chain
  generalize fs.all.size = bound
  induction bound generalizing f with
  | zero => exact nofun
  | succ bound ih =>
    intro g mem
    unfold chainWithin at mem
    cases found : fs.get? f with
    | none => simp [found] at mem
    | some frame =>
      simp only [found, List.mem_cons] at mem
      rcases mem with rfl | mem
      · exact h
      · cases outer : frame.outer with
        | none => simp [outer] at mem
        | some o =>
          simp only [outer] at mem
          have next : fs.outer? f = some o := by
            unfold outer?
            rw [found]
            exact outer
          exact ih (step h next) g mem

theorem mem_chain_of_find? {owner : FrameId} (h : fs.find? f key = some owner) :
    owner ∈ fs.chain f :=
  List.mem_of_find?_eq_some h

end Frames

end SmallLisp
