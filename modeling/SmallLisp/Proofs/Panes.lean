import SmallLisp.Proofs.FrameByFrame
import SmallLisp.Proofs.RehomedPrimitives
/-!
# Panes

A pane is a frame that binds one name alone and stands before another frame. Code that does not use the name
and defines nothing looks through it. It finds in the pane what it finds in the frame behind.
-/
namespace SmallLisp

open Run

/-! ## The names that code uses -/

/-- A name is among the parameters of a closure. -/
def Value.HasParameter (name : String) (parameters : Value) : Prop :=
  parameters.name? = some name ∨
    ∃ ps, parameters.elements? = some ps ∧ ∃ p ∈ ps, Key.ofValue? p = some (.name name)

/-- The parts of a core form that are evaluated in its own frame. -/
def Form.scopeParts (head : Value) (rest : List Value) : List Value :=
  match CoreKeyword.ofHead? head, rest with
  | some .quote, _ | some .lambda, _ => []
  | some .assign, rest | some .define, rest => rest.drop 1
  | some .test, rest | some .sequence, rest => rest
  | none, rest => head :: rest

/-- A name is free in a core form: it is looked up or assigned from the frame of the form. -/
inductive Value.Uses (name : String) : Value → Prop
  | symbol : Uses name (.symbol name)
  | part {i head rest e} : e ∈ Form.scopeParts head rest → Uses name e → Uses name (.list i (head :: rest))
  | target {i target rest} : Key.ofValue? target = some (.name name) →
      Uses name (.list i (.symbol "set!" :: target :: rest))
  | body {i parameters body e} : ¬ parameters.HasParameter name → e ∈ body → Uses name e →
      Uses name (.list i (.symbol "lambda" :: parameters :: body))

/-- A core form defines a name in its own frame. -/
inductive Value.Defines : Value → Prop
  | here {i rest} : Defines (.list i (.symbol "define" :: rest))
  | part {i head rest e} : e ∈ Form.scopeParts head rest → Defines e → Defines (.list i (head :: rest))

/-- A closure is in a value, or in what one of its closures runs. -/
inductive Value.Encloses : Value → (parameters body : Value) → (home : FrameId) → Prop
  | here {i parameters body home} : Encloses (.closure i parameters body home) parameters body home
  | body {i parameters body home parameters' body' home'} : Encloses body parameters' body' home' →
      Encloses (.closure i parameters body home) parameters' body' home'
  | item {i items v parameters body home} : v ∈ items → Encloses v parameters body home →
      Encloses (.list i items) parameters body home
  | carried {k v parameters body home} : Encloses v parameters body home →
      Encloses (.escape k v) parameters body home

/-! ## Panes -/

structure Pane where
  frame : FrameId
  behind : FrameId
  name : String

namespace Pane

variable (p : Pane) {m n l : Machine} {v : Value} {x : FrameId}

/-- The frame that is seen in place of another. -/
def through (x : FrameId) : FrameId :=
  if x = p.frame then p.behind else x

/-- The name is looked up from a frame in the pane. -/
def Exposes (m : Machine) (x : FrameId) : Prop :=
  m.frames.find? x (.name p.name) = some p.frame

/-- The closures in a value have their homes, and do not come upon the name in the pane. -/
def Guards (m : Machine) (v : Value) : Prop :=
  ∀ parameters body home, v.Encloses parameters body home → home < m.frames.all.size ∧
    (p.Exposes m home → parameters.HasParameter p.name ∨ ¬ body.Uses p.name)

/-- The pane is in its place, and nothing that the state holds comes upon the name in it. -/
structure In (m : Machine) : Prop where
  placed : m.frames.outer? p.frame = some p.behind
  binds : ∀ key, (m.frames.bindingsOf p.frame).binds key = true ↔ key = .name p.name
  exists_ : Machine.root < m.frames.all.size
  top : m.frames.outer? Machine.root = none
  ordered : m.frames.Ordered
  bindings : ∀ x, ∀ b ∈ m.frames.bindingsOf x, p.Guards m b.value
  transformers : ∀ b ∈ m.transformers, p.Guards m b.value

/-- There are as many frames or more, and from those that there were the name is not looked up in the pane
unless it was before. -/
structure Later (m n : Machine) : Prop where
  size : m.frames.all.size ≤ n.frames.all.size
  exposes : ∀ x < m.frames.all.size, p.Exposes n x → p.Exposes m x

variable {p}

theorem guards_hereditary (p : Pane) (m : Machine) : Hereditary (p.Guards m) where
  symbol _ := nofun
  int _ := nofun
  float _ := nofun
  nan _ := nofun
  string _ := nofun
  bool _ := nofun
  unspecified := nofun
  list := by
    intro i items
    constructor
    · intro h v mem parameters body home encloses
      exact h parameters body home (.item mem encloses)
    · rintro h parameters body home (_ | _ | ⟨mem, encloses⟩ | _)
      exact h _ mem parameters body home encloses

theorem guards_closure_iff {i : Nat} {parameters body : Value} {home : FrameId} :
    p.Guards m (.closure i parameters body home) ↔
      (home < m.frames.all.size ∧ (p.Exposes m home → parameters.HasParameter p.name ∨ ¬ body.Uses p.name)) ∧
        p.Guards m body := by
  constructor
  · intro h
    exact ⟨h parameters body home .here, fun _ _ _ encloses => h _ _ _ (.body encloses)⟩
  · rintro ⟨here, inside⟩ _ _ _ (_ | encloses | _ | _)
    · exact here
    · exact inside _ _ _ encloses

theorem guards_escape_iff {k : Nat} : p.Guards m (.escape k v) ↔ p.Guards m v := by
  constructor
  · exact fun h _ _ _ encloses => h _ _ _ (.carried encloses)
  · rintro h _ _ _ (_ | _ | _ | encloses)
    exact h _ _ _ encloses

namespace Later

theorem refl (p : Pane) (m : Machine) : p.Later m m :=
  ⟨Nat.le_refl _, fun _ _ h => h⟩

theorem trans (h : p.Later l m) (h' : p.Later m n) : p.Later l n where
  size := Nat.le_trans h.size h'.size
  exposes x lt exposed := h.exposes x lt (h'.exposes x (Nat.lt_of_lt_of_le lt h.size) exposed)

theorem of_frames (same : n.frames = m.frames) : p.Later m n := by
  refine ⟨Nat.le_of_eq (congrArg (fun fs : Frames => fs.all.size) same.symm), fun x _ exposed => ?_⟩
  unfold Exposes at exposed ⊢
  rwa [same] at exposed

end Later

theorem Guards.mono (h : p.Guards m v) (later : p.Later m n) : p.Guards n v := by
  intro parameters body home encloses
  obtain ⟨exists_, hidden⟩ := h parameters body home encloses
  exact ⟨Nat.lt_of_lt_of_le exists_ later.size, fun exposed => hidden (later.exposes home exists_ exposed)⟩

namespace In

variable (h : p.In m)
include h

theorem lt : p.frame < m.frames.all.size :=
  Frames.lt_of_outer? h.placed

theorem behind_lt : p.behind < p.frame :=
  h.ordered p.frame p.behind h.placed

theorem exposes_frame : p.Exposes m p.frame := by
  unfold Exposes
  rw [h.ordered.find?_eq, if_pos ((h.binds _).mpr rfl)]

theorem not_exposes_root : ¬ p.Exposes m Machine.root := by
  intro exposed
  unfold Exposes at exposed
  rw [h.ordered.find?_eq, h.top] at exposed
  split at exposed
  · have same : Machine.root = p.frame := Option.some.inj exposed
    have placed := h.placed
    rw [← same, h.top] at placed
    cases placed
  · cases exposed

/-- From the frames around a frame that does not bind the name itself it is looked up alike. -/
theorem exposes_of_outer {y : FrameId} (outer : m.frames.outer? x = some y)
    (free : (m.frames.bindingsOf x).binds (.name p.name) = false) (exposed : p.Exposes m y) : p.Exposes m x := by
  unfold Exposes at exposed ⊢
  rw [h.ordered.find?_eq, free, outer]
  exact exposed

theorem of_frames (frames : n.frames = m.frames) (transformers : n.transformers = m.transformers) : p.In n := by
  have later : p.Later m n := .of_frames frames
  obtain ⟨placed, binds, exists_, top, ordered, bindings, registered⟩ := h
  rw [← frames] at placed binds exists_ top ordered bindings
  rw [← transformers] at registered
  exact ⟨placed, binds, exists_, top, ordered, fun x b mem => (bindings x b mem).mono later,
    fun b mem => (registered b mem).mono later⟩

/-- A definition in another frame. -/
theorem later_define {b : Binding} (y : FrameId) :
    p.Later m { m with frames := m.frames.define y b } where
  size := Nat.le_of_eq (Frames.size_define _ _ _).symm
  exposes := by
    intro x _ exposed
    induction x using Nat.strongRecOn with
    | ind x ih =>
      unfold Exposes at exposed
      rw [(h.ordered.define y b).find?_eq, Frames.outer?_define] at exposed
      split at exposed
      · obtain rfl := Option.some.inj exposed
        exact h.exposes_frame
      · rename_i exists_ unbound
        obtain ⟨z, outer, exposed⟩ := Option.bind_eq_some_iff.mp exposed
        have lt : z < x := h.ordered x z outer
        have free : (m.frames.bindingsOf x).binds (.name p.name) = false := by
          rw [← Bool.not_eq_true]
          exact fun bound => unbound ((Frames.Grows.define m.frames y b).names x _ bound)
        exact h.exposes_of_outer outer free (ih z lt (Nat.lt_trans lt exists_) exposed)

theorem define {b : Binding} {y : FrameId} (other : y ≠ p.frame) (guards : p.Guards m b.value) :
    p.In { m with frames := m.frames.define y b } := by
  have later : p.Later m { m with frames := m.frames.define y b } := h.later_define y
  refine ⟨by simpa using h.placed, ?_, by simpa using h.exists_, by simpa using h.top, h.ordered.define y b, ?_,
    fun b mem => (h.transformers b mem).mono later⟩
  · intro key
    change ((m.frames.define y b).bindingsOf p.frame).binds key = true ↔ _
    rw [Frames.bindingsOf_define, if_neg fun same => other same.1]
    exact h.binds key
  · intro x
    change ∀ c ∈ (m.frames.define y b).bindingsOf x, _
    rw [Frames.bindingsOf_define]
    split
    · exact Bindings.forall_put (fun c mem => (h.bindings x c mem).mono later) (guards.mono later)
    · exact fun c mem => (h.bindings x c mem).mono later

section New

variable {home : FrameId} (inside : home < m.frames.all.size)
include inside

theorem later_new (bs : Bindings) : p.Later m { m with frames := (m.frames.new bs (some home)).2 } where
  size := by
    change _ ≤ (m.frames.new bs (some home)).2.all.size
    rw [Frames.size_new]
    exact Nat.le_succ _
  exposes := by
    intro x lt exposed
    unfold Exposes at exposed ⊢
    rwa [h.ordered.find?_new_of_lt bs inside lt] at exposed

theorem new {bs : Bindings} (guards : ∀ b ∈ bs, p.Guards m b.value) :
    p.In { m with frames := (m.frames.new bs (some home)).2 } := by
  have later : p.Later m { m with frames := (m.frames.new bs (some home)).2 } := h.later_new inside bs
  have old {x : FrameId} (lt : x < m.frames.all.size) : x ≠ m.frames.all.size := Nat.ne_of_lt lt
  refine ⟨?_, ?_, Nat.lt_of_lt_of_le h.exists_ later.size, ?_, h.ordered.new bs inside, ?_,
    fun b mem => (h.transformers b mem).mono later⟩
  · change (m.frames.new bs (some home)).2.outer? p.frame = _
    rw [Frames.outer?_new, if_neg (old h.lt)]
    exact h.placed
  · intro key
    change ((m.frames.new bs (some home)).2.bindingsOf p.frame).binds key = true ↔ _
    rw [Frames.bindingsOf_new, if_neg (old h.lt)]
    exact h.binds key
  · change (m.frames.new bs (some home)).2.outer? Machine.root = _
    rw [Frames.outer?_new, if_neg (old h.exists_)]
    exact h.top
  · intro x
    change ∀ c ∈ (m.frames.new bs (some home)).2.bindingsOf x, _
    rw [Frames.bindingsOf_new]
    split
    · exact fun c mem => (guards c mem).mono later
    · exact fun c mem => (h.bindings x c mem).mono later

/-- The name is looked up in the pane from a new frame that does not bind it, if it is from the home. -/
theorem exposes_new {bs : Bindings}
    (exposed : p.Exposes { m with frames := (m.frames.new bs (some home)).2 } m.frames.all.size) :
    bs.binds (.name p.name) = false ∧ p.Exposes m home := by
  unfold Exposes at exposed
  rw [h.ordered.find?_new bs inside] at exposed
  split at exposed
  · have same := Option.some.inj exposed
    exact absurd h.lt (same ▸ Nat.lt_irrefl _)
  · rename_i free
    exact ⟨Bool.not_eq_true _ |>.mp free, exposed⟩

end New

theorem register {b : Binding} (guards : p.Guards m b.value) :
    p.In { m with transformers := m.transformers.put b } :=
  ⟨h.placed, h.binds, h.exists_, h.top, h.ordered, h.bindings, Bindings.forall_put h.transformers guards⟩

end In

/-! ## What is seen through a pane -/

variable (p) in
/-- The second value is the first with closures that have their homes behind the pane instead of in it. -/
def Shows (v v' : Value) : Prop :=
  v'.rehome id = v.rehome p.through

variable (p) in
def ShowsState (m m' : Machine) : Prop :=
  m'.rehome id = m.rehome p.through

section Lookup

variable {m' : Machine} {key : Key} (h : p.In m) (shows : p.ShowsState m m')
include h shows

omit h in
theorem outer?_through (x : FrameId) : m'.frames.outer? x = (m.frames.outer? x).map p.through := by
  have same := congrArg (fun l : Machine => l.frames.outer? x) shows
  simpa only [Machine.rehome, Frames.outer?_rehome, Option.map_id, id_eq] using same

omit h in
theorem bindingsOf_through (x : FrameId) :
    (m'.frames.bindingsOf x).rehome id = (m.frames.bindingsOf x).rehome p.through := by
  have same := congrArg (fun l : Machine => l.frames.bindingsOf x) shows
  simpa only [Machine.rehome, Frames.bindingsOf_rehome] using same

omit h in
theorem binds_through (x : FrameId) (key : Key) :
    (m'.frames.bindingsOf x).binds key = (m.frames.bindingsOf x).binds key := by
  rw [← Bindings.binds_rehome (φ := id), bindingsOf_through shows, Bindings.binds_rehome]

omit shows in
theorem through_le (x : FrameId) : p.through x ≤ x := by
  unfold through
  split
  · rename_i same
    exact same ▸ Nat.le_of_lt h.behind_lt
  · exact Nat.le_refl _

theorem ordered_through : m'.frames.Ordered := by
  intro x y outer
  rw [outer?_through shows] at outer
  obtain ⟨z, outer', rfl⟩ := Option.map_eq_some_iff.mp outer
  exact Nat.lt_of_le_of_lt (through_le h z) (h.ordered x z outer')

/-- What is not looked up in the pane is found in the same frame. -/
theorem find?_through (hidden : key = .name p.name → ¬ p.Exposes m x) :
    m'.frames.find? (p.through x) key = m.frames.find? x key := by
  have ordered := ordered_through h shows
  induction x using Nat.strongRecOn with
  | ind x ih =>
    have free : key ≠ .name p.name → (m.frames.bindingsOf p.frame).binds key = false := by
      intro other
      rw [← Bool.not_eq_true]
      exact fun bound => other ((h.binds key).mp bound)
    by_cases pane : x = p.frame
    · subst pane
      have other : key ≠ .name p.name := fun same => hidden same h.exposes_frame
      have through : p.through p.frame = p.through p.behind := by
        simp [Pane.through, Nat.ne_of_lt h.behind_lt]
      rw [h.ordered.find?_eq p.frame, free other, h.placed, through]
      exact ih p.behind h.behind_lt fun same => absurd same other
    · have through : p.through x = x := if_neg pane
      rw [through, h.ordered.find?_eq x, ordered.find?_eq x, binds_through shows, outer?_through shows]
      cases bound : (m.frames.bindingsOf x).binds key with
      | true => rfl
      | false =>
        cases outer : m.frames.outer? x with
        | none => rfl
        | some y =>
          refine ih y (h.ordered x y outer) fun same exposed => hidden same ?_
          exact h.exposes_of_outer outer (same ▸ bound) exposed

theorem lookup?_through (hidden : key = .name p.name → ¬ p.Exposes m x) :
    (m'.frames.lookup? (p.through x) key).map (Value.rehome id) =
      (m.frames.lookup? x key).map (Value.rehome p.through) := by
  unfold Frames.lookup?
  rw [find?_through h shows hidden]
  cases m.frames.find? x key with
  | none => rfl
  | some owner =>
    change Option.map _ ((m'.frames.bindingsOf owner).get? key) = Option.map _ ((m.frames.bindingsOf owner).get? key)
    rw [← Bindings.get?_rehome, ← Bindings.get?_rehome, bindingsOf_through shows]

end Lookup

end Pane

end SmallLisp
