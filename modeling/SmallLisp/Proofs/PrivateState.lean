import SmallLisp.Proofs.RootedSessions
/-!
# Private state

What evaluation can get at are the frames that are reached from its frame, from closures in its form and from
transformers: along the links to enclosing frames, and through closures in bindings. The body of a closure
is followed too, since code can be made with closures in it. All other frames are left alone, whatever comes of
the evaluation, and a name in a reached frame is bound anew by nothing but a form that says so.
-/
namespace SmallLisp

open Run

/-- The frames that are reached from a form and a frame, as far as values are looked into. -/
inductive Machine.Reaches (w : View) (m : Machine) (x : Value) (e : FrameId) : FrameId → Prop
  | here : Reaches w m x e e
  | code {f} : x.Mentions w (.frame f) → Reaches w m x e f
  | transformer {b f} : b ∈ m.transformers → b.value.Mentions w (.frame f) → Reaches w m x e f
  | outer {f g} : Reaches w m x e f → m.frames.outer? f = some g → Reaches w m x e g
  | binding {f b g} : Reaches w m x e f → b ∈ m.frames.bindingsOf f →
      b.value.Mentions w (.frame g) → Reaches w m x e g

/-- Frames of a state that are not reached are the same in a later one. -/
def Machine.Spares (w : View) (m : Machine) (x : Value) (e : FrameId) (n : Machine) : Prop :=
  ∀ f < m.frames.all.size, ¬ m.Reaches w x e f → n.frames.get? f = m.frames.get? f

/-- A form is about to bind a key in a frame. -/
def Event.Rebinds (f : FrameId) (key : Key) : Event → Machine → Prop
  | binds form frame, m => m.Binds form frame f key
  | _, _ => False

section Territories

variable {m n : Machine} {x : Value} {e f : FrameId} {key : Key}

/-- The reached frames and those made later. The others stay as they are. -/
def reached (h : m.Rooted) (x : Value) {e : FrameId} (root : m.Reaches .code x e Machine.root) :
    Territory where
  start := m.frames.all.size
  base := m.continuations.size
  Kept := m.Reaches .code x e
  Moves fs fs' := ∀ f < m.frames.all.size, ¬ m.Reaches .code x e f → fs'.get? f = fs.get? f
  Stops _ _ := False
  positive := h.exists_
  root := root
  refl _ _ _ _ := rfl
  trans h h' f lt hidden := (h' f lt hidden).trans (h f lt hidden)
  frame start _ _ f lt _ := by
    rw [Frames.get?_new, if_neg (Nat.ne_of_lt (Nat.lt_of_lt_of_le lt start))]
  binding kept _ _ f lt hidden := by
    rw [Frames.get?_define, if_neg]
    rintro rfl
    exact hidden (kept lt)

/-- All frames. A key in one of them stays as it is unless a form is about to bind it there. -/
def bound (h : m.Rooted) (lt : f < m.frames.all.size) (key : Key) : Territory where
  start := m.frames.all.size
  base := m.continuations.size
  Kept _ := True
  Moves fs fs' := (fs'.bindingsOf f).get? key = (fs.bindingsOf f).get? key
  Stops := Event.Rebinds f key
  positive := h.exists_
  root := trivial
  refl _ := rfl
  trans h h' := h'.trans h
  frame start _ _ := by
    rw [Frames.bindingsOf_new, if_neg (Nat.ne_of_lt (Nat.lt_of_lt_of_le lt start))]
  binding {m form frame owner b} _ binds free := by
    rw [Frames.bindingsOf_define]
    split
    · rename_i here
      obtain ⟨rfl, _⟩ := here
      rw [Bindings.get?_put, if_neg]
      rintro rfl
      exact free binds
    · rfl

/-- The chain of frames leads to the root, so the root is reached. -/
theorem Machine.Rooted.reaches_root (h : m.Rooted) (exists_ : e < m.frames.all.size) (w : View)
    (x : Value) : m.Reaches w x e Machine.root := by
  obtain ⟨path, _, last, chain⟩ := h.climbs exists_
  have reached : ∀ g ∈ m.frames.chain e, m.Reaches w x e g :=
    Frames.forall_mem_chain (fun reaches outer => .outer reaches outer) .here
  rw [chain] at reached
  exact reached _ (List.mem_of_getLast? last)

/-- A value that refers only to what has been made, and to frames of a territory that has no more
continuations, lies in the territory. -/
theorem Machine.Knows.holds {T : Territory} {v : Value} (h : m.Knows v)
    (base : T.base = m.continuations.size) (kept : ∀ f, v.Mentions .code (.frame f) → T.Kept f) :
    T.Holds m v := by
  have made : v.StaysIn .all fun r => ∀ k, r = .continuation k → k < T.base := by
    rintro r mentions k rfl
    rw [base]
    exact h _ mentions
  refine Value.StaysIn.since made fun r mentions => ?_
  have exists_ := h r (mentions.mono id fun _ => False.elim)
  cases r with
  | frame f => exact ⟨exists_, fun _ => kept f mentions⟩
  | continuation k => exact exists_

theorem Machine.Rooted.within_reached (h : m.Rooted) (root : m.Reaches .code x e Machine.root) :
    (reached h x root).Within m where
  start := Nat.le_refl _
  base := Nat.le_refl _
  outer has outer := ⟨h.outer_lt outer, fun _ => .outer (has.2 has.1) outer⟩
  bindings has b mem := (h.bindings _ b mem).holds rfl fun _ => .binding (has.2 has.1) mem
  transformers b mem := (h.transformers b mem).holds rfl fun _ => .transformer mem

theorem Machine.Rooted.within_bound (h : m.Rooted) (lt : f < m.frames.all.size) :
    (bound h lt key).Within m where
  start := Nat.le_refl _
  base := Nat.le_refl _
  outer _ outer := ⟨h.outer_lt outer, fun _ => trivial⟩
  bindings _ b mem := (h.bindings _ b mem).holds rfl fun _ _ => trivial
  transformers b mem := (h.transformers b mem).holds rfl fun _ _ => trivial

/-- An evaluation leaves alone what it cannot reach. -/
theorem Machine.Rooted.spares (h : m.Rooted) (fuel room : Nat) (known : m.Knows x)
    (exists_ : e < m.frames.all.size) :
    m.Spares .code x e (outcome (evaluate fuel room x e) m).2 := by
  have root := h.reaches_root exists_ .code x
  have held : (reached h x root).Holds m x := known.holds rfl fun _ => .code
  have heeds := (Calls.patrol_obeys (reached h x root) fuel).evaluate room
    ⟨exists_, fun _ => .here⟩ held (h.within_reached root)
  rcases heeds with ⟨_, _, _, _, _, stops, _⟩ | ⟨_, onward, _⟩
  · exact stops.elim
  · exact onward.moves

/-- The patrolled evaluation comes to a form that is about to bind the key in the frame, or it is the evaluation
itself and what the key is bound to stays the same. -/
def Machine.RebindsByForm (m : Machine) (fuel room : Nat) (x : Value) (e f : FrameId) (key : Key) : Prop :=
  (∃ form frame n, n.Binds form frame f key ∧
    ∀ alarm, (outcome ((patrol (Event.Rebinds f key) alarm fuel).evaluate room x e) m).1 =
      .error (alarm (.binds form frame) n)) ∨
  ((∀ alarm, outcome ((patrol (Event.Rebinds f key) alarm fuel).evaluate room x e) m =
      outcome (evaluate fuel room x e) m) ∧
    ((outcome (evaluate fuel room x e) m).2.frames.bindingsOf f).get? key =
      (m.frames.bindingsOf f).get? key)

theorem Machine.Rooted.rebindsByForm (h : m.Rooted) (fuel room : Nat) (known : m.Knows x)
    (exists_ : e < m.frames.all.size) (lt : f < m.frames.all.size) (key : Key) :
    m.RebindsByForm fuel room x e f key := by
  have held : (bound h lt key).Holds m x := known.holds rfl fun _ _ => trivial
  have heeds := (Calls.patrol_obeys (bound h lt key) fuel).evaluate room
    ⟨exists_, fun _ => trivial⟩ held (h.within_bound lt)
  rcases heeds with ⟨event, n, _, _, _, stops, halts⟩ | ⟨same, onward, _⟩
  · cases event with
    | binds form frame => exact Or.inl ⟨form, frame, n, stops, halts⟩
    | _ => exact stops.elim
  · exact Or.inr ⟨same, onward.moves⟩

end Territories

open Session in
/-- The frames of a session make a tree whatever has been done in it. From any state with such a tree, an
evaluation leaves the frames that it does not reach as they are, whether it gives a value, an escape or a
failure. In the frames that there are, a key is bound to something else only when the evaluation comes to an
assignment whose target is found there, or to a definition evaluated there. -/
theorem private_state :
    (∀ (limits : Limits) (table : Nat) (draws : Draws) (commands : List Command),
      (performed limits (fresh table draws) commands).machine.Rooted) ∧
    ∀ m : Machine, m.Rooted → ∀ (fuel room : Nat) (x : Value) (e : FrameId), m.Knows x →
      e < m.frames.all.size →
      m.Spares .code x e (outcome (evaluate fuel room x e) m).2 ∧
        ∀ f < m.frames.all.size, ∀ key, m.RebindsByForm fuel room x e f key := by
  refine ⟨performed_rooted, fun m h fuel room x e known exists_ => ⟨?_, fun f lt key => ?_⟩⟩
  · exact h.spares fuel room known exists_
  · exact h.rebindsByForm fuel room known exists_ lt key

/-- Nothing but the root is reached from the root when it binds nothing from elsewhere. -/
theorem Machine.Reaches.eq_root {w : View} {m : Machine} {x : Value} {f : FrameId}
    (h : m.Reaches w x Machine.root f) (code : ∀ g, ¬ x.Mentions w (.frame g))
    (transformers : ∀ b ∈ m.transformers, ∀ g, ¬ b.value.Mentions w (.frame g))
    (top : m.frames.outer? Machine.root = none)
    (bindings : ∀ b ∈ m.frames.bindingsOf Machine.root, ∀ g, b.value.Mentions w (.frame g) →
      g = Machine.root) :
    f = Machine.root := by
  induction h with
  | here => rfl
  | code mentions => exact absurd mentions (code _)
  | transformer mem mentions => exact absurd mentions (transformers _ mem _)
  | outer _ outer ih =>
    rw [ih, top] at outer
    cases outer
  | binding _ mem mentions ih =>
    rw [ih] at mem
    exact bindings _ mem _ mentions

open Session in
/-- A frame that nothing leads to is left alone by a definition in the root frame. -/
theorem private_state_unreached :
    let limits : Limits := ⟨40, 40⟩
    let code := "(define f ((lambda (n) (lambda () n)) 7)) (define f 0)"
    let m := (performed limits (fresh 0 .zeros) [.serve (.eval code)]).machine
    let form : Datum := .list [.symbol "define", .symbol "n", .int 1]
    let x := (Value.ofDatum form 0).1
    let n := (outcome (evaluate 9 9 x Machine.root) m).2
    1 < m.frames.all.size ∧ n.frames.get? 1 = m.frames.get? 1 ∧
      m.RebindsByForm 9 9 x Machine.root Machine.root (.name "n") := by
  intro limits code m form x n
  have rooted : m.Rooted := private_state.1 limits 0 .zeros [.serve (.eval code)]
  have bare {w : View} (p : Ref → Prop) : x.StaysIn w p := Value.ofDatum_staysIn w p form 0
  obtain ⟨spares, rebinds⟩ := private_state.2 m rooted 9 9 x Machine.root (bare _) rooted.exists_
  obtain ⟨two, atoms, atoms'⟩ : 1 < m.frames.all.size ∧
      (m.frames.bindingsOf Machine.root).all (fun b => b.value.isAtom) = true ∧
      m.transformers.all (fun b => b.value.isAtom) = true := by
    decide +kernel
  have bound {bs : Bindings} (atoms : bs.all (fun b => b.value.isAtom) = true) (b : Binding) (mem : b ∈ bs)
      (g : FrameId) : ¬ b.value.Mentions .code (.frame g) :=
    Value.StaysIn.of_isAtom (p := fun _ => False) (List.all_eq_true.mp atoms b mem) _
  refine ⟨two, spares 1 two fun reached => ?_, rebinds _ rooted.exists_ _⟩
  have isRoot := reached.eq_root (fun g => bare (fun _ => False) _) (bound atoms') rooted.top
    fun b mem g mentions => absurd mentions (bound atoms b mem g)
  cases isRoot

/-- An atom, or a closure of the root frame. -/
def Value.isShallow : Value → Bool
  | .closure _ _ _ home => home == Machine.root
  | v => v.isAtom

theorem Value.eq_root_of_isShallow {v : Value} (h : v.isShallow = true) {f : FrameId}
    (mentions : v.Mentions .data (.frame f)) : f = Machine.root := by
  cases mentions with
  | home => exact eq_of_beq h
  | body looked => exact looked.elim
  | item => cases h
  | carried looked => exact looked.elim

open Session in
/-- A closure with another closure in its body, where `eval` has put it. Calling the one assigns a variable of
the other, whose frame is reached only through the body. -/
theorem private_state_bodies :
    let limits : Limits := ⟨60, 60⟩
    let code := "(define f (eval (list 'lambda '() (list ((lambda (n) (lambda () (set! n (+ n 1)) n)) 0)))))"
    let m := (performed limits (fresh 0 .zeros) [.serve (.eval code)]).machine
    let x := (Value.ofDatum (.list [.symbol "f"]) 0).1
    let n := (outcome (evaluate 60 60 x Machine.root) m).2
    m.Rooted ∧ m.Knows x ∧ ¬ m.Spares .data x Machine.root n := by
  intro limits code m x n
  have rooted : m.Rooted := performed_rooted limits 0 .zeros [.serve (.eval code)]
  have bare {w : View} (p : Ref → Prop) : x.StaysIn w p :=
    Value.ofDatum_staysIn w p (.list [.symbol "f"]) 0
  refine ⟨rooted, bare _, fun spares => ?_⟩
  obtain ⟨two, shallow, atoms, before, after⟩ : 1 < m.frames.all.size ∧
      (m.frames.bindingsOf Machine.root).all (fun b => b.value.isShallow) = true ∧
      m.transformers.all (fun b => b.value.isAtom) = true ∧
      ((m.frames.bindingsOf 1).all fun b => b.value.equal? 9 (.int 0) == some true) = true ∧
      ((n.frames.bindingsOf 1).all fun b => b.value.equal? 9 (.int 0) == some true) = false := by
    decide +kernel
  have hidden : ¬ m.Reaches .data x Machine.root 1 := by
    intro reached
    have isRoot := reached.eq_root (fun g => bare (fun _ => False) _)
      (fun b mem g => Value.StaysIn.of_isAtom (p := fun _ => False) (List.all_eq_true.mp atoms b mem) _)
      rooted.top
      fun b mem g => Value.eq_root_of_isShallow (List.all_eq_true.mp shallow b mem)
    cases isRoot
  have same : n.frames.bindingsOf 1 = m.frames.bindingsOf 1 := by
    unfold Frames.bindingsOf
    rw [spares 1 two hidden]
  rw [same, before] at after
  cases after

end SmallLisp
