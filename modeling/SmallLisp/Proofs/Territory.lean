import SmallLisp.Proofs.Mentions
import SmallLisp.Proofs.Regime
/-!
# Territories

A territory is a set of frames that a run cannot leave: it has the root frame and every frame made on the
way, and nothing in it leads out. A run that begins in a territory stays in it whatever comes of it, and moves
the frames only as the bindings that it makes do. The run may be watched for events; it then halts at the
first event that the watch is set for, and without one it is the same as when it is not watched.
-/
namespace SmallLisp

open Run

/-- The target of a binding form is about to be bound, under a key, in the frame that owns it. -/
inductive Machine.Binds (m : Machine) : Value → FrameId → FrameId → Key → Prop
  | assign {i target e frame owner key} : Key.ofValue? target = some key →
      m.frames.find? frame key = some owner →
      Binds m (.list i [CoreKeyword.assign.symbol, target, e]) frame owner key
  | define {i target e frame name} : target.name? = some name →
      Binds m (.list i [CoreKeyword.define.symbol, target, e]) frame frame (.name name)

/-- What a run comes to: an operation begins, or a form binds its target to the value that it has got. -/
inductive Event where
  | evaluates (form : Value) (frame : FrameId)
  | applies (procedure : Value) (args : List Value)
  | expands (form : Value) (toplevel : Bool)
  | binds (form : Value) (frame : FrameId)

/-- A binding form comes to bind only a target that it can bind. -/
def Event.Occurs : Event → Machine → Prop
  | binds form frame, m => ∃ owner key, m.Binds form frame owner key
  | _, _ => True

/-- What a run halts with at an event, in the state in which it comes to the event. -/
abbrev Alarm := Event → Machine → Halt

theorem Machine.lt_of_isLive {m : Machine} {k : Nat} (h : m.isLive k = true) :
    k < m.continuations.size := by
  rcases Nat.lt_or_ge k m.continuations.size with inside | beyond
  · exact inside
  · simp [isLive, Array.getD_eq_getD_getElem?, Array.getElem?_eq_none beyond] at h

/-- There are as many frames and continuations, or more. -/
structure Machine.Larger (m n : Machine) : Prop where
  frames : m.frames.all.size ≤ n.frames.all.size
  continuations : m.continuations.size ≤ n.continuations.size

theorem Machine.Larger.refl (m : Machine) : m.Larger m := ⟨Nat.le_refl _, Nat.le_refl _⟩

theorem Machine.Larger.trans {l m n : Machine} (h : l.Larger m) (h' : m.Larger n) : l.Larger n :=
  ⟨Nat.le_trans h.frames h'.frames, Nat.le_trans h.continuations h'.continuations⟩

/-- The frames that are kept of those which there are at the start, and all frames made later. -/
structure Territory where
  /-- So many frames there are at the start. -/
  start : Nat
  /-- So many continuations there are at the start. An escape to one of them ends outside. -/
  base : Nat
  Kept : FrameId → Prop
  /-- How frames may have moved. -/
  Moves : Frames → Frames → Prop
  /-- The events that the watch is set for. -/
  Stops : Event → Machine → Prop
  positive : 0 < start
  root : Kept Machine.root
  refl : ∀ fs, Moves fs fs
  trans : ∀ {fs fs' fs''}, Moves fs fs' → Moves fs' fs'' → Moves fs fs''
  frame : ∀ {fs : Frames} {home}, start ≤ fs.all.size → home < fs.all.size → ∀ bs,
    Moves fs (fs.new bs (some home)).2
  binding : ∀ {m : Machine} {form frame owner} {b : Binding}, (owner < start → Kept owner) →
    m.Binds form frame owner b.key → ¬ Stops (.binds form frame) m →
    Moves m.frames (m.frames.define owner b)

namespace Territory

variable (T : Territory)

def Has (m : Machine) (f : FrameId) : Prop :=
  f < m.frames.all.size ∧ (f < T.start → T.Kept f)

def Knows (m : Machine) : Ref → Prop
  | .frame f => T.Has m f
  | .continuation k => k < m.continuations.size

/-- A value that leads nowhere else. -/
def Holds (m : Machine) (v : Value) : Prop :=
  v.StaysIn (.since T.base) (T.Knows m)

/-- Nothing in the territory leads out of it. -/
structure Within (m : Machine) : Prop where
  start : T.start ≤ m.frames.all.size
  base : T.base ≤ m.continuations.size
  outer : ∀ {f g}, T.Has m f → m.frames.outer? f = some g → T.Has m g
  bindings : ∀ {f}, T.Has m f → ∀ b ∈ m.frames.bindingsOf f, T.Holds m b.value
  transformers : ∀ b ∈ m.transformers, T.Holds m b.value

/-- Where a run may have got to from a state. -/
structure Onward (m n : Machine) : Prop where
  within : T.Within n
  grown : m.Larger n
  moves : T.Moves m.frames n.frames

/-- What an event is about lies in the territory. -/
def Admits (m : Machine) : Event → Prop
  | .evaluates form frame => T.Holds m form ∧ T.Has m frame
  | .applies procedure args => T.Holds m procedure ∧ ∀ v ∈ args, T.Holds m v
  | .expands form _ => T.Holds m form
  | .binds _ frame => T.Has m frame

/-- A computation that stays in the territory, with what its results satisfy. -/
def Stays {α : Type} (m : Machine) (a : Run α) (Q : Machine → α → Prop) : Prop :=
  T.Onward m (outcome a m).2 ∧ ∀ x n, outcome a m = (.ok x, n) → Q n x

/-- From a state, a watched computation comes to an event that the watch is set for and raises the alarm for
it, or it is the computation itself and its result has a property. -/
def Heeds {α : Type} (m : Machine) (watched : Alarm → Run α) (plain : Run α)
    (Q : Machine → α → Prop) : Prop :=
  (∃ event n, T.Onward m n ∧ T.Admits n event ∧ event.Occurs n ∧ T.Stops event n ∧
    ∀ alarm, (outcome (watched alarm) m).1 = .error (alarm event n)) ∨
  ((∀ alarm, outcome (watched alarm) m = outcome plain m) ∧ T.Onward m (outcome plain m).2 ∧
    ∀ x n, outcome plain m = (.ok x, n) → Q n x)

variable {T} {l m n : Machine} {f : FrameId} {v : Value}

theorem Has.mono (h : T.Has m f) (grown : m.Larger n) : T.Has n f :=
  ⟨Nat.lt_of_lt_of_le h.1 grown.frames, h.2⟩

theorem Holds.mono (h : T.Holds m v) (grown : m.Larger n) : T.Holds n v := by
  refine Value.StaysIn.mono h fun r known => ?_
  cases r with
  | frame f => exact Has.mono known grown
  | continuation k => exact Nat.lt_of_lt_of_le known grown.continuations

theorem Holds.list {i : Nat} {items : List Value} :
    T.Holds m (.list i items) ↔ ∀ v ∈ items, T.Holds m v :=
  Value.StaysIn.list

theorem Holds.closure {i : Nat} {parameters body : Value} {home : FrameId} :
    T.Holds m (.closure i parameters body home) ↔ T.Has m home ∧ T.Holds m body := by
  refine Value.StaysIn.closure.trans (and_congr Iff.rfl ?_)
  exact ⟨fun h => h trivial, fun h _ => h⟩

/-- A value on its way to a continuation that there is. -/
theorem Holds.escape {k : Nat} (made : k < m.continuations.size) (h : T.Holds m v) :
    T.Holds m (.escape k v) :=
  Value.StaysIn.escape.mpr ⟨made, fun _ => h⟩

theorem hereditary (T : Territory) (m : Machine) : Hereditary (T.Holds m) :=
  Value.StaysIn.hereditary _ _

namespace Within

theorem has_root (h : T.Within m) : T.Has m Machine.root :=
  ⟨Nat.lt_of_lt_of_le T.positive h.start, fun _ => T.root⟩

/-- The frames, the transformers and the number of continuations are all that matters. -/
theorem of_same (h : T.Within m) (frames : n.frames = m.frames)
    (transformers : n.transformers = m.transformers)
    (continuations : m.continuations.size ≤ n.continuations.size) : T.Within n := by
  have kept {v : Value} (holds : T.Holds m v) : T.Holds n v :=
    holds.mono ⟨Nat.le_of_eq (by rw [frames]), continuations⟩
  constructor
  · rw [frames]
    exact h.start
  · exact Nat.le_trans h.base continuations
  · unfold Has
    rw [frames]
    exact h.outer
  · intro f has b mem
    unfold Has at has
    rw [frames] at has mem
    exact kept (h.bindings has b mem)
  · intro b mem
    rw [transformers] at mem
    exact kept (h.transformers b mem)

theorem register (h : T.Within m) {b : Binding} (hb : T.Holds m b.value) :
    T.Within { m with transformers := m.transformers.put b } :=
  ⟨h.start, h.base, h.outer, h.bindings, Bindings.forall_put h.transformers hb⟩

theorem define (h : T.Within m) {b : Binding} (hb : T.Holds m b.value) (owner : FrameId) :
    T.Within { m with frames := m.frames.define owner b } := by
  have size : m.frames.all.size = (m.frames.define owner b).all.size := by simp
  have kept {v : Value} (holds : T.Holds m v) : T.Holds { m with frames := m.frames.define owner b } v :=
    holds.mono ⟨Nat.le_of_eq size, Nat.le_refl _⟩
  constructor
  · rw [← size]
    exact h.start
  · exact h.base
  · intro f g has outer
    simp only [Has, Frames.size_define, Frames.outer?_define] at has outer ⊢
    exact h.outer has outer
  · intro f has b' mem
    simp only [Has, Frames.size_define] at has
    rw [Frames.bindingsOf_define] at mem
    split at mem
    · exact kept (Bindings.forall_put (h.bindings has) hb b' mem)
    · exact kept (h.bindings has b' mem)
  · intro b' mem
    exact kept (h.transformers b' mem)

theorem frame (h : T.Within m) {bs : Bindings} (hbs : ∀ b ∈ bs, T.Holds m b.value) {home : FrameId}
    (hhome : T.Has m home) : T.Within { m with frames := (m.frames.new bs (some home)).2 } := by
  have grown : m.Larger { m with frames := (m.frames.new bs (some home)).2 } :=
    ⟨by simp, Nat.le_refl _⟩
  constructor
  · exact Nat.le_trans h.start grown.frames
  · exact h.base
  · intro f g has outer
    rw [Frames.outer?_new] at outer
    split at outer
    · cases outer
      exact hhome.mono grown
    · exact Has.mono (h.outer ⟨Frames.lt_of_outer? outer, has.2⟩ outer) grown
  · intro f has b mem
    rw [Frames.bindingsOf_new] at mem
    split at mem
    · exact (hbs b mem).mono grown
    · exact (h.bindings ⟨Frames.lt_of_mem_bindingsOf mem, has.2⟩ b mem).mono grown
  · intro b mem
    exact (h.transformers b mem).mono grown

theorem owner (h : T.Within m) {key : Key} {owner : FrameId} (has : T.Has m f)
    (owns : m.frames.find? f key = some owner) : T.Has m owner :=
  Frames.forall_mem_chain h.outer has owner (Frames.mem_chain_of_find? owns)

theorem lookup? (h : T.Within m) {key : Key} (has : T.Has m f)
    (found : m.frames.lookup? f key = some v) : T.Holds m v := by
  obtain ⟨owner, owns, found⟩ := Option.bind_eq_some_iff.mp found
  exact Bindings.of_get? (h.bindings (h.owner has owns)) found

end Within

namespace Onward

theorem of_same (h : T.Within m) (frames : n.frames = m.frames)
    (transformers : n.transformers = m.transformers)
    (continuations : m.continuations.size ≤ n.continuations.size) : T.Onward m n where
  within := h.of_same frames transformers continuations
  grown := ⟨Nat.le_of_eq (by rw [frames]), continuations⟩
  moves := by
    rw [frames]
    exact T.refl _

theorem refl (h : T.Within m) : T.Onward m m := of_same h rfl rfl (Nat.le_refl _)

theorem quiet (h : T.Within m) (hq : m.Quiet n) : T.Onward m n :=
  of_same h hq.frames hq.transformers (Nat.le_of_eq (by rw [hq.continuations]))

theorem trans (h : T.Onward l m) (h' : T.Onward m n) : T.Onward l n where
  within := h'.within
  grown := h.grown.trans h'.grown
  moves := T.trans h.moves h'.moves

end Onward

namespace Stays

variable {α β : Type} {a : Run α} {Q : Machine → α → Prop}

theorem of_gives {P : α → Prop} (hw : T.Within m) (h : Gives a P) (hQ : ∀ n x, m.Larger n → P x → Q n x) :
    T.Stays m a Q := by
  obtain ⟨quiet, good⟩ := h m
  have onward : T.Onward m (outcome a m).2 := .quiet hw quiet
  refine ⟨onward, fun x n ends => hQ n x ?_ (good x n ends)⟩
  have grown := onward.grown
  rwa [ends] at grown

/-- A quiet computation whose result does not matter. -/
theorem quiet (hw : T.Within m) (h : Gives a fun _ => True) : T.Stays m a fun _ _ => True :=
  of_gives hw h fun _ _ _ _ => trivial

theorem pure {x : α} (hw : T.Within m) (h : Q m x) : T.Stays m (pure x) Q := by
  refine ⟨.refl hw, ?_⟩
  rintro _ _ ⟨⟩
  exact h

theorem throw (hw : T.Within m) (e : Halt) : T.Stays m (throw e : Run α) Q :=
  ⟨.refl hw, nofun⟩

theorem fail (hw : T.Within m) (f : Failure) : T.Stays m (fail f : Run α) Q :=
  throw hw (.failed f)

theorem bind {k : α → Run β} {Q' : Machine → β → Prop} (h : T.Stays m a Q)
    (rest : ∀ n x, T.Onward m n → Q n x → T.Stays n (k x) Q') : T.Stays m (a >>= k) Q' := by
  obtain ⟨onward, good⟩ := h
  unfold Stays
  rw [outcome_bind]
  rcases ended : outcome a m with ⟨e | x, n⟩
  · rw [ended] at onward
    refine ⟨onward, ?_⟩
    rintro _ _ ⟨⟩
  · rw [ended] at onward
    obtain ⟨onward', good'⟩ := rest n x onward (good x n ended)
    exact ⟨onward.trans onward', good'⟩

/-- The state that is read is the one there is. -/
theorem get_bind {k : Machine → Run β} {Q' : Machine → β → Prop} (h : T.Stays m (k m) Q') :
    T.Stays m (get >>= k) Q' := h

end Stays

/-- To stay in a territory is a judgement. Its worlds are states, and it asks for nothing in those that are not
within. -/
def judgement (T : Territory) : Judgement where
  World := Machine
  Later := Machine.Larger
  Good := T.Holds
  At m n := n = m ∧ T.Within m
  Holds m a Q := T.Within m → T.Stays m a Q
  refl := .refl
  trans := .trans
  later grown h := h.mono grown
  symbol _ := (T.hereditary _).symbol _
  int := (T.hereditary _).int
  float := (T.hereditary _).float
  nan := (T.hereditary _).nan
  bool := (T.hereditary _).bool
  unspecified := (T.hereditary _).unspecified
  items := Holds.list.mp
  pure_holds h hw := .pure hw h
  throw_holds h hw := .throw hw h
  bind_holds first rest hw := (first hw).bind fun n x onward hx => rest n onward.grown x hx onward.within
  get_holds _ rest hw := rest _ ⟨rfl, hw⟩ hw
  newObject_holds hw := .quiet hw newObject_gives
  newList_holds h hw := .of_gives hw ((T.hereditary _).newList_gives h) fun _ _ grown holds => holds.mono grown
  writeLine_holds line hw := .quiet hw (writeLine_gives line)
  draw_holds hw := .quiet hw draw_gives

namespace Heeds

variable {α β : Type} {a : Run α} {b : Alarm → Run α} {Q : Machine → α → Prop}

/-- A computation that is not watched. -/
theorem same (h : T.Stays m a Q) : T.Heeds m (fun _ => a) a Q :=
  Or.inr ⟨fun _ => rfl, h⟩

theorem mono {Q' : Machine → α → Prop} (h : T.Heeds m b a Q) (hQ : ∀ n x, Q n x → Q' n x) : T.Heeds m b a Q' := by
  rcases h with stops | ⟨same, onward, good⟩
  · exact Or.inl stops
  · exact Or.inr ⟨same, onward, fun x n ends => hQ n x (good x n ends)⟩

/-- What follows is watched from the state that the first part leaves. -/
theorem bind {k : Alarm → α → Run β} {k' : α → Run β} {Q' : Machine → β → Prop}
    (h : T.Heeds m b a Q)
    (rest : ∀ n x, T.Onward m n → Q n x → T.Heeds n (fun alarm => k alarm x) (k' x) Q') :
    T.Heeds m (fun alarm => b alarm >>= k alarm) (a >>= k') Q' := by
  rcases h with ⟨event, n, onward, admits, occurs, stops, halts⟩ | ⟨same, onward, good⟩
  · refine Or.inl ⟨event, n, onward, admits, occurs, stops, fun alarm => ?_⟩
    rw [outcome_bind_of_error (Prod.ext (halts alarm) rfl)]
  rcases ended : outcome a m with ⟨e | x, n⟩
  · rw [ended] at onward
    have failed : outcome (a >>= k') m = (.error e, n) := outcome_bind_of_error ended _
    refine Or.inr ⟨fun alarm => ?_, ?_, ?_⟩
    · rw [failed]
      exact outcome_bind_of_error ((same alarm).trans ended) _
    · rw [failed]
      exact onward
    · rw [failed]
      rintro _ _ ⟨⟩
  · rw [ended] at onward
    have goes : outcome (a >>= k') m = outcome (k' x) n := outcome_bind_of_ok ended _
    have goes' (alarm : Alarm) : outcome (b alarm >>= k alarm) m = outcome (k alarm x) n :=
      outcome_bind_of_ok ((same alarm).trans ended) _
    rcases rest n x onward (good x n ended) with
      ⟨event, n', onward', admits, occurs, stops, halts⟩ | ⟨same', onward', good'⟩
    · refine Or.inl ⟨event, n', onward.trans onward', admits, occurs, stops, fun alarm => ?_⟩
      rw [goes' alarm, halts alarm]
    · refine Or.inr ⟨fun alarm => ?_, ?_, ?_⟩
      · rw [goes, goes', same' alarm]
      · rw [goes]
        exact onward.trans onward'
      · rw [goes]
        exact good'

/-- A call that owns a continuation. -/
theorem owner {go : Alarm → Nat → Run Value} {go' : Nat → Run Value} (hw : T.Within m)
    (h : ∀ k n, T.Onward m n → T.Heeds n (fun alarm => go alarm k) (go' k) T.Holds) :
    T.Heeds m
      (fun alarm => do
        let k ← openContinuation
        let v ← spending k (go alarm k)
        return v.received k)
      (do
        let k ← openContinuation
        let v ← spending k (go' k)
        return v.received k) T.Holds := by
  have opens : T.Heeds m (fun _ => openContinuation) openContinuation fun n k =>
      T.base ≤ k ∧ k < n.continuations.size := by
    have size : m.continuations.size < (m.continuations.push true).size := by simp
    refine same ⟨.of_same hw rfl rfl (Nat.le_of_lt size), ?_⟩
    rintro _ _ ⟨⟩
    exact ⟨hw.base, size⟩
  refine opens.bind fun n k onward own => ?_
  have spent : T.Heeds n (fun alarm => spending k (go alarm k)) (spending k (go' k)) T.Holds := by
    rcases h k n onward with ⟨event, l, onward', admits, occurs, stops, halts⟩ | ⟨same, onward', good⟩
    · exact Or.inl ⟨event, l, onward', admits, occurs, stops, halts⟩
    · have size : (outcome (go' k) n).2.continuations.size ≤
          (outcome (spending k (go' k)) n).2.continuations.size := by
        rw [outcome_spending]
        simp
      have spent : T.Onward n (outcome (spending k (go' k)) n).2 :=
        onward'.trans (.of_same onward'.within rfl rfl size)
      refine Or.inr ⟨fun alarm => ?_, spent, fun v l ends => ?_⟩
      · rw [outcome_spending, outcome_spending, same alarm]
      · rw [outcome_spending] at ends
        obtain ⟨value, rfl⟩ := Prod.mk.inj ends
        exact (good v (outcome (go' k) n).2 (Prod.ext value rfl)).mono ⟨Nat.le_refl _, size⟩
  exact spent.bind fun l v onward' holds => same (.pure onward'.within (holds.received own.1))

end Heeds

theorem frame_stays (hw : T.Within m) {bs : Bindings} (hbs : ∀ b ∈ bs, T.Holds m b.value) (has : T.Has m f) :
    T.Stays m (modifyGet fun m =>
      ((m.frames.new bs (some f)).1, { m with frames := (m.frames.new bs (some f)).2 })) T.Has := by
  have grown : m.Larger { m with frames := (m.frames.new bs (some f)).2 } := ⟨by simp, Nat.le_refl _⟩
  have inside : T.Has { m with frames := (m.frames.new bs (some f)).2 } m.frames.all.size :=
    ⟨by simp, fun early => absurd hw.start (Nat.not_le_of_lt early)⟩
  refine ⟨⟨hw.frame hbs has, grown, T.frame hw.start has.1 bs⟩, ?_⟩
  rintro _ _ ⟨⟩
  exact inside

/-- To heed a territory is a regime, in which transformers may be registered. -/
def regime (T : Territory) : Regime Alarm where
  toJudgement := T.judgement
  Beside m b a Q := T.Within m → T.Heeds m b a Q
  Final := T.Holds
  Home := T.Has
  Registers := True
  same h hw := .same (h hw)
  bind_beside first rest hw := (first hw).bind fun n x onward hx => rest n onward.grown x hx onward.within
  final h := h
  good h _ := h
  root h hw := h hw.has_root hw
  home grown has := has.mono grown
  opens := Holds.closure.mp
  closes _ hbody has := Holds.closure.mpr ⟨has, hbody⟩
  found := by
    rintro m _ f key v ⟨rfl, hw⟩ has found
    exact hw.lookup? has found
  transformer := by
    rintro m _ ⟨rfl, hw⟩
    exact hw.transformers
  escapes := by
    rintro m _ k v ⟨rfl, hw⟩ live h
    exact .escape (Machine.lt_of_isLive live) h
  frame_holds hbs has hw := frame_stays hw hbs has
  register_holds _ _ h hw := ⟨⟨hw.register h, ⟨Nat.le_refl _, Nat.le_refl _⟩, T.refl _⟩, fun _ _ _ => trivial⟩

section Targets

variable {room : Nat} {frame : FrameId}

theorem keyOf_stays (hw : T.Within m) (target : Value) :
    T.Stays m (keyOf target) fun n key => n = m ∧ Key.ofValue? target = some key := by
  unfold keyOf
  cases known : Key.ofValue? target with
  | none => exact .fail hw _
  | some key => exact .pure hw ⟨rfl, rfl⟩

theorem find_stays (hw : T.Within m) (frame : FrameId) (target : Value) :
    T.Stays m (find room frame target) fun n owner =>
      n = m ∧ ∃ key, Key.ofValue? target = some key ∧ m.frames.find? frame key = some owner := by
  refine (keyOf_stays hw target).bind fun n key _ known => ?_
  obtain ⟨rfl, known⟩ := known
  refine .get_bind ?_
  cases found : n.frames.find? frame key with
  | some owner => exact .pure hw ⟨rfl, key, known, found⟩
  | none => exact (Stays.quiet hw (bare_gives room target)).bind fun _ _ onward _ => .fail onward.within _

theorem bind_stays {form : Value} {owner : FrameId} {b : Binding} (hw : T.Within m)
    (has : T.Has m owner) (hb : T.Holds m b.value) (binds : m.Binds form frame owner b.key)
    (free : ¬ T.Stops (.binds form frame) m) : T.Stays m (Run.bind owner b) fun _ _ => True :=
  ⟨⟨hw.define hb owner, ⟨Nat.le_of_eq (Frames.size_define ..).symm, Nat.le_refl _⟩, T.binding has.2 binds free⟩,
    fun _ _ _ => trivial⟩

/-- Unless the watch is set for it, the target of a definition is bound. -/
theorem define_stays {i : Nat} {target e : Value} (hw : T.Within m) (has : T.Has m frame)
    (hv : T.Holds m v)
    (free : ∀ owner key, m.Binds (.list i [CoreKeyword.define.symbol, target, e]) frame owner key →
      ¬ T.Stops (.binds (.list i [CoreKeyword.define.symbol, target, e]) frame) m) :
    T.Stays m (Run.define room frame target v) fun _ _ => True := by
  unfold Run.define
  cases named : target.name? with
  | some name =>
    have binds : m.Binds (.list i [CoreKeyword.define.symbol, target, e]) frame frame (.name name) :=
      .define named
    exact bind_stays hw has hv binds (free _ _ binds)
  | none => exact (Stays.quiet hw (bare_gives room target)).bind fun n _ onward _ => .fail onward.within _

/-- Unless the watch is set for it, the target of an assignment is bound in the frame that owns it. -/
theorem assign_stays {i : Nat} {target e : Value} (hw : T.Within m) (has : T.Has m frame)
    (hv : T.Holds m v)
    (free : ∀ owner key, m.Binds (.list i [CoreKeyword.assign.symbol, target, e]) frame owner key →
      ¬ T.Stops (.binds (.list i [CoreKeyword.assign.symbol, target, e]) frame) m) :
    T.Stays m (Run.assign room frame target v) fun _ _ => True := by
  refine (find_stays hw frame target).bind fun n owner _ found => ?_
  obtain ⟨rfl, key, known, found⟩ := found
  have binds : n.Binds (.list i [CoreKeyword.assign.symbol, target, e]) frame owner key :=
    .assign known found
  cases made : Binding.ofTarget target v with
  | error f => exact .fail hw f
  | ok b =>
    obtain ⟨_, value, known'⟩ := Binding.ofTarget_eq_ok made
    obtain rfl := Option.some.inj (known.symm.trans known')
    exact bind_stays hw (hw.owner has found) (value ▸ hv) binds (free _ _ binds)

end Targets

end Territory

end SmallLisp
