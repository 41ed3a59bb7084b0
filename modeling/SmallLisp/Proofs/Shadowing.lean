import SmallLisp.Proofs.FrameByFrame
/-!
# Definition and assignment on a tree of frames

Frames share the frames around them, and each may hide a name that another binds. A name is seen from a frame through
the first frame of its chain that binds the name. So a definition or an assignment, which gives one key of one frame a
value, is seen from exactly the frames for which that frame comes first. Chains have to end for this; no order among
the frames is needed.
-/
namespace SmallLisp

open Run

namespace Frames

variable {fs fs' : Frames} {f g h : FrameId} {key other : Key} {v : Value} {path : List FrameId}

/-- The first frame of a chain that binds a key. -/
def Owns (fs : Frames) (g : FrameId) (key : Key) (h : FrameId) : Prop :=
  ∃ before behind, fs.Climbs g (before ++ h :: behind) ∧ (fs.bindingsOf h).binds key = true ∧
    ∀ x ∈ before, (fs.bindingsOf x).binds key = false

/-- A frame that binds a key comes first in its own chain. -/
theorem Climbs.owns_self (climbs : fs.Climbs f path) (binds : (fs.bindingsOf f).binds key = true) :
    fs.Owns f key f := by
  cases climbs with
  | top found outer => exact ⟨[], [], .top found outer, binds, nofun⟩
  | up found outer climbs => exact ⟨[], _, .up found outer climbs, binds, nofun⟩

theorem Owns.find?_eq (owns : fs.Owns g key h) : fs.find? g key = some h := by
  obtain ⟨before, behind, climbs, binds, none⟩ := owns
  unfold find?
  rw [climbs.chain_eq, List.find?_eq_some_iff_append]
  refine ⟨binds, before, behind, rfl, ?_⟩
  intro x mem
  simp [none x mem]

theorem Climbs.owns_of_find? (climbs : fs.Climbs g path) (found : fs.find? g key = some h) : fs.Owns g key h := by
  unfold find? at found
  rw [climbs.chain_eq, List.find?_eq_some_iff_append] at found
  obtain ⟨binds, before, behind, rfl, none⟩ := found
  refine ⟨before, behind, climbs, binds, ?_⟩
  intro x mem
  simpa using none x mem

theorem Climbs.find?_eq_none_iff (climbs : fs.Climbs g path) :
    fs.find? g key = none ↔ ∀ x ∈ path, (fs.bindingsOf x).binds key = false := by
  unfold find?
  rw [climbs.chain_eq, List.find?_eq_none]
  simp

theorem Owns.unique {h' : FrameId} (owns : fs.Owns g key h) (owns' : fs.Owns g key h') : h = h' :=
  Option.some.inj (owns.find?_eq.symm.trans owns'.find?_eq)

theorem Owns.lookup?_eq (owns : fs.Owns g key h) : fs.lookup? g key = (fs.bindingsOf h).get? key := by
  unfold lookup?
  rw [owns.find?_eq]
  rfl

/-- One key of one frame has a value now. All else is as it was: the frames, their links, and their keys in their
order, where a new key is the last one of its frame. -/
structure Rebinds (fs fs' : Frames) (h : FrameId) (key : Key) (v : Value) : Prop where
  size : fs'.all.size = fs.all.size
  outer : ∀ x, fs'.outer? x = fs.outer? x
  keys : ∀ x, (fs'.bindingsOf x).keys =
    if x = h ∧ (fs.bindingsOf x).binds key = false then (fs.bindingsOf x).keys ++ [key] else (fs.bindingsOf x).keys
  values : ∀ x other, (fs'.bindingsOf x).get? other =
    if x = h ∧ other = key then some v else (fs.bindingsOf x).get? other

/-- That is what a definition does. -/
theorem rebinds_define (exists_ : h < fs.all.size) (b : Binding) :
    fs.Rebinds (fs.define h b) h b.key b.value := by
  obtain ⟨frame, found⟩ := exists_get? exists_
  constructor
  · exact size_define ..
  · intro x
    exact outer?_define ..
  · intro x
    rw [bindingsOf_define]
    by_cases here : h = x
    · subst here
      rw [if_pos ⟨rfl, by simp [found]⟩, Bindings.keys_put]
      cases (fs.bindingsOf h).binds b.key <;> simp
    · rw [if_neg (fun both => here both.1), if_neg (fun both => here both.1.symm)]
  · intro x other
    rw [bindingsOf_define]
    by_cases here : h = x
    · subst here
      rw [if_pos ⟨rfl, by simp [found]⟩, Bindings.get?_put]
      by_cases same : b.key = other
      · rw [if_pos same, if_pos ⟨rfl, same.symm⟩]
      · rw [if_neg same, if_neg fun both => same both.2.symm]
    · rw [if_neg (fun both => here both.1), if_neg (fun both => here both.1.symm)]

namespace Rebinds

variable (rebinds : fs.Rebinds fs' h key v)
include rebinds

theorem binds_eq (x : FrameId) (other : Key) :
    (fs'.bindingsOf x).binds other = (decide (x = h ∧ other = key) || (fs.bindingsOf x).binds other) := by
  rw [← Bindings.isSome_get?, ← Bindings.isSome_get?, rebinds.values]
  by_cases here : x = h ∧ other = key
  · rw [if_pos here, decide_eq_true here]
    rfl
  · rw [if_neg here, decide_eq_false here]
    rfl

theorem climbs (climbs : fs.Climbs g path) : fs'.Climbs g path := by
  refine climbs.grows ⟨Nat.le_of_eq rebinds.size.symm, fun x _ => rebinds.outer x, ?_, ?_⟩
  · intro x inside beyond
    rw [rebinds.size] at inside
    omega
  · intro x other binds
    rw [rebinds.binds_eq, binds, Bool.or_true]

/-- The value is seen from where its frame comes first. -/
theorem lookup?_of_owns (first : fs'.Owns g key h) : fs'.lookup? g key = some v := by
  rw [first.lookup?_eq, rebinds.values, if_pos ⟨rfl, rfl⟩]

/-- Nothing else is seen otherwise than before. -/
theorem lookup?_of_not_owns (ends : fs.Climbs g path) (not : ¬ (other = key ∧ fs'.Owns g key h)) :
    fs'.lookup? g other = fs.lookup? g other := by
  have ends' := rebinds.climbs ends
  have before {x : FrameId} (none : (fs'.bindingsOf x).binds other = false) :
      (fs.bindingsOf x).binds other = false := by
    rw [rebinds.binds_eq] at none
    exact (Bool.or_eq_false_iff.mp none).2
  cases found : fs'.find? g other with
  | none =>
    have hidden := ends'.find?_eq_none_iff.mp found
    have missing := ends.find?_eq_none_iff.mpr fun x mem => before (hidden x mem)
    unfold lookup?
    rw [found, missing]
    rfl
  | some owner =>
    have owns' := ends'.owns_of_find? found
    have elsewhere : ¬ (owner = h ∧ other = key) := by
      rintro ⟨rfl, rfl⟩
      exact not ⟨rfl, owns'⟩
    have owns : fs.Owns g other owner := by
      obtain ⟨nearer, behind, climbs', binds, none⟩ := owns'
      rw [rebinds.binds_eq, decide_eq_false elsewhere] at binds
      have split := ends'.unique climbs'
      exact ⟨nearer, behind, split ▸ ends, binds, fun x mem => before (none x mem)⟩
    rw [owns'.lookup?_eq, owns.lookup?_eq, rebinds.values, if_neg elsewhere]

/-- A frame that has bound the key already stays the first one for it where it was, and for no more frames. -/
theorem owns_iff (bound : (fs.bindingsOf h).binds key = true) (ends : fs.Climbs g path) {owner : FrameId} :
    fs'.Owns g other owner ↔ fs.Owns g other owner := by
  have same (x : FrameId) : (fs'.bindingsOf x).binds other = (fs.bindingsOf x).binds other := by
    rw [rebinds.binds_eq]
    by_cases here : x = h ∧ other = key
    · obtain ⟨rfl, rfl⟩ := here
      rw [bound, Bool.or_true]
    · rw [decide_eq_false here, Bool.false_or]
  have ends' := rebinds.climbs ends
  constructor
  · rintro ⟨before, behind, climbs, binds, none⟩
    have split := ends'.unique climbs
    exact ⟨before, behind, split ▸ ends, same owner ▸ binds, fun x mem => same x ▸ none x mem⟩
  · rintro ⟨before, behind, climbs, binds, none⟩
    exact ⟨before, behind, rebinds.climbs climbs, (same owner).trans binds, fun x mem => (same x).trans (none x mem)⟩

end Rebinds

end Frames

namespace Machine

variable {m : Machine} {room : Nat} {f : FrameId} {name : String} {v : Value}

theorem bareText?_symbol (live : Nat → Bool) : (Value.symbol name).bareText? live room = .ok name := by
  unfold Value.bareText? Value.text?
  cases room <;> simp [Value.isDeeperThan, Value.parts, Value.hasLongInteger, Value.text]

theorem outcome_unbound {α : Type} :
    outcome (do fail (.unbound (← bare room (.symbol name))) : Run α) m = (.error (.failed (.unbound name)), m) := by
  unfold bare
  rw [bind_assoc, outcome_bind_of_ok (outcome_get m), bareText?_symbol]
  rfl

theorem outcome_lookup : outcome (lookup room f (.symbol name)) m =
    (match m.frames.lookup? f (.name name) with
      | some v => .ok v
      | none => .error (.failed (.unbound name)), m) := by
  unfold lookup keyOf
  simp only [Key.ofValue?, pure_bind]
  rw [outcome_bind_of_ok (outcome_get m)]
  cases m.frames.lookup? f (.name name) with
  | none => exact outcome_unbound
  | some v => rfl

theorem outcome_define : outcome (define room f (.symbol name) v) m =
    (.ok ⟨⟩, { m with frames := m.frames.define f (.ofName name v) }) := rfl

theorem outcome_assign : outcome (assign room f (.symbol name) v) m =
    match m.frames.find? f (.name name) with
      | some h => (.ok ⟨⟩, { m with frames := m.frames.define h (.ofName name v) })
      | none => (.error (.failed (.unbound name)), m) := by
  unfold assign find keyOf
  simp only [Key.ofValue?, pure_bind, bind_assoc]
  rw [outcome_bind_of_ok (outcome_get m)]
  cases m.frames.find? f (.name name) with
  | none =>
    rw [outcome_bind_of_error outcome_unbound]
  | some h => rfl

/-- A state in which a name is seen with a new value from some frames; whatever else is looked up, from whichever frame,
gives what it gave in an earlier state. -/
def Shows (m n : Machine) (room : Nat) (name : String) (v : Value) (sees : FrameId → Prop) : Prop :=
  ∀ g < m.frames.all.size,
    (sees g → outcome (lookup room g (.symbol name)) n = (.ok v, n)) ∧
    ∀ other, ¬ (other = name ∧ sees g) →
      outcome (lookup room g (.symbol other)) n = ((outcome (lookup room g (.symbol other)) m).1, n)

theorem shows_of_rebinds {h : FrameId} {frames : Frames} (room : Nat)
    (ends : ∀ f < m.frames.all.size, ∃ path, m.frames.Climbs f path)
    (rebinds : m.frames.Rebinds frames h (.name name) v) :
    m.Shows { m with frames := frames } room name v fun g => frames.Owns g (.name name) h := by
  intro g exists_
  obtain ⟨path, climbs⟩ := ends g exists_
  constructor
  · intro first
    rw [outcome_lookup, rebinds.lookup?_of_owns first]
  · intro other not
    have same : frames.lookup? g (.name other) = m.frames.lookup? g (.name other) := by
      refine rebinds.lookup?_of_not_owns climbs ?_
      rintro ⟨equal, first⟩
      exact not ⟨Key.name.inj equal, first⟩
    rw [outcome_lookup, outcome_lookup, same]

/-- The laws of definition and assignment from a frame, in a state whose chains all end. A definition binds the name in
that very frame; the name is seen with its value from there and from wherever this frame is now the first of the chain
to bind it. An assignment is refused, and changes nothing, when no frame of the chain binds the name. Otherwise it
rebinds the name in the first frame that does, all names stay, and the value is seen from wherever that frame is the
first one to bind the name. -/
theorem define_assign_laws (m : Machine) (ends : ∀ f < m.frames.all.size, ∃ path, m.frames.Climbs f path)
    (f : FrameId) (exists_ : f < m.frames.all.size) (room : Nat) (name : String) (v : Value) :
    (∃ frames, outcome (define room f (.symbol name) v) m = (.ok ⟨⟩, { m with frames := frames }) ∧
      m.frames.Rebinds frames f (.name name) v ∧
      outcome (lookup room f (.symbol name)) { m with frames := frames } = (.ok v, { m with frames := frames }) ∧
      m.Shows { m with frames := frames } room name v fun g => frames.Owns g (.name name) f) ∧
    ((∀ path, m.frames.Climbs f path → ∀ x ∈ path, (m.frames.bindingsOf x).binds (.name name) = false) ∧
        outcome (assign room f (.symbol name) v) m = (.error (.failed (.unbound name)), m) ∨
      ∃ h frames, m.frames.Owns f (.name name) h ∧
        outcome (assign room f (.symbol name) v) m = (.ok ⟨⟩, { m with frames := frames }) ∧
        m.frames.Rebinds frames h (.name name) v ∧
        (∀ x, (frames.bindingsOf x).keys = (m.frames.bindingsOf x).keys) ∧
        m.Shows { m with frames := frames } room name v fun g => m.frames.Owns g (.name name) h) := by
  obtain ⟨path, climbs⟩ := ends f exists_
  constructor
  · have rebinds := Frames.rebinds_define exists_ (.ofName name v)
    have shows := shows_of_rebinds room ends rebinds
    have binds : ((m.frames.define f (.ofName name v)).bindingsOf f).binds (.name name) = true := by
      rw [rebinds.binds_eq, decide_eq_true ⟨rfl, rfl⟩, Bool.true_or]
    have first := (rebinds.climbs climbs).owns_self binds
    exact ⟨_, outcome_define, rebinds, (shows f exists_).1 first, shows⟩
  · cases found : m.frames.find? f (.name name) with
    | none =>
      left
      constructor
      · intro path' climbs'
        exact climbs'.find?_eq_none_iff.mp found
      · rw [outcome_assign, found]
    | some h =>
      right
      have owns := climbs.owns_of_find? found
      have bound := Frames.binds_of_find? found
      have inside : h < m.frames.all.size := by
        obtain ⟨before, behind, climbs', _⟩ := owns
        exact climbs'.mem_lt_size h (by simp)
      have rebinds : m.frames.Rebinds _ h (.name name) v := Frames.rebinds_define inside (.ofName name v)
      refine ⟨h, _, owns, by rw [outcome_assign, found], rebinds, ?_, ?_⟩
      · intro x
        rw [rebinds.keys, if_neg]
        rintro ⟨rfl, unbound⟩
        rw [bound] at unbound
        cases unbound
      · intro g exists_'
        obtain ⟨path', climbs'⟩ := ends g exists_'
        have shows := shows_of_rebinds room ends rebinds g exists_'
        beta_reduce at shows ⊢
        rwa [rebinds.owns_iff bound climbs'] at shows

/-- A frame that binds a name, and two frames in it. -/
def siblings : Machine :=
  { start .zeros with frames := ⟨#[⟨[.ofName "x" (.int 1)], none⟩, ⟨[], some 0⟩, ⟨[], some 0⟩]⟩ }

theorem siblings_climbs_root : siblings.frames.Climbs 0 [0] :=
  .top rfl rfl

theorem siblings_climbs_inner {f : Nat} (inner : f = 1 ∨ f = 2) : siblings.frames.Climbs f [f, 0] := by
  rcases inner with rfl | rfl
  · exact .up rfl rfl siblings_climbs_root
  · exact .up rfl rfl siblings_climbs_root

theorem siblings_owns {f : Nat} (inner : f = 1 ∨ f = 2) : siblings.frames.Owns f (.name "x") 0 := by
  refine ⟨[f], [], siblings_climbs_inner inner, by decide, ?_⟩
  rcases inner with rfl | rfl <;> decide

/-- What one of them assigns, the other one sees. -/
theorem assign_siblings : ∃ frames,
    outcome (assign 0 1 (.symbol "x") (.int 2)) siblings = (.ok ⟨⟩, { siblings with frames := frames }) ∧
      outcome (lookup 0 2 (.symbol "x")) { siblings with frames := frames } =
        (.ok (.int 2), { siblings with frames := frames }) := by
  have ends : ∀ f < siblings.frames.all.size, ∃ path, siblings.frames.Climbs f path := by
    intro f exists_
    have few : f < 3 := exists_
    rcases Nat.eq_zero_or_pos f with rfl | positive
    · exact ⟨_, siblings_climbs_root⟩
    · exact ⟨_, siblings_climbs_inner (by omega)⟩
  rcases (define_assign_laws siblings ends 1 (by decide) 0 "x" (.int 2)).2 with
    ⟨hidden, _⟩ | ⟨h, frames, owns, assigned, _, _, shows⟩
  · cases hidden _ (siblings_climbs_inner (Or.inl rfl)) 0 (by decide)
  · obtain rfl : h = 0 := owns.unique (siblings_owns (Or.inl rfl))
    exact ⟨frames, assigned, (shows 2 (by decide)).1 (siblings_owns (Or.inr rfl))⟩

end Machine

end SmallLisp
