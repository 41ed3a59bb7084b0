import Mathlib.Data.List.Perm.Subperm
import SmallLisp.Proofs.Patrol
/-!
# The tree of frames

Frames make a tree: the root frame alone has none around it, and every other frame is enclosed by one made
earlier. So each chain of frames climbs to the root and ends there. Runs only make the tree grow. No frame is
moved to another place in it, and no frame loses a name. A name that has been looked up with success
from a frame can therefore always be looked up, and assigned, from there.
-/
namespace SmallLisp

open Run

namespace Frames

variable {fs fs' fs'' : Frames} {f g : FrameId}

/-- From a frame to its enclosing frame, and so on until a frame has none. -/
inductive Climbs (fs : Frames) : FrameId → List FrameId → Prop
  | top {f frame} : fs.get? f = some frame → frame.outer = none → Climbs fs f [f]
  | up {f frame g path} : fs.get? f = some frame → frame.outer = some g → Climbs fs g path →
      Climbs fs f (f :: path)

/-- Every frame keeps its place and its names; frames made anew are enclosed by earlier ones. -/
structure Grows (fs fs' : Frames) : Prop where
  size : fs.all.size ≤ fs'.all.size
  outer : ∀ f < fs.all.size, fs'.outer? f = fs.outer? f
  made : ∀ f < fs'.all.size, fs.all.size ≤ f → ∃ g < f, fs'.outer? f = some g
  names : ∀ f key, (fs.bindingsOf f).binds key = true → (fs'.bindingsOf f).binds key = true

namespace Grows

theorem refl (fs : Frames) : fs.Grows fs where
  size := Nat.le_refl _
  outer _ _ := rfl
  made _ lt le := absurd lt (Nat.not_lt_of_le le)
  names _ _ h := h

theorem trans (h : fs.Grows fs') (h' : fs'.Grows fs'') : fs.Grows fs'' where
  size := Nat.le_trans h.size h'.size
  outer f lt := (h'.outer f (Nat.lt_of_lt_of_le lt h.size)).trans (h.outer f lt)
  made f lt le := by
    by_cases earlier : f < fs'.all.size
    · rw [h'.outer f earlier]
      exact h.made f earlier le
    · exact h'.made f lt (Nat.le_of_not_lt earlier)
  names f key binds := h'.names f key (h.names f key binds)

/-- A new frame inside one that exists. -/
theorem new {home : FrameId} (exists_ : home < fs.all.size) (bs : Bindings) :
    fs.Grows (fs.new bs (some home)).2 where
  size := by simp
  outer f lt := by
    rw [outer?_new, if_neg (Nat.ne_of_lt lt)]
  made f lt le := by
    have last : f = fs.all.size := by
      rw [size_new] at lt
      omega
    subst last
    exact ⟨home, exists_, by rw [outer?_new, if_pos rfl]⟩
  names f key binds := by
    rw [bindingsOf_new]
    split
    · rename_i last
      have none : fs.bindingsOf f = [] := by
        unfold bindingsOf
        rw [get?_of_size_le (Nat.le_of_eq last.symm)]
      rw [none] at binds
      cases binds
    · exact binds

theorem define (fs : Frames) (owner : FrameId) (b : Binding) : fs.Grows (fs.define owner b) where
  size := by simp
  outer f _ := by simp
  made f lt le := by
    rw [size_define] at lt
    omega
  names f key binds := by
    rw [bindingsOf_define]
    split
    · rw [Bindings.binds_put, binds, Bool.or_true]
    · exact binds

end Grows

theorem exists_get? (h : f < fs.all.size) : ∃ frame, fs.get? f = some frame :=
  ⟨fs.all[f], Array.getElem?_eq_getElem h⟩

/-- The bound on a chain is no limit to a climb that ends. -/
theorem Climbs.chainWithin_eq {path : List FrameId} (h : fs.Climbs f path) {bound : Nat}
    (enough : path.length ≤ bound) : fs.chainWithin bound f = path := by
  induction h generalizing bound with
  | top found none =>
    obtain ⟨bound, rfl⟩ : ∃ n, bound = n + 1 := ⟨bound - 1, by simp at enough; omega⟩
    simp [chainWithin, found, none]
  | up found outer _ ih =>
    obtain ⟨bound, rfl⟩ : ∃ n, bound = n + 1 := ⟨bound - 1, by simp at enough; omega⟩
    simp only [List.length_cons] at enough
    simp [chainWithin, found, outer, ih (Nat.le_of_succ_le_succ enough)]

theorem Climbs.unique {path path' : List FrameId} (h : fs.Climbs f path) (h' : fs.Climbs f path') :
    path = path' := by
  have first := h.chainWithin_eq (Nat.le_max_left path.length path'.length)
  have second := h'.chainWithin_eq (Nat.le_max_right path.length path'.length)
  exact first.symm.trans second

/-- What is left of a chain from one of its frames on is the chain of that frame. -/
theorem Climbs.suffix {path before behind : List FrameId} {h : FrameId} (climbs : fs.Climbs f path)
    (split : path = before ++ h :: behind) : fs.Climbs h (h :: behind) := by
  induction climbs generalizing before with
  | top found outer =>
    cases before with
    | nil =>
      cases split
      exact .top found outer
    | cons x before => simp at split
  | up found outer climbs ih =>
    cases before with
    | nil =>
      cases split
      exact .up found outer climbs
    | cons x before =>
      simp only [List.cons_append, List.cons.injEq] at split
      exact ih split.2

theorem Climbs.lt_size {path : List FrameId} (climbs : fs.Climbs f path) : f < fs.all.size := by
  cases climbs with
  | top found => exact (Array.getElem?_eq_some_iff.mp found).1
  | up found => exact (Array.getElem?_eq_some_iff.mp found).1

theorem Climbs.mem_lt_size {path : List FrameId} (climbs : fs.Climbs f path) : ∀ x ∈ path, x < fs.all.size := by
  intro x mem
  obtain ⟨before, behind, split⟩ := List.append_of_mem mem
  exact (climbs.suffix split).lt_size

/-- A chain that ends meets no frame twice. -/
theorem Climbs.nodup {path : List FrameId} (climbs : fs.Climbs f path) : path.Nodup := by
  induction climbs with
  | top => simp
  | @up f frame g path found outer climbs ih =>
    refine List.nodup_cons.mpr ⟨?_, ih⟩
    intro again
    obtain ⟨before, behind, split⟩ := List.append_of_mem again
    have whole : fs.Climbs f (f :: path) := .up found outer climbs
    have same := (climbs.suffix split).unique whole
    have lengths := congrArg List.length same
    rw [split] at lengths
    simp at lengths
    omega

theorem Climbs.chain_eq {path : List FrameId} (climbs : fs.Climbs f path) : fs.chain f = path := by
  have within : path ⊆ List.range fs.all.size := by
    intro x mem
    exact List.mem_range.mpr (climbs.mem_lt_size x mem)
  have short := (List.Nodup.subperm climbs.nodup within).length_le
  rw [List.length_range] at short
  exact climbs.chainWithin_eq short

/-- A climb is the same when frames have grown. -/
theorem Climbs.grows {path : List FrameId} (h : fs.Climbs f path) (grows : fs.Grows fs') :
    fs'.Climbs f path := by
  have kept {f : FrameId} {frame : Frame} (found : fs.get? f = some frame) :
      ∃ frame', fs'.get? f = some frame' ∧ frame'.outer = frame.outer := by
    have inside : f < fs.all.size := (Array.getElem?_eq_some_iff.mp found).1
    obtain ⟨frame', found'⟩ := exists_get? (Nat.lt_of_lt_of_le inside grows.size)
    have same := grows.outer f inside
    unfold outer? at same
    rw [found, found'] at same
    exact ⟨frame', found', same⟩
  induction h with
  | top found none =>
    obtain ⟨frame', found', same⟩ := kept found
    exact .top found' (same.trans none)
  | up found outer _ ih =>
    obtain ⟨frame', found', same⟩ := kept found
    exact .up found' (same.trans outer) ih

end Frames

namespace Machine

variable {l m n : Machine}

/-- What a state has made. -/
def Made (m : Machine) : Ref → Prop
  | .frame f => f < m.frames.all.size
  | .continuation k => k < m.continuations.size

/-- A value refers only to what has been made. -/
def Knows (m : Machine) (v : Value) : Prop :=
  v.StaysIn .all m.Made

/-- The frames make a tree below the root frame, and closures have their homes in it. -/
structure Rooted (m : Machine) : Prop where
  exists_ : root < m.frames.all.size
  top : m.frames.outer? root = none
  outer : ∀ f < m.frames.all.size, f ≠ root → ∃ g < f, m.frames.outer? f = some g
  bindings : ∀ f, ∀ b ∈ m.frames.bindingsOf f, m.Knows b.value
  transformers : ∀ b ∈ m.transformers, m.Knows b.value

/-- A state with a tree that has grown from that of an earlier one. -/
structure Grown (m n : Machine) : Prop where
  rooted : n.Rooted
  grows : m.frames.Grows n.frames
  larger : m.Larger n

theorem Knows.mono {v : Value} (h : m.Knows v) (larger : m.Larger n) : n.Knows v := by
  refine Value.StaysIn.mono h fun r made => ?_
  cases r with
  | frame f => exact Nat.lt_of_lt_of_le made larger.frames
  | continuation k => exact Nat.lt_of_lt_of_le made larger.continuations

theorem Grown.trans (h : l.Grown m) (h' : m.Grown n) : l.Grown n :=
  ⟨h'.rooted, h.grows.trans h'.grows, h.larger.trans h'.larger⟩

theorem Grown.knows {v : Value} (h : m.Grown n) (known : m.Knows v) : n.Knows v :=
  known.mono h.larger

namespace Rooted

variable (h : m.Rooted)
include h

theorem grown_refl : m.Grown m :=
  ⟨h, .refl _, .refl _⟩

theorem outer_lt {f g : FrameId} (outer : m.frames.outer? f = some g) : g < m.frames.all.size := by
  have exists_ := Frames.lt_of_outer? outer
  by_cases isRoot : f = root
  · rw [isRoot, h.top] at outer
    cases outer
  · obtain ⟨g', lt, outer'⟩ := h.outer f exists_ isRoot
    obtain rfl := Option.some.inj (outer.symm.trans outer')
    exact Nat.lt_trans lt exists_

/-- From every frame the chain climbs to the root. -/
theorem climbs {f : FrameId} (exists_ : f < m.frames.all.size) : ∃ path,
    m.frames.Climbs f path ∧ path.getLast? = some root ∧ m.frames.chain f = path := by
  induction f using Nat.strongRecOn with
  | ind f ih =>
    obtain ⟨frame, found⟩ := Frames.exists_get? exists_
    have links : m.frames.outer? f = frame.outer := by
      unfold Frames.outer?
      rw [found]
      rfl
    by_cases isRoot : f = root
    · subst isRoot
      have top : m.frames.Climbs root [root] := .top found (links.symm.trans h.top)
      exact ⟨_, top, rfl, top.chain_eq⟩
    · obtain ⟨g, lt, outer⟩ := h.outer f exists_ isRoot
      obtain ⟨path, climbs, last, _⟩ := ih g lt (Nat.lt_trans lt exists_)
      have whole : m.frames.Climbs f (f :: path) := .up found (links.symm.trans outer) climbs
      refine ⟨_, whole, ?_, whole.chain_eq⟩
      cases climbs with
      | top => exact last
      | up => exact last

/-- The root is the only frame without one around it. -/
theorem outer?_eq_none_iff {f : FrameId} (exists_ : f < m.frames.all.size) :
    m.frames.outer? f = none ↔ f = root := by
  constructor
  · intro none
    by_cases isRoot : f = root
    · exact isRoot
    · obtain ⟨g, _, outer⟩ := h.outer f exists_ isRoot
      rw [none] at outer
      cases outer
  · rintro rfl
    exact h.top

end Rooted

theorem Rooted.chain_eq (h : m.Rooted) (grown : m.Grown n) {f : FrameId}
    (exists_ : f < m.frames.all.size) : n.frames.chain f = m.frames.chain f := by
  obtain ⟨path, climbs, _, chain⟩ := h.climbs exists_
  obtain ⟨path', climbs', _, chain'⟩ :=
    grown.rooted.climbs (Nat.lt_of_lt_of_le exists_ grown.grows.size)
  rw [chain, chain']
  exact climbs'.unique (climbs.grows grown.grows)

/-- A frame that binds a key can be found for it ever after. -/
theorem Rooted.find?_isSome (h : m.Rooted) (grown : m.Grown n) {f : FrameId} {key : Key}
    (found : (m.frames.find? f key).isSome = true) : (n.frames.find? f key).isSome = true := by
  obtain ⟨owner, member, binds⟩ := List.find?_isSome.mp found
  have exists_ : f < m.frames.all.size := by
    rcases Nat.lt_or_ge f m.frames.all.size with inside | beyond
    · exact inside
    · have empty : m.frames.chain f = [] := by
        unfold Frames.chain
        cases m.frames.all.size with
        | zero => rfl
        | succ bound => simp [Frames.chainWithin, Frames.get?_of_size_le beyond]
      rw [empty] at member
      cases member
  refine List.find?_isSome.mpr ⟨owner, ?_, grown.grows.names owner key binds⟩
  rwa [h.chain_eq grown exists_]

end Machine

namespace Frames

variable {fs : Frames} {f : FrameId} {key : Key}

theorem binds_of_find? {owner : FrameId} (h : fs.find? f key = some owner) :
    (fs.bindingsOf owner).binds key = true :=
  List.find?_some (p := fun g => (fs.bindingsOf g).binds key) h

theorem lookup?_isSome : (fs.lookup? f key).isSome = (fs.find? f key).isSome := by
  unfold lookup?
  cases owns : fs.find? f key with
  | none => rfl
  | some owner => exact (Bindings.isSome_get? _ _).trans (binds_of_find? owns)

end Frames

section Names

variable {room : Nat} {m n : Machine} {f : FrameId} {target v : Value} {name : String}

theorem Value.key_of_name (named : target.name? = some name) :
    Key.ofValue? target = some (.name name) := by
  cases target with
  | symbol s =>
    cases named
    rfl
  | endOfText =>
    cases named
    rfl
  | _ => cases named

theorem find?_of_lookup {l : Machine} (named : target.name? = some name)
    (ends : outcome (lookup room f target) m = (.ok v, l)) :
    (m.frames.find? f (.name name)).isSome = true := by
  unfold lookup keyOf at ends
  rw [Value.key_of_name named] at ends
  simp only [pure_bind] at ends
  rw [outcome_bind_of_ok (outcome_get m)] at ends
  rw [← Frames.lookup?_isSome]
  cases found : m.frames.lookup? f (.name name) with
  | some v => rfl
  | none =>
    rw [found] at ends
    obtain ⟨text, n, _, fails⟩ := outcome_bind_ok.mp ends
    cases fails

/-- A target that can be looked up from a frame and assigned there, whatever to. -/
structure Machine.Finds (m : Machine) (f : FrameId) (target : Value) : Prop where
  lookup : ∃ v, ∀ room, outcome (Run.lookup room f target) m = (.ok v, m)
  assign : ∀ room v, ∃ n, outcome (Run.assign room f target v) m = (.ok ⟨⟩, n)

theorem Machine.finds_of_find? (named : target.name? = some name)
    (found : (m.frames.find? f (.name name)).isSome = true) : m.Finds f target := by
  have key := Value.key_of_name named
  constructor
  · rw [← Frames.lookup?_isSome] at found
    obtain ⟨v, found⟩ := Option.isSome_iff_exists.mp found
    refine ⟨v, fun room => ?_⟩
    unfold Run.lookup keyOf
    rw [key]
    simp only [pure_bind]
    rw [outcome_bind_of_ok (outcome_get m), found]
    rfl
  · intro room v
    obtain ⟨owner, found⟩ := Option.isSome_iff_exists.mp found
    have made := Binding.ofTarget_of_key key v
    refine ⟨{ m with frames := m.frames.define owner ⟨_, target, v, key⟩ }, ?_⟩
    unfold Run.assign Run.find keyOf
    rw [key]
    simp only [pure_bind, bind_assoc]
    rw [outcome_bind_of_ok (outcome_get m), found, made]
    rfl

end Names

/-- What an event is about has its frames among those that there are. -/
def Event.LiesIn (m : Machine) : Event → Prop
  | evaluates form frame => m.Knows form ∧ frame < m.frames.all.size
  | applies procedure args => m.Knows procedure ∧ ∀ v ∈ args, m.Knows v
  | expands form _ => m.Knows form
  | binds _ frame => frame < m.frames.all.size

/-- An event in a state whose tree has not grown from an earlier one, or about something else than its
frames. -/
def Event.Strays (since : Machine) (event : Event) (m : Machine) : Prop :=
  ¬ (since.Grown m ∧ event.LiesIn m)

/-- All frames, with a watch for what strays. -/
def growing (since : Machine) : Territory where
  start := 1
  base := 0
  Kept _ := True
  Moves := Frames.Grows
  Stops := Event.Strays since
  positive := Nat.one_pos
  root := trivial
  refl := .refl
  trans h h' := h.trans h'
  frame _ exists_ bs := .new exists_ bs
  binding _ _ _ := .define _ _ _

section Growing

variable {since m n : Machine} {v : Value}

theorem growing_has {f : FrameId} : (growing since).Has m f ↔ f < m.frames.all.size :=
  ⟨fun h => h.1, fun h => ⟨h, fun _ => trivial⟩⟩

theorem growing_knows {r : Ref} : (growing since).Knows m r ↔ m.Made r := by
  cases r with
  | frame f => exact growing_has
  | continuation k => exact Iff.rfl

theorem growing_holds : (growing since).Holds m v ↔ m.Knows v := by
  constructor
  · intro h r mentions
    exact growing_knows.mp (h r (mentions.mono id fun _ _ => Nat.zero_le _))
  · intro h r mentions
    exact growing_knows.mpr (h r (mentions.mono id fun _ _ => trivial))

theorem growing_admits {event : Event} (h : (growing since).Admits m event) : event.LiesIn m := by
  cases event with
  | evaluates form frame => exact ⟨growing_holds.mp h.1, growing_has.mp h.2⟩
  | applies procedure args => exact ⟨growing_holds.mp h.1, fun v mem => growing_holds.mp (h.2 v mem)⟩
  | expands form toplevel => exact growing_holds.mp h
  | binds form frame => exact growing_has.mp h

theorem Machine.Rooted.within (h : m.Rooted) : (growing since).Within m where
  start := h.exists_
  base := Nat.zero_le _
  outer _ outer := growing_has.mpr (h.outer_lt outer)
  bindings _ b mem := growing_holds.mpr (h.bindings _ b mem)
  transformers b mem := growing_holds.mpr (h.transformers b mem)

/-- Wherever a run gets to, the tree has grown. -/
theorem Machine.Rooted.grown (h : m.Rooted) (onward : (growing since).Onward m n) : m.Grown n where
  grows := onward.moves
  larger := onward.grown
  rooted := by
    have grows : m.frames.Grows n.frames := onward.moves
    constructor
    · exact Nat.lt_of_lt_of_le h.exists_ grows.size
    · rw [grows.outer root h.exists_]
      exact h.top
    · intro f exists_ notRoot
      by_cases earlier : f < m.frames.all.size
      · rw [grows.outer f earlier]
        exact h.outer f earlier notRoot
      · exact grows.made f exists_ (Nat.le_of_not_lt earlier)
    · intro f b mem
      have has : (growing since).Has n f := growing_has.mpr (Frames.lt_of_mem_bindingsOf mem)
      exact growing_holds.mp (onward.within.bindings has b mem)
    · intro b mem
      exact growing_holds.mp (onward.within.transformers b mem)

/-- No alarm sounds, and the tree has grown however the run ends. -/
theorem Machine.Grown.of_heeds {α : Type} {b : Alarm → Run α} {a : Run α} {Q : Machine → α → Prop}
    (h : since.Grown m) (heeds : (growing since).Heeds m b a Q) :
    (∀ alarm, outcome (b alarm) m = outcome a m) ∧ m.Grown (outcome a m).2 ∧
      ∀ x n, outcome a m = (.ok x, n) → Q n x := by
  rcases heeds with ⟨event, n, onward, admits, _, stops, _⟩ | ⟨same, onward, good⟩
  · exact absurd ⟨h.trans (h.rooted.grown onward), growing_admits admits⟩ stops
  · exact ⟨same, h.rooted.grown onward, good⟩

end Growing

/-- A run from a state does the same when it is patrolled, and the tree has grown however it ends. -/
def Machine.Tends {α : Type} (m : Machine) (b : Alarm → Run α) (a : Run α) : Prop :=
  (∀ alarm, outcome (b alarm) m = outcome a m) ∧ m.Grown (outcome a m).2

/-- The three operations tend the tree when what they are given has its frames in it. -/
structure Machine.Tended (m : Machine) : Prop where
  evaluate : ∀ fuel room {form frame}, m.Knows form → frame < m.frames.all.size →
    m.Tends (fun alarm => (patrol (Event.Strays m) alarm fuel).evaluate room form frame)
      (SmallLisp.evaluate fuel room form frame)
  apply : ∀ fuel room {procedure args} caller, m.Knows procedure → (∀ v ∈ args, m.Knows v) →
    m.Tends (fun alarm => (patrol (Event.Strays m) alarm fuel).apply room procedure args caller)
      (SmallLisp.apply fuel room procedure args caller)
  expand : ∀ fuel room {form} toplevel, m.Knows form →
    m.Tends (fun alarm => (patrol (Event.Strays m) alarm fuel).expand room form toplevel)
      (SmallLisp.expand fuel room form toplevel)

theorem Machine.Rooted.tended {m : Machine} (h : m.Rooted) : m.Tended := by
  have heeds := Calls.patrol_obeys (growing m)
  have held {v : Value} (known : m.Knows v) : (growing m).Holds m v := growing_holds.mpr known
  have tends {b : Alarm → Run Value} {a : Run Value} {Q : Machine → Value → Prop}
      (run : (growing m).Heeds m b a Q) : m.Tends b a := by
    obtain ⟨same, grown, _⟩ := h.grown_refl.of_heeds run
    exact ⟨same, grown⟩
  constructor
  · intro fuel room form frame known exists_
    exact tends ((heeds fuel).evaluate room (growing_has.mpr exists_) (held known) h.within)
  · intro fuel room procedure args caller known knowns
    exact tends ((heeds fuel).apply room caller (held known) (fun v mem => held (knowns v mem)) h.within)
  · intro fuel room form toplevel known
    exact tends ((heeds fuel).expand room (fun _ => trivial) (held known) h.within)

end SmallLisp
