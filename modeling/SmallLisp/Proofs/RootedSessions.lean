import SmallLisp.Proofs.Application
import SmallLisp.Proofs.Custody
import SmallLisp.Proofs.FrameTree
import SmallLisp.Proofs.Likeness
/-!
# Sessions and their tree of frames

A session begins with the root frame alone, and reading, printing and reporting leave frames as they are. So
its frames make a tree after any commands, and no command sounds an alarm when it is patrolled.
-/
namespace SmallLisp

open Run

/-- A state with the frames, transformers and continuations of another is as well rooted. -/
theorem Machine.Rooted.of_same {m n : Machine} (h : m.Rooted) (frames : n.frames = m.frames)
    (transformers : n.transformers = m.transformers) (continuations : n.continuations = m.continuations) :
    m.Grown n := by
  have larger : m.Larger n := ⟨Nat.le_of_eq (by rw [frames]), Nat.le_of_eq (by rw [continuations])⟩
  refine ⟨⟨?_, ?_, ?_, ?_, ?_⟩, frames ▸ .refl _, larger⟩
  · rw [frames]
    exact h.exists_
  · rw [frames]
    exact h.top
  · rw [frames]
    exact h.outer
  · intro f b mem
    rw [frames] at mem
    exact (h.bindings f b mem).mono larger
  · intro b mem
    rw [transformers] at mem
    exact (h.transformers b mem).mono larger

theorem Value.StaysIn.of_isAtom {w : View} {p : Ref → Prop} {v : Value} (h : v.isAtom = true) :
    v.StaysIn w p := by
  intro f mentions
  cases mentions with
  | _ => cases h

/-- The value of a datum refers to nothing. -/
theorem Value.ofDatum_staysIn (w : View) (p : Ref → Prop) (d : Datum) (next : Nat) :
    (Value.ofDatum d next).1.StaysIn w p :=
  (Value.StaysIn.hereditary w p).ofDatum d next

/-- The engine whose operations sound an alarm where something strays. -/
noncomputable def Limits.patrolled (limits : Limits) (alarm : Alarm) (since : Machine) : Engine :=
  ⟨limits.nesting, patrol (Event.Strays since) alarm limits.steps⟩

namespace Machine

/-- The custody of the states to which a tree has grown. Sessions on patrol stand beside, with the same state. -/
def custody (since : Machine) : Custody Alarm where
  World := { m : Machine // since.Grown m }
  Later w w' := w.1.Grown w'.1
  Safe w m := m = w.1
  Good w := w.1.Knows
  beside _ m := m
  refl w := w.2.rooted.grown_refl
  trans := .trans
  later grown known := grown.knows known
  unspecified := (Value.StaysIn.hereditary _ _).unspecified

variable {since : Machine} {α : Type} {w : since.custody.World}

/-- The frames, transformers and continuations stay as they are. -/
theorem safe_of_same {m n : Machine} {P : since.custody.World → Prop} (safe : since.custody.Safe w m)
    (frames : n.frames = m.frames) (transformers : n.transformers = m.transformers)
    (continuations : n.continuations = m.continuations) (good : ∀ w', P w') :
    ∃ w', since.custody.Later w w' ∧ since.custody.Safe w' n ∧ P w' := by
  cases safe
  have grown := w.2.rooted.of_same frames transformers continuations
  exact ⟨⟨n, w.2.trans grown⟩, grown, rfl, good _⟩

theorem keeps_of_heeds {b : Alarm → Run α} {a : Run α} {P : Machine → α → Prop}
    (heeds : (growing since).Heeds w.1 b a P) : since.custody.Keeps w b a fun w x => P w.1 x := by
  rintro m rfl
  obtain ⟨same, grown, good⟩ := w.2.of_heeds heeds
  exact ⟨same, ⟨_, w.2.trans grown⟩, grown, rfl, fun x given => good x _ (Prod.ext given rfl)⟩

theorem keeps_of_gives {a : Run α} (gives : Gives a fun _ => True) :
    since.custody.Keeps w (fun _ => a) a fun _ _ => True :=
  keeps_of_heeds (.same (.quiet w.2.rooted.within gives))

/-- Engines serve whose operations sound no alarm. -/
theorem patrolled_serves (limits : Limits) : since.custody.Serves (limits.patrolled · since) limits where
  nesting _ := rfl
  written _ := keeps_of_gives (writeLine_gives _)
  source _ := keeps_of_gives (source_gives _ _)
  instantiate _ := Session.run_keeps <| .modifyGet (fun _ _ => rfl) fun _ safe =>
    safe_of_same safe rfl rfl rfl fun _ => Value.ofDatum_staysIn _ _ _ _
  expand {w _} known := by
    have heeds := (Calls.patrol_obeys (growing since) limits.steps).expand limits.nesting
      (fun (_ : true = true) => trivial) (growing_holds.mpr known) w.2.rooted.within
    exact keeps_of_heeds (heeds.mono fun _ _ => growing_holds.mp)
  evaluate {w _} known := by
    have heeds := (Calls.patrol_obeys (growing since) limits.steps).evaluate limits.nesting
      w.2.rooted.within.has_root (growing_holds.mpr known) w.2.rooted.within
    exact keeps_of_heeds (heeds.mono fun _ _ => growing_holds.mp)

theorem custody_releases : since.custody.Releases :=
  fun _ => .modifyGet (fun _ _ => rfl) fun _ safe => safe_of_same safe rfl rfl rfl fun _ => trivial

end Machine

namespace Session

theorem fresh_rooted (table : Nat) (draws : Draws) : (fresh table draws).machine.Rooted where
  exists_ := Nat.one_pos
  top := rfl
  outer f exists_ notRoot := absurd (Nat.lt_one_iff.mp exists_) notRoot
  bindings f b mem := by
    obtain ⟨named, inside, rfl⟩ := mem_fresh_bindings mem
    have atoms : (Machine.builtins.all fun named => named.2.isAtom) = true := rfl
    exact Value.StaysIn.of_isAtom (List.all_eq_true.mp atoms named inside)
  transformers b mem := by
    obtain rfl := List.mem_singleton.mp mem
    exact nofun

/-- The frames of a session make a tree, whatever its commands were and however they ended. -/
theorem performed_rooted (limits : Limits) (table : Nat) (draws : Draws) (commands : List Command) :
    (performed limits (fresh table draws) commands).machine.Rooted := by
  let start : (fresh table draws).machine.custody.World := ⟨_, (fresh_rooted table draws).grown_refl⟩
  obtain ⟨w, _, safe⟩ :=
    performed_safe (w := start) (Machine.patrolled_serves limits) Machine.custody_releases rfl commands
  rw [safe]
  exact w.2.rooted

end Session

open Session in
/-- After any commands of a session, whatever came of them, its frames make a tree below the root frame. The
next command does the same when it is patrolled. So wherever in it an operation begins or a name is bound, the
tree has grown from what it was: no frame has another place or a name less. The same is true of any run from a
state with such a tree. In it each chain climbs to the root, the only frame without one around it, and a name
that has been looked up with success from a frame can be looked up and assigned there ever after. -/
theorem frames_tree (limits : Limits) (table : Nat) (draws : Draws) (commands : List Command) :
    let s := performed limits (fresh table draws) commands
    s.machine.Rooted ∧
    (∀ alarm (command : Command),
      outcome (command.perform (limits.patrolled alarm s.machine)) s =
          outcome (command.perform limits) s ∧
        s.machine.Grown (outcome (command.perform limits) s).2.machine) ∧
    ∀ m : Machine, m.Rooted →
      m.Tended ∧
      (∀ f < m.frames.all.size, ∃ path,
        m.frames.Climbs f path ∧ path.getLast? = some Machine.root ∧ m.frames.chain f = path) ∧
      (∀ f < m.frames.all.size, m.frames.outer? f = none ↔ f = Machine.root) ∧
      ∀ n, m.Grown n → ∀ room f target name v l, target.name? = some name →
        outcome (lookup room f target) m = (.ok v, l) → n.Finds f target := by
  intro s
  have rooted := performed_rooted limits table draws commands
  refine ⟨rooted, fun alarm command => ?_, fun m h => ⟨h.tended, ?_, ?_, ?_⟩⟩
  · let here : s.machine.custody.World := ⟨_, rooted.grown_refl⟩
    obtain ⟨same, ⟨_, _⟩, grown, rfl, _⟩ :=
      perform_keeps (w := here) (Machine.patrolled_serves limits) Machine.custody_releases command s rfl
    exact ⟨same alarm, grown⟩
  · exact fun f exists_ => h.climbs exists_
  · exact fun f exists_ => h.outer?_eq_none_iff exists_
  · intro n grown room f target name v l named ends
    exact Machine.finds_of_find? named (h.find?_isSome grown (find?_of_lookup named ends))

/-- A name looked up in a fresh session can be looked up and assigned after a call, whose frame is below the
root frame. -/
theorem frames_tree_call :
    let code : Datum := .list [.list [.symbol "lambda", .list [.symbol "y"], .symbol "y"], .int 2]
    let call := (Value.ofDatum code 0).1
    let n := (outcome (evaluate 9 9 call Machine.root) (Machine.start .zeros)).2
    n.frames.all.size = 2 ∧
      (∃ path, n.frames.Climbs 1 path ∧ path.getLast? = some Machine.root ∧ n.frames.chain 1 = path) ∧
      n.Finds Machine.root (.symbol "car") := by
  intro code call
  obtain ⟨rooted, _, trees⟩ := frames_tree ⟨40, 40⟩ 0 .zeros []
  have known : (Machine.start .zeros).Knows call := Value.ofDatum_staysIn _ _ code 0
  obtain ⟨tended, _, _, later⟩ := trees (Machine.start .zeros) rooted
  have tends := tended.evaluate 9 9 known rooted.exists_
  have grown := tends.2
  have after : (outcome (evaluate 9 9 call Machine.root) (Machine.start .zeros)).2.frames.all.size = 2 := by
    decide +kernel
  have found : outcome (lookup 9 Machine.root (.symbol "car")) (Machine.start .zeros) =
      (.ok (.primitive .car), Machine.start .zeros) := outcome_lookup rfl 9
  refine ⟨after, (trees _ grown.rooted).2.1 1 ?_, later _ grown 9 _ _ "car" _ _ rfl found⟩
  rw [after]
  decide

end SmallLisp
