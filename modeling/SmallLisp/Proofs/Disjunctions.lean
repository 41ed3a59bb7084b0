import SmallLisp.Proofs.ClauseByClause
import SmallLisp.Proofs.SeenThroughPanes
/-!
# Disjunctions clause by clause

A disjunction keeps the value of each clause in a frame of its own, and the clauses after it are evaluated
there. Where they do not use the name that the frame binds, they do what they would do in the frame of the
whole, so the disjunction is evaluated clause by clause up to the first that is not false. What remains of the
frames between is that closures made by the later clauses have their homes in them.
-/
namespace SmallLisp

open Run

variable {m n : Machine} {frame : FrameId} {i : Nat} {o o' : Outcome Value} {v : Value}

/-! ## A new pane -/

namespace Value

variable {φ ψ : FrameId → FrameId}

mutual

/-- Only the homes of the closures in a value matter. -/
theorem rehome_congr : (v : Value) → (∀ parameters body home, v.Encloses parameters body home → φ home = ψ home) →
    v.rehome φ = v.rehome ψ
  | list i items, same => by
    rw [rehome, rehome, rehomeAll_congr items fun u mem parameters body home encloses =>
      same parameters body home (.item mem encloses)]
  | closure i parameters body home, same => by
    rw [rehome, rehome, same parameters body home .here, rehome_congr body fun parameters body home encloses =>
      same parameters body home (.body encloses)]
  | escape k u, same => by
    rw [rehome, rehome, rehome_congr u fun parameters body home encloses =>
      same parameters body home (.carried encloses)]
  | symbol _, _ | int _, _ | float _, _ | nan _, _ | string _, _ | bool _, _ | continuation _, _ | primitive _, _
  | control _, _ | unspecified, _ | endOfText, _ => rfl

theorem rehomeAll_congr : (vs : List Value) →
    (∀ v ∈ vs, ∀ parameters body home, v.Encloses parameters body home → φ home = ψ home) →
    rehomeAll φ vs = rehomeAll ψ vs
  | [], _ => rfl
  | v :: vs, same => by
    rw [rehomeAll, rehomeAll, rehome_congr v (same v (by simp)), rehomeAll_congr vs fun u mem => same u (by simp [mem])]

end

theorem Encloses.mentions {v parameters body : Value} {home : FrameId} (h : v.Encloses parameters body home) :
    v.Mentions .all (.frame home) := by
  induction h with
  | here => exact .home
  | body _ ih => exact .body trivial ih
  | item mem _ ih => exact .item mem ih
  | carried _ ih => exact .carried trivial ih

end Value

theorem Bindings.rehome_congr {φ ψ : FrameId → FrameId} {bs : Bindings}
    (same : ∀ b ∈ bs, b.value.rehome φ = b.value.rehome ψ) : bs.rehome φ = bs.rehome ψ :=
  List.map_congr_left fun b mem => Binding.rehome_congr (same b mem)

theorem Frames.rehome_congr {φ ψ : FrameId → FrameId} {fs : Frames}
    (bindings : ∀ x, (fs.bindingsOf x).rehome φ = (fs.bindingsOf x).rehome ψ)
    (outer : ∀ x, (fs.outer? x).map φ = (fs.outer? x).map ψ) : fs.rehome φ = fs.rehome ψ := by
  unfold rehome
  congr 1
  refine Array.ext_getElem? fun x => ?_
  rw [Array.getElem?_map, Array.getElem?_map]
  have bindings := bindings x
  have outer := outer x
  unfold bindingsOf outer? get? at *
  generalize fs.all[x]? = entry at bindings outer ⊢
  cases entry with
  | none => rfl
  | some frame => exact congrArg some (congrArg₂ Frame.mk bindings outer)

theorem Frames.lt_of_binds {fs : Frames} {x : FrameId} {key : Key} (h : (fs.bindingsOf x).binds key = true) :
    x < fs.all.size := by
  by_contra beyond
  unfold bindingsOf at h
  rw [get?_of_size_le (Nat.le_of_not_lt beyond)] at h
  cases h

/-- The state with a frame that binds one name. -/
def Machine.holding (m : Machine) (name : String) (v : Value) (frame : FrameId) : Machine :=
  { m with frames := (m.frames.new [.ofName name v] (some frame)).2 }

section Holding

variable {name : String} (rooted : m.Rooted) (exists_ : frame < m.frames.all.size) (known : m.Knows v)
include rooted exists_ known

theorem Machine.Rooted.holding : m.Grown (m.holding name v frame) := by
  have grows : m.frames.Grows (m.holding name v frame).frames := .new exists_ _
  have larger : m.Larger (m.holding name v frame) := ⟨grows.size, Nat.le_refl _⟩
  refine ⟨⟨Nat.lt_of_lt_of_le rooted.exists_ grows.size, ?_, ?_, ?_, ?_⟩, grows, larger⟩
  · rw [grows.outer _ rooted.exists_]
    exact rooted.top
  · intro x inside notRoot
    by_cases earlier : x < m.frames.all.size
    · rw [grows.outer x earlier]
      exact rooted.outer x earlier notRoot
    · exact grows.made x inside (Nat.le_of_not_lt earlier)
  · intro x
    change ∀ b ∈ (m.frames.new _ _).2.bindingsOf x, _
    rw [Frames.bindingsOf_new]
    split
    · exact List.forall_mem_singleton.mpr (known.mono larger)
    · exact fun b mem => (rooted.bindings x b mem).mono larger
  · exact fun b mem => (rooted.transformers b mem).mono larger

end Holding

namespace Pane

/-- The pane that a frame is which was made to bind a name. -/
def fresh (m : Machine) (frame : FrameId) (name : String) : Pane :=
  ⟨m.frames.all.size, frame, name⟩

variable {name : String} (rooted : m.Rooted) (exists_ : frame < m.frames.all.size)
include rooted exists_

/-- The name in a new pane is not come upon in what was known before. -/
theorem fresh_guards {u : Value} (known : m.Knows u) :
    (fresh m frame name).Guards (m.holding name v frame) u := by
  intro parameters body home encloses
  have lt : home < m.frames.all.size := known _ encloses.mentions
  refine ⟨Nat.lt_of_lt_of_le lt (Frames.Grows.new exists_ _).size, fun exposed => ?_⟩
  have found : m.frames.find? home (.name name) = some m.frames.all.size :=
    (rooted.ordered.find?_new_of_lt _ exists_ lt _).symm.trans exposed
  exact absurd (Frames.lt_of_binds (Frames.binds_of_find? found)) (Nat.lt_irrefl _)

omit exists_ in
theorem fresh_holds {x : FrameId} (known : m.Knows v) :
    ∀ b ∈ (m.holding name v frame).frames.bindingsOf x, m.Knows b.value := by
  change ∀ b ∈ (m.frames.new _ _).2.bindingsOf x, _
  rw [Frames.bindingsOf_new]
  split
  · exact List.forall_mem_singleton.mpr known
  · exact rooted.bindings x

theorem fresh_in (known : m.Knows v) : (fresh m frame name).In (m.holding name v frame) := by
  have grown : m.Grown (m.holding name v frame) := rooted.holding exists_ known
  refine ⟨?_, fun key => ?_, grown.rooted.exists_, grown.rooted.top, grown.rooted.ordered, ?_, ?_⟩
  · exact (Frames.outer?_new _ _ _ _).trans (if_pos rfl)
  · change ((m.frames.new _ _).2.bindingsOf m.frames.all.size).binds key = true ↔ _
    rw [Frames.bindingsOf_new, if_pos rfl]
    simp [Bindings.binds, Binding.ofName, fresh, eq_comm]
  · exact fun x b mem => fresh_guards rooted exists_ (fresh_holds rooted known b mem)
  · exact fun b mem => fresh_guards rooted exists_ (rooted.transformers b mem)

omit rooted exists_ in
theorem fresh_shows {u : Value} (known : m.Knows u) : (fresh m frame name).Shows u u := by
  refine Value.rehome_congr u fun parameters body home encloses => ?_
  have lt : home < m.frames.all.size := known _ encloses.mentions
  exact (if_neg (Nat.ne_of_lt lt)).symm

theorem fresh_showsState (known : m.Knows v) :
    (fresh m frame name).ShowsState (m.holding name v frame) (m.holding name v frame) := by
  have earlier {y : FrameId} (lt : y < m.frames.all.size) : id y = (fresh m frame name).through y :=
    (if_neg (Nat.ne_of_lt lt)).symm
  have frames : (m.holding name v frame).frames.rehome id =
      (m.holding name v frame).frames.rehome (fresh m frame name).through := by
    refine Frames.rehome_congr (fun x => ?_) fun x => ?_
    · exact Bindings.rehome_congr fun b mem => fresh_shows (fresh_holds rooted known b mem)
    · change ((m.frames.new _ _).2.outer? x).map _ = ((m.frames.new _ _).2.outer? x).map _
      rw [Frames.outer?_new]
      split
      · exact congrArg some (earlier exists_)
      · cases outer : m.frames.outer? x with
        | none => rfl
        | some y => exact congrArg some (earlier (rooted.outer_lt outer))
  have transformers : m.transformers.rehome id = m.transformers.rehome (fresh m frame name).through :=
    Bindings.rehome_congr fun b mem => fresh_shows (rooted.transformers b mem)
  unfold ShowsState Machine.rehome
  rw [frames]
  exact congrArg (fun ts : Bindings => ({ m.holding name v frame with
    frames := (m.holding name v frame).frames.rehome (fresh m frame name).through, transformers := ts } : Machine))
    transformers

end Pane

/-! ## Disjunctions -/

/-- Makes a frame that holds the value of a clause. -/
def Run.hold (v : Value) (frame : FrameId) : Run FrameId :=
  newFrame 0 (.list 0 [.symbol "or-value"]) [v] (some frame)

/-- Evaluates clauses from left to right up to the first that is not false, for its value. A frame is made for
the value of each but the last, and nothing refers to it. -/
def disjunction (frame : FrameId) : List Value → Limited Value
  | [] => fun _ _ => return .bool false
  | [c] => fun fuel room => evaluate fuel room c frame
  | c :: c' :: cs => fun fuel room => do
    let _ ← newObject
    let v ← evaluate fuel room c frame
    if v.isEscape then return v
    let _ ← hold v frame
    if v.isFalse then disjunction frame (c' :: cs) fuel room else return v

/-- What a disjunction becomes, beside the expansions of its clauses. -/
inductive DisjunctionCore : List Value → Value → Prop
  | none : DisjunctionCore [] (.bool false)
  | one {c} : DisjunctionCore [c] c
  | more {i j k l c c' cs rest} : DisjunctionCore (c' :: cs) rest → DisjunctionCore (c :: c' :: cs)
      (.list i [.list j [.symbol "lambda", .list k [.symbol "or-value"],
        .list l [.symbol "if", .symbol "or-value", .symbol "or-value", rest]], c])

theorem disjunctionParts_delivers (es : List Value) :
    Delivers (disjunctionParts es) fun p => AreExpansions es p.1 ∧ DisjunctionCore p.1 p.2 := by
  induction es using disjunctionParts.induct with
  | case1 => exact .next fun _ => .pure ⟨.nil, .none⟩
  | case2 e => exact .next fun _ => .bind (expand_delivers e) fun c first => .pure ⟨.cons first .nil, .one⟩
  | case3 e e' es ih =>
    refine .next fun _ => .bind (.list _) ?_
    rintro _ ⟨k, rfl⟩
    refine .next fun _ => .bind ih ?_
    rintro ⟨cs, rest⟩ ⟨clauses, core⟩
    refine .bind (.list _) ?_
    rintro _ ⟨l, rfl⟩
    refine .bind (.list _) ?_
    rintro _ ⟨j, rfl⟩
    refine .bind (expand_delivers e) fun c first => .bind (.list _) ?_
    rintro _ ⟨i, rfl⟩
    cases clauses with
    | cons second later => exact .pure ⟨.cons first (.cons second later), .more core⟩

/-- The first clause of a disjunction, and what follows it if it is false. -/
def clauseOr (c : Value) (frame : FrameId) (rest : FrameId → Limited Value) : Limited Value := fun fuel room => do
  let _ ← newObject
  let v ← evaluate fuel room c frame
  if v.isEscape then return v
  let inside ← hold v frame
  if v.isFalse then rest inside fuel room else return v

theorem improving_clauseOr (c : Value) (frame : FrameId) {rest : FrameId → Limited Value}
    (improving : ∀ inside, Improving (rest inside)) : Improving (clauseOr c frame rest) := by
  intro fuel fuel' room room' hf hr
  refine .bind (.refl _) fun _ => .bind (improving_evaluate c frame hf hr) fun v => ?_
  cases v.isEscape with
  | true => exact .refl _
  | false =>
    refine .bind (.refl _) fun inside => ?_
    cases v.isFalse with
    | true => exact improving inside hf hr
    | false => exact .refl _

theorem improving_disjunction (frame : FrameId) (cs : List Value) : Improving (disjunction frame cs) := by
  induction cs using disjunction.induct with
  | case1 => exact Improving.plain _
  | case2 c => exact improving_evaluate c frame
  | case3 c c' cs ih => exact improving_clauseOr c frame fun _ => ih

/-- What a first clause and the rest come to, given how the first clause ends. -/
inductive ClauseOr (rest : FrameId → Machine → Outcome Value → Prop) (frame : FrameId) :
    Outcome Value → Outcome Value → Prop
  | error {h l} : ClauseOr rest frame (.error h, l) (.error h, l)
  | escape {u l} : u.isEscape = true → ClauseOr rest frame (.ok u, l) (.ok u, l)
  | decided {u l} : u.isEscape = false → u.isFalse = false →
      ClauseOr rest frame (.ok u, l) (.ok u, l.holding "or-value" u frame)
  | goesOn {l o₂} : rest l.frames.all.size (l.holding "or-value" (.bool false) frame) o₂ →
      ClauseOr rest frame (.ok (.bool false), l) o₂

theorem settles_clauseOr_iff {c : Value} {rest : FrameId → Limited Value}
    (improving : ∀ inside, Improving (rest inside)) :
    Settles (clauseOr c frame rest) m o ↔ ∃ o₁, Settles (fun fuel room => evaluate fuel room c frame) (m.made 1) o₁ ∧
      ClauseOr (fun inside => Settles (rest inside)) frame o₁ o := by
  have follows (v : Value) : Improving fun fuel room => if v.isEscape then pure v else hold v frame >>= fun inside =>
      if v.isFalse then rest inside fuel room else pure v :=
    Improving.ite _ (Improving.plain (pure v)) (Improving.bind (Improving.plain (hold v frame)) fun inside =>
      Improving.ite _ (improving inside) (Improving.plain (pure v)))
  refine (Settles.bind_cases (a := fun fuel room => evaluate fuel room c frame) (m := m.made 1)
    (improving_evaluate c frame) follows).trans ?_
  constructor
  · rintro (⟨v, n, done, settles⟩ | ⟨h, n, done, rfl⟩)
    · refine ⟨_, done, ?_⟩
      cases escape : v.isEscape with
      | true =>
        rw [escape] at settles
        rw [settles_pure_iff.mp settles]
        exact .escape escape
      | false =>
        rw [escape] at settles
        have held : Settles (fun fuel room => if v.isFalse then rest n.frames.all.size fuel room else pure v)
          (n.holding "or-value" v frame) o := settles
        cases isFalse : v.isFalse with
        | true =>
          obtain rfl := Value.eq_of_isFalse isFalse
          exact .goesOn held
        | false =>
          rw [isFalse] at held
          rw [settles_pure_iff.mp held]
          exact .decided escape isFalse
    · exact ⟨_, done, .error⟩
  · rintro ⟨o₁, done, ends⟩
    cases ends with
    | error => exact Or.inr ⟨_, _, done, rfl⟩
    | @escape v n escape =>
      refine Or.inl ⟨v, n, done, ?_⟩
      rw [escape]
      exact settles_pure_iff.mpr rfl
    | @decided v n escape isFalse =>
      refine Or.inl ⟨v, n, done, ?_⟩
      have held : Settles (fun _ _ => pure v) (n.holding "or-value" v frame)
        (.ok v, n.holding "or-value" v frame) := settles_pure_iff.mpr rfl
      rw [escape, isFalse]
      exact held
    | goesOn settles => exact Or.inl ⟨.bool false, _, done, settles⟩

theorem Machine.Rooted.settled {c : Value} (rooted : m.Rooted) (exists_ : frame < m.frames.all.size)
    (known : m.Knows c) (settles : Settles (fun fuel room => evaluate fuel room c frame) m (.ok v, n)) :
    m.Grown n ∧ n.Knows v := by
  obtain ⟨fuel, room, ends, _⟩ := settles
  have heeds := (Calls.patrol_obeys (growing m) fuel).evaluate room (growing_has.mpr exists_)
    (growing_holds.mpr known) rooted.within
  obtain ⟨_, grown, knows⟩ := rooted.grown_refl.of_heeds heeds
  have ends : outcome ((calls fuel).evaluate room c frame) m = (.ok v, n) := ends
  rw [ends] at grown
  exact ⟨grown, growing_holds.mp (knows v n ends)⟩

theorem Machine.Rooted.made (h : m.Rooted) (count : Nat) : (m.made count).Rooted :=
  ⟨h.exists_, h.top, h.outer, h.bindings, h.transformers⟩

/-- The test of a clause, in the frame that holds its value. -/
theorem settles_test_iff {l : Nat} {rest : Value} (rooted : m.Rooted) (exists_ : frame < m.frames.all.size)
    (value : v.isEscape = false) :
    Settles (fun fuel room => evaluate fuel room
        (.list l [.symbol "if", .symbol "or-value", .symbol "or-value", rest]) m.frames.all.size)
      (m.holding "or-value" v frame) o ↔
      Settles (fun fuel room => if v.isFalse then evaluate fuel room rest m.frames.all.size else pure v)
        (m.holding "or-value" v frame) o := by
  have found : (m.holding "or-value" v frame).frames.lookup? m.frames.all.size (.name "or-value") = some v :=
    (rooted.ordered.lookup?_new _ exists_ _).trans rfl
  have yields := yields_symbol found
  have branches (u : Value) : Improving (u.unlessEscape fun fuel room =>
      evaluate fuel room (if u.isFalse then rest else .symbol "or-value") m.frames.all.size) :=
    Improving.unlessEscape (improving_evaluate _ _) u
  refine settles_evaluate_test_iff.trans ((Settles.bind_iff (improving_evaluate _ _) (branches v) yields).trans ?_)
  unfold Value.unlessEscape
  rw [value]
  cases v.isFalse with
  | true => exact Iff.rfl
  | false => exact (yields.iff_eq (improving_evaluate _ _)).trans settles_pure_iff.symm

/-- A disjunction with one more clause before it. -/
theorem settles_evaluate_clauseOr_iff {j k l : Nat} {c rest : Value} (rooted : m.Rooted)
    (exists_ : frame < m.frames.all.size) (known : m.Knows c) :
    Settles (fun fuel room => evaluate fuel room (.list i [.list j [.symbol "lambda", .list k [.symbol "or-value"],
        .list l [.symbol "if", .symbol "or-value", .symbol "or-value", rest]], c]) frame) m o ↔
      Settles (clauseOr c frame fun inside fuel room => evaluate fuel room rest inside) m o := by
  have core : BindingCore [.symbol "or-value"] [c]
      [.list l [.symbol "if", .symbol "or-value", .symbol "or-value", rest]]
      (.list i [.list j [.symbol "lambda", .list k [.symbol "or-value"],
        .list l [.symbol "if", .symbol "or-value", .symbol "or-value", rest]], c]) :=
    ⟨i, j, k, _, fun _ _ _ => Iff.rfl, rfl⟩
  refine core.settles_iff.trans ?_
  change Settles (fun fuel room => binding frame [.symbol "or-value"] [c] _ fuel room) m o ↔ _
  simp only [binding_eq]
  have goes (vs : Operands) : Improving (bindingRest frame [.symbol "or-value"]
      [.list l [.symbol "if", .symbol "or-value", .symbol "or-value", rest]] vs) :=
    improving_bindingRest frame _ _ vs
  refine (settles_operands_one_iff (m := m.made 1) goes).trans ?_
  have first (v : Value) : Improving fun fuel room =>
      if v.isEscape then bindingRest frame [.symbol "or-value"] _ (.escaped v) fuel room
      else bindingRest frame [.symbol "or-value"] _ (.values [v]) fuel room :=
    Improving.ite _ (goes (.escaped v)) (goes (.values [v]))
  have second (v : Value) : Improving fun fuel room => if v.isEscape then pure v else hold v frame >>= fun inside =>
      if v.isFalse then evaluate fuel room rest inside else pure v :=
    Improving.ite _ (Improving.plain (pure v)) (Improving.bind (Improving.plain (hold v frame)) fun inside =>
      Improving.ite _ (improving_evaluate rest inside) (Improving.plain (pure v)))
  refine Settles.bind_same (improving_evaluate c frame) (improving_evaluate c frame) first second
    (fun _ => Iff.rfl) fun v n done => ?_
  cases escape : v.isEscape with
  | true => exact Iff.rfl
  | false =>
    obtain ⟨grown, knows⟩ := (rooted.made 1).settled exists_ known done
    exact settles_test_iff grown.rooted (Nat.lt_of_lt_of_le exists_ grown.grows.size) escape

/-! ## What is seen past the values of clauses -/

theorem Bindings.rehome_rehome (bs : Bindings) (φ ψ : FrameId → FrameId) :
    (bs.rehome φ).rehome ψ = bs.rehome fun x => ψ (φ x) := by
  unfold rehome
  rw [List.map_map]
  exact List.map_congr_left fun b _ => b.rehome_rehome φ ψ

theorem Machine.rehome_rehome (m : Machine) (φ ψ : FrameId → FrameId) :
    (m.rehome φ).rehome ψ = m.rehome fun x => ψ (φ x) := by
  have frames : (m.frames.rehome φ).rehome ψ = m.frames.rehome fun x => ψ (φ x) := by
    unfold Frames.rehome
    rw [Array.map_map]
    refine congrArg Frames.mk (Array.map_congr_left fun frame _ => ?_)
    exact congrArg₂ Frame.mk (frame.bindings.rehome_rehome φ ψ) (Option.map_map _ _ _)
  unfold Machine.rehome
  rw [frames, m.transformers.rehome_rehome φ ψ]

/-- A map that leads past frames which bind `or-value` alone to what is around them. -/
def Frames.LeadsPast (fs : Frames) (first : Nat) (φ : FrameId → FrameId) : Prop :=
  ∀ x, φ x = x ∨ first ≤ x ∧ (∀ key, (fs.bindingsOf x).binds key = true ↔ key = .name "or-value") ∧
    ∃ y, fs.outer? x = some y ∧ φ x = φ y

/-- The second outcome is the first with closures that have their homes around the frames for the values of
clauses instead of in them. -/
def Machine.SeenPast (m : Machine) (o o' : Outcome Value) : Prop :=
  ∃ φ, o.2.frames.LeadsPast m.frames.all.size φ ∧ o'.1.map (Value.rehome id) = o.1.map (Value.rehome φ) ∧
    o'.2.rehome id = o.2.rehome φ

theorem Machine.SeenPast.refl (m : Machine) (o : Outcome Value) : m.SeenPast o o :=
  ⟨id, fun _ => Or.inl rfl, rfl, rfl⟩

theorem Machine.rehome_trans {a b c : Machine} {φ ψ : FrameId → FrameId} (first : b.rehome id = a.rehome φ)
    (second : c.rehome id = b.rehome ψ) : c.rehome id = a.rehome fun x => ψ (φ x) := by
  calc c.rehome id = b.rehome ψ := second
    _ = (b.rehome id).rehome ψ := (b.rehome_rehome id ψ).symm
    _ = (a.rehome φ).rehome ψ := by rw [first]
    _ = a.rehome fun x => ψ (φ x) := a.rehome_rehome φ ψ

theorem Value.rehome_trans {a b c : Value} {φ ψ : FrameId → FrameId} (first : b.rehome id = a.rehome φ)
    (second : c.rehome id = b.rehome ψ) : c.rehome id = a.rehome fun x => ψ (φ x) := by
  calc c.rehome id = b.rehome ψ := second
    _ = (b.rehome id).rehome ψ := (b.rehome_rehome id ψ).symm
    _ = (a.rehome φ).rehome ψ := by rw [first]
    _ = a.rehome fun x => ψ (φ x) := a.rehome_rehome φ ψ

theorem map_rehome_trans {a b c : Except Halt Value} {φ ψ : FrameId → FrameId}
    (first : b.map (Value.rehome id) = a.map (Value.rehome φ))
    (second : c.map (Value.rehome id) = b.map (Value.rehome ψ)) :
    c.map (Value.rehome id) = a.map (Value.rehome fun x => ψ (φ x)) := by
  cases a with
  | error h =>
    cases b with
    | error h' => exact second.trans first
    | ok v => cases first
  | ok u =>
    cases b with
    | error h => cases first
    | ok v =>
      cases c with
      | error h => cases second
      | ok w => exact congrArg Except.ok (Value.rehome_trans (Except.ok.inj first) (Except.ok.inj second))

/-- One more frame that is seen past. -/
theorem Machine.SeenPast.through {o₁ o₂ : Outcome Value} (exists_ : frame < m.frames.all.size)
    (past : (m.holding "or-value" v frame).SeenPast o o₁)
    (ended : (Pane.fresh m frame "or-value").Ended (m.holding "or-value" v frame)
      (Pane.fresh m frame "or-value").Sees o₁ o₂) : m.SeenPast o o₂ := by
  obtain ⟨φ, leads, results, states⟩ := past
  obtain ⟨inside, seen, shown⟩ := ended.seen
  refine ⟨fun x => (Pane.fresh m frame "or-value").through (φ x), fun x => ?_, map_rehome_trans results seen,
    Machine.rehome_trans states shown⟩
  rcases leads x with fixed | ⟨le, binds, y, outer, same⟩
  · by_cases isPane : x = m.frames.all.size
    · -- The new frame itself is still in its place, and what is around it is not led anywhere else.
      have frames : o₁.2.frames.rehome id = o.2.frames.rehome φ := congrArg Machine.frames states
      have placed := congrArg (fun fs : Frames => fs.outer? x) frames
      have bound := congrArg (fun fs : Frames => fs.bindingsOf x) frames
      simp only [Frames.outer?_rehome, Frames.bindingsOf_rehome] at placed bound
      have around : o₁.2.frames.outer? x = some frame := isPane ▸ inside.placed
      rw [around] at placed
      obtain ⟨y, outer, led⟩ := Option.map_eq_some_iff.mp placed.symm
      refine Or.inr ⟨Nat.le_of_eq isPane.symm, fun key => ?_, y, outer, ?_⟩
      · rw [← Bindings.binds_rehome, ← bound, Bindings.binds_rehome, isPane]
        exact inside.binds key
      · dsimp only
        rw [fixed, led]
        exact (if_pos isPane).trans (if_neg (Nat.ne_of_lt exists_)).symm
    · refine Or.inl ((congrArg _ fixed).trans ?_)
      exact if_neg isPane
  · have larger : m.frames.all.size ≤ x :=
      Nat.le_trans (Frames.Grows.new exists_ [.ofName "or-value" v]).size le
    exact Or.inr ⟨larger, binds, y, outer, congrArg _ same⟩

/-! ## Disjunctions in the frame of the whole -/

theorem disjunction_follows {p : Pane} {x : FrameId} {cs cs' : List Value} (reads : p.ReadsEach m x cs cs')
    (fuel room : Nat) :
    p.Follows m (disjunction x cs fuel room) (disjunction (p.through x) cs' fuel room) p.Sees := by
  have seen := calls_seenThrough p fuel
  induction cs generalizing m cs' with
  | nil =>
    cases reads
    exact .pure ⟨nofun, rfl⟩
  | cons c cs ih =>
    cases reads with
    | cons first rest =>
      cases rest with
      | nil => exact seen.evaluate first
      | cons second rest =>
        refine (Pane.Follows.of_rehomes newObject_rehomes newObject_rehomes newObject_gives).bind
          fun n _ _ later _ => ?_
        refine Form.part_follows (seen.evaluate (first.mono later)) (fun _ _ _ sees => sees)
          fun l v v' later' sees => ?_
        have later := later.trans later'
        have inside := (first.mono later).exists_
        refine (Pane.newFrame_follows rfl (.cons sees .nil) inside).bind fun k _ _ later' _ => ?_
        rw [sees.shows.isFalse]
        cases v.isFalse with
        | true => exact ih (Pane.ReadsEach.mono (.cons second rest) (later.trans later'))
        | false => exact .pure (sees.mono later')

theorem Pane.Ended.isEarly_iff {p : Pane} {α β : Type} {R : Machine → α → β → Prop} {o : Outcome α} {o' : Outcome β}
    (ended : p.Ended m R o o') : o.IsEarly ↔ o'.IsEarly := by
  cases ended with
  | error => exact ⟨Stopped.of_error, Stopped.of_error⟩
  | ok => exact ⟨fun early => absurd early not_stopped_ok, fun early => absurd early not_stopped_ok⟩

section Followed

variable {p : Pane} {a a' : Limited Value} (follows : ∀ fuel room, p.Follows m (a fuel room) (a' fuel room) p.Sees)
  (inside : p.In m) (shows : p.ShowsState m m)
include follows inside shows

theorem Settles.followed (settles : Settles a m o) : ∃ o', p.Ended m p.Sees o o' ∧ Settles a' m o' := by
  obtain ⟨fuel, room, rfl, conclusive⟩ := settles
  have ended := follows fuel room m inside shows
  exact ⟨_, ended, fuel, room, rfl, fun early => conclusive (ended.isEarly_iff.mpr early)⟩

theorem Settles.preceded (settles : Settles a' m o') : ∃ o, p.Ended m p.Sees o o' ∧ Settles a m o := by
  obtain ⟨fuel, room, rfl, conclusive⟩ := settles
  have ended := follows fuel room m inside shows
  exact ⟨_, ended, fuel, room, rfl, fun early => conclusive (ended.isEarly_iff.mp early)⟩

end Followed

/-- Clauses that may be evaluated in a frame for the value of another. -/
def LookPast (cs : List Value) : Prop :=
  ∀ c ∈ cs, ¬ c.Uses "or-value" ∧ ¬ c.Defines

/-- The same outcomes from a state, seen past the frames for the values of clauses made since another. -/
def Machine.SettlesAlike (since m : Machine) (a b : Limited Value) : Prop :=
  (∀ o, Settles a m o → ∃ o', since.SeenPast o o' ∧ Settles b m o') ∧
    ∀ o', Settles b m o' → ∃ o, since.SeenPast o o' ∧ Settles a m o

namespace Machine.SettlesAlike

variable {since : Machine} {a a' b b' : Limited Value}

theorem of_iff (same : ∀ o, Settles a m o ↔ Settles b m o) : since.SettlesAlike m a b :=
  ⟨fun o settles => ⟨o, .refl since o, (same o).mp settles⟩, fun o settles => ⟨o, .refl since o, (same o).mpr settles⟩⟩

theorem congr (alike : since.SettlesAlike m a b) (first : ∀ o, Settles a' m o ↔ Settles a m o)
    (second : ∀ o, Settles b' m o ↔ Settles b m o) : since.SettlesAlike m a' b' := by
  constructor
  · intro o settles
    obtain ⟨o', past, settles⟩ := alike.1 o ((first o).mp settles)
    exact ⟨o', past, (second o').mpr settles⟩
  · intro o' settles
    obtain ⟨o, past, settles⟩ := alike.2 o' ((second o').mp settles)
    exact ⟨o, past, (first o).mpr settles⟩

theorem earlier (alike : n.SettlesAlike m a b) (le : since.frames.all.size ≤ n.frames.all.size) :
    since.SettlesAlike m a b := by
  have older {o o' : Outcome Value} (past : n.SeenPast o o') : since.SeenPast o o' := by
    obtain ⟨φ, leads, rest⟩ := past
    exact ⟨φ, fun x => (leads x).imp id fun ⟨first, later⟩ => ⟨Nat.le_trans le first, later⟩, rest⟩
  exact ⟨fun o settles => (alike.1 o settles).imp fun _ h => ⟨older h.1, h.2⟩,
    fun o settles => (alike.2 o settles).imp fun _ h => ⟨older h.1, h.2⟩⟩

/-- What follows a false clause may be exchanged. -/
theorem clauseOr {c : Value} {rest rest' : FrameId → Limited Value} (improving : ∀ inside, Improving (rest inside))
    (improving' : ∀ inside, Improving (rest' inside))
    (goes : ∀ n, Settles (fun fuel room => evaluate fuel room c frame) (m.made 1) (.ok (.bool false), n) →
      since.SettlesAlike (n.holding "or-value" (.bool false) frame) (rest n.frames.all.size)
        (rest' n.frames.all.size)) :
    since.SettlesAlike m (clauseOr c frame rest) (SmallLisp.clauseOr c frame rest') := by
  constructor
  · intro o settles
    obtain ⟨o₁, done, ends⟩ := (settles_clauseOr_iff improving).mp settles
    have same (ends : ClauseOr (fun inside => Settles (rest' inside)) frame o₁ o) :
        ∃ o', since.SeenPast o o' ∧ Settles (SmallLisp.clauseOr c frame rest') m o' :=
      ⟨o, .refl since o, (settles_clauseOr_iff improving').mpr ⟨o₁, done, ends⟩⟩
    cases ends with
    | error => exact same .error
    | escape escape => exact same (.escape escape)
    | decided value isFalse => exact same (.decided value isFalse)
    | goesOn settles =>
      obtain ⟨o', past, settles⟩ := (goes _ done).1 o settles
      exact ⟨o', past, (settles_clauseOr_iff improving').mpr ⟨_, done, .goesOn settles⟩⟩
  · intro o settles
    obtain ⟨o₁, done, ends⟩ := (settles_clauseOr_iff improving').mp settles
    have same (ends : ClauseOr (fun inside => Settles (rest inside)) frame o₁ o) :
        ∃ o', since.SeenPast o' o ∧ Settles (SmallLisp.clauseOr c frame rest) m o' :=
      ⟨o, .refl since o, (settles_clauseOr_iff improving).mpr ⟨o₁, done, ends⟩⟩
    cases ends with
    | error => exact same .error
    | escape escape => exact same (.escape escape)
    | decided value isFalse => exact same (.decided value isFalse)
    | goesOn settles =>
      obtain ⟨o', past, settles⟩ := (goes _ done).2 o settles
      exact ⟨o', past, (settles_clauseOr_iff improving).mpr ⟨_, done, .goesOn settles⟩⟩

end Machine.SettlesAlike

section After

variable {cs : List Value} (rooted : n.Rooted) (exists_ : frame < n.frames.all.size)
  (known : ∀ c ∈ cs, n.Knows c) (past : LookPast cs)
include rooted exists_ known past

/-- Behind the frame for a value clauses do what they do in it. -/
theorem reads_fresh : (Pane.fresh n frame "or-value").ReadsEach (n.holding "or-value" v frame) n.frames.all.size
    cs cs := by
  have inside : n.frames.all.size < (n.holding "or-value" v frame).frames.all.size := by
    change _ < (n.frames.new _ _).2.all.size
    rw [Frames.size_new]
    exact Nat.lt_succ_self _
  induction cs with
  | nil => exact .nil
  | cons c cs ih =>
    obtain ⟨here, later⟩ := List.forall_mem_cons.mp known
    obtain ⟨first, others⟩ := List.forall_mem_cons.mp past
    refine .cons ⟨inside, ⟨Pane.fresh_guards rooted exists_ here, Pane.fresh_shows here⟩, fun _ => first.1,
      fun _ => first.2⟩ (ih later others)

theorem settlesAlike_after {rest : Limited Value} (value : n.Knows v)
    (alike : (n.holding "or-value" v frame).SettlesAlike (n.holding "or-value" v frame) rest
      (disjunction n.frames.all.size cs)) :
    n.SettlesAlike (n.holding "or-value" v frame) rest (disjunction frame cs) := by
  have through : (Pane.fresh n frame "or-value").through n.frames.all.size = frame := if_pos rfl
  have follows := disjunction_follows (reads_fresh (v := v) rooted exists_ known past)
  rw [through] at follows
  have inside : (Pane.fresh n frame "or-value").In (n.holding "or-value" v frame) :=
    Pane.fresh_in rooted exists_ value
  have shows : (Pane.fresh n frame "or-value").ShowsState (n.holding "or-value" v frame)
      (n.holding "or-value" v frame) := Pane.fresh_showsState rooted exists_ value
  constructor
  · intro o settles
    obtain ⟨o₁, past, settles⟩ := alike.1 o settles
    obtain ⟨o₂, ended, settles⟩ := settles.followed follows inside shows
    exact ⟨o₂, past.through exists_ ended, settles⟩
  · intro o₂ settles
    obtain ⟨o₁, ended, settles⟩ := settles.preceded follows inside shows
    obtain ⟨o, past, settles⟩ := alike.2 o₁ settles
    exact ⟨o, past.through exists_ ended, settles⟩

end After

/-- A disjunction is evaluated clause by clause in its own frame, if the clauses after the first look past the
values before them. -/
theorem DisjunctionCore.settlesAlike {cs : List Value} {core : Value} (h : DisjunctionCore cs core)
    (rooted : m.Rooted) (exists_ : frame < m.frames.all.size) (known : ∀ c ∈ cs, m.Knows c)
    (past : LookPast cs.tail) :
    m.SettlesAlike m (fun fuel room => evaluate fuel room core frame) (disjunction frame cs) := by
  induction h generalizing m frame with
  | none => exact .of_iff fun _ => settles_evaluate_bool_iff
  | one => exact .of_iff fun _ => Iff.rfl
  | @more i j k l c c' cs rest core ih =>
    obtain ⟨here, later⟩ := List.forall_mem_cons.mp known
    refine .congr (b := disjunction frame (c :: c' :: cs)) ?_
      (fun _ => settles_evaluate_clauseOr_iff rooted exists_ here) fun _ => Iff.rfl
    refine .clauseOr (fun inside => improving_evaluate rest inside)
      (fun _ => improving_disjunction frame (c' :: cs)) fun n done => ?_
    obtain ⟨grown, knows⟩ := (rooted.made 1).settled exists_ here done
    have inside : frame < n.frames.all.size := Nat.lt_of_lt_of_le exists_ grown.grows.size
    have held : n.Grown (n.holding "or-value" (.bool false) frame) := grown.rooted.holding inside knows
    have known : ∀ c ∈ c' :: cs, n.Knows c := fun c mem => grown.knows (later c mem)
    have lt : n.frames.all.size < (n.holding "or-value" (.bool false) frame).frames.all.size := by
      change _ < (n.frames.new _ _).2.all.size
      rw [Frames.size_new]
      exact Nat.lt_succ_self _
    have alike := ih held.rooted lt (fun c mem => held.knows (known c mem)) fun c mem =>
      past c (List.mem_of_mem_tail mem)
    exact (settlesAlike_after grown.rooted inside known past knows alike).earlier grown.grows.size

end SmallLisp
