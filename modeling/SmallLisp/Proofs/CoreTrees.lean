import SmallLisp.Proofs.Expansion
import SmallLisp.Proofs.Settling
/-!
# Trees that are expanded already

A tree of core code in which no transformer is used is its own expansion: the expander gives an equal tree, and
all that it leaves behind is the new lists of that tree. So code may be expanded any number of times.
-/
namespace SmallLisp

open Run

mutual

/-- A tree without the numbers of its lists. Trees are equal when they differ in these only. -/
def Value.tree : Value → Value
  | .list _ items => .list 0 (trees items)
  | v => v

def Value.trees : List Value → List Value
  | [] => []
  | v :: vs => v.tree :: trees vs

end

/-- A form is an application if no keyword heads it and no transformer is registered for its head. -/
def Form.appliesHead (registered : Bindings) : Value → Bool
  | .symbol name => (Keyword.ofName? name).isNone && !registered.binds (.name name)
  | _ => true

/-- A tree of well-formed core code in which, quoted data apart, no transformer is used or defined and no template
is left. What is no list may be of any kind. -/
inductive IsExpanded (registered : Bindings) : Value → Prop
  | constant {v} : (∀ i items, v ≠ .list i items) → IsExpanded registered v
  | quote {i d} : IsExpanded registered (.list i [.symbol "quote", d])
  | test {i t c e} : IsExpanded registered t → IsExpanded registered c → IsExpanded registered e →
      IsExpanded registered (.list i [.symbol "if", t, c, e])
  | assign {i target e} : target.hasKind .symbol = true → IsExpanded registered e →
      IsExpanded registered (.list i [.symbol "set!", target, e])
  | define {i name e} : IsExpanded registered e →
      IsExpanded registered (.list i [.symbol "define", .symbol name, e])
  | lambda {i parameters e} : Form.areParameters parameters = true → IsExpanded registered e →
      IsExpanded registered (.list i [.symbol "lambda", parameters, e])
  | sequence {i e es} : (∀ part ∈ e :: es, IsExpanded registered part) →
      IsExpanded registered (.list i (.symbol "begin" :: e :: es))
  | application {i head rest} : Form.appliesHead registered head = true →
      (∀ part ∈ head :: rest, IsExpanded registered part) → IsExpanded registered (.list i (head :: rest))

/-! ## Equal trees -/

namespace Value

theorem trees_eq_map (vs : List Value) : trees vs = vs.map tree := by
  induction vs with
  | nil => rfl
  | cons v vs ih => rw [trees, ih, List.map_cons]

theorem tree_of_not_list {v : Value} (h : ∀ i items, v ≠ .list i items) : v.tree = v := by
  cases v with
  | list i items => exact absurd rfl (h i items)
  | _ => rfl

theorem eq_of_tree_eq {v u : Value} (h : ∀ i items, u ≠ .list i items) (same : v.tree = u) : v = u := by
  cases v with
  | list i items => exact absurd same.symm (h 0 (trees items))
  | _ => exact same

theorem tree_eq_list {v : Value} {us : List Value} (same : v.tree = .list 0 us) :
    ∃ i items, v = .list i items ∧ trees items = us := by
  cases v with
  | list i items => exact ⟨i, items, rfl, (list.inj same).2⟩
  | _ => cases same

theorem trees_eq_nil {vs : List Value} (same : trees vs = []) : vs = [] := by
  cases vs with
  | nil => rfl
  | cons v vs => cases same

theorem trees_eq_cons {vs us : List Value} {u : Value} (same : trees vs = u :: us) :
    ∃ v vs', vs = v :: vs' ∧ v.tree = u ∧ trees vs' = us := by
  cases vs with
  | nil => cases same
  | cons v vs => exact ⟨v, vs, rfl, (List.cons.inj same).1, (List.cons.inj same).2⟩

theorem trees_eq_one {vs : List Value} {u : Value} (same : trees vs = [u]) : ∃ v, vs = [v] ∧ v.tree = u := by
  obtain ⟨v, vs, rfl, first, rest⟩ := trees_eq_cons same
  obtain rfl := trees_eq_nil rest
  exact ⟨v, rfl, first⟩

theorem trees_eq_two {vs : List Value} {u₁ u₂ : Value} (same : trees vs = [u₁, u₂]) :
    ∃ v₁ v₂, vs = [v₁, v₂] ∧ v₁.tree = u₁ ∧ v₂.tree = u₂ := by
  obtain ⟨v₁, vs, rfl, first, rest⟩ := trees_eq_cons same
  obtain ⟨v₂, rfl, second⟩ := trees_eq_one rest
  exact ⟨v₁, v₂, rfl, first, second⟩

theorem tree_eq_headed {v : Value} {name : String} {us : List Value}
    (same : v.tree = .list 0 (.symbol name :: us)) :
    ∃ i items, v = .list i (.symbol name :: items) ∧ trees items = us := by
  obtain ⟨i, items, rfl, parts⟩ := tree_eq_list same
  obtain ⟨head, rest, rfl, first, later⟩ := trees_eq_cons parts
  obtain rfl := eq_of_tree_eq (u := .symbol _) nofun first
  exact ⟨i, rest, rfl, later⟩

theorem appliesHead_tree (registered : Bindings) (v : Value) :
    Form.appliesHead registered v.tree = Form.appliesHead registered v := by
  cases v <;> rfl

theorem isParameter_tree (v : Value) : Form.isParameter v.tree = Form.isParameter v := by
  cases v <;> rfl

theorem areParameters_tree (v : Value) : Form.areParameters v.tree = Form.areParameters v := by
  cases v with
  | list i items =>
    change (trees items).all Form.isParameter = items.all Form.isParameter
    rw [trees_eq_map, List.all_map]
    exact congrArg (items.all ·) (funext isParameter_tree)
  | _ => rfl

end Value

open Value

namespace IsExpanded

variable {registered : Bindings} {y core : Value}

theorem parts_of_trees {es cs : List Value}
    (ih : ∀ e ∈ es, ∀ {core : Value}, core.tree = e.tree → IsExpanded registered core)
    (same : trees cs = trees es) : ∀ c ∈ cs, IsExpanded registered c := by
  induction es generalizing cs with
  | nil =>
    obtain rfl := trees_eq_nil same
    exact nofun
  | cons e es rest =>
    obtain ⟨c, cs, rfl, first, same⟩ := trees_eq_cons same
    refine List.forall_mem_cons.mpr ⟨ih e List.mem_cons_self first, ?_⟩
    exact rest (fun e mem => ih e (List.mem_cons_of_mem _ mem)) same

/-- Whether code is expanded shows in its tree. -/
theorem of_tree (h : IsExpanded registered y) (same : core.tree = y.tree) : IsExpanded registered core := by
  induction h generalizing core with
  | constant notList =>
    obtain rfl := eq_of_tree_eq notList (same.trans (tree_of_not_list notList))
    exact .constant notList
  | quote =>
    obtain ⟨i, items, rfl, parts⟩ := tree_eq_headed same
    obtain ⟨d, rfl, _⟩ := trees_eq_one parts
    exact .quote
  | test _ _ _ iht ihc ihe =>
    obtain ⟨i, items, rfl, parts⟩ := tree_eq_headed same
    obtain ⟨t, rest, rfl, first, later⟩ := trees_eq_cons parts
    obtain ⟨c, e, rfl, second, third⟩ := trees_eq_two later
    exact .test (iht first) (ihc second) (ihe third)
  | @assign _ target _ isSymbol _ ih =>
    have notList : ∀ i items, target ≠ .list i items := by
      rintro i items rfl
      cases isSymbol
    obtain ⟨i, items, rfl, parts⟩ := tree_eq_headed same
    obtain ⟨target', e, rfl, first, second⟩ := trees_eq_two parts
    obtain rfl := eq_of_tree_eq notList (first.trans (tree_of_not_list notList))
    exact .assign isSymbol (ih second)
  | define _ ih =>
    obtain ⟨i, items, rfl, parts⟩ := tree_eq_headed same
    obtain ⟨target, e, rfl, first, second⟩ := trees_eq_two parts
    obtain rfl := eq_of_tree_eq (u := .symbol _) nofun first
    exact .define (ih second)
  | lambda parameters _ ih =>
    obtain ⟨i, items, rfl, parts⟩ := tree_eq_headed same
    obtain ⟨ps, e, rfl, first, second⟩ := trees_eq_two parts
    refine .lambda ?_ (ih second)
    rw [← areParameters_tree, first, areParameters_tree, parameters]
  | sequence _ ih =>
    obtain ⟨i, items, rfl, parts⟩ := tree_eq_headed same
    obtain ⟨e, es, rfl, _, _⟩ := trees_eq_cons parts
    exact .sequence (parts_of_trees ih parts)
  | application applies _ ih =>
    obtain ⟨i, items, rfl, parts⟩ := tree_eq_list same
    obtain ⟨head, rest, rfl, first, _⟩ := trees_eq_cons parts
    refine .application ?_ (parts_of_trees ih parts)
    rw [← appliesHead_tree, first, appliesHead_tree, applies]

end IsExpanded

/-! ## Expansion of expanded trees -/

/-- With so many steps and levels for its parts, a form is expanded to an equal tree wherever the same transformers
are registered, and nothing but new lists is left behind. -/
def ReturnsTree (registered : Bindings) (depth : Nat) (y : Value) : Prop :=
  ∀ (toplevel : Bool) ⦃fuel room m⦄, depth ≤ fuel → depth ≤ room → m.transformers = registered →
    ∃ core count, (expand (fuel + 1) room y toplevel).Ends m core (m.made count) ∧ core.tree = y.tree

section Parts

variable {registered : Bindings} {depth fuel room : Nat} {m : Machine}

theorem ReturnsTree.part {y : Value} (h : ReturnsTree registered depth y) (toplevel : Bool) (steps : depth < fuel)
    (levels : depth < room) (same : m.transformers = registered) :
    ∃ core count, ((calls fuel).expandPart room toplevel y).Ends m core (m.made count) ∧ core.tree = y.tree := by
  obtain ⟨fuel, rfl⟩ : ∃ n, fuel = n + 1 := ⟨fuel - 1, by omega⟩
  obtain ⟨room, rfl⟩ : ∃ n, room = n + 1 := ⟨room - 1, by omega⟩
  obtain ⟨core, count, ends, tree⟩ := h toplevel (Nat.le_of_lt_succ steps) (Nat.le_of_lt_succ levels) same
  exact ⟨core, count, ends_deeper.mpr ⟨room, rfl, ends⟩, tree⟩

/-- The parts of a form are expanded to equal trees one after another. -/
theorem returnsTrees {es : List Value} (h : ∀ e ∈ es, ReturnsTree registered depth e) (toplevel : Bool)
    (steps : depth < fuel) (levels : depth < room) (same : m.transformers = registered) :
    ∃ cores count, (es.mapM ((calls fuel).expandPart room toplevel)).Ends m cores (m.made count) ∧
      trees cores = trees es := by
  induction es generalizing m with
  | nil => exact ⟨[], 0, ends_mapM_nil.mpr ⟨rfl, rfl⟩, rfl⟩
  | cons e es ih =>
    obtain ⟨first, rest⟩ := List.forall_mem_cons.mp h
    obtain ⟨core, count, ends, tree⟩ := first.part toplevel steps levels same
    obtain ⟨cores, count', ends', trees_⟩ := ih rest (m := m.made count) same
    rw [Machine.made_made] at ends'
    refine ⟨core :: cores, count + count', ends_mapM_cons.mpr ⟨core, _, cores, ends, ends', rfl⟩, ?_⟩
    rw [trees, tree, trees_, trees]

end Parts

namespace ReturnsTree

variable {registered : Bindings} {depth depth' i : Nat} {y : Value}

theorem mono (h : ReturnsTree registered depth y) (le : depth ≤ depth') : ReturnsTree registered depth' y :=
  fun toplevel _ _ _ steps levels => h toplevel (Nat.le_trans le steps) (Nat.le_trans le levels)

theorem constant (notList : ∀ i items, y ≠ .list i items) : ReturnsTree registered 0 y :=
  fun _ _ _ _ _ _ _ => ⟨y, 0, expand_succ_ends.mpr (.atom notList), rfl⟩

/-- Several forms are served by the greatest of their depths. -/
theorem exists_depth {es : List Value} (h : ∀ e ∈ es, ∃ depth, ReturnsTree registered depth e) :
    ∃ depth, ∀ e ∈ es, ReturnsTree registered depth e := by
  induction es with
  | nil => exact ⟨0, nofun⟩
  | cons e es ih =>
    obtain ⟨first, rest⟩ := List.forall_mem_cons.mp h
    obtain ⟨depth, first⟩ := first
    obtain ⟨depth', rest⟩ := ih rest
    refine ⟨max depth depth', List.forall_mem_cons.mpr ⟨first.mono (Nat.le_max_left ..), fun e mem => ?_⟩⟩
    exact (rest e mem).mono (Nat.le_max_right ..)

/-- A form of which every part is expanded. -/
theorem of_parts {es : List Value} (flag : Bool → Bool) (parts : ∀ e ∈ es, ReturnsTree registered depth e)
    (expands : ∀ c room toplevel m cores n, m.transformers = registered →
      (es.mapM (Calls.expandPart c room (flag toplevel))).Ends m cores n →
        Expansion c room toplevel (.list i es) m (.list n.nextObject cores) (n.made 1)) :
    ReturnsTree registered (depth + 1) (.list i es) := by
  intro toplevel fuel room m steps levels same
  obtain ⟨cores, count, ends, trees⟩ := returnsTrees parts (flag toplevel) steps levels same
  refine ⟨.list (m.made count).nextObject cores, count + 1, expand_succ_ends.mpr ?_, congrArg (Value.list 0) trees⟩
  rw [← Machine.made_made]
  exact expands _ _ _ _ _ _ same ends

/-- A form of which the last of three parts is expanded. -/
theorem of_last {head target e : Value} (part : ReturnsTree registered depth e)
    (expands : ∀ c room toplevel m core n, (Calls.expandPart c room false e).Ends m core n →
      Expansion c room toplevel (.list i [head, target, e]) m (.list n.nextObject [head, target, core]) (n.made 1)) :
    ReturnsTree registered (depth + 1) (.list i [head, target, e]) := by
  intro toplevel fuel room m steps levels same
  obtain ⟨core, count, ends, tree⟩ := part.part false steps levels same
  refine ⟨.list (m.made count).nextObject [head, target, core], count + 1, expand_succ_ends.mpr ?_, ?_⟩
  · rw [← Machine.made_made]
    exact expands _ _ _ _ _ _ ends
  · simp only [Value.tree, Value.trees, tree]

end ReturnsTree

theorem Form.appliesHead_iff {m : Machine} {head : Value} :
    Form.appliesHead m.transformers head = true ↔ Keyword.ofHead? head = none ∧ m.transformerOf? head = none := by
  cases head with
  | symbol name =>
    simp only [Form.appliesHead, Bool.and_eq_true, Option.isNone_iff_eq_none, Bool.not_eq_true',
      Keyword.ofHead?, Machine.transformerOf?, ← Bindings.isSome_get?, Option.isSome_eq_false_iff]
  | _ => exact ⟨fun _ => ⟨rfl, rfl⟩, fun _ => rfl⟩

theorem IsExpanded.returnsTree {registered : Bindings} {y : Value} (h : IsExpanded registered y) :
    ∃ depth, ReturnsTree registered depth y := by
  have keyword (name : String) (depth : Nat) : ReturnsTree registered depth (.symbol name) :=
    .mono (.constant nofun) (Nat.zero_le depth)
  induction h with
  | constant notList => exact ⟨0, .constant notList⟩
  | quote => exact ⟨0, fun _ _ _ _ _ _ _ => ⟨_, 0, expand_succ_ends.mpr .quote, rfl⟩⟩
  | @test _ t c e _ _ _ iht ihc ihe =>
    have each : ∀ part ∈ [t, c, e], ∃ depth, ReturnsTree registered depth part :=
      List.forall_mem_cons.mpr ⟨iht, List.forall_mem_cons.mpr ⟨ihc, List.forall_mem_singleton.mpr ihe⟩⟩
    obtain ⟨depth, parts⟩ := ReturnsTree.exists_depth each
    refine ⟨depth + 1, .of_parts (fun _ => false) (List.forall_mem_cons.mpr ⟨keyword "if" depth, parts⟩) ?_⟩
    exact fun _ _ _ _ _ _ _ => .test
  | assign isSymbol _ ih =>
    obtain ⟨depth, part⟩ := ih
    exact ⟨depth + 1, part.of_last fun _ _ _ _ _ _ => .assign isSymbol⟩
  | define _ ih =>
    obtain ⟨depth, part⟩ := ih
    exact ⟨depth + 1, part.of_last fun _ _ _ _ _ _ => .define⟩
  | lambda parameters _ ih =>
    obtain ⟨depth, part⟩ := ih
    exact ⟨depth + 1, part.of_last fun _ _ _ _ _ _ => .lambda parameters rfl⟩
  | sequence _ ih =>
    obtain ⟨depth, parts⟩ := ReturnsTree.exists_depth ih
    refine ⟨depth + 1, .of_parts id (List.forall_mem_cons.mpr ⟨keyword "begin" depth, parts⟩) ?_⟩
    exact fun _ _ _ _ _ _ _ => .sequence
  | application applies _ ih =>
    obtain ⟨depth, parts⟩ := ReturnsTree.exists_depth ih
    refine ⟨depth + 1, .of_parts (fun _ => false) parts ?_⟩
    rintro c room toplevel m cores n rfl
    obtain ⟨noKeyword, missing⟩ := Form.appliesHead_iff.mp applies
    exact .application noKeyword missing

/-- Expansion is the identity on trees of core code that use no transformer. With either flag, and whatever
constants the tree holds, an equal tree comes of it, which is such a tree again; only its lists are new, and
frames, transformers, continuations and output are as they were. Nothing else can happen but that a run is
stopped by its limits. -/
theorem expand_expanded {m : Machine} {y : Value} (h : IsExpanded m.transformers y) (toplevel : Bool) :
    ∃ core count, core.tree = y.tree ∧ IsExpanded m.transformers core ∧
      Settles (fun fuel room => expand fuel room y toplevel) m (.ok core, m.made count) ∧
      ∀ fuel room, Outcome.IsEarly (outcome (expand fuel room y toplevel) m) ∨
        outcome (expand fuel room y toplevel) m = (.ok core, m.made count) := by
  obtain ⟨depth, returns⟩ := h.returnsTree
  obtain ⟨core, count, ends, tree⟩ := returns toplevel (Nat.le_refl depth) (Nat.le_refl depth) rfl
  have settles : Settles (fun fuel room => expand fuel room y toplevel) m (.ok core, m.made count) :=
    ⟨depth + 1, depth, ends, not_stopped_ok⟩
  exact ⟨core, count, tree, h.of_tree tree, settles, settles.early_or_eq (improving_expand y toplevel)⟩

/-- A closure is called at once on a primitive that stands in the code as a constant. It would return a quoted
definition of a transformer. -/
theorem expand_expanded_call :
    let quoted : Value := .list 1 [.symbol "quote", .list 2 [.symbol "define-macro", .symbol "m"]]
    let body : Value := .list 3 [.symbol "if", .symbol "x", quoted, .unspecified]
    let y : Value := .list 6 [.list 5 [.symbol "lambda", .list 4 [.symbol "x"], body], .primitive .car]
    IsExpanded (Machine.start .zeros).transformers y ∧
    ∃ core count, core.tree = y.tree ∧ Settles (fun fuel room => expand fuel room y true) (Machine.start .zeros)
      (.ok core, (Machine.start .zeros).made count) := by
  intro quoted body y
  have expandedBody : IsExpanded (Machine.start .zeros).transformers body :=
    .test (.constant nofun) .quote (.constant nofun)
  have expanded : IsExpanded (Machine.start .zeros).transformers y :=
    .application rfl (List.forall_mem_cons.mpr
      ⟨.lambda rfl expandedBody, List.forall_mem_singleton.mpr (.constant nofun)⟩)
  obtain ⟨core, count, tree, _, settles, _⟩ := expand_expanded expanded true
  exact ⟨expanded, core, count, tree, settles⟩

end SmallLisp
