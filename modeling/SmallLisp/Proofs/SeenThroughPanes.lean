import SmallLisp.Proofs.PaneRuns
/-!
# Operations seen through a pane

The operations of the evaluator do the same in a pane and behind it, because each step of them does when the
calls that it makes do.
-/
namespace SmallLisp

open Run

variable {p : Pane} {m n : Machine} {room : Nat} {x : FrameId} {v v' : Value}

namespace Pane

inductive SeesOperands (p : Pane) (m : Machine) : Operands → Operands → Prop
  | values {vs vs'} : p.SeesAll m vs vs' → SeesOperands p m (.values vs) (.values vs')
  | escaped {u u'} : p.Sees m u u' → SeesOperands p m (.escaped u) (.escaped u')

inductive SeesNext (p : Pane) (m : Machine) : Next → Next → Prop
  | done {u u'} : p.Sees m u u' → SeesNext p m (.done u) (.done u')
  | tail {form form' f} : p.Reads m f form form' → SeesNext p m (.tail form f) (.tail form' (p.through f))

abbrev ReadsEach (p : Pane) (m : Machine) (x : FrameId) : List Value → List Value → Prop :=
  List.Forall₂ (p.Reads m x)

theorem ReadsEach.mono {es es' : List Value} (h : p.ReadsEach m x es es') (later : p.Later m n) :
    p.ReadsEach n x es es' :=
  h.imp fun _ _ reads => reads.mono later

theorem Shows.isEscape (h : p.Shows v v') : v'.isEscape = v.isEscape :=
  h.observed fun _ v => Value.isEscape_rehome v

theorem Shows.isFalse (h : p.Shows v v') : v'.isFalse = v.isFalse :=
  h.observed fun _ v => Value.isFalse_rehome v

theorem Shows.atom_inv (h : p.Shows v v') (list : ∀ i items, v ≠ .list i items)
    (closure : ∀ i parameters body home, v ≠ .closure i parameters body home)
    (escape : ∀ k u, v ≠ .escape k u) : v' = v := by
  have same : v.rehome p.through = v := by
    cases v with
    | list i items => exact absurd rfl (list i items)
    | closure i parameters body home => exact absurd rfl (closure i parameters body home)
    | escape k u => exact absurd rfl (escape k u)
    | _ => rfl
  unfold Shows at h
  rw [same] at h
  cases v' with
  | list i items =>
    rw [Value.rehome_list] at h
    exact absurd h.symm (list _ _)
  | closure i parameters body home => exact absurd h.symm (closure _ _ _ _)
  | escape k u => exact absurd h.symm (escape _ _)
  | _ => exact h

end Pane

open Pane

theorem Run.Gives.and {α : Type} {a : Run α} {Q Q' : α → Prop} (h : Gives a Q) (h' : Gives a Q') :
    Gives a fun y => Q y ∧ Q' y :=
  fun m => ⟨(h m).1, fun y n ends => ⟨(h m).2 y n ends, (h' m).2 y n ends⟩⟩

/-- A sequence uses what its forms use. -/
theorem Value.Uses.sequence_inv {name : String} {i : Nat} {es : List Value}
    (h : (Value.list i (CoreKeyword.sequence.symbol :: es)).Uses name) : ∃ e ∈ es, e.Uses name := by
  generalize same : Value.list i (CoreKeyword.sequence.symbol :: es) = form at h
  cases h with
  | symbol => cases same
  | part mem uses =>
    obtain ⟨rfl, items⟩ := Value.list.inj same
    obtain ⟨rfl, rfl⟩ := List.cons.inj items
    exact ⟨_, mem, uses⟩
  | target _ =>
    obtain ⟨head, _⟩ := List.cons.inj (Value.list.inj same).2
    exact absurd (Value.symbol.inj head) (by decide)
  | body _ _ _ =>
    obtain ⟨head, _⟩ := List.cons.inj (Value.list.inj same).2
    exact absurd (Value.symbol.inj head) (by decide)

/-! ## Forms -/

namespace Form

/-- The parts of a form are evaluated by runs of which the second is the first seen through the pane. -/
def PartsFollow (p : Pane) (x : FrameId) (nested nested' : Value → Run Value) : Prop :=
  ∀ m e e', p.Reads m x e e' → p.Follows m (nested e) (nested' e') p.Sees

/-- A part of a form. An escape ends the form. -/
theorem part_follows {α : Type} {R : Machine → α → α → Prop} {a a' : Run Value} {stop : Value → α}
    {go go' : Value → Run α} (ha : p.Follows m a a' p.Sees)
    (hstop : ∀ n v v', p.Sees n v v' → R n (stop v) (stop v'))
    (hgo : ∀ n v v', p.Later m n → p.Sees n v v' → p.Follows n (go v) (go' v') R) :
    p.Follows m (a >>= fun v => if v.isEscape then pure (stop v) else go v)
      (a' >>= fun v => if v.isEscape then pure (stop v) else go' v) R := by
  refine ha.bind fun n v v' later sees => ?_
  rw [sees.shows.isEscape]
  cases v.isEscape with
  | true => exact .pure (hstop n v v' sees)
  | false => exact hgo n v v' later sees

section Parts

variable {nested nested' : Value → Run Value} (hn : PartsFollow p x nested nested') {es es' : List Value}
include hn

theorem operands_follows (reads : p.ReadsEach m x es es') :
    p.Follows m (operands nested es) (operands nested' es') p.SeesOperands := by
  induction es generalizing m es' with
  | nil =>
    cases reads
    exact .pure (.values .nil)
  | cons e es ih =>
    cases reads with
    | cons first rest =>
      refine part_follows (hn m _ _ first) (fun _ _ _ sees => .escaped sees) fun n v v' later sees => ?_
      refine (ih (ReadsEach.mono rest later)).bind fun l vs vs' later seen => ?_
      cases seen with
      | values all => exact .pure (.values (.cons (sees.mono later) all))
      | escaped sees => exact .pure (.escaped sees)

theorem sequence_follows (reads : p.ReadsEach m x es es') :
    p.Follows m (sequence nested x es) (sequence nested' (p.through x) es') p.SeesNext := by
  induction es generalizing m es' with
  | nil =>
    cases reads
    exact .pure (.done ⟨nofun, rfl⟩)
  | cons e es ih =>
    cases reads with
    | cons first rest =>
      cases rest with
      | nil => exact .pure (.tail first)
      | cons second rest =>
        refine part_follows (hn m _ _ first) (fun _ _ _ sees => .done sees) fun n v v' later sees => ?_
        exact ih (ReadsEach.mono (.cons second rest) later)

theorem test_follows (reads : p.ReadsEach m x es es') :
    p.Follows m (test nested x es) (test nested' (p.through x) es') p.SeesNext := by
  cases reads with
  | nil => exact .fail _
  | cons condition branches =>
    refine part_follows (hn m _ _ condition) (fun _ _ _ sees => .done sees) fun n v v' later sees => ?_
    rw [sees.shows.isFalse]
    have branches := ReadsEach.mono branches later
    cases v.isFalse with
    | true =>
      rcases branches with _ | ⟨_, _ | ⟨alternative, _⟩⟩
      · exact .pure (.done ⟨nofun, rfl⟩)
      · exact .pure (.done ⟨nofun, rfl⟩)
      · exact .pure (.tail alternative)
    | false =>
      cases branches with
      | nil => exact .fail _
      | cons consequent _ => exact .pure (.tail consequent)

omit hn in
/-- The expression of a binding form, and its target. -/
theorem bindingParts_follows (all : p.SeesAll m es es') :
    p.Follows m (bindingParts es) (bindingParts es') fun n part part' =>
      es = [part.1, part.2] ∧ p.Shows part.1 part'.1 ∧ p.Sees n part.2 part'.2 := by
  have length := all.length_eq
  rcases all with _ | ⟨target, _ | ⟨e, _ | ⟨_, _⟩⟩⟩
  · exact .fail _
  · exact .fail _
  · exact .pure ⟨rfl, target.shows, e⟩
  · unfold bindingParts
    dsimp only
    rw [← length]
    split
    · exact .fail _
    · exact .fail _

theorem define_follows (all : p.SeesAll m es es') (other : x ≠ p.frame)
    (reads : ∀ n target e e', es = [target, e] → p.Later m n → p.Sees n e e' → p.Reads n x e e') :
    p.Follows m (define nested room x es) (define nested' room (p.through x) es') p.SeesNext := by
  refine (bindingParts_follows all).bind fun n (target, e) (target', e') later ⟨parts, shows, sees⟩ => ?_
  refine part_follows (hn n _ _ (reads n target e e' parts later sees)) (fun _ _ _ sees => .done sees)
    fun l v v' later sees => ?_
  have through : p.through x = x := if_neg other
  rw [through]
  exact (Pane.define_follows other shows sees).bind fun l _ _ later _ => .pure (.done (sees.mono later))

theorem assign_follows (all : p.SeesAll m es es') (inside : x < m.frames.all.size)
    (hides : ∀ target e, es = [target, e] → p.Hides m x target)
    (reads : ∀ n target e e', es = [target, e] → p.Later m n → p.Sees n e e' → p.Reads n x e e') :
    p.Follows m (assign nested room x es) (assign nested' room (p.through x) es') p.SeesNext := by
  refine (bindingParts_follows all).bind fun n (target, e) (target', e') later ⟨parts, shows, sees⟩ => ?_
  refine part_follows (hn n _ _ (reads n target e e' parts later sees)) (fun _ _ _ sees => .done sees)
    fun l v v' later' sees => ?_
  have hides : p.Hides l x target := fun exposed =>
    hides target e parts ((later.trans later').exposes x inside exposed)
  exact (Pane.assign_follows shows hides sees).bind fun l _ _ later _ => .pure (.done ⟨nofun, rfl⟩)

end Parts

/-- The body of a closure uses what its forms use. -/
theorem body_gives_uses (name : String) (es : List Value) :
    Gives (body es) fun b => b.Uses name → ∃ e ∈ es, e.Uses name := by
  rcases es with _ | ⟨e, _ | ⟨e', es⟩⟩
  · exact newObject_gives.next fun i => .pure Value.Uses.sequence_inv
  · exact .pure fun uses => ⟨e, by simp, uses⟩
  · exact newObject_gives.next fun i => .pure Value.Uses.sequence_inv

theorem lambda_follows {parameters parameters' : Value} {forms forms' : List Value} (inside : x < m.frames.all.size)
    (shows : p.Shows parameters parameters') (all : p.SeesAll m forms forms')
    (hidden : p.Exposes m x → ¬ parameters.HasParameter p.name → ∀ e ∈ forms, ¬ e.Uses p.name) :
    p.Follows m (lambda x (parameters :: forms)) (lambda (p.through x) (parameters' :: forms')) p.SeesNext := by
  have second := body_rehomes (φ := id) forms'
  rw [all.shows] at second
  have gives := ((guards_hereditary p m).body_gives all.guards).and (body_gives_uses p.name forms)
  refine (Follows.of_rehomes (body_rehomes forms) second gives).bind fun n b b' later ⟨⟨guards, uses⟩, same⟩ => ?_
  refine (Follows.of_rehomes newObject_rehomes newObject_rehomes newObject_gives).bind
    fun l i i' later' ⟨_, number⟩ => .pure (.done ⟨?_, ?_⟩)
  · have later := later.trans later'
    refine guards_closure_iff.mpr ⟨⟨Nat.lt_of_lt_of_le inside later.size, fun exposed => ?_⟩, guards.mono later⟩
    by_cases among : parameters.HasParameter p.name
    · exact Or.inl among
    · refine Or.inr fun used => ?_
      obtain ⟨e, mem, used⟩ := uses used
      exact hidden (later.exposes x inside exposed) among e mem used
  · unfold Shows
    rw [Value.rehome, Value.rehome, shows.parameters, same]
    obtain rfl : i' = i := number
    rfl

theorem step_follows {nested nested' : Value → Run Value} (hn : PartsFollow p x nested nested')
    {k : CoreKeyword} {i j : Nat} {head' : Value} {rest rest' : List Value}
    (reads : p.Reads m x (.list i (k.symbol :: rest)) (.list j (head' :: rest'))) (all : p.SeesAll m rest rest') :
    p.Follows m (step nested room x k rest) (step nested' room (p.through x) k rest') p.SeesNext := by
  cases k with
  | quote =>
    cases all with
    | nil => exact .fail _
    | cons first _ => exact .pure (.done first)
  | test => exact test_follows hn (reads.parts all fun _ mem => mem)
  | sequence => exact sequence_follows hn (reads.parts all fun _ mem => mem)
  | assign =>
    refine assign_follows hn all reads.exists_ ?_ ?_
    · rintro target e rfl exposed key
      exact reads.hidden exposed (.target key)
    · rintro n target e e' rfl later sees
      exact (reads.mono later).part sees (List.mem_singleton.mpr rfl)
  | define =>
    refine define_follows hn all (fun same => reads.inert same .here) ?_
    rintro n target e e' rfl later sees
    exact (reads.mono later).part sees (List.mem_singleton.mpr rfl)
  | lambda =>
    cases all with
    | nil => exact .fail _
    | cons parameters forms =>
      refine lambda_follows reads.exists_ parameters.shows forms fun exposed among e mem uses => ?_
      exact reads.hidden exposed (.body among mem uses)

end Form

/-! ## The operations -/

namespace Calls

/-- The operations do in the pane what they do behind it. -/
structure SeenThrough (p : Pane) (c : Calls) : Prop where
  evaluate : ∀ {m room x form form'}, p.Reads m x form form' →
    p.Follows m (c.evaluate room form x) (c.evaluate room form' (p.through x)) p.Sees
  apply : ∀ {m room procedure procedure' args args'}, p.Sees m procedure procedure' → p.SeesAll m args args' →
    ∀ caller caller', p.Follows m (c.apply room procedure args caller) (c.apply room procedure' args' caller') p.Sees
  expand : ∀ {m room toplevel form form'}, p.Sees m form form' →
    p.Follows m (c.expand room form toplevel) (c.expand room form' toplevel) p.Sees

namespace SeenThrough

variable {c : Calls} (h : c.SeenThrough p) {form form' : Value} {args args' : List Value} {toplevel : Bool}

include h

theorem parts (x : FrameId) (room : Nat) : Form.PartsFollow p x
    (fun e => deeper room fun room => c.evaluate room e x)
    (fun e => deeper room fun room => c.evaluate room e (p.through x)) :=
  fun _ _ _ reads => .deeper (fun _ => h.evaluate reads) room

omit h in
/-- The body of a closure is run in a new frame. -/
theorem entered {i : Nat} {parameters body procedure' : Value} {home : FrameId}
    (go : Value → FrameId → Run Value) (sees : p.Sees m (.closure i parameters body home) procedure')
    (all : p.SeesAll m args args')
    (goes : ∀ n x e e', p.Reads n x e e' → p.Follows n (go e x) (go e' (p.through x)) p.Sees) :
    ∃ parameters' body', procedure' = .closure i parameters' body' (p.through home) ∧
      p.Follows m (newFrame room parameters args (some home) >>= go body)
        (newFrame room parameters' args' (some (p.through home)) >>= go body') p.Sees := by
  obtain ⟨⟨inside, hidden⟩, guards⟩ := guards_closure_iff.mp sees.guards
  obtain ⟨parameters', body', rfl, sameParameters, shows⟩ := sees.shows.closure_inv
  refine ⟨parameters', body', rfl, ?_⟩
  refine (newFrame_follows sameParameters all inside).bind fun n x x' later ⟨same, other, exists_, free⟩ => ?_
  have reads : p.Reads n x body body' := by
    refine ⟨exists_, ⟨guards.mono later, shows⟩, fun exposed uses => ?_, fun same => absurd same other⟩
    obtain ⟨exposed, free⟩ := free exposed
    exact (hidden exposed).elim free fun unused => unused uses
  have goes := goes n x body body' reads
  rw [show p.through x = x from if_neg other] at goes
  rw [same]
  exact goes

theorem callInPlace {procedure procedure' : Value} (sees : p.Sees m procedure procedure')
    (all : p.SeesAll m args args') (caller caller' : FrameId) :
    p.Follows m (c.callInPlace room caller procedure args) (c.callInPlace room caller' procedure' args') p.Sees := by
  by_cases closes : ∃ i parameters body home, procedure = .closure i parameters body home
  · obtain ⟨i, parameters, body, home, rfl⟩ := closes
    obtain ⟨parameters', body', rfl, follows⟩ := entered (c.evaluate room) sees all fun _ _ _ _ => h.evaluate
    exact follows
  · have applied : p.Follows m (c.apply room procedure args caller) (c.apply room procedure' args' caller') p.Sees :=
      h.apply sees all caller caller'
    have calls (f : Value) (open_ : ¬ ∃ i parameters body home, f = .closure i parameters body home)
        (args : List Value) (caller : FrameId) : c.callInPlace room caller f args = c.apply room f args caller := by
      cases f with
      | closure i parameters body home => exact absurd ⟨i, parameters, body, home, rfl⟩ open_
      | _ => rfl
    have open_ : ¬ ∃ i parameters body home, procedure' = .closure i parameters body home := by
      rintro ⟨i, parameters, body, home, rfl⟩
      have shows := sees.shows
      unfold Shows at shows
      cases procedure with
      | closure i parameters body home => exact closes ⟨i, parameters, body, home, rfl⟩
      | list i items =>
        rw [Value.rehome_list] at shows
        cases shows
      | _ => cases shows
    rwa [calls procedure closes, calls procedure' open_]

/-- How an evaluation goes on after a step of a core form. -/
theorem continued {next next' : Next} (sees : p.SeesNext m next next') :
    p.Follows m (c.continued room next) (c.continued room next') p.Sees := by
  cases sees with
  | done sees => exact .pure sees
  | tail reads => exact h.evaluate reads

/-- How an application goes on after its operands. -/
theorem applied {vs vs' : Operands} (sees : p.SeesOperands m vs vs') (x x' : FrameId) :
    p.Follows m (c.applied room x vs) (c.applied room x' vs') p.Sees := by
  cases sees with
  | escaped sees => exact .pure sees
  | values all =>
    cases all with
    | nil => exact .fail _
    | cons first rest => exact h.callInPlace first rest x x'

theorem evaluation (reads : p.Reads m x form form') :
    p.Follows m (c.evaluation room form x) (c.evaluation room form' (p.through x)) p.Sees := by
  cases form with
  | symbol name =>
    obtain rfl := reads.sees.shows.symbol_inv
    refine lookup_follows rfl fun exposed key => ?_
    obtain rfl := Key.name.inj (Option.some.inj key)
    exact reads.hidden exposed .symbol
  | list i items =>
    obtain ⟨items', rfl, all⟩ := reads.sees.list_inv
    cases all with
    | nil => exact .fail _
    | @cons head head' rest rest' first all =>
      have same : CoreKeyword.ofHead? head' = CoreKeyword.ofHead? head :=
        first.shows.observed fun _ v => Value.coreOfHead?_rehome v
      cases keyword : CoreKeyword.ofHead? head with
      | some k =>
        rw [keyword] at same
        obtain rfl := CoreKeyword.eq_symbol_of_ofHead? keyword
        rw [evaluation_of_keyword c room i keyword, evaluation_of_keyword c room i same]
        exact (Form.step_follows (h.parts x room) reads all).bind fun n _ _ _ sees => h.continued sees
      | none =>
        rw [keyword] at same
        rw [evaluation_of_application c room i keyword, evaluation_of_application c room i same]
        have parts : ∀ e ∈ head :: rest, e ∈ Form.scopeParts head rest := by
          unfold Form.scopeParts
          rw [keyword]
          exact fun _ mem => mem
        exact (Form.operands_follows (h.parts x room) (reads.parts (.cons first all) parts)).bind
          fun n _ _ _ sees => h.applied sees x _
  | closure i parameters body home =>
    obtain ⟨_, _, rfl, _, _⟩ := reads.sees.shows.closure_inv
    exact .pure reads.sees
  | escape k u =>
    obtain ⟨_, rfl, _⟩ := reads.sees.shows.escape_inv
    exact .pure reads.sees
  | _ =>
    obtain rfl := reads.sees.shows.atom_inv nofun nofun nofun
    exact .pure reads.sees

/-- Core code at the root. -/
theorem atRoot {core core' : Value} (sees : p.Sees m core core') :
    p.Follows m (deeper room fun room => c.evaluate room core Machine.root)
      (deeper room fun room => c.evaluate room core' Machine.root) p.Sees := by
  refine .within fun inside => ?_
  have other : Machine.root ≠ p.frame := by
    intro same
    have placed := inside.placed
    rw [← same, inside.top] at placed
    cases placed
  have reads : p.Reads m Machine.root core core' :=
    ⟨inside.exists_, sees, fun exposed => absurd exposed inside.not_exposes_root, fun same => absurd same other⟩
  have follows (room : Nat) : p.Follows m (c.evaluate room core Machine.root)
      (c.evaluate room core' (p.through Machine.root)) p.Sees := h.evaluate reads
  rw [show p.through Machine.root = Machine.root from if_neg other] at follows
  exact .deeper follows room

omit h in
theorem notProcedure (shows : p.Shows v v') :
    p.Follows m (do Run.fail (.type (.notProcedure (← source room v))) : Run Value)
      (do Run.fail (.type (.notProcedure (← source room v')))) p.Sees :=
  (source_follows shows).bind fun _ _ _ _ same => same ▸ .fail _

theorem application {procedure procedure' : Value} (sees : p.Sees m procedure procedure')
    (all : p.SeesAll m args args') (caller caller' : FrameId) :
    p.Follows m (c.application room procedure args caller) (c.application room procedure' args' caller') p.Sees := by
  cases procedure with
  | closure i parameters body home =>
    obtain ⟨parameters', body', rfl, follows⟩ := entered (fun body x => deeper room fun room => c.evaluate room body x)
      sees all
      fun _ _ _ _ reads => .deeper (fun _ => h.evaluate reads) room
    exact follows
  | continuation k =>
    obtain rfl := sees.shows.atom_inv nofun nofun nofun
    exact invoke_follows k all
  | primitive f =>
    obtain rfl := sees.shows.atom_inv nofun nofun nofun
    exact .of_operands all (fun _ vs => Primitive.run_rehomes vs f)
      (Primitive.run_gives (guards_hereditary p m) f room all.guards)
  | control f =>
    obtain rfl := sees.shows.atom_inv nofun nofun nofun
    cases f with
    | apply =>
      refine (twoOperands_follows "apply" all).bind fun n (f, vs) (f', vs') _ ⟨first, last⟩ => ?_
      refine (listOperand_follows "apply" last).bind fun l vs vs' later all => ?_
      exact .deeper (fun _ => h.apply (first.mono later) all caller caller') room
    | eval =>
      refine (oneOperand_follows "eval" all).bind fun n form form' _ sees => ?_
      exact (Follows.deeper (fun _ => h.expand sees) room).bind fun l core core' _ sees => h.atRoot sees
    | callWithEscape =>
      refine (oneOperand_follows "call/cc" all).bind fun n f f' _ sees => ?_
      refine openContinuation_follows.bind fun l k k' later same => ?_
      subst same
      have passed : p.SeesAll l [.continuation k'] [.continuation k'] := .cons ⟨nofun, rfl⟩ .nil
      have called : p.Follows l (deeper room fun room => c.apply room f [.continuation k'] caller)
          (deeper room fun room => c.apply room f' [.continuation k'] caller') p.Sees :=
        .deeper (fun _ => h.apply (sees.mono later) passed caller caller') room
      exact (called.spending k').bind fun _ _ _ _ sees => .pure (sees.received k')
  | list i items =>
    have shows := sees.shows
    obtain ⟨_, rfl, _⟩ := sees.list_inv
    exact notProcedure shows
  | escape k u =>
    have shows := sees.shows
    obtain ⟨_, rfl, _⟩ := shows.escape_inv
    exact notProcedure shows
  | _ =>
    have shows := sees.shows
    obtain rfl := shows.atom_inv nofun nofun nofun
    exact notProcedure shows

theorem inner (sees : p.Sees m form form') :
    p.Follows m (deeper room fun room => c.expand room form toplevel)
      (deeper room fun room => c.expand room form' toplevel) p.Sees :=
  .deeper (fun _ => h.expand sees) room

omit h in
theorem seesAll_triple {u u' w w' : Value} (first : p.Sees m v v') (second : p.Sees m u u') (third : p.Sees m w w') :
    p.SeesAll m [v, u, w] [v', u', w'] :=
  .cons first (.cons second (.cons third .nil))

omit h in
theorem sees_symbol (name : String) : p.Sees m (.symbol name) (.symbol name) :=
  ⟨nofun, rfl⟩

omit h in
theorem definition_of_other (c : Calls) {head target : Value} {rest : List Value}
    (list : ∀ i items, target ≠ .list i items) (symbol : ∀ name, target ≠ .symbol name) :
    c.definition room form head (target :: rest) toplevel =
      Form.refuse room form (if rest.length = 1 then .definesNonSymbol else .wrongLength) := by
  cases target with
  | list i items => exact absurd rfl (list i items)
  | symbol name => exact absurd rfl (symbol name)
  | _ => rcases rest with _ | ⟨_, _ | ⟨_, _⟩⟩ <;> rfl

/-- A definition whose target is a name. -/
theorem plainDefinition {head head' e e' : Value} (name : String) (whole : p.Shows form form')
    (first : p.Sees m head head') (sees : p.Sees m e e') :
    p.Follows m (c.definition room form head [.symbol name, e] toplevel)
      (c.definition room form' head' [.symbol name, e'] toplevel) p.Sees := by
  unfold Calls.definition
  dsimp only
  refine (h.inner sees).bind fun n core core' later core => ?_
  rw [first.shows.observed (f := Value.isSymbol "define-macro") fun _ v => Value.isSymbol_rehome _ v]
  split
  · refine (require_follows whole _ _).bind fun n _ _ later _ => ?_
    refine (h.atRoot (core.mono later)).bind fun n t t' later t => ?_
    rw [t.shows.observed (f := Value.isProcedure) fun _ v => Value.isProcedure_rehome v]
    refine (require_follows whole _ _).bind fun n _ _ later _ => ?_
    exact (register_follows name (t.mono later)).bind fun n _ _ _ _ => .pure ⟨nofun, rfl⟩
  · exact newList_follows (seesAll_triple (first.mono later) (sees_symbol name) core)

/-- A definition whose target is a list makes a closure. -/
theorem listDefinition {i : Nat} {head head' : Value} {items items' rest rest' : List Value}
    (whole : p.Shows form form') (first : p.Sees m head head') (target : p.SeesAll m items items')
    (all : p.SeesAll m rest rest') :
    p.Follows m (c.definition room form head (.list i items :: rest) toplevel)
      (c.definition room form' head' (.list i items' :: rest') toplevel) p.Sees := by
  cases target with
  | nil => rcases all with _ | ⟨_, _⟩ <;> exact refuse_follows whole _
  | @cons name name' ps ps' named parameters =>
    have made {n : Machine} (later : p.Later m n) : p.Follows n
        (do
          let parameters ← newList ps
          let closure ← newList (CoreKeyword.lambda.symbol :: parameters :: rest)
          let plain ← newList [head, name, closure]
          deeper room fun room => c.expand room plain toplevel)
        (do
          let parameters ← newList ps'
          let closure ← newList (CoreKeyword.lambda.symbol :: parameters :: rest')
          let plain ← newList [head', name', closure]
          deeper room fun room => c.expand room plain toplevel) p.Sees := by
      refine (newList_follows (SeesAll.mono parameters later)).bind fun n ps ps' later' ps => ?_
      have later := later.trans later'
      refine (newList_follows (.cons (sees_symbol _) (.cons ps (all.mono later)))).bind
        fun n closure closure' later' closure => ?_
      have later := later.trans later'
      exact (newList_follows (seesAll_triple (first.mono later) (named.mono later) closure)).bind
        fun n plain plain' _ plain => h.inner plain
    unfold Calls.definition
    cases all with
    | nil => exact (require_follows whole _ _).bind fun n _ _ later _ => made later
    | cons _ _ => exact (require_follows whole _ _).bind fun n _ _ later _ => made later

theorem definition {head head' : Value} {rest rest' : List Value} (whole : p.Shows form form')
    (first : p.Sees m head head') (all : p.SeesAll m rest rest') :
    p.Follows m (c.definition room form head rest toplevel) (c.definition room form' head' rest' toplevel) p.Sees := by
  cases all with
  | nil => exact refuse_follows whole _
  | @cons target target' rest rest' sees all =>
    have other (list : ∀ i items, target ≠ .list i items) (symbol : ∀ name, target ≠ .symbol name)
        (list' : ∀ i items, target' ≠ .list i items) (symbol' : ∀ name, target' ≠ .symbol name) :
        p.Follows m (c.definition room form head (target :: rest) toplevel)
          (c.definition room form' head' (target' :: rest') toplevel) p.Sees := by
      rw [definition_of_other c list symbol, definition_of_other c list' symbol', all.length_eq]
      exact refuse_follows whole _
    cases target with
    | symbol name =>
      obtain rfl := sees.shows.symbol_inv
      rcases all with _ | ⟨e, _ | ⟨_, _⟩⟩
      · exact refuse_follows whole _
      · exact h.plainDefinition name whole first e
      · exact refuse_follows whole _
    | list i items =>
      obtain ⟨items', rfl, target⟩ := sees.list_inv
      exact h.listDefinition whole first target all
    | closure i parameters body home =>
      obtain ⟨_, _, rfl, _, _⟩ := sees.shows.closure_inv
      exact other nofun nofun nofun nofun
    | escape k u =>
      obtain ⟨_, rfl, _⟩ := sees.shows.escape_inv
      exact other nofun nofun nofun nofun
    | _ =>
      obtain rfl := sees.shows.atom_inv nofun nofun nofun
      exact other nofun nofun nofun nofun

theorem expansion (sees : p.Sees m form form') :
    p.Follows m (c.expansion room form toplevel) (c.expansion room form' toplevel) p.Sees := by
  have each (toplevel : Bool) {n : Machine} {es es' : List Value} (all : p.SeesAll n es es') : p.Follows n
      (es.mapM (fun e => deeper room fun room => c.expand room e toplevel) >>= newList)
      (es'.mapM (fun e => deeper room fun room => c.expand room e toplevel) >>= newList) p.Sees :=
    (Follows.mapM all fun n v v' sees => h.inner sees).bind fun _ _ _ _ all => newList_follows all
  cases form with
  | list i items =>
    have whole := sees.shows
    obtain ⟨items', rfl, all⟩ := sees.list_inv
    have refused (fault : FormFault) : p.Follows m (Form.refuse room (.list i items) fault : Run Value)
        (Form.refuse room (.list i items') fault : Run Value) p.Sees := refuse_follows whole fault
    cases all with
    | nil => exact refused _
    | @cons head head' rest rest' first all =>
      have items : p.SeesAll m (head :: rest) (head' :: rest') := .cons first all
      unfold Calls.expansion
      dsimp only
      rw [first.shows.observed (f := Keyword.ofHead?) fun _ v => Value.ofHead?_rehome v]
      cases Keyword.ofHead? head with
      | none =>
        dsimp only
        refine (transformer?_follows first.shows).bind fun n t t' later ⟨same, guards⟩ => ?_
        cases t with
        | none =>
          obtain rfl := Option.map_eq_none_iff.mp same
          exact each false (SeesAll.mono items later)
        | some t =>
          obtain ⟨t', rfl, shows⟩ := Option.map_eq_some_iff.mp same
          refine (Follows.deeper (fun _ => h.apply ⟨guards t rfl, shows⟩ (SeesAll.mono all later)
            Machine.root Machine.root) room).bind fun l e e' later sees => h.inner sees
      | some k =>
        cases k with
        | defineTransformer => exact h.definition whole first all
        | template =>
          rcases all with _ | ⟨template, _ | ⟨_, _⟩⟩
          · exact refused _
          · exact (ofTemplate_follows template).bind fun n t t' later sees => h.inner sees
          · exact refused _
        | core k =>
          cases k with
          | quote =>
            dsimp only
            rw [all.length_eq]
            exact (require_follows whole _ _).bind fun _ _ _ later _ => .pure (sees.mono later)
          | define => exact h.definition whole first all
          | test =>
            rcases all with _ | ⟨t, _ | ⟨c, _ | ⟨e, _ | ⟨_, _⟩⟩⟩⟩
            · exact refused _
            · exact refused _
            · exact each false (.cons first (.cons t (.cons c (.cons ⟨nofun, rfl⟩ .nil))))
            · exact each false items
            · exact refused _
          | assign =>
            rcases all with _ | ⟨target, _ | ⟨e, _ | ⟨_, _⟩⟩⟩
            · exact refused _
            · exact refused _
            · dsimp only
              rw [target.shows.observed (f := Value.hasKind .symbol) fun _ v => Value.hasKind_rehome _ v]
              refine (require_follows whole _ _).bind fun n _ _ later _ => ?_
              refine (h.inner (e.mono later)).bind fun l core core' later' core => ?_
              have later := later.trans later'
              exact newList_follows (seesAll_triple (first.mono later) (target.mono later) core)
            · exact refused _
          | sequence =>
            cases all with
            | nil => exact .pure ⟨nofun, rfl⟩
            | cons _ _ => exact each toplevel items
          | lambda =>
            rcases all with _ | ⟨parameters, _ | ⟨form, forms⟩⟩
            · exact refused _
            · exact refused _
            · dsimp only
              rw [parameters.shows.observed (f := Form.areParameters) fun _ v => Value.areParameters_rehome v]
              refine (require_follows whole _ _).bind fun n _ _ later _ => ?_
              refine (body_follows (SeesAll.mono (.cons form forms) later)).bind fun l body body' later' sees => ?_
              refine (h.inner sees).bind fun l core core' later'' core => ?_
              have later := (later.trans later').trans later''
              exact newList_follows (seesAll_triple (first.mono later) (parameters.mono later) core)
  | closure i parameters body home =>
    obtain ⟨_, _, rfl, _, _⟩ := sees.shows.closure_inv
    exact .pure sees
  | escape k u =>
    obtain ⟨_, rfl, _⟩ := sees.shows.escape_inv
    exact .pure sees
  | _ =>
    obtain rfl := sees.shows.atom_inv nofun nofun nofun
    exact .pure sees

end SeenThrough

end Calls

/-- Every run does in a pane what it does behind it. -/
theorem calls_seenThrough (p : Pane) (fuel : Nat) : (calls fuel).SeenThrough p := by
  induction fuel with
  | zero => exact ⟨fun _ => .throw _, fun _ _ _ _ => .throw _, fun _ => .throw _⟩
  | succ fuel ih =>
    exact ⟨fun reads => ih.evaluation reads, fun sees all caller caller' => ih.application sees all caller caller',
      fun sees => ih.expansion sees⟩

end SmallLisp
