import SmallLisp.Proofs.BundledPrelude
import SmallLisp.Proofs.Disjunctions
/-!
# What derived forms mean

While the bundled prelude is in force, a use of one of its forms or of `let` is expanded as its operands are,
and the core form that comes of it does with the expansions of the operands what the form says, in every frame
and every state.
-/
namespace SmallLisp

open Run

variable {γ : Type} {m n : Machine} {i : Nat} {e t bindings : Value} {es : List Value}

/-- A core form is evaluated in a frame of a state as some computation. -/
def Machine.RunsAs (m : Machine) (frame : FrameId) (core : Value) (a : Limited Value) : Prop :=
  ∀ o, Settles (fun fuel room => evaluate fuel room core frame) m o ↔ Settles a m o

/-- A form is expanded as its parts are, to a core form that is found among them, and what comes of the parts
has a property. -/
structure Machine.Derives (m : Machine) (form : Value) (parts : Limited γ) (core : γ → Value) (P : γ → Prop) : Prop where
  expands : ∀ toplevel o, Settles (fun fuel room => expand fuel room form toplevel) m o ↔
    Settles (fun fuel room => core <$> parts fuel room) m o
  delivers : ∀ p n, Settles parts m (.ok p, n) → P p

/-- Once the parts are known, so are the expansion and its property. -/
theorem Machine.Derives.expansion {form : Value} {parts : Limited γ} {core : γ → Value} {P : γ → Prop} {p : γ}
    (h : m.Derives form parts core P) (settles : Settles parts m (.ok p, n)) (toplevel : Bool) :
    Settles (fun fuel room => expand fuel room form toplevel) m (.ok (core p), n) ∧ P p := by
  refine ⟨(h.expands toplevel _).mpr ?_, h.delivers p n settles⟩
  obtain ⟨fuel, room, ends, _⟩ := settles
  refine ⟨fuel, room, ?_, not_stopped_ok⟩
  simp only [map_eq_pure_bind]
  rw [outcome_bind_of_ok ends]
  rfl

/-! ## The forms one by one -/

theorem derives_conjunction (ready : m.StaysReady es) (forms : AreForms es) :
    m.Derives (.list i (.symbol "and" :: es)) (conjunctionParts es) Prod.snd fun (cs, core) =>
      AreExpansions es cs ∧ ∀ l frame, Machine.RunsAs l frame core (conjunction frame cs) where
  expands _ _ := settles_expand_conjunction_iff ready forms
  delivers := by
    rintro ⟨cs, core⟩ n settles
    obtain ⟨expansions, shape⟩ := conjunctionParts_delivers es m _ n settles
    exact ⟨expansions, fun _ _ _ => shape.settles_iff⟩

/-- A state that knows what a disjunction has become knows its clauses. -/
theorem DisjunctionCore.knows {cs : List Value} {core : Value} (h : DisjunctionCore cs core) (known : m.Knows core) :
    ∀ c ∈ cs, m.Knows c := by
  induction h with
  | none => exact nofun
  | one => exact List.forall_mem_singleton.mpr known
  | more _ ih =>
    -- The core is the application of a closure, whose body holds the later clauses, to the first clause.
    have parts := Value.StaysIn.list.mp known
    have test := Value.StaysIn.list.mp (parts _ List.mem_cons_self) _ (List.mem_of_getLast? rfl)
    have rest := Value.StaysIn.list.mp test _ (List.mem_of_getLast? rfl)
    exact List.forall_mem_cons.mpr ⟨parts _ (List.mem_of_getLast? rfl), ih rest⟩

theorem derives_disjunction (ready : m.Ready) (forms : AreForms es) :
    m.Derives (.list i (.symbol "or" :: es)) (disjunctionParts es) Prod.snd fun (cs, core) =>
      AreExpansions es cs ∧ (LookPast cs.tail → ∀ (l : Machine) frame, l.Rooted → frame < l.frames.all.size →
        l.Knows core → l.SettlesAlike l (fun fuel room => evaluate fuel room core frame) (disjunction frame cs)) where
  expands _ _ := settles_expand_disjunction_iff ready forms
  delivers := by
    rintro ⟨cs, core⟩ n settles
    obtain ⟨expansions, shape⟩ := disjunctionParts_delivers es m _ n settles
    exact ⟨expansions, fun past l frame rooted exists_ known =>
      shape.settlesAlike rooted exists_ (shape.knows known) past⟩

theorem derives_when (ready : m.Ready) (form : t.isEscape = false) :
    m.Derives (.list i (.symbol "when" :: t :: es)) (onTrueParts t es) (fun p => p.2.2) fun (c, cs, core) =>
      IsExpansion t c ∧ AreExpansions es cs ∧ ∀ l frame, Machine.RunsAs l frame core (guarded false frame c cs) where
  expands _ _ := settles_expand_when_iff ready form
  delivers := by
    rintro ⟨c, cs, core⟩ n settles
    have delivered := onTrueParts_delivers t es m _ n settles
    dsimp only at delivered
    obtain ⟨test, expansions, j, body, runs, rfl⟩ := delivered
    exact ⟨test, expansions, fun _ _ _ => settles_evaluate_when_iff runs⟩

theorem derives_unless (ready : m.Ready) (noTransformer : m.transformers.get? (.name "not") = none)
    (form : t.isEscape = false) :
    m.Derives (.list i (.symbol "unless" :: t :: es)) (onFalseParts t es) (fun p => p.2.2) fun (c, cs, core) =>
      IsExpansion t c ∧ AreExpansions es cs ∧ ∀ (l : Machine) frame,
        l.frames.lookup? frame (.name "not") = some (.primitive .not) →
          l.RunsAs frame core (guarded true frame c cs) where
  expands _ _ := settles_expand_unless_iff ready form noTransformer
  delivers := by
    rintro ⟨c, cs, core⟩ n settles
    have delivered := onFalseParts_delivers t es m _ n settles
    dsimp only at delivered
    obtain ⟨test, expansions, j, k, body, runs, rfl⟩ := delivered
    exact ⟨test, expansions, fun _ _ builtin _ => settles_evaluate_unless_iff runs builtin⟩

theorem derives_let {pairs : List (Value × Value)} (ready : m.Ready)
    (bound : Form.letBindings? bindings = some pairs)
    (parameters : (pairs.map (·.1)).all Form.isParameter = true) :
    m.Derives (.list i (.symbol "let" :: bindings :: e :: es))
      (bindingParts (pairs.map (·.1)) (pairs.map (·.2)) (e :: es)) (fun p => p.2.2) fun (xs, cs, core) =>
        AreExpansions (pairs.map (·.2)) xs ∧ AreExpansions (e :: es) cs ∧
          ∀ l frame, Machine.RunsAs l frame core (binding frame (pairs.map (·.1)) xs cs) where
  expands _ _ := settles_expand_let_iff ready.prelude bound parameters
  delivers := by
    rintro ⟨xs, cs, core⟩ n settles
    obtain ⟨values, expansions, shape⟩ := bindingParts_delivers _ _ _ m _ n settles
    exact ⟨values, expansions, fun _ _ _ => shape.settles_iff⟩

/-- Derived forms mean what they say, in the sessions that start with the bundled prelude and redefine neither
its forms nor the procedures that they use. Operands are expanded to core forms. Then `and` and `or` evaluate
them from left to right, each at most once, up to the first that is false or that is not. For `or`, the later
ones must neither use `or-value` nor define anything. `when` and `unless` evaluate their test once, and their
body in the same frame if the test is not false, or if it is; otherwise they come to an unspecified value. `let`
evaluates what its names are bound to from left to right and then its body in a new frame. -/
theorem derived_forms (m : Machine) (i : Nat) :
    (m.Rooted → (∀ name ∈ ["and", "or", "when", "unless", "let"],
        m.transformers.get? (.name name) = Session.bundled.machine.transformers.get? (.name name)) →
      m.frames.HasListProcedures Machine.root → m.Ready) ∧
    (∀ es, m.StaysReady es → AreForms es →
      m.Derives (.list i (.symbol "and" :: es)) (conjunctionParts es) Prod.snd fun (cs, core) =>
        AreExpansions es cs ∧ ∀ l frame, Machine.RunsAs l frame core (conjunction frame cs)) ∧
    (∀ es, m.Ready → AreForms es →
      m.Derives (.list i (.symbol "or" :: es)) (disjunctionParts es) Prod.snd fun (cs, core) =>
        AreExpansions es cs ∧ (LookPast cs.tail → ∀ (l : Machine) frame, l.Rooted → frame < l.frames.all.size →
          l.Knows core → l.SettlesAlike l (fun fuel room => evaluate fuel room core frame) (disjunction frame cs))) ∧
    (∀ t es, m.Ready → t.isEscape = false →
      m.Derives (.list i (.symbol "when" :: t :: es)) (onTrueParts t es) (fun p => p.2.2) fun (c, cs, core) =>
        IsExpansion t c ∧ AreExpansions es cs ∧ ∀ l frame, Machine.RunsAs l frame core (guarded false frame c cs)) ∧
    (∀ t es, m.Ready → m.transformers.get? (.name "not") = none → t.isEscape = false →
      m.Derives (.list i (.symbol "unless" :: t :: es)) (onFalseParts t es) (fun p => p.2.2) fun (c, cs, core) =>
        IsExpansion t c ∧ AreExpansions es cs ∧ ∀ (l : Machine) frame,
          l.frames.lookup? frame (.name "not") = some (.primitive .not) →
            l.RunsAs frame core (guarded true frame c cs)) ∧
    ∀ bindings pairs e es, m.Ready → Form.letBindings? bindings = some pairs →
      (pairs.map (·.1)).all Form.isParameter = true →
      m.Derives (.list i (.symbol "let" :: bindings :: e :: es))
        (bindingParts (pairs.map (·.1)) (pairs.map (·.2)) (e :: es)) (fun p => p.2.2) fun (xs, cs, core) =>
          AreExpansions (pairs.map (·.2)) xs ∧ AreExpansions (e :: es) cs ∧
            ∀ l frame, Machine.RunsAs l frame core (binding frame (pairs.map (·.1)) xs cs) :=
  ⟨fun rooted kept procedures => rooted.ready kept procedures,
    fun _ ready forms => derives_conjunction ready forms,
    fun _ ready forms => derives_disjunction ready forms,
    fun _ _ ready form => derives_when ready form,
    fun _ _ ready noTransformer form => derives_unless ready noTransformer form,
    fun _ _ _ _ ready bound parameters => derives_let ready bound parameters⟩

/-- The forms of the prelude in a session that has just started. -/
theorem derived_forms_bundled : let m := Session.bundled.machine
    (∃ core n, Settles (fun fuel room => expand fuel room (.list 0 [.symbol "and", .int 1, .int 2]) false) m
        (.ok core, n) ∧ ∀ l frame, Machine.RunsAs l frame core (conjunction frame [.int 1, .int 2])) ∧
    (∃ core n, Settles (fun fuel room => expand fuel room (.list 0 [.symbol "or", .bool false, .int 2]) false) m
        (.ok core, n) ∧ m.SettlesAlike m (fun fuel room => evaluate fuel room core Machine.root)
          (disjunction Machine.root [.bool false, .int 2])) ∧
    (∃ core n, Settles (fun fuel room => expand fuel room (.list 0 [.symbol "when", .bool true, .int 3]) false) m
        (.ok core, n) ∧ ∀ l frame, Machine.RunsAs l frame core (guarded false frame (.bool true) [.int 3])) ∧
    (∃ core n, Settles (fun fuel room => expand fuel room (.list 0 [.symbol "unless", .bool false, .int 3]) false) m
        (.ok core, n) ∧ m.RunsAs Machine.root core (guarded true Machine.root (.bool false) [.int 3])) ∧
    ∃ core n, Settles (fun fuel room => expand fuel room (.list 0 [.symbol "let",
        .list 0 [.list 0 [.symbol "x", .int 1]], .symbol "x"]) false) m (.ok core, n) ∧
      ∀ l frame, Machine.RunsAs l frame core (binding frame [.symbol "x"] [.int 1] [.symbol "x"]) := by
  intro m
  obtain ⟨inForce, conjunction, disjunction, onTrue, onFalse, bindings⟩ := derived_forms m 0
  have started := Session.bundled_inForce
  have rooted : m.Rooted := Session.bundled_rooted
  have ready := inForce rooted (fun _ _ => rfl) (Frames.hasListProcedures_sound started.2.1)
  have forms {a b : Value} (first : a.isEscape = false) (second : b.isEscape = false) : AreForms [a, b] :=
    List.forall_mem_cons.mpr ⟨first, List.forall_mem_singleton.mpr second⟩
  refine ⟨?_, ?_, ?_, ?_, ?_⟩
  · have stays : m.StaysReady [.int 1, .int 2] := by
      refine ⟨ready, fun c n settles => ?_⟩
      cases settles.unique (improving_expand _ _) (settles_expand_atom nofun)
      exact (ready.called _ _).made 7
    have derives := conjunction _ stays (forms rfl rfl)
    obtain ⟨core, n, parts⟩ : ∃ core n, Settles (conjunctionParts [.int 1, .int 2]) m
      (.ok ([.int 1, .int 2], core), n) := ⟨_, _, 1, 0, rfl, not_stopped_ok⟩
    obtain ⟨expands, _, runs⟩ := derives.expansion parts false
    exact ⟨core, n, expands, runs⟩
  · have derives := disjunction [.bool false, .int 2] ready (forms rfl rfl)
    obtain ⟨core, n, parts, known⟩ : ∃ core n, Settles (disjunctionParts [.bool false, .int 2]) m
        (.ok ([.bool false, .int 2], core), n) ∧ m.Knows core := by
      refine ⟨_, _, ⟨1, 0, rfl, not_stopped_ok⟩, ?_⟩
      simp only [Machine.Knows, Value.StaysIn.list, List.forall_mem_cons, List.not_mem_nil, false_imp_iff,
        implies_true, and_true]
      and_intros <;> exact .of_isAtom rfl
    have past : LookPast [.int 2] := List.forall_mem_singleton.mpr ⟨nofun, nofun⟩
    obtain ⟨expands, _, runs⟩ := derives.expansion parts false
    exact ⟨core, n, expands, runs past m Machine.root rooted rooted.exists_ known⟩
  · have derives := onTrue (.bool true) [.int 3] ready rfl
    obtain ⟨core, n, parts⟩ : ∃ core n, Settles (onTrueParts (.bool true) [.int 3]) m
      (.ok (.bool true, [.int 3], core), n) := ⟨_, _, 1, 0, rfl, not_stopped_ok⟩
    obtain ⟨expands, _, _, runs⟩ := derives.expansion parts false
    exact ⟨core, n, expands, runs⟩
  · have noTransformer : m.transformers.get? (.name "not") = none := Option.isNone_iff_eq_none.mp started.2.2.2
    have builtin := Frames.lookup?_of_hasBuiltin started.2.2.1
    have derives := onFalse (.bool false) [.int 3] ready noTransformer rfl
    obtain ⟨core, n, parts⟩ : ∃ core n, Settles (onFalseParts (.bool false) [.int 3]) m
      (.ok (.bool false, [.int 3], core), n) := ⟨_, _, 1, 0, rfl, not_stopped_ok⟩
    obtain ⟨expands, _, _, runs⟩ := derives.expansion parts false
    exact ⟨core, n, expands, runs m Machine.root builtin⟩
  · have derives := bindings (.list 0 [.list 0 [.symbol "x", .int 1]]) [(.symbol "x", .int 1)] (.symbol "x") []
      ready rfl rfl
    obtain ⟨core, n, parts⟩ : ∃ core n, Settles (bindingParts [.symbol "x"] [.int 1] [.symbol "x"]) m
      (.ok ([.int 1], [.symbol "x"], core), n) := ⟨_, _, 1, 0, rfl, not_stopped_ok⟩
    obtain ⟨expands, _, _, runs⟩ := derives.expansion parts false
    exact ⟨core, n, expands, runs⟩

end SmallLisp
