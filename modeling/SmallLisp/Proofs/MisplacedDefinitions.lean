import SmallLisp.Proofs.Registry
/-!
# Definitions of transformers out of place

The expansion of a form leads to the expansion of its parts. Of those only the forms of a nest of sequences, and
the plain definitions that theirs stand for, are expanded as at the top level. The definition of a transformer
that is reached in any other place is refused, and so is the form that contains it.
-/
namespace SmallLisp

open Run

namespace Form

/-- The forms that are expanded one after another for a form, and whether as at the top level. -/
inductive Spreads (m : Machine) (toplevel : Bool) : Value → List Value → Bool → Prop
  | shortTest {i t e} :
      Spreads m toplevel (.list i [.symbol "if", t, e]) [.symbol "if", t, e, .unspecified] false
  | test {i t e e'} :
      Spreads m toplevel (.list i [.symbol "if", t, e, e']) [.symbol "if", t, e, e'] false
  | sequence {i e es} :
      Spreads m toplevel (.list i (.symbol "begin" :: e :: es)) (.symbol "begin" :: e :: es) toplevel
  | application {i head rest} : Keyword.ofHead? head = none → m.transformerOf? head = none →
      Spreads m toplevel (.list i (head :: rest)) (head :: rest) false

/-- The one form that is expanded for a form, whether as at the top level, and the state it is expanded in. -/
inductive Turns (c : Calls) (room : Nat) (m : Machine) (toplevel : Bool) :
    Value → Value → Bool → Machine → Prop
  | assigned {i target e} : target.hasKind .symbol = true →
      Turns c room m toplevel (.list i [.symbol "set!", target, e]) e false m
  | defined {i keyword name e} : keyword = "define" ∨ keyword = "define-macro" →
      Turns c room m toplevel (.list i [.symbol keyword, .symbol name, e]) e false m
  | curried {i j keyword target ps e es} : keyword = "define" ∨ keyword = "define-macro" →
      Turns c room m toplevel (.list i (.symbol keyword :: .list j (target :: ps) :: e :: es))
        (plainDefinition m.nextObject (.symbol keyword) target ps (e :: es)) toplevel (m.made 3)
  | body {i ps e es b n} : areParameters ps = true → (Form.body (e :: es)).Ends m b n →
      Turns c room m toplevel (.list i (.symbol "lambda" :: ps :: e :: es)) b false n
  | template {i t e n} : (ofTemplate room t).Ends m e n →
      Turns c room m toplevel (.list i [.symbol "quasiquote", t]) e false n
  | use {i head rest t e n} : Keyword.ofHead? head = none → m.transformerOf? head = some t →
      (deeper room fun room => c.apply room t rest Machine.root).Ends m e n →
      Turns c room m toplevel (.list i (head :: rest)) e false n

variable {c : Calls} {room : Nat} {m n : Machine} {toplevel flag : Bool} {form part : Value} {items : List Value}

theorem Spreads.expansion (h : Spreads m toplevel form items flag) (c : Calls) (room : Nat) :
    outcome (c.expansion room form toplevel) m =
      outcome (items.mapM (c.expandPart room flag) >>= newList) m := by
  cases h with
  | application noKeyword missing =>
    unfold Calls.expansion
    simp only [noKeyword]
    exact outcome_bind_of_ok (ends_transformer?.mpr ⟨missing.symm, rfl⟩) _
  | _ => rfl

/-- What a form turns into is expanded first, and what comes then does not depend on how forms are expanded. -/
theorem Turns.expansion (h : Turns c room m toplevel form part flag n) :
    ∃ k : Value → Run Value, ∀ c' : Calls, c'.evaluate = c.evaluate → c'.apply = c.apply →
      outcome (c'.expansion room form toplevel) m = outcome (c'.expandPart room flag part >>= k) n := by
  cases h with
  | @assigned i target _ kind =>
    refine ⟨fun core => newList [.symbol "set!", target, core], fun c' _ _ => ?_⟩
    have required : (require room (.list i [.symbol "set!", target, part]) .assignsNonSymbol
      (target.hasKind .symbol)).Ends m ⟨⟩ m := by rw [kind]; rfl
    exact outcome_bind_of_ok required _
  | @defined i keyword name _ isDefinition =>
    rcases isDefinition with rfl | rfl
    · exact ⟨fun core => newList [.symbol "define", .symbol name, core], fun _ _ _ => rfl⟩
    · refine ⟨fun core => do
        require room (.list i [.symbol "define-macro", .symbol name, part]) .notTopLevel toplevel
        let transformer ← deeper room fun room => c.evaluate room core Machine.root
        require room (.list i [.symbol "define-macro", .symbol name, part]) .notTransformer transformer.isProcedure
        register name transformer
        return .unspecified, ?_⟩
      rintro ⟨_, _, _⟩ rfl rfl
      rfl
  | curried isDefinition =>
    refine ⟨pure, fun c' _ _ => ?_⟩
    rw [bind_pure]
    rcases isDefinition with rfl | rfl
    · rfl
    · rfl
  | @body i ps e es _ _ parameters built =>
    refine ⟨fun core => newList [.symbol "lambda", ps, core], fun c' _ _ => ?_⟩
    have required : (require room (.list i (.symbol "lambda" :: ps :: e :: es)) .illegalParameters
      (areParameters ps)).Ends m ⟨⟩ m := by rw [parameters]; rfl
    exact (outcome_bind_of_ok required _).trans (outcome_bind_of_ok built _)
  | template built =>
    refine ⟨pure, fun c' _ _ => ?_⟩
    rw [bind_pure]
    exact outcome_bind_of_ok built _
  | use noKeyword found applied =>
    refine ⟨pure, ?_⟩
    rintro ⟨_, _, _⟩ rfl rfl
    rw [bind_pure]
    unfold Calls.expansion
    simp only [noKeyword]
    exact (outcome_bind_of_ok (ends_transformer?.mpr ⟨found.symm, rfl⟩) _).trans
      (outcome_bind_of_ok applied _)

theorem ends_of_require {fault : FormFault} {ok : Bool} {x : Unit}
    (h : (require room form fault ok).Ends m x n) : ok = true ∧ n = m := by
  cases ok with
  | true =>
    cases h
    exact ⟨rfl, rfl⟩
  | false => exact absurd h not_ends_refuse

/-- A form that neither spreads nor turns into another one is expanded without expanding anything else. -/
theorem spreads_or_turns (c : Calls) (room : Nat) (m : Machine) (toplevel : Bool) (form : Value) :
    (∃ items flag, Spreads m toplevel form items flag) ∨
    (∃ part flag n, Turns c room m toplevel form part flag n) ∨
    ∀ c' : Calls, c'.apply = c.apply →
      outcome (c'.expansion room form toplevel) m = outcome (c.expansion room form toplevel) m := by
  -- otherwise every way of expanding the form ends before it comes to another one
  by_cases spreads : ∃ items flag, Spreads m toplevel form items flag
  · exact Or.inl spreads
  by_cases turns : ∃ part flag n, Turns c room m toplevel form part flag n
  · exact Or.inr (Or.inl turns)
  refine Or.inr (Or.inr fun c' applies => ?_)
  have definition (i : Nat) (keyword : String) (rest : List Value)
      (isDefinition : keyword = "define" ∨ keyword = "define-macro")
      (same : form = .list i (.symbol keyword :: rest)) :
      outcome (c'.definition room form (.symbol keyword) rest toplevel) m =
        outcome (c.definition room form (.symbol keyword) rest toplevel) m := by
    subst same
    unfold Calls.definition
    dsimp only
    split
    · rfl
    · rename_i j target ps es
      refine outcome_bind_congr rfl fun _ n ends => ?_
      cases es with
      | nil => exact absurd (ends_of_require ends).1 (by simp)
      | cons e es => exact absurd ⟨_, _, _, .curried isDefinition⟩ turns
    · exact absurd ⟨_, _, _, .defined isDefinition⟩ turns
    · rfl
    · rfl
  unfold Calls.expansion
  dsimp only
  split
  · rfl
  · rename_i i head rest
    split
    · rfl
    · rename_i keyword
      obtain rfl := Keyword.eq_of_ofHead? keyword
      split
      · exact absurd ⟨_, _, .shortTest⟩ spreads
      · exact absurd ⟨_, _, .test⟩ spreads
      · rfl
    · rename_i keyword
      obtain rfl := Keyword.eq_of_ofHead? keyword
      split
      · exact outcome_bind_congr rfl fun _ n ends =>
          absurd ⟨_, _, _, .assigned (ends_of_require ends).1⟩ turns
      · rfl
    · rename_i keyword
      obtain rfl := Keyword.eq_of_ofHead? keyword
      exact definition _ _ _ (Or.inl rfl) rfl
    · rename_i keyword
      obtain rfl := Keyword.eq_of_ofHead? keyword
      exact definition _ _ _ (Or.inr rfl) rfl
    · rename_i keyword
      obtain rfl := Keyword.eq_of_ofHead? keyword
      cases rest with
      | nil => rfl
      | cons e es => exact absurd ⟨_, _, .sequence⟩ spreads
    · rename_i keyword
      obtain rfl := Keyword.eq_of_ofHead? keyword
      split
      · refine outcome_bind_congr rfl fun _ n ends => outcome_bind_congr rfl fun b l built => ?_
        obtain ⟨parameters, rfl⟩ := ends_of_require ends
        exact absurd ⟨_, _, _, .body parameters built⟩ turns
      · rfl
    · rename_i keyword
      obtain rfl := Keyword.eq_of_ofHead? keyword
      split
      · exact outcome_bind_congr rfl fun e n built => absurd ⟨_, _, _, .template built⟩ turns
      · rfl
    · rename_i noKeyword
      refine outcome_bind_congr rfl fun found n looked => ?_
      obtain ⟨rfl, rfl⟩ := ends_transformer?.mp looked
      split
      · rename_i t found
        rw [applies]
        exact outcome_bind_congr rfl fun e l applied => absurd ⟨_, _, _, .use noKeyword found applied⟩ turns
      · rename_i missing
        exact absurd ⟨_, _, .application noKeyword missing⟩ spreads
  · rfl

/-! ## What a misplaced definition gives -/

/-- How the definition of a transformer fails that is not at the top level. -/
inductive IsRefused (form : Value) (e : Halt) (n : Machine) : Prop
  /-- A limit is reached. -/
  | early : e.IsEarly → IsRefused form e n
  /-- The expression that it defines the transformer by fails first. -/
  | body {name body fuel room l} : Defines form name body →
      outcome (expand fuel room body false) l = (.error e, n) → IsRefused form e n
  /-- The report has the text of the plain definition. -/
  | malformed {plain fault} : StandsFor form plain → form.hasLongInteger = false →
      e = .failed (.malformed (plain.text n.isLive .source) fault) → IsRefused form e n
  /-- There is no text with a long integer. -/
  | longInteger : form.hasLongInteger = true → e = .failed (.longInteger none) → IsRefused form e n

theorem hasLongInteger_plainDefinition (i j next : Nat) (head target : Value) (ps body : List Value) :
    (plainDefinition next head target ps body).hasLongInteger =
      (Value.list i (head :: .list j (target :: ps) :: body)).hasLongInteger := by
  simp [plainDefinition, Value.hasLongInteger, Value.anyLongInteger, CoreKeyword.symbol, Bool.or_assoc]

theorem IsRefused.of_refuse {α : Type} {fault : FormFault} {e : Halt}
    (h : outcome (refuse room form fault : Run α) m = (.error e, n)) : IsRefused form e n := by
  cases deep : form.isDeeperThan room with
  | true =>
    simp [refuse, source, Value.text?, deep, outcome_bind, Run.ofExcept] at h
    obtain ⟨rfl, rfl⟩ := h
    exact .early trivial
  | false =>
    cases long : form.hasLongInteger with
    | true =>
      simp [refuse, source, Value.text?, deep, long, outcome_bind, Run.ofExcept] at h
      obtain ⟨rfl, rfl⟩ := h
      exact .longInteger long rfl
    | false =>
      simp [refuse, source, Value.text?, deep, long, outcome_bind, Run.ofExcept] at h
      obtain ⟨rfl, rfl⟩ := h
      exact .malformed .refl long rfl

theorem IsRefused.of_plain {i j next : Nat} {head target : Value} {ps body : List Value} {e : Halt}
    (some : body ≠ []) (h : IsRefused (plainDefinition next head target ps body) e n) :
    IsRefused (.list i (head :: .list j (target :: ps) :: body)) e n := by
  have same := hasLongInteger_plainDefinition i j next head target ps body
  cases h with
  | early limit => exact .early limit
  | body defines failed => exact .body (defines.curried some) failed
  | malformed stands short report => exact .malformed (.curried some stands) (same ▸ short) report
  | longInteger long report => exact .longInteger (same ▸ long) report

theorem isRefused_refuse (α : Type) (room : Nat) (form : Value) (fault : FormFault) (m : Machine) :
    ∃ e n, outcome (refuse room form fault : Run α) m = (.error e, n) ∧ IsRefused form e n := by
  rcases ended : outcome (refuse room form fault : Run α) m with ⟨e | x, n⟩
  · exact ⟨e, n, rfl, .of_refuse ended⟩
  · exact absurd ended not_ends_refuse

/-- Inside a form the definition of a transformer fails. -/
theorem isRefused_expand (fuel room : Nat) {form : Value} (definition : isTransformerDefinition form = true)
    (m : Machine) : ∃ e n, outcome (expand fuel room form false) m = (.error e, n) ∧ IsRefused form e n := by
  induction fuel generalizing room form m with
  | zero => exact ⟨_, m, rfl, .early trivial⟩
  | succ fuel ih =>
    obtain ⟨i, rest, rfl⟩ := eq_of_isHeadedBy definition
    change ∃ e n, outcome ((calls fuel).definition room _ (.symbol "define-macro") rest false) m = _ ∧ _
    unfold Calls.definition
    dsimp only
    split
    · exact isRefused_refuse Value _ _ _ _
    · rename_i j target ps body
      cases body with
      | nil =>
        obtain ⟨e, n, ended, refused⟩ := isRefused_refuse Unit room
          (.list i [.symbol "define-macro", .list j (target :: ps)]) .wrongLength m
        exact ⟨e, n, outcome_bind_of_error ended _, refused⟩
      | cons e es =>
        cases room with
        | zero => exact ⟨_, m.made 3, rfl, .early trivial⟩
        | succ room =>
          let plain := plainDefinition m.nextObject (.symbol "define-macro") target ps (e :: es)
          have same : isTransformerDefinition plain = true := definition
          obtain ⟨h, n, ended, refused⟩ := ih room same (m.made 3)
          exact ⟨h, n, ended, refused.of_plain (List.cons_ne_nil e es)⟩
    · rename_i name e
      rcases ended : outcome ((calls fuel).expandPart room false e) m with ⟨h | core, n⟩
      · refine ⟨h, n, outcome_bind_of_error ended _, ?_⟩
        cases room with
        | zero =>
          cases ended
          exact .early trivial
        | succ room => exact .body ⟨_, _, .refl⟩ ended
      · obtain ⟨h, l, stopped, refused⟩ := isRefused_refuse Unit room
          (.list i [.symbol "define-macro", .symbol name, e]) .notTopLevel n
        exact ⟨h, l, (outcome_bind_of_ok ended _).trans (outcome_bind_of_error stopped _), refused⟩
    · exact isRefused_refuse Value _ _ _ _
    · exact isRefused_refuse Value _ _ _ _

end Form

namespace Run

/-- The first element to fail ends a sequence. -/
theorem outcome_mapM_error {α β : Type} {f : α → Run β} {before after : List α} {x : α} {ys : List β}
    {m l n : Machine} {e : Halt} (first : (before.mapM f).Ends m ys l)
    (failed : outcome (f x) l = (.error e, n)) :
    outcome ((before ++ x :: after).mapM f) m = (.error e, n) := by
  induction before generalizing m ys with
  | nil =>
    obtain ⟨_, rfl⟩ := ends_mapM_nil.mp first
    rw [List.nil_append, List.mapM_cons]
    exact outcome_bind_of_error failed _
  | cons b before ih =>
    obtain ⟨y, k, ys', here, rest, _⟩ := ends_mapM_cons.mp first
    rw [List.cons_append, List.mapM_cons, outcome_bind_of_ok here]
    exact outcome_bind_of_error (ih rest) _

/-- Sequences have the same outcome when each element has, in the state that it finds. -/
theorem outcome_mapM_congr {α β : Type} {f g : α → Run β} {xs : List α} {m : Machine}
    (same : ∀ before x after ys n, xs = before ++ x :: after → (before.mapM f).Ends m ys n →
      outcome (g x) n = outcome (f x) n) :
    outcome (xs.mapM g) m = outcome (xs.mapM f) m := by
  induction xs generalizing m with
  | nil => rfl
  | cons x xs ih =>
    rw [List.mapM_cons, List.mapM_cons]
    have here := same [] x xs [] m rfl rfl
    refine outcome_bind_congr here fun y n ends => outcome_bind_congr ?_ fun _ _ _ => rfl
    refine ih fun before x' after ys l split ended => ?_
    refine same (x :: before) x' after (y :: ys) l (by rw [split, List.cons_append]) ?_
    exact ends_mapM_cons.mpr ⟨y, n, ys, here.symm.trans ends, ended, rfl⟩

end Run

/-! ## What an expansion leads to -/

/-- The expansion of a form in a state. -/
structure Visit where
  fuel : Nat
  room : Nat
  form : Value
  toplevel : Bool
  machine : Machine

namespace Visit

def run (v : Visit) : Outcome Value :=
  outcome (expand v.fuel v.room v.form v.toplevel) v.machine

/-- The expansion of a form comes to that of another one. -/
inductive Leads : Visit → Visit → Prop
  | spread {fuel room m toplevel form items flag before part after cores n} :
      Form.Spreads m toplevel form items flag → items = before ++ part :: after →
      (before.mapM ((calls fuel).expandPart (room + 1) flag)).Ends m cores n →
      Leads ⟨fuel + 1, room + 1, form, toplevel, m⟩ ⟨fuel, room, part, flag, n⟩
  | turn {fuel room m toplevel form part flag n} :
      Form.Turns (calls fuel) (room + 1) m toplevel form part flag n →
      Leads ⟨fuel + 1, room + 1, form, toplevel, m⟩ ⟨fuel, room, part, flag, n⟩

/-- The expansions that one comes to, at any depth. -/
inductive Reaches : Visit → Visit → Prop
  | refl {p} : Reaches p p
  | step {p q r} : Leads p q → Reaches q r → Reaches p r

variable {p q : Visit} {e : Halt} {n : Machine}

/-- What fails inside an expansion ends it. -/
theorem Leads.run_error (h : p.Leads q) (failed : q.run = (.error e, n)) : p.run = (.error e, n) := by
  cases h with
  | spread spreads split first =>
    refine (spreads.expansion (calls _) _).trans ?_
    rw [split]
    exact outcome_bind_of_error (outcome_mapM_error first failed) _
  | turn turns =>
    obtain ⟨k, same⟩ := turns.expansion
    exact (same (calls _) rfl rfl).trans (outcome_bind_of_error failed k)

theorem Reaches.run_error (h : Reaches p q) (failed : q.run = (.error e, n)) : p.run = (.error e, n) := by
  induction h with
  | refl => exact failed
  | step first _ ih => exact first.run_error (ih failed)

/-- A definition belongs to a form when one in the nest of sequences stands for it. -/
def Owns (form definition : Value) : Prop :=
  ∃ own ∈ Form.topForms form, Form.StandsFor own definition

/-- Nothing is expanded as at the top level but by such an expansion, and what belongs to the part belongs to the
form. -/
theorem Leads.of_toplevel (h : p.Leads q) (top : q.toplevel = true) {d : Value}
    (definition : Form.isTransformerDefinition d = true) (owns : Owns q.form d) :
    p.toplevel = true ∧ Owns p.form d := by
  obtain ⟨own, mem, stands⟩ := owns
  cases h with
  | spread spreads split first =>
    cases spreads with
    | @sequence i e es =>
      refine ⟨top, own, ?_, stands⟩
      rw [Form.topForms_sequence]
      rename_i part _ _ _
      have inside : part ∈ Value.symbol "begin" :: e :: es := by rw [split]; simp
      rcases List.mem_cons.mp inside with rfl | inside
      · -- the keyword is expanded with the forms of its sequence, and it is no definition
        obtain rfl : own = .symbol "begin" := by simpa [Form.topForms] using mem
        cases stands
        cases definition
      · exact Form.mem_allTopForms.mpr ⟨_, inside, mem⟩
    | _ => cases top
  | turn turns =>
    cases turns with
    | @curried i j keyword target ps e es isDefinition =>
      have noSequence : keyword ≠ "begin" := by
        rcases isDefinition with rfl | rfl
        · decide
        · decide
      rw [Form.topForms_of_notSequence (by simp [Form.plainDefinition, noSequence])] at mem
      obtain rfl := List.mem_singleton.mp mem
      let form : Value := .list i (.symbol keyword :: .list j (target :: ps) :: e :: es)
      refine ⟨top, form, ?_, .curried (List.cons_ne_nil e es) stands⟩
      rw [Form.topForms_of_notSequence (by simp [noSequence])]
      exact List.mem_singleton.mpr rfl
    | _ => cases top

theorem Reaches.of_toplevel (h : Reaches p q) (definition : Form.isTransformerDefinition q.form = true)
    (top : q.toplevel = true) : p.toplevel = true ∧ Owns p.form q.form := by
  induction h with
  | @refl p =>
    refine ⟨top, p.form, ?_, .refl⟩
    obtain ⟨i, rest, same⟩ := Form.eq_of_isHeadedBy definition
    rw [Form.topForms_of_notSequence (by simp [same])]
    exact List.mem_singleton.mpr rfl
  | step first _ ih =>
    obtain ⟨top, owns⟩ := ih definition top
    exact first.of_toplevel top definition owns

/-! ## Nothing else is expanded -/

/-- Nothing is expanded but what an expansion leads to. -/
theorem run_congr {fuel : Nat} (c : Calls) (evaluates : c.evaluate = (calls fuel).evaluate)
    (applies : c.apply = (calls fuel).apply) (room : Nat) (form : Value) (toplevel : Bool) (m : Machine)
    (same : ∀ q, Leads ⟨fuel + 1, room, form, toplevel, m⟩ q →
      outcome (c.expand q.room q.form q.toplevel) q.machine = q.run) :
    outcome (c.expansion room form toplevel) m = run ⟨fuel + 1, room, form, toplevel, m⟩ := by
  rcases Form.spreads_or_turns (calls fuel) room m toplevel form with
    ⟨items, flag, spreads⟩ | ⟨part, flag, n, turns⟩ | none
  · refine (spreads.expansion c room).trans (.trans ?_ (spreads.expansion (calls fuel) room).symm)
    refine outcome_bind_congr (outcome_mapM_congr fun before part after cores n split ended => ?_) fun _ _ _ => rfl
    cases room with
    | zero => rfl
    | succ room => exact same _ (.spread spreads split ended)
  · obtain ⟨k, expansion⟩ := turns.expansion
    refine (expansion c evaluates applies).trans (.trans ?_ (expansion (calls fuel) rfl rfl).symm)
    refine outcome_bind_congr ?_ fun _ _ _ => rfl
    cases room with
    | zero => rfl
    | succ room => exact same _ (.turn turns)
  · exact none c applies

end Visit

/-- Evaluation and application register nothing, and neither does the expansion of a form that is not at the top
level. At the top level a form registers the definitions of transformers in its nest of sequences, in order, as
far as its expansion comes, and the last one under a name counts. The expansion depends on nothing but the
expansions that it reaches, and each definition among them either belongs to the nest and is at the top level, or
is not at the top level and ends it all with a failure. -/
theorem registers_own_definitions (fuel room : Nat) (form : Value) (m : Machine) :
    ((∀ frame, (outcome (evaluate fuel room form frame) m).2.transformers = m.transformers) ∧
      (∀ procedure args caller,
        (outcome (apply fuel room procedure args caller) m).2.transformers = m.transformers) ∧
      (outcome (expand fuel room form false) m).2.transformers = m.transformers) ∧
    (∃ done rest rs,
      Enters (Form.topForms form) done rest rs m (outcome (expand fuel room form true) m) ∧
      ∀ name, (outcome (expand fuel room form true) m).2.transformers.get? (.name name) =
        match rs.reverse.find? (·.name == name) with
        | some r => some r.transformer
        | none => m.transformers.get? (.name name)) ∧
    ∀ toplevel,
      (∀ c : Calls, c.evaluate = (calls fuel).evaluate → c.apply = (calls fuel).apply →
        (∀ q, Visit.Leads ⟨fuel + 1, room, form, toplevel, m⟩ q →
          outcome (c.expand q.room q.form q.toplevel) q.machine = q.run) →
        outcome (c.expansion room form toplevel) m = outcome (expand (fuel + 1) room form toplevel) m) ∧
      ∀ q, Visit.Reaches ⟨fuel, room, form, toplevel, m⟩ q → Form.isTransformerDefinition q.form = true →
        (q.toplevel = true ∧ toplevel = true ∧ Visit.Owns form q.form) ∨
        (q.toplevel = false ∧ ∃ e n, outcome (expand fuel room form toplevel) m = (.error e, n) ∧
          Form.IsRefused q.form e n) := by
  have registry := transformers_expand fuel room form m
  refine ⟨⟨fun frame => transformers_evaluate fuel room form frame m,
    fun procedure args caller => transformers_apply fuel room procedure args caller m, registry⟩, ?_,
    fun toplevel => ⟨fun c evaluates applies => Visit.run_congr c evaluates applies room form toplevel m,
      fun q reaches definition => ?_⟩⟩
  · obtain ⟨done, rest, rs, entered⟩ := enters fuel room form m
    refine ⟨done, rest, rs, entered, fun name => ?_⟩
    rw [entered.transformers]
    exact Bindings.get?_registerAll m.transformers rs name
  · cases top : q.toplevel with
    | true => exact Or.inl ⟨rfl, reaches.of_toplevel definition top⟩
    | false =>
      obtain ⟨e, n, ended, refused⟩ := Form.isRefused_expand q.fuel q.room definition q.machine
      refine Or.inr ⟨rfl, e, n, reaches.run_error ?_, refused⟩
      rw [Visit.run, top]
      exact ended

/-- An operand is not at the top level. -/
theorem registers_own_definitions_operand :
    let definition : Value := .list 1 [.symbol "define-macro", .symbol "m", .int 1]
    let form : Value := .list 2 [.symbol "car", definition]
    ∃ e n, outcome (expand 5 5 form true) (Machine.start .zeros) = (.error e, n) ∧
      Form.IsRefused definition e n := by
  intro definition form
  have split : [.symbol "car", definition] = [.symbol "car"] ++ definition :: [] := rfl
  have reaches : Visit.Reaches ⟨5, 5, form, true, Machine.start .zeros⟩
      ⟨4, 4, definition, false, Machine.start .zeros⟩ :=
    .step (.spread (.application rfl rfl) split rfl) .refl
  obtain ⟨_, _, expansion⟩ := registers_own_definitions 5 5 form (Machine.start .zeros)
  rcases (expansion true).2 _ reaches rfl with ⟨top, _⟩ | ⟨_, refused⟩
  · cases top
  · exact refused

end SmallLisp
