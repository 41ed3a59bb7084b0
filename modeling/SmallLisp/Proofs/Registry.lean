import SmallLisp.Proofs.TemplateFaults
/-!
# The registry of transformers

Evaluation registers nothing, and neither does expansion inside a form. As at the top level, a form registers
the definitions of transformers that it is or that lie in its nest of sequences, one after another as far as
the expansion comes.
-/
namespace SmallLisp

open Run

namespace Form

def isTransformerDefinition (form : Value) : Bool :=
  isHeadedBy "define-macro" form

/-- A definition with a list target stands for a plain one. -/
inductive StandsFor : Value → Value → Prop
  | refl {v} : StandsFor v v
  | curried {i j next head target ps body form} : body ≠ [] →
      StandsFor (plainDefinition next head target ps body) form →
      StandsFor (.list i (head :: .list j (target :: ps) :: body)) form

/-- A definition with the name that it defines and the expression that it defines it by. -/
def Defines (form : Value) (name : String) (e : Value) : Prop :=
  ∃ i head, StandsFor form (.list i [head, .symbol name, e])

theorem Defines.curried {i j next : Nat} {head target e : Value} {ps body : List Value} {name : String}
    (h : Defines (plainDefinition next head target ps body) name e) (some : body ≠ []) :
    Defines (.list i (head :: .list j (target :: ps) :: body)) name e := by
  obtain ⟨k, keyword, stands⟩ := h
  exact ⟨k, keyword, .curried some stands⟩

mutual

/-- The forms of a nest of sequences, in the order in which they stand in the text. -/
def topForms : Value → List Value
  | .list i (head :: e :: es) =>
    if head.isSymbol "begin" then allTopForms (e :: es) else [.list i (head :: e :: es)]
  | v => [v]

def allTopForms : List Value → List Value
  | [] => []
  | v :: vs => topForms v ++ allTopForms vs

end

theorem topForms_sequence (i : Nat) (e : Value) (es : List Value) :
    topForms (.list i (.symbol "begin" :: e :: es)) = allTopForms (e :: es) := by
  rw [topForms]
  rfl

theorem topForms_of_notSequence {v : Value}
    (h : ∀ i e es, v ≠ .list i (.symbol "begin" :: e :: es)) : topForms v = [v] := by
  unfold topForms
  split
  · split
    · rename_i head e es isSequence
      rw [Value.eq_of_isSymbol isSequence] at h
      exact absurd rfl (h _ _ _)
    · rfl
  · rfl

mutual

theorem topForms_ne_nil (v : Value) : topForms v ≠ [] := by
  cases v with
  | list i items =>
    match items with
    | [] => simp [topForms]
    | [head] => simp [topForms]
    | head :: e :: es =>
      rw [topForms]
      split
      · exact allTopForms_ne_nil e es
      · simp
  | _ => simp [topForms]

theorem allTopForms_ne_nil (v : Value) (vs : List Value) : allTopForms (v :: vs) ≠ [] := by
  rw [allTopForms]
  exact List.append_ne_nil_of_left_ne_nil (topForms_ne_nil v) _

end

theorem mem_allTopForms {form : Value} {vs : List Value} :
    form ∈ allTopForms vs ↔ ∃ v ∈ vs, form ∈ topForms v := by
  induction vs with
  | nil => simp [allTopForms]
  | cons v vs ih => simp [allTopForms, ih]

end Form

/-- A definition of a transformer that has been carried out. -/
structure Registration where
  form : Value
  name : String
  transformer : Value

/-- What an expression has given, expanded inside a form and evaluated in the root frame. -/
def Value.IsGivenBy (v e : Value) : Prop :=
  ∃ fuel room l core m n, (expand fuel room e false).Ends l core m ∧
    (evaluate fuel room core Machine.root).Ends m v n

/-- The transformer is a procedure, and it is what the expression of the definition has given. -/
def Registration.IsMade (r : Registration) : Prop :=
  r.transformer.isProcedure = true ∧ ∃ e, Form.Defines r.form r.name e ∧ r.transformer.IsGivenBy e

/-- The transformers after some registrations, one after another. -/
def Bindings.registerAll (ts : Bindings) (rs : List Registration) : Bindings :=
  rs.foldl (fun ts r => ts.put (.ofName r.name r.transformer)) ts

/-- The last registration of a name counts. -/
theorem Bindings.get?_registerAll (ts : Bindings) (rs : List Registration) (name : String) :
    (ts.registerAll rs).get? (.name name) =
      match rs.reverse.find? (·.name == name) with
      | some r => some r.transformer
      | none => ts.get? (.name name) := by
  unfold registerAll
  rw [← List.foldr_reverse]
  induction rs.reverse with
  | nil => rfl
  | cons r rs ih =>
    rw [List.foldr_cons, get?_put, List.find?_cons]
    by_cases same : r.name = name
    · simp [Binding.ofName, same]
    · have differs : (Binding.ofName r.name r.transformer).key ≠ .name name :=
        fun key => same (Key.name.inj key)
      rw [if_neg differs, beq_false_of_ne same]
      exact ih

/-- Of some forms that are expanded one after another as at the top level, those before the point where the
expansion has come to an end, whose definitions of transformers are registered, and the rest. -/
structure Enters {α : Type} (forms done rest : List Value) (rs : List Registration) (m : Machine)
    (o : Outcome α) : Prop where
  forms : forms = done ++ rest
  registered : rs.map (·.form) = done.filter Form.isTransformerDefinition
  made : ∀ r ∈ rs, r.IsMade
  transformers : o.2.transformers = m.transformers.registerAll rs
  expanded : ∀ form ∈ done, ∃ fuel room l core n, (expand fuel room form true).Ends l core n
  /-- All of them, when there is a value. -/
  ok : ∀ x, o.1 = .ok x → rest = []
  /-- Otherwise a limit has been reached, or the first form of the rest has failed. -/
  error : ∀ e, o.1 = .error e → ∃ form later, rest = form :: later ∧
    (e.IsEarly ∨ ∃ fuel room l, outcome (expand fuel room form true) l = (.error e, o.2))

namespace Enters

variable {α β : Type} {forms done rest : List Value} {rs : List Registration} {m n : Machine}
  {o : Outcome α}

/-- Nothing is done when a limit ends the expansion at once. -/
theorem early {e : Halt} (h : e.IsEarly) (some : forms ≠ []) :
    Enters forms [] forms [] m ((.error e, m) : Outcome α) where
  forms := rfl
  registered := rfl
  made := nofun
  transformers := rfl
  expanded := nofun
  ok := nofun
  error := by
    rintro _ ⟨⟩
    cases forms with
    | nil => exact absurd rfl some
    | cons form later => exact ⟨form, later, rfl, Or.inl h⟩

/-- A form that is no sequence. -/
theorem single {fuel room : Nat} {form : Value}
    (ok : ∀ core n, (expand fuel room form true).Ends m core n → ∃ rs : List Registration,
      rs.map (·.form) = [form].filter Form.isTransformerDefinition ∧ (∀ r ∈ rs, r.IsMade) ∧
        n.transformers = m.transformers.registerAll rs)
    (error : ∀ e n, outcome (expand fuel room form true) m = (.error e, n) →
      n.transformers = m.transformers) :
    ∃ done rest rs, Enters [form] done rest rs m (outcome (expand fuel room form true) m) := by
  rcases ended : outcome (expand fuel room form true) m with ⟨e | core, n⟩
  · refine ⟨[], [form], [], rfl, rfl, nofun, error e n ended, nofun, nofun, ?_⟩
    rintro _ ⟨⟩
    exact ⟨form, [], rfl, Or.inr ⟨fuel, room, m, ended⟩⟩
  · obtain ⟨rs, registered, made, transformers⟩ := ok core n ended
    refine ⟨[form], [], rs, rfl, registered, made, transformers, ?_, fun _ _ => rfl, nofun⟩
    intro form' mem
    obtain rfl := List.mem_singleton.mp mem
    exact ⟨fuel, room, m, core, n, ended⟩

/-- What follows the expansion of the forms neither fails nor registers anything. -/
theorem bind {a : Run α} {k : α → Run β} (h : Enters forms done rest rs m (outcome a m))
    (follows : ∀ x n, ∃ y l, (k x).Ends n y l ∧ l.transformers = n.transformers) :
    Enters forms done rest rs m (outcome (a >>= k) m) := by
  rw [outcome_bind]
  rcases ended : outcome a m with ⟨e | x, n⟩
  · rw [ended] at h
    refine ⟨h.forms, h.registered, h.made, h.transformers, h.expanded, nofun, ?_⟩
    rintro _ ⟨⟩
    exact h.error e rfl
  · rw [ended] at h
    obtain ⟨y, l, followed, kept⟩ := follows x n
    change Enters forms done rest rs m (outcome (k x) n)
    rw [followed]
    exact ⟨h.forms, h.registered, h.made, kept.trans h.transformers, h.expanded, fun _ _ => h.ok x rfl, nofun⟩

/-- Some forms that have failed come before others. -/
theorem append_error {e : Halt} (h : Enters forms done rest rs m ((.error e, n) : Outcome α))
    (more : List Value) :
    Enters (forms ++ more) done (rest ++ more) rs m ((.error e, n) : Outcome β) where
  forms := by rw [h.forms, List.append_assoc]
  registered := h.registered
  made := h.made
  transformers := h.transformers
  expanded := h.expanded
  ok := nofun
  error := by
    rintro _ ⟨⟩
    obtain ⟨form, later, rfl, failed⟩ := h.error e rfl
    exact ⟨form, later ++ more, rfl, failed⟩

/-- Some forms that have been expanded come before others. -/
theorem append {forms' done' rest' : List Value} {rs' : List Registration} {x : α} {o : Outcome β}
    (h : Enters forms done rest rs m ((.ok x, n) : Outcome α)) (h' : Enters forms' done' rest' rs' n o) :
    Enters (forms ++ forms') (done ++ done') rest' (rs ++ rs') m o where
  forms := by rw [h.forms, h.ok x rfl, h'.forms, List.append_nil, List.append_assoc]
  registered := by rw [List.map_append, h.registered, h'.registered, List.filter_append]
  made r mem := (List.mem_append.mp mem).elim (h.made r) (h'.made r)
  transformers := by
    have first : n.transformers = m.transformers.registerAll rs := h.transformers
    rw [h'.transformers, first]
    exact (List.foldl_append ..).symm
  expanded form mem := (List.mem_append.mp mem).elim (h.expanded form) (h'.expanded form)
  ok := h'.ok
  error := h'.error

end Enters

/-! ## Forms that are no sequence -/

section Keeping

variable {α β : Type} {c : Calls} {room : Nat} {form : Value}

/-- A computation that leaves the registry as it is. -/
abbrev Run.Keeps (a : Run α) : Prop :=
  keepingTransformers.Meets a fun _ _ => True

theorem Run.keeps_iff {a : Run α} : a.Keeps ↔ ∀ m, (outcome a m).2.transformers = m.transformers :=
  ⟨fun h m => (h m (keepingTransformers_holds m)).1,
    fun h m _ => ⟨h m, keepingTransformers_holds _, fun _ _ _ => trivial⟩⟩

theorem Run.Keeps.of_ends {a : Run α} {m n : Machine} {x : α} (h : a.Keeps) (ends : a.Ends m x n) :
    n.transformers = m.transformers := by
  have kept := keeps_iff.mp h m
  rwa [ends] at kept

theorem keeps_expand (fuel room : Nat) (form : Value) : (expand fuel room form false).Keeps :=
  Run.keeps_iff.mpr fun m => transformers_expand fuel room form m

theorem keeps_evaluate (fuel room : Nat) (form : Value) (frame : FrameId) :
    (evaluate fuel room form frame).Keeps :=
  Run.keeps_iff.mpr fun m => transformers_evaluate fuel room form frame m

/-- A computation that leaves the registry as it is when it fails. -/
def Run.IsCareful (a : Run α) : Prop :=
  ∀ m e n, outcome a m = (.error e, n) → n.transformers = m.transformers

namespace Run.IsCareful

theorem of_keeps {a : Run α} (h : a.Keeps) : a.IsCareful := by
  intro m e n ends
  have kept := keeps_iff.mp h m
  rwa [ends] at kept

theorem bind {P : α → Prop} {a : Run α} {k : α → Run β} (h : keepingTransformers.Meets a fun x _ => P x)
    (rest : ∀ x, P x → (k x).IsCareful) : (a >>= k).IsCareful := by
  intro m e n ends
  obtain ⟨kept, _, given⟩ := h m (keepingTransformers_holds m)
  rw [outcome_bind] at ends
  rcases ended : outcome a m with ⟨e' | x, l⟩
  · rw [ended] at ends kept
    cases ends
    exact kept
  · rw [ended] at ends kept
    exact (rest x (given x l ended) l e n ends).trans kept

theorem deeper {go : Nat → Run α} (h : ∀ r, (go r).IsCareful) : (Run.deeper room go).IsCareful := by
  cases room with
  | zero => exact of_keeps (.fail _)
  | succ room => exact h room

end Run.IsCareful

/-- What begins with another keyword is expanded in the same way at the top level and inside a form. -/
theorem Calls.expansion_toplevel (c : Calls) (room : Nat) (form : Value)
    (h : ∀ i head rest, form = .list i (head :: rest) → ∀ k, Keyword.ofHead? head = some k →
      k ≠ .core .define ∧ k ≠ .core .sequence ∧ k ≠ .defineTransformer) :
    c.expansion room form true = c.expansion room form false := by
  unfold Calls.expansion
  split
  · rfl
  · rename_i i head rest
    split
    · rfl
    · rfl
    · rfl
    · exact absurd rfl (h _ _ _ rfl _ ‹_›).1
    · exact absurd rfl (h _ _ _ rfl _ ‹_›).2.2
    · exact absurd rfl (h _ _ _ rfl _ ‹_›).2.1
    · rfl
    · rfl
    · rfl
  · rfl

theorem keeps_require (room : Nat) (form : Value) (fault : FormFault) (ok : Bool) :
    (Form.require room form fault ok).Keeps :=
  (Calls.Respects.require_meets form fault ok).mono fun _ _ _ => trivial

/-- A list made anew has the given elements. -/
theorem meets_newList (items : List Value) :
    keepingTransformers.Meets (newList items) fun v _ => ∃ i, v = .list i items :=
  fun m _ => ⟨rfl, keepingTransformers_holds _, fun _ _ ends => by
    cases ends
    exact ⟨_, rfl⟩⟩

theorem keeps_newList (items : List Value) : (newList items).Keeps :=
  (meets_newList items).mono fun _ _ _ => trivial

theorem keeps_definition (head : Value) (rest : List Value) (notTransformer : head.isSymbol "define-macro" = false)
    (inner : ∀ r e, (c.expand r e false).Keeps)
    (plain : ∀ r i name closure, (c.expand r (.list i [head, name, closure]) true).Keeps) :
    (c.definition room form head rest true).Keeps := by
  unfold Calls.definition
  dsimp only
  split
  · exact Calls.Respects.refuse_meets _ _
  · refine (Calls.Respects.require_meets _ _ _).bind fun _ _ => (keeps_newList _).bind fun parameters _ => ?_
    refine (keeps_newList _).bind fun closure _ => (meets_newList _).bind fun form made => ?_
    obtain ⟨i, rfl⟩ := made
    exact .deeper fun r => plain r i _ _
  · refine Discipline.Meets.bind (P := fun _ => True) (.deeper fun r => inner r _) fun core _ => ?_
    rw [notTransformer]
    exact keeps_newList _
  · exact Calls.Respects.refuse_meets _ _
  · exact Calls.Respects.refuse_meets _ _

/-- A form that is neither a sequence of forms nor a definition of a transformer registers nothing. -/
theorem keeps_expand_toplevel (fuel room : Nat) {form : Value}
    (notDefinition : Form.isTransformerDefinition form = false)
    (notSequence : ∀ i e es, form ≠ .list i (.symbol "begin" :: e :: es)) :
    (expand fuel room form true).Keeps := by
  induction fuel generalizing room form with
  | zero => exact .throw _
  | succ fuel ih =>
    change ((calls fuel).expansion room form true).Keeps
    have same (h : ∀ i head rest, form = .list i (head :: rest) → ∀ k, Keyword.ofHead? head = some k →
        k ≠ .core .define ∧ k ≠ .core .sequence ∧ k ≠ .defineTransformer) :
        ((calls fuel).expansion room form true).Keeps := by
      rw [Calls.expansion_toplevel _ _ _ h]
      exact keeps_expand (fuel + 1) room form
    by_cases pair : ∃ i head rest, form = .list i (head :: rest)
    · obtain ⟨i, head, rest, rfl⟩ := pair
      cases keyword : Keyword.ofHead? head with
      | none =>
        refine same fun _ _ _ eq k found => ?_
        cases eq
        rw [keyword] at found
        cases found
      | some k =>
        obtain rfl := Keyword.eq_of_ofHead? keyword
        match k with
        | .core .define =>
          exact keeps_definition _ rest rfl (fun r e => keeps_expand fuel r e)
            fun r i name closure => ih r rfl (by simp [Keyword.name, CoreKeyword.name])
        | .core .sequence =>
          cases rest with
          | nil => exact Discipline.Meets.pure (P := fun _ => True) trivial
          | cons e es => exact absurd rfl (notSequence i e es)
        | .defineTransformer => cases notDefinition
        | .core .quote | .core .test | .core .assign | .core .lambda | .template =>
          refine same fun _ _ _ eq k found => ?_
          cases eq
          cases keyword.symm.trans found
          decide
    · exact same fun i head rest eq => absurd ⟨i, head, rest, eq⟩ pair

/-! ## Definitions of transformers -/

/-- A definition that is carried out registers what its expression has given. -/
theorem registration_of_ends {fuel room : Nat} {form core : Value} {m n : Machine}
    (definition : Form.isTransformerDefinition form = true)
    (ends : (expand fuel room form true).Ends m core n) :
    ∃ r : Registration, r.form = form ∧ r.IsMade ∧
      n.transformers = m.transformers.put (.ofName r.name r.transformer) := by
  -- a list target leads to the plain definition, by one step less
  induction fuel generalizing room form m with
  | zero => cases ends
  | succ fuel ih =>
    cases expand_succ_ends.mp ends with
    | atom notList =>
      obtain ⟨i, rest, rfl⟩ := Form.eq_of_isHeadedBy definition
      exact absurd rfl (notList _ _)
    | @curried _ i j keyword target ps e es _ _ _ _ run =>
      obtain ⟨r, _, run⟩ := ends_deeper.mp run
      let plain := Form.plainDefinition m.nextObject (.symbol keyword) target ps (e :: es)
      have same : Form.isTransformerDefinition plain = true := definition
      obtain ⟨⟨_, name, transformer⟩, rfl, ⟨procedure, e', defines, given⟩, registered⟩ := ih same run
      refine ⟨⟨_, name, transformer⟩, rfl, ⟨procedure, e', ?_, given⟩, registered⟩
      exact defines.curried (List.cons_ne_nil e es)
    | @transformer _ name e core t _ k l body value procedure =>
      have kept : l.transformers = m.transformers :=
        (Keeps.of_ends (.deeper fun r => keeps_evaluate fuel r core _) value).trans
          (Keeps.of_ends (.deeper fun r => keeps_expand fuel r e) body)
      obtain ⟨r, rfl, body⟩ := ends_deeper.mp body
      obtain ⟨_, same, value⟩ := ends_deeper.mp value
      obtain rfl := Nat.succ.inj same
      have given : t.IsGivenBy e := ⟨fuel, r, m, core, k, l, body, value⟩
      refine ⟨⟨_, name, t⟩, rfl, ⟨procedure, e, ⟨_, _, .refl⟩, given⟩, ?_⟩
      rw [← kept]
    | use noKeyword =>
      rw [Value.eq_of_isSymbol definition] at noKeyword
      cases noKeyword
    | application noKeyword =>
      rw [Value.eq_of_isSymbol definition] at noKeyword
      cases noKeyword
    | _ => cases definition

/-- A definition that fails registers nothing. -/
theorem definition_careful (fuel room : Nat) {form : Value}
    (definition : Form.isTransformerDefinition form = true) : (expand fuel room form true).IsCareful := by
  induction fuel generalizing room form with
  | zero => exact .of_keeps (.throw _)
  | succ fuel ih =>
    obtain ⟨i, rest, rfl⟩ := Form.eq_of_isHeadedBy definition
    change ((calls fuel).definition room _ (.symbol "define-macro") rest true).IsCareful
    unfold Calls.definition
    dsimp only
    split
    · exact .of_keeps (Calls.Respects.refuse_meets _ _)
    · refine .bind (keeps_require _ _ _ _) fun _ _ => .bind (keeps_newList _) fun _ _ => ?_
      refine .bind (keeps_newList _) fun _ _ => .bind (meets_newList _) fun plain made => ?_
      obtain ⟨j, rfl⟩ := made
      exact .deeper fun r => ih r rfl
    · refine .bind (.deeper fun r => keeps_expand fuel r _) fun core _ => ?_
      refine .bind (keeps_require _ _ _ _) fun _ _ => ?_
      refine .bind (.deeper fun r => keeps_evaluate fuel r core _) fun transformer _ => ?_
      refine .bind (keeps_require _ _ _ _) fun _ _ => ?_
      intro m e n ends
      cases ends
    · exact .of_keeps (Calls.Respects.refuse_meets _ _)
    · exact .of_keeps (Calls.Respects.refuse_meets _ _)

end Keeping

/-! ## Nests of sequences -/

namespace Enters

/-- The forms of a nest of sequences, where the expansion of each of them is known. -/
theorem all {fuel : Nat} (each : ∀ room v m, ∃ done rest rs,
      Enters (Form.topForms v) done rest rs m (outcome (expand fuel room v true) m))
    (room : Nat) (vs : List Value) (m : Machine) : ∃ done rest rs,
      Enters (Form.allTopForms vs) done rest rs m
        (outcome (vs.mapM ((calls fuel).expandPart room true)) m) := by
  induction vs generalizing m with
  | nil => exact ⟨[], [], [], rfl, rfl, nofun, rfl, nofun, fun _ _ => rfl, nofun⟩
  | cons v vs ih =>
    have first : ∃ done rest rs, Enters (Form.topForms v) done rest rs m
        (outcome ((calls fuel).expandPart room true v) m) := by
      cases room with
      | zero => exact ⟨[], _, [], early trivial (Form.topForms_ne_nil v)⟩
      | succ room => exact each room v m
    obtain ⟨done, rest, rs, first⟩ := first
    rw [Form.allTopForms, List.mapM_cons, outcome_bind]
    rcases ended : outcome ((calls fuel).expandPart room true v) m with ⟨e | core, n⟩
    · rw [ended] at first
      exact ⟨done, _, rs, first.append_error _⟩
    · rw [ended] at first
      obtain ⟨done', rest', rs', others⟩ := ih n
      refine ⟨done ++ done', rest', rs ++ rs', first.append (others.bind fun cores l => ?_)⟩
      exact ⟨core :: cores, l, rfl, rfl⟩

end Enters

/-- What a form that is expanded as at the top level registers. -/
theorem enters (fuel room : Nat) (v : Value) (m : Machine) : ∃ done rest rs,
    Enters (Form.topForms v) done rest rs m (outcome (expand fuel room v true) m) := by
  induction fuel generalizing room v m with
  | zero => exact ⟨[], _, [], .early trivial (Form.topForms_ne_nil v)⟩
  | succ fuel ih =>
    by_cases sequence : ∃ i e es, v = .list i (.symbol "begin" :: e :: es)
    · obtain ⟨i, e, es, rfl⟩ := sequence
      rw [Form.topForms_sequence]
      change ∃ done rest rs, Enters _ done rest rs m
        (outcome ((.symbol "begin" :: e :: es).mapM ((calls fuel).expandPart room true) >>= newList) m)
      have some := Form.allTopForms_ne_nil e es
      have keyword (fuel room : Nat) :
          ((calls (fuel + 1)).expandPart (room + 1) true (.symbol "begin")).Ends m (.symbol "begin") m := rfl
      cases room with
      | zero => exact ⟨[], _, [], .early trivial some⟩
      | succ room =>
        cases fuel with
        | zero => exact ⟨[], _, [], .early trivial some⟩
        | succ fuel =>
          obtain ⟨done, rest, rs, entered⟩ := Enters.all ih (room + 1) (e :: es) m
          refine ⟨done, rest, rs, Enters.bind ?_ fun cores l => ⟨_, _, newList_ends cores l, rfl⟩⟩
          rw [List.mapM_cons, outcome_bind_of_ok (keyword fuel room)]
          exact entered.bind fun cores l => ⟨_, l, rfl, rfl⟩
    · rw [Form.topForms_of_notSequence fun i e es eq => sequence ⟨i, e, es, eq⟩]
      cases definition : Form.isTransformerDefinition v with
      | true =>
        refine Enters.single (fun core n ends => ?_) (definition_careful _ _ definition m)
        obtain ⟨r, rfl, made, registered⟩ := registration_of_ends definition ends
        refine ⟨[r], ?_, fun r' mem => List.mem_singleton.mp mem ▸ made, registered⟩
        simp [definition]
      | false =>
        have keeps := keeps_expand_toplevel (fuel + 1) room definition
          fun i e es eq => sequence ⟨i, e, es, eq⟩
        refine Enters.single (fun core n ends => ⟨[], ?_, nofun, keeps.of_ends ends⟩) ?_
        · simp [definition]
        · exact IsCareful.of_keeps keeps m

end SmallLisp
