import SmallLisp.Proofs.Expansion
/-!
# Well-formed core code

A node of core code has the shape that its keyword asks for, and no transformer is registered under the
name at its head. The expander checks the forms that it reads, not the nodes that it builds: a head that
is a list may expand to a keyword or to the name of a transformer, and a keyword stays a keyword when
a transformer has its name. The careful expander below refuses these two, and nothing else; the tree that
the expander gives is well-formed just when the careful expander gives it too.
-/
namespace SmallLisp

open Run

namespace Form

/-- What has to stand behind a keyword. -/
def hasCoreShape : CoreKeyword → List Value → Bool
  | .quote, parts => parts.length == 1
  | .test, parts => parts.length == 3
  | .assign, [target, _] => target.hasKind .symbol
  | .define, [target, _] => target.hasKind .symbol
  | .lambda, [parameters, _] => areParameters parameters
  | .sequence, parts => !parts.isEmpty
  | _, _ => false

/-- Whether a node may stand in core code when these transformers are registered. -/
def fits (registered : Bindings) : (head : Value) → (rest : List Value) → Bool
  | .symbol name, rest => !registered.binds (.name name) &&
    match Keyword.ofName? name with
    | some (.core k) => hasCoreShape k rest
    | some _ => false
    | none => true
  | _, _ => true

/-- The operands of a node that are code. Quoted data and parameters are none. -/
def codeOperands (head : Value) (rest : List Value) : List Value :=
  match CoreKeyword.ofHead? head, rest with
  | some .quote, _ => []
  | some .lambda, _ :: body => body
  | _, rest => rest

end Form

/-- A well-formed tree of core code. -/
inductive IsCore (registered : Bindings) : Value → Prop
  | atom {v} : (∀ i items, v ≠ .list i items) → IsCore registered v
  | node {i head rest} : Form.fits registered head rest = true → IsCore registered head →
      (∀ e ∈ Form.codeOperands head rest, IsCore registered e) →
      IsCore registered (.list i (head :: rest))

/-- Whether a form is a sequence with parts. -/
def Form.isSequence : Value → Bool
  | .list _ (head :: _ :: _) => head.isSymbol "begin"
  | _ => false

mutual

/-- The tree that an expansion gives is well-formed, with the transformers that there are when it is done.
The parts of a sequence at the top level are done one after the other. -/
inductive WellBuilt : (fuel room : Nat) → (toplevel : Bool) → Value → Machine → Value → Machine → Prop
  | whole {fuel room toplevel form m core n} : (toplevel = true → Form.isSequence form = false) →
      IsCore n.transformers core → WellBuilt fuel room toplevel form m core n
  | sequence {fuel room i e es m cs n} : PartsWellBuilt fuel room (e :: es) m cs n →
      n.transformers.binds (.name "begin") = false →
      WellBuilt (fuel + 1) (room + 1) true (.list i (.symbol "begin" :: e :: es)) m
        (.list n.nextObject (.symbol "begin" :: cs)) (n.made 1)

inductive PartsWellBuilt : (fuel room : Nat) → List Value → Machine → List Value → Machine → Prop
  | nil {fuel room m} : PartsWellBuilt fuel room [] m [] m
  | cons {fuel room e es m c l cs n} : (expand fuel room e true).Ends m c l →
      WellBuilt fuel room true e m c l → PartsWellBuilt fuel room es l cs n →
      PartsWellBuilt fuel room (e :: es) m (c :: cs) n

end

/-- The operands of an application whose head has become `head`: only code is expanded carefully. -/
def Form.carefulOperands (careful plain : Value → Run Value) (head : Value) (rest : List Value) :
    Run (List Value) :=
  match CoreKeyword.ofHead? head, rest with
  | some .quote, rest => rest.mapM plain
  | some .lambda, parameters :: body => do
    let parameters ← plain parameters
    return parameters :: (← body.mapM careful)
  | _, rest => rest.mapM careful

/-- Whether a keyword heads a node whose name is a transformer's as well. -/
def Form.isShadowed (registered : Bindings) : Value → Bool
  | .list _ (.symbol name :: _) =>
    (CoreKeyword.ofName? name).isSome && registered.binds (.name name)
  | _ => false

/-- An expander that also checks the nodes built under a head that was a list, and those whose keyword is
the name of a transformer. The body of a transformer is no part of the tree and is not checked. -/
def carefulExpand : (fuel room : Nat) → Value → (toplevel : Bool) → Run Value
  | 0, _, _, _ => throw .outOfSteps
  | fuel + 1, room, form, toplevel =>
    let careful : Calls := { calls fuel with expand := carefulExpand fuel }
    match form with
    | .list _ (.list i items :: rest) => do
      let head ← careful.expandPart room false (.list i items)
      let operands ← Form.carefulOperands (careful.expandPart room false)
        ((calls fuel).expandPart room false) head rest
      let m ← get
      Form.require room form .wrongLength (Form.fits m.transformers head operands)
      newList (head :: operands)
    | form =>
      if Form.isHeadedBy "define-macro" form then expand (fuel + 1) room form toplevel
      else do
        let core ← careful.expansion room form toplevel
        let m ← get
        Form.require room form .wrongLength (!Form.isShadowed m.transformers core)
        return core

def Calls.careful (fuel : Nat) : Calls :=
  { calls fuel with expand := carefulExpand fuel }

theorem Value.symbol_ne_list (name : String) (i : Nat) (items : List Value) :
    Value.symbol name ≠ .list i items := nofun

theorem Value.ne_list_of_symbol {v : Value} (h : v.hasKind .symbol = true) (i : Nat)
    (items : List Value) : v ≠ .list i items := by
  rintro rfl
  cases h

namespace IsCore

variable {registered : Bindings} {i : Nat}

theorem node_iff {head : Value} {rest : List Value} :
    IsCore registered (.list i (head :: rest)) ↔ Form.fits registered head rest = true ∧
      IsCore registered head ∧ ∀ e ∈ Form.codeOperands head rest, IsCore registered e := by
  constructor
  · rintro (atom | ⟨fits, head, operands⟩)
    · exact absurd rfl (atom _ _)
    · exact ⟨fits, head, operands⟩
  · rintro ⟨fits, head, operands⟩
    exact .node fits head operands

theorem symbol (name : String) : IsCore registered (.symbol name) :=
  .atom (Value.symbol_ne_list name)

theorem pair_iff {target core : Value} (h : IsCore registered target) :
    (∀ c ∈ [target, core], IsCore registered c) ↔ IsCore registered core := by
  simp [h]

theorem singleton_iff {core : Value} :
    (∀ c ∈ [core], IsCore registered c) ↔ IsCore registered core := by
  simp

theorem ofName?_name (k : CoreKeyword) : Keyword.ofName? k.name = some (.core k) := by
  cases k <;> rfl

theorem fits_keyword (k : CoreKeyword) (rest : List Value) :
    Form.fits registered k.symbol rest =
      (!registered.binds (.name k.name) && Form.hasCoreShape k rest) := by
  simp only [Form.fits, CoreKeyword.symbol, ofName?_name]

theorem ofHead?_none {head : Value} (h : Keyword.ofHead? head = none) :
    CoreKeyword.ofHead? head = none := by
  cases head with
  | symbol name =>
    change Keyword.ofName? name = none at h
    unfold Keyword.ofName? at h
    split at h
    · cases h
    · split at h
      · cases h
      · exact Option.map_eq_none_iff.mp h
  | _ => rfl

/-- What is neither a keyword nor the name of a transformer may head any node. -/
theorem fits_of_missing {m : Machine} {head : Value} {rest : List Value}
    (noKeyword : Keyword.ofHead? head = none) (missing : m.transformerOf? head = none) :
    Form.fits m.transformers head rest = true := by
  unfold Form.fits
  split
  · rename_i name
    have unregistered : m.transformers.binds (.name name) = false := by
      have found : m.transformers.get? (.name name) = none := missing
      rw [← Bindings.isSome_get?, found]
      rfl
    have noName : Keyword.ofName? name = none := noKeyword
    simp [unregistered, noName]
  · rfl

/-- A node headed by a keyword. -/
theorem keyword_iff {k : CoreKeyword} {rest : List Value} :
    IsCore registered (.list i (k.symbol :: rest)) ↔
      registered.binds (.name k.name) = false ∧ Form.hasCoreShape k rest = true ∧
        ∀ e ∈ Form.codeOperands k.symbol rest, IsCore registered e := by
  rw [node_iff, fits_keyword]
  simp only [Bool.and_eq_true, Bool.not_eq_true', and_assoc, CoreKeyword.symbol, symbol, true_and]

theorem isShadowed_keyword {k : CoreKeyword} {rest : List Value} :
    Form.isShadowed registered (.list i (k.symbol :: rest)) = registered.binds (.name k.name) := by
  unfold Form.isShadowed CoreKeyword.symbol
  cases k <;> rfl

theorem not_isShadowed {core : Value} (h : IsCore registered core) :
    Form.isShadowed registered core = false := by
  cases h with
  | atom notList =>
    unfold Form.isShadowed
    split
    · exact absurd rfl (notList _ _)
    · rfl
  | node fits _ _ =>
    unfold Form.isShadowed
    split
    · rename_i same
      cases same
      unfold Form.fits at fits
      simp only [Bool.and_eq_true, Bool.not_eq_true'] at fits
      simp [fits.1]
    · rfl

end IsCore

theorem Form.sequence_shape {e : Value} {es : List Value} (cs : List Value)
    (size : cs.length = (e :: es).length) : hasCoreShape .sequence cs = true := by
  cases cs with
  | nil => cases size
  | cons _ _ => rfl

theorem Form.isSequence_of_notList {v : Value} (h : ∀ i items, v ≠ .list i items) :
    isSequence v = false := by
  unfold isSequence
  split
  · exact absurd rfl (h _ _)
  · rfl

theorem Form.isSequence_of_noKeyword {i : Nat} {head : Value} {rest : List Value}
    (h : Keyword.ofHead? head = none) : isSequence (.list i (head :: rest)) = false := by
  unfold isSequence
  split
  · rename_i same
    cases same
    cases headed : head.isSymbol "begin" with
    | false => rfl
    | true =>
      obtain rfl := Value.eq_of_isSymbol headed
      cases h
  · rfl

theorem Form.isSequence_of_transformer {form : Value} (h : isHeadedBy "define-macro" form = true) :
    isSequence form = false := by
  unfold isHeadedBy at h
  split at h
  · obtain rfl := Value.eq_of_isSymbol h
    cases hs : ‹List Value› with
    | nil => rfl
    | cons _ _ => rfl
  · cases h

namespace WellBuilt

variable {fuel room : Nat} {toplevel : Bool} {form core : Value} {m n : Machine}

/-- But for sequences at the top level one set of transformers counts. -/
theorem iff_isCore (h : toplevel = true → Form.isSequence form = false) :
    WellBuilt fuel room toplevel form m core n ↔ IsCore n.transformers core := by
  constructor
  · rintro (⟨_, whole⟩ | _)
    · exact whole
    · exact absurd (h rfl) (by simp [Form.isSequence, Value.isSymbol])
  · exact .whole h

/-- A sequence at the top level is well-built when its parts are and its own keyword is none of the
transformers registered by then. -/
theorem sequence_iff {i j : Nat} {e : Value} {es cs : List Value} {n' : Machine} :
    WellBuilt (fuel + 1) (room + 1) true (.list i (.symbol "begin" :: e :: es)) m
        (.list j (.symbol "begin" :: cs)) n' ↔
      ∃ n, PartsWellBuilt fuel room (e :: es) m cs n ∧ n.transformers.binds (.name "begin") = false ∧
        j = n.nextObject ∧ n' = n.made 1 := by
  constructor
  · rintro (⟨notSequence, _⟩ | ⟨parts, unregistered⟩)
    · exact absurd (notSequence rfl) (by simp [Form.isSequence, Value.isSymbol])
    · exact ⟨_, parts, unregistered, rfl, rfl⟩
  · rintro ⟨n, parts, unregistered, rfl, rfl⟩
    exact .sequence parts unregistered

end WellBuilt

namespace Run

variable {m n : Machine} {room : Nat}

theorem transformers_made (m : Machine) (count : Nat) : (m.made count).transformers = m.transformers :=
  rfl

theorem transformers_expandPart {fuel : Nat} {e core : Value}
    (h : ((calls fuel).expandPart room false e).Ends m core n) : n.transformers = m.transformers := by
  obtain ⟨r, rfl, run⟩ := ends_deeper.mp h
  have same := transformers_expand fuel r e m
  rwa [show outcome (expand fuel r e false) m = (.ok core, n) from run] at same

theorem transformers_mapM {fuel : Nat} {es cs : List Value}
    (h : (es.mapM ((calls fuel).expandPart room false)).Ends m cs n) :
    n.transformers = m.transformers := by
  induction es generalizing m cs with
  | nil =>
    obtain ⟨_, rfl⟩ := ends_mapM_nil.mp h
    rfl
  | cons e es ih =>
    obtain ⟨c, l, cs', first, rest, rfl⟩ := ends_mapM_cons.mp h
    exact (ih rest).trans (transformers_expandPart first)

theorem expandPart_not_list {fuel : Nat} {toplevel : Bool} {v core : Value}
    (notList : ∀ i items, v ≠ .list i items)
    (h : ((calls fuel).expandPart room toplevel v).Ends m core n) : core = v ∧ n = m := by
  obtain ⟨r, rfl, run⟩ := ends_deeper.mp h
  cases fuel with
  | zero => cases run
  | succ fuel => exact (expand_succ_ends.mp run).of_not_list notList

/-- What is no list stays at the head of a list that is expanded part by part. -/
theorem mapM_not_list {fuel : Nat} {toplevel : Bool} {v : Value} {es cs : List Value}
    (notList : ∀ i items, v ≠ .list i items)
    (h : ((v :: es).mapM ((calls fuel).expandPart room toplevel)).Ends m cs n) :
    ∃ cs', cs = v :: cs' ∧ (es.mapM ((calls fuel).expandPart room toplevel)).Ends m cs' n := by
  obtain ⟨c, l, cs', first, rest, rfl⟩ := ends_mapM_cons.mp h
  obtain ⟨rfl, rfl⟩ := expandPart_not_list notList first
  exact ⟨cs', rfl, rest⟩

end Run

/-- At some number of steps the careful expander gives just the well-built trees. -/
def CarefulAt (fuel : Nat) : Prop :=
  ∀ room toplevel form m core n, (carefulExpand fuel room form toplevel).Ends m core n ↔
    (expand fuel room form toplevel).Ends m core n ∧ WellBuilt fuel room toplevel form m core n

namespace CarefulAt

variable {fuel room : Nat} {form core : Value} {m n : Machine}

theorem part_iff (h : CarefulAt fuel) {e : Value} :
    ((Calls.careful fuel).expandPart room false e).Ends m core n ↔
      ((calls fuel).expandPart room false e).Ends m core n ∧ IsCore m.transformers core := by
  have whole (r : Nat) : WellBuilt fuel r false e m core n ↔ IsCore n.transformers core :=
    WellBuilt.iff_isCore (by simp)
  constructor
  · intro run
    obtain ⟨r, rfl, run⟩ := ends_deeper.mp run
    obtain ⟨plain, built⟩ := (h r false e m core n).mp run
    have plain : ((calls fuel).expandPart (r + 1) false e).Ends m core n := plain
    rw [whole, transformers_expandPart plain] at built
    exact ⟨plain, built⟩
  · rintro ⟨plain, core⟩
    rw [← transformers_expandPart plain] at core
    obtain ⟨r, rfl, run⟩ := ends_deeper.mp plain
    exact (h r false e m _ n).mpr ⟨run, (whole r).mpr core⟩

theorem parts_iff (h : CarefulAt fuel) {es cs : List Value} :
    (es.mapM ((Calls.careful fuel).expandPart room false)).Ends m cs n ↔
      (es.mapM ((calls fuel).expandPart room false)).Ends m cs n ∧
        ∀ c ∈ cs, IsCore m.transformers c := by
  induction es generalizing m cs with
  | nil =>
    rw [ends_mapM_nil, ends_mapM_nil]
    constructor
    · rintro ⟨rfl, rfl⟩
      exact ⟨⟨rfl, rfl⟩, by simp⟩
    · exact fun both => both.1
  | cons e es ih =>
    rw [ends_mapM_cons, ends_mapM_cons]
    constructor
    · rintro ⟨c, l, cs', first, rest, rfl⟩
      obtain ⟨first, hc⟩ := h.part_iff.mp first
      obtain ⟨rest, hcs⟩ := ih.mp rest
      rw [transformers_expandPart first] at hcs
      refine ⟨⟨c, l, cs', first, rest, rfl⟩, ?_⟩
      intro c' hc'
      rcases List.mem_cons.mp hc' with rfl | hc'
      · exact hc
      · exact hcs c' hc'
    · rintro ⟨⟨c, l, cs', first, rest, rfl⟩, hcs⟩
      refine ⟨c, l, cs', h.part_iff.mpr ⟨first, hcs c (by simp)⟩, ih.mpr ⟨rest, ?_⟩, rfl⟩
      rw [transformers_expandPart first]
      exact fun c' hc' => hcs c' (by simp [hc'])

/-- The parts of a sequence at the top level. -/
theorem topParts_iff (h : CarefulAt fuel) {es cs : List Value} :
    (es.mapM ((Calls.careful fuel).expandPart (room + 1) true)).Ends m cs n ↔
      PartsWellBuilt fuel room es m cs n := by
  induction es generalizing m cs with
  | nil =>
    rw [ends_mapM_nil]
    constructor
    · rintro ⟨rfl, rfl⟩
      exact .nil
    · rintro ⟨⟩
      exact ⟨rfl, rfl⟩
  | cons e es ih =>
    rw [ends_mapM_cons]
    constructor
    · rintro ⟨c, l, cs', first, rest, rfl⟩
      obtain ⟨plain, built⟩ := (h room true e m c l).mp first
      exact .cons plain built (ih.mp rest)
    · rintro (_ | ⟨plain, built, rest⟩)
      exact ⟨_, _, _, (h room true e m _ _).mpr ⟨plain, built⟩, ih.mpr rest, rfl⟩

theorem topParts_plain {es cs : List Value} (h : PartsWellBuilt fuel room es m cs n) :
    (es.mapM ((calls fuel).expandPart (room + 1) true)).Ends m cs n := by
  induction es generalizing m cs with
  | nil =>
    cases h
    exact ends_mapM_nil.mpr ⟨rfl, rfl⟩
  | cons e es ih =>
    rcases h with _ | ⟨plain, _, rest⟩
    exact ends_mapM_cons.mpr ⟨_, _, _, plain, ih rest, rfl⟩

theorem operands_iff (h : CarefulAt fuel) {head : Value} {rest ops : List Value} :
    (Form.carefulOperands ((Calls.careful fuel).expandPart room false)
        ((calls fuel).expandPart room false) head rest).Ends m ops n ↔
      (rest.mapM ((calls fuel).expandPart room false)).Ends m ops n ∧
        ∀ e ∈ Form.codeOperands head ops, IsCore m.transformers e := by
  unfold Form.carefulOperands Form.codeOperands
  cases hk : CoreKeyword.ofHead? head with
  | none => exact h.parts_iff
  | some k =>
    cases k with
    | quote => simp
    | lambda =>
      cases rest with
      | nil =>
        rw [h.parts_iff]
        constructor
        · rintro ⟨run, hcs⟩
          obtain ⟨rfl, rfl⟩ := ends_mapM_nil.mp run
          exact ⟨run, hcs⟩
        · rintro ⟨run, hcs⟩
          obtain ⟨rfl, rfl⟩ := ends_mapM_nil.mp run
          exact ⟨run, hcs⟩
      | cons ps body =>
        constructor
        · intro run
          obtain ⟨ps', l, first, run⟩ := outcome_bind_ok.mp run
          obtain ⟨body', l', later, run⟩ := outcome_bind_ok.mp run
          obtain ⟨rfl, rfl⟩ := ends_pure.mp run
          obtain ⟨later, hcs⟩ := h.parts_iff.mp later
          rw [transformers_expandPart first] at hcs
          exact ⟨ends_mapM_cons.mpr ⟨ps', l, body', first, later, rfl⟩, hcs⟩
        · rintro ⟨run, hcs⟩
          obtain ⟨ps', l, body', first, later, rfl⟩ := ends_mapM_cons.mp run
          rw [← transformers_expandPart first] at hcs
          refine outcome_bind_ok.mpr ⟨ps', l, first, ?_⟩
          exact outcome_bind_ok.mpr ⟨body', n, h.parts_iff.mpr ⟨later, hcs⟩, rfl⟩
    | _ => exact h.parts_iff

/-- An application whose head is a list. -/
theorem computed_iff (h : CarefulAt fuel) {i j : Nat} {items rest : List Value} {toplevel : Bool} :
    (carefulExpand (fuel + 1) room (.list i (.list j items :: rest)) toplevel).Ends m core n ↔
      (expand (fuel + 1) room (.list i (.list j items :: rest)) toplevel).Ends m core n ∧
        IsCore n.transformers core := by
  constructor
  · intro run
    obtain ⟨head, l, first, run⟩ := outcome_bind_ok.mp run
    obtain ⟨ops, l', later, run⟩ := outcome_bind_ok.mp run
    obtain ⟨fits, run⟩ := ends_require.mp run
    obtain ⟨rfl, rfl⟩ := ends_newList.mp run
    obtain ⟨first, hhead⟩ := h.part_iff.mp first
    obtain ⟨later, hops⟩ := h.operands_iff.mp later
    have same := transformers_mapM later
    have same' := transformers_expandPart first
    refine ⟨expand_succ_ends.mpr (.application rfl rfl ?_), ?_⟩
    · exact ends_mapM_cons.mpr ⟨head, l, ops, first, later, rfl⟩
    · rw [transformers_made, IsCore.node_iff]
      refine ⟨fits, ?_, ?_⟩
      · rwa [same, same']
      · rwa [same]
  · rintro ⟨whole, isCore⟩
    cases expand_succ_ends.mp whole with
    | atom notList => exact absurd rfl (notList _ _)
    | use _ found => cases found
    | application _ _ run =>
      obtain ⟨head, l, ops, first, later, rfl⟩ := ends_mapM_cons.mp run
      have same := transformers_mapM later
      have same' := transformers_expandPart first
      rw [transformers_made, IsCore.node_iff] at isCore
      obtain ⟨fits, hhead, hops⟩ := isCore
      rw [same] at hops
      rw [same, same'] at hhead
      refine outcome_bind_ok.mpr ⟨head, l, h.part_iff.mpr ⟨first, hhead⟩, ?_⟩
      refine outcome_bind_ok.mpr ⟨ops, _, h.operands_iff.mpr ⟨later, hops⟩, ?_⟩
      exact ends_require.mpr ⟨fits, rfl⟩

/-- A form headed by define-macro, when it is expanded, is without value. -/
theorem unspecified_of_transformer {toplevel : Bool} (headed : Form.isHeadedBy "define-macro" form = true)
    (run : (expand fuel room form toplevel).Ends m core n) : core = .unspecified := by
  induction fuel generalizing room form m with
  | zero => cases run
  | succ fuel ih =>
    have heads {head : Value} (h : head.isSymbol "define-macro" = true) :
        Keyword.ofHead? head = some .defineTransformer := by
      rw [Value.eq_of_isSymbol h]
      rfl
    cases expand_succ_ends.mp run with
    | atom notList =>
      unfold Form.isHeadedBy at headed
      split at headed
      · exact absurd rfl (notList _ _)
      · cases headed
    | curried keyword run =>
      rcases keyword with rfl | rfl
      · cases headed
      · obtain ⟨r, rfl, run⟩ := ends_deeper.mp run
        exact ih rfl run
    | transformer => rfl
    | use noKeyword => rw [heads headed] at noKeyword; cases noKeyword
    | application noKeyword => rw [heads headed] at noKeyword; cases noKeyword
    | _ => cases headed

/-- A node whose parts are expanded one by one under a keyword that stays. -/
theorem keyword_parts_iff (h : CarefulAt fuel) {k : CoreKeyword} {es cs : List Value} {i : Nat}
    (shape : ∀ cs : List Value, cs.length = es.length → Form.hasCoreShape k cs = true)
    (operands : ∀ cs, Form.codeOperands k.symbol cs = cs) :
    ((k.symbol :: es).mapM ((Calls.careful fuel).expandPart room false)).Ends m cs n ∧
        Form.isShadowed n.transformers (.list i cs) = false ↔
      ((k.symbol :: es).mapM ((calls fuel).expandPart room false)).Ends m cs n ∧
        IsCore n.transformers (.list i cs) := by
  rw [h.parts_iff, and_assoc]
  refine and_congr_right fun run => ?_
  have same := transformers_mapM run
  have notList : ∀ i items, k.symbol ≠ .list i items := Value.symbol_ne_list k.name
  obtain ⟨cs', rfl, rest⟩ := mapM_not_list notList run
  have size := length_of_ends_mapM rest
  rw [IsCore.isShadowed_keyword, IsCore.keyword_iff, operands, same]
  constructor
  · rintro ⟨parts, unregistered⟩
    exact ⟨unregistered, shape cs' size, fun c hc => parts c (by simp [hc])⟩
  · rintro ⟨unregistered, _, parts⟩
    refine ⟨fun c hc => ?_, unregistered⟩
    rcases List.mem_cons.mp hc with rfl | hc
    · exact IsCore.symbol _
    · exact parts c hc

/-- A node with a target and one part, under a keyword that stays. -/
theorem keyword_part_iff (h : CarefulAt fuel) {k : CoreKeyword} {target e : Value} {i : Nat}
    (shape : ∀ core, Form.hasCoreShape k [target, core] = true)
    (operands : ∀ core, (∀ c ∈ Form.codeOperands k.symbol [target, core], IsCore m.transformers c) ↔
      IsCore m.transformers core) :
    ((Calls.careful fuel).expandPart room false e).Ends m core n ∧
        Form.isShadowed n.transformers (.list i [k.symbol, target, core]) = false ↔
      ((calls fuel).expandPart room false e).Ends m core n ∧
        IsCore n.transformers (.list i [k.symbol, target, core]) := by
  rw [h.part_iff, and_assoc]
  refine and_congr_right fun run => ?_
  have same := transformers_expandPart run
  rw [IsCore.isShadowed_keyword, IsCore.keyword_iff, same, operands]
  constructor
  · rintro ⟨part, unregistered⟩
    exact ⟨unregistered, shape core, part⟩
  · rintro ⟨unregistered, _, part⟩
    exact ⟨part, unregistered⟩

theorem other_iff {toplevel : Bool} (notComputed : ∀ i j items rest,
      form ≠ .list i (.list j items :: rest))
    (notTransformer : Form.isHeadedBy "define-macro" form = false) :
    (carefulExpand (fuel + 1) room form toplevel).Ends m core n ↔
      Expansion (Calls.careful fuel) room toplevel form m core n ∧
        Form.isShadowed n.transformers core = false := by
  have unfolded : carefulExpand (fuel + 1) room form toplevel = (do
      let core ← (Calls.careful fuel).expansion room form toplevel
      let m ← get
      Form.require room form .wrongLength (!Form.isShadowed m.transformers core)
      return core) := by
    unfold carefulExpand
    split
    · exact absurd rfl (notComputed _ _ _ _)
    · simp only [notTransformer]
      rfl
  rw [unfolded, ← Expansion.ends_iff]
  constructor
  · intro run
    obtain ⟨core', l, run, checked⟩ := outcome_bind_ok.mp run
    obtain ⟨fair, checked⟩ := ends_require.mp checked
    obtain ⟨rfl, rfl⟩ := ends_pure.mp checked
    exact ⟨run, by simpa using fair⟩
  · rintro ⟨run, fair⟩
    refine outcome_bind_ok.mpr ⟨core, n, run, ends_require.mpr ⟨?_, rfl⟩⟩
    simp [fair]

theorem isShadowed_begin {i : Nat} {cs : List Value} (ts : Bindings) :
    Form.isShadowed ts (.list i (.symbol "begin" :: cs)) = ts.binds (.name "begin") := rfl

/-- A sequence at the top level. -/
theorem sequence_iff (h : CarefulAt fuel) {i : Nat} {e : Value} {es cs : List Value} :
    ((.symbol "begin" :: e :: es).mapM ((Calls.careful fuel).expandPart room true)).Ends m cs n ∧
        Form.isShadowed n.transformers (.list n.nextObject cs) = false ↔
      ((.symbol "begin" :: e :: es).mapM ((calls fuel).expandPart room true)).Ends m cs n ∧
        WellBuilt (fuel + 1) room true (.list i (.symbol "begin" :: e :: es)) m
          (.list n.nextObject cs) (n.made 1) := by
  have keyword (r : Nat) : WellBuilt fuel r true (.symbol "begin") m (.symbol "begin") m :=
    .whole (fun _ => rfl) (IsCore.symbol _)
  constructor
  · rintro ⟨run, fair⟩
    obtain ⟨c, l, cs', first, rest, rfl⟩ := ends_mapM_cons.mp run
    obtain ⟨r, rfl, first⟩ := ends_deeper.mp first
    obtain ⟨plain, _⟩ := (h r true _ m c l).mp first
    have plain : ((calls fuel).expandPart (r + 1) true (.symbol "begin")).Ends m c l := plain
    obtain ⟨rfl, rfl⟩ := expandPart_not_list (Value.symbol_ne_list "begin") plain
    have parts := h.topParts_iff.mp rest
    refine ⟨ends_mapM_cons.mpr ⟨_, _, _, plain, topParts_plain parts, rfl⟩, ?_⟩
    rw [isShadowed_begin] at fair
    exact .sequence parts fair
  · rintro ⟨run, built⟩
    obtain ⟨c, l, cs', first, rest, rfl⟩ := ends_mapM_cons.mp run
    obtain ⟨rfl, rfl⟩ := expandPart_not_list (Value.symbol_ne_list "begin") first
    obtain ⟨r, rfl, first⟩ := ends_deeper.mp first
    obtain ⟨n', parts, unregistered, _, same⟩ := WellBuilt.sequence_iff.mp built
    have same : n = n' := by
      have both := (topParts_plain parts).symm.trans rest
      cases both
      rfl
    subst same
    rw [isShadowed_begin]
    refine ⟨ends_mapM_cons.mpr ⟨_, _, _, ?_, h.topParts_iff.mpr parts, rfl⟩, unregistered⟩
    exact (h r true _ l _ l).mpr ⟨first, keyword r⟩

/-- An application whose head is no list. -/
theorem application_iff (h : CarefulAt fuel) {head : Value} {rest cs : List Value} {i : Nat}
    (notList : ∀ i items, head ≠ .list i items) (noKeyword : Keyword.ofHead? head = none)
    (missing : m.transformerOf? head = none) :
    ((head :: rest).mapM ((Calls.careful fuel).expandPart room false)).Ends m cs n ∧
        Form.isShadowed n.transformers (.list i cs) = false ↔
      ((head :: rest).mapM ((calls fuel).expandPart room false)).Ends m cs n ∧
        IsCore n.transformers (.list i cs) := by
  have noCore : CoreKeyword.ofHead? head = none := IsCore.ofHead?_none noKeyword
  rw [h.parts_iff, and_assoc]
  refine and_congr_right fun run => ?_
  have same := transformers_mapM run
  obtain ⟨cs', rfl, rest⟩ := mapM_not_list notList run
  have operands : Form.codeOperands head cs' = cs' := by
    unfold Form.codeOperands
    rw [noCore]
  have fits : Form.fits m.transformers head cs' = true := IsCore.fits_of_missing noKeyword missing
  rw [IsCore.node_iff, operands, same]
  constructor
  · rintro ⟨parts, _⟩
    exact ⟨fits, parts head (by simp), fun c hc => parts c (by simp [hc])⟩
  · rintro ⟨_, hhead, parts⟩
    have all : ∀ c ∈ head :: cs', IsCore m.transformers c := by
      intro c hc
      rcases List.mem_cons.mp hc with rfl | hc
      · exact hhead
      · exact parts c hc
    refine ⟨all, IsCore.not_isShadowed (IsCore.node_iff.mpr ⟨fits, hhead, ?_⟩)⟩
    rwa [operands]

variable {toplevel : Bool}

/-- What the careful expander builds from careful parts is what the expander builds, and well-built. -/
theorem built_of_careful (h : CarefulAt fuel) (notComputed : ∀ i j items rest,
      form ≠ .list i (.list j items :: rest))
    (notTransformer : Form.isHeadedBy "define-macro" form = false)
    (run : Expansion (Calls.careful fuel) room toplevel form m core n)
    (fair : Form.isShadowed n.transformers core = false) :
    Expansion (calls fuel) room toplevel form m core n ∧
      WellBuilt (fuel + 1) room toplevel form m core n := by
  cases run with
  | atom notList =>
    exact ⟨.atom notList, .whole (fun _ => Form.isSequence_of_notList notList) (.atom notList)⟩
  | quote =>
    refine ⟨.quote, .whole (fun _ => rfl) ?_⟩
    exact (IsCore.keyword_iff (k := .quote)).mpr ⟨fair, rfl, by rintro e ⟨⟩⟩
  | shortTest run =>
    obtain ⟨run, isCore⟩ := (h.keyword_parts_iff (k := .test) (by simp [Form.hasCoreShape])
      (fun _ => rfl)).mp ⟨run, fair⟩
    exact ⟨.shortTest run, .whole (fun _ => rfl) isCore⟩
  | test run =>
    obtain ⟨run, isCore⟩ := (h.keyword_parts_iff (k := .test) (by simp [Form.hasCoreShape])
      (fun _ => rfl)).mp ⟨run, fair⟩
    exact ⟨.test run, .whole (fun _ => rfl) isCore⟩
  | assign kind run =>
    have target := Value.ne_list_of_symbol kind
    obtain ⟨run, isCore⟩ := (h.keyword_part_iff (k := .assign) (fun _ => kind) fun _ =>
      IsCore.pair_iff (.atom target)).mp ⟨run, fair⟩
    exact ⟨.assign kind run, .whole (fun _ => rfl) isCore⟩
  | define run =>
    obtain ⟨run, isCore⟩ := (h.keyword_part_iff (k := .define) (fun _ => rfl) fun _ =>
      IsCore.pair_iff (IsCore.symbol _)).mp ⟨run, fair⟩
    exact ⟨.define run, .whole (fun _ => rfl) isCore⟩
  | curried keyword run =>
    rcases keyword with rfl | rfl
    · obtain ⟨r, rfl, run⟩ := ends_deeper.mp run
      obtain ⟨run, built⟩ := (h r toplevel _ _ core n).mp run
      have isCore := (WellBuilt.iff_isCore fun _ => rfl).mp built
      exact ⟨.curried (Or.inl rfl) run, .whole (fun _ => rfl) isCore⟩
    · cases notTransformer
  | transformer => cases notTransformer
  | emptySequence => exact ⟨.emptySequence, .whole (fun _ => rfl) (.atom fun _ _ => nofun)⟩
  | sequence run =>
    cases toplevel with
    | true =>
      obtain ⟨run, built⟩ := h.sequence_iff.mp ⟨run, fair⟩
      exact ⟨.sequence run, built⟩
    | false =>
      obtain ⟨run, isCore⟩ := (h.keyword_parts_iff (k := .sequence) Form.sequence_shape
        (fun _ => rfl)).mp ⟨run, fair⟩
      exact ⟨.sequence run, .whole (by simp) isCore⟩
  | lambda parameters body run =>
    obtain ⟨run, isCore⟩ := (h.keyword_part_iff (k := .lambda) (fun _ => parameters) fun _ =>
      IsCore.singleton_iff).mp ⟨run, fair⟩
    exact ⟨.lambda parameters body run, .whole (fun _ => rfl) isCore⟩
  | template built run =>
    obtain ⟨run, isCore⟩ := h.part_iff.mp run
    rw [← transformers_expandPart run] at isCore
    exact ⟨.template built run, .whole (fun _ => rfl) isCore⟩
  | use noKeyword found applied run =>
    obtain ⟨run, isCore⟩ := h.part_iff.mp run
    rw [← transformers_expandPart run] at isCore
    exact ⟨.use noKeyword found applied run,
      .whole (fun _ => Form.isSequence_of_noKeyword noKeyword) isCore⟩
  | application noKeyword missing run =>
    rename_i i head rest cs n
    have notList : ∀ j items, head ≠ .list j items := fun j items same =>
      notComputed i j items rest (by rw [same])
    obtain ⟨run, isCore⟩ := (h.application_iff notList noKeyword missing).mp ⟨run, fair⟩
    exact ⟨.application noKeyword missing run,
      .whole (fun _ => Form.isSequence_of_noKeyword noKeyword) isCore⟩

/-- What the expander builds is built by the careful expander when it is well-built. -/
theorem careful_of_built (h : CarefulAt fuel) (notComputed : ∀ i j items rest,
      form ≠ .list i (.list j items :: rest))
    (notTransformer : Form.isHeadedBy "define-macro" form = false)
    (run : Expansion (calls fuel) room toplevel form m core n)
    (built : WellBuilt (fuel + 1) room toplevel form m core n) :
    Expansion (Calls.careful fuel) room toplevel form m core n ∧
      Form.isShadowed n.transformers core = false := by
  have whole (single : toplevel = true → Form.isSequence form = false) :
      IsCore n.transformers core := (WellBuilt.iff_isCore single).mp built
  cases run with
  | atom notList => exact ⟨.atom notList, (whole fun _ => Form.isSequence_of_notList notList).not_isShadowed⟩
  | quote => exact ⟨.quote, (whole fun _ => rfl).not_isShadowed⟩
  | shortTest run =>
    obtain ⟨run, fair⟩ := (h.keyword_parts_iff (k := .test) (by simp [Form.hasCoreShape])
      (fun _ => rfl)).mpr ⟨run, whole fun _ => rfl⟩
    exact ⟨.shortTest run, fair⟩
  | test run =>
    obtain ⟨run, fair⟩ := (h.keyword_parts_iff (k := .test) (by simp [Form.hasCoreShape])
      (fun _ => rfl)).mpr ⟨run, whole fun _ => rfl⟩
    exact ⟨.test run, fair⟩
  | assign kind run =>
    have target := Value.ne_list_of_symbol kind
    obtain ⟨run, fair⟩ := (h.keyword_part_iff (k := .assign) (fun _ => kind) fun _ =>
      IsCore.pair_iff (.atom target)).mpr ⟨run, whole fun _ => rfl⟩
    exact ⟨.assign kind run, fair⟩
  | define run =>
    obtain ⟨run, fair⟩ := (h.keyword_part_iff (k := .define) (fun _ => rfl) fun _ =>
      IsCore.pair_iff (IsCore.symbol _)).mpr ⟨run, whole fun _ => rfl⟩
    exact ⟨.define run, fair⟩
  | curried keyword run =>
    rcases keyword with rfl | rfl
    · have isCore := whole fun _ => rfl
      obtain ⟨r, rfl, run⟩ := ends_deeper.mp run
      have run := (h r toplevel _ _ core n).mpr ⟨run, .whole (fun _ => rfl) isCore⟩
      exact ⟨.curried (Or.inl rfl) run, isCore.not_isShadowed⟩
    · cases notTransformer
  | transformer => cases notTransformer
  | emptySequence => exact ⟨.emptySequence, rfl⟩
  | sequence run =>
    cases toplevel with
    | true =>
      obtain ⟨run, fair⟩ := h.sequence_iff.mpr ⟨run, built⟩
      exact ⟨.sequence run, fair⟩
    | false =>
      obtain ⟨run, fair⟩ := (h.keyword_parts_iff (k := .sequence) Form.sequence_shape
        (fun _ => rfl)).mpr ⟨run, whole (by simp)⟩
      exact ⟨.sequence run, fair⟩
  | lambda parameters body run =>
    obtain ⟨run, fair⟩ := (h.keyword_part_iff (k := .lambda) (fun _ => parameters) fun _ =>
      IsCore.singleton_iff).mpr ⟨run, whole fun _ => rfl⟩
    exact ⟨.lambda parameters body run, fair⟩
  | template made run =>
    have isCore := whole fun _ => rfl
    have part := isCore
    rw [transformers_expandPart run] at part
    exact ⟨.template made (h.part_iff.mpr ⟨run, part⟩), isCore.not_isShadowed⟩
  | use noKeyword found applied run =>
    have isCore := whole fun _ => Form.isSequence_of_noKeyword noKeyword
    have part := isCore
    rw [transformers_expandPart run] at part
    exact ⟨.use noKeyword found applied (h.part_iff.mpr ⟨run, part⟩), isCore.not_isShadowed⟩
  | application noKeyword missing run =>
    rename_i i head rest cs n
    have notList : ∀ j items, head ≠ .list j items := fun j items same =>
      notComputed i j items rest (by rw [same])
    obtain ⟨run, fair⟩ := (h.application_iff notList noKeyword missing).mpr
      ⟨run, whole fun _ => Form.isSequence_of_noKeyword noKeyword⟩
    exact ⟨.application noKeyword missing run, fair⟩

theorem succ (h : CarefulAt fuel) : CarefulAt (fuel + 1) := by
  intro room toplevel form m core n
  by_cases computed : ∃ i j items rest, form = .list i (.list j items :: rest)
  · obtain ⟨i, j, items, rest, rfl⟩ := computed
    rw [h.computed_iff, WellBuilt.iff_isCore fun _ => Form.isSequence_of_noKeyword rfl]
  · have notComputed : ∀ i j items rest, form ≠ .list i (.list j items :: rest) := by
      intro i j items rest same
      exact computed ⟨i, j, items, rest, same⟩
    cases headed : Form.isHeadedBy "define-macro" form with
    | true =>
      have same : carefulExpand (fuel + 1) room form toplevel = expand (fuel + 1) room form toplevel := by
        unfold carefulExpand
        split
        · exact absurd rfl (notComputed _ _ _ _)
        · simp only [headed]
          rfl
      rw [same]
      constructor
      · intro run
        obtain rfl := unspecified_of_transformer headed run
        exact ⟨run, .whole (fun _ => Form.isSequence_of_transformer headed) (.atom fun _ _ => nofun)⟩
      · exact fun both => both.1
    | false =>
      rw [other_iff notComputed headed, expand_succ_ends]
      constructor
      · rintro ⟨run, fair⟩
        exact h.built_of_careful notComputed headed run fair
      · rintro ⟨run, built⟩
        exact h.careful_of_built notComputed headed run built

end CarefulAt

theorem carefulAt (fuel : Nat) : CarefulAt fuel := by
  induction fuel with
  | zero =>
    intro room toplevel form m core n
    constructor
    · rintro ⟨⟩
    · rintro ⟨⟨⟩, _⟩
  | succ fuel ih => exact ih.succ

end SmallLisp
