import SmallLisp.Proofs.Numbering
import SmallLisp.Proofs.Settling
/-!
# Macro-free code

Where a form uses no transformer, expansion only normalizes it: an alternative is added, an empty sequence
goes, several forms of a body become one. The evaluator makes up for each of these itself, so the form and
its expansion mean the same, also in the bodies of closures that are called later.
-/
namespace SmallLisp

open Run Value

mutual

/-- Whether a form, outside quoted data, uses no transformer, defines none, is built by no template and has
no definition with a list target. -/
def Value.isMacroFree (m : Machine) : Value → Bool
  | .list _ (head :: rest) =>
    match Keyword.ofHead? head, rest with
    | some (.core .quote), _ => true
    | some (.core .define), .list .. :: _ => false
    | some (.core .lambda), _ :: forms => areMacroFree m forms
    | some (.core _), parts => areMacroFree m parts
    | some .defineTransformer, _ | some .template, _ => false
    | none, operands =>
      (m.transformerOf? head).isNone && head.isMacroFree m && areMacroFree m operands
  | _ => true

def Value.areMacroFree (m : Machine) : List Value → Bool
  | [] => true
  | e :: es => e.isMacroFree m && areMacroFree m es

end

namespace Value

variable {m : Machine} {i : Nat} {head : Value} {rest : List Value}

/-- Of most core forms all parts are such forms. -/
theorem areMacroFree_of_keyword {k : CoreKeyword} (h : (list i (k.symbol :: rest)).isMacroFree m = true)
    (plain : k = .test ∨ k = .assign ∨ k = .sequence) : areMacroFree m rest = true := by
  obtain rfl | rfl | rfl := plain
  · exact h
  · exact h
  · exact h

theorem isMacroFree_of_noKeyword (h : (list i (head :: rest)).isMacroFree m = true)
    (noKeyword : Keyword.ofHead? head = none) :
    m.transformerOf? head = none ∧ areMacroFree m (head :: rest) = true := by
  unfold isMacroFree at h
  rw [noKeyword] at h
  simp only [Bool.and_eq_true, Option.isNone_iff_eq_none] at h
  simp only [areMacroFree, Bool.and_eq_true]
  exact ⟨h.1.1, h.1.2, h.2⟩

end Value

namespace Value.Like

variable {w : Matching} {v v' : Value}

theorem expanded_of_not_list (h : Like w .plain v v') (notList : ∀ i items, v ≠ .list i items) :
    Like w .expanded v v' := by
  cases h with
  | atom isAtom => exact .atom isAtom
  | nan matched => exact .nan matched
  | closure matched allowed ps body => exact .closure matched allowed ps body
  | escape h => exact .escape h
  | list => exact absurd rfl (notList _ _)

/-- An atom is its own expansion. -/
theorem eq_of_atom {r : Reading} (h : Like w r v v') (isAtom : v.isAtom = true) : v' = v := by
  cases h with
  | atom => rfl
  | _ => cases isAtom

end Value.Like

/-! ## Expansions -/

/-- The second state differs from the first by new objects only. -/
def Machine.Makes (m n : Machine) : Prop :=
  ∃ made, n = m.made made

namespace Machine.Makes

variable {m n : Machine}

theorem refl (m : Machine) : m.Makes m := ⟨0, rfl⟩

theorem more (h : m.Makes n) (count : Nat) : m.Makes (n.made count) := by
  obtain ⟨made, rfl⟩ := h
  exact ⟨made + count, m.made_made made count⟩

theorem transformerOf?_eq (h : m.Makes n) (head : Value) :
    n.transformerOf? head = m.transformerOf? head := by
  obtain ⟨made, rfl⟩ := h
  rfl

end Machine.Makes

/-- With so many steps, expanding a macro-free form makes objects only and gives what is alike. -/
def ExpandsAlike (m : Machine) (bound fuel : Nat) : Prop :=
  ∀ ⦃room toplevel x core l n⦄, x.isMacroFree m = true → x.isBelow bound = true → m.Makes l →
    (expand fuel room x toplevel).Ends l core n →
    m.Makes n ∧ Like (.below bound True) .expanded x core

section Parts

variable {m l n : Machine} {bound fuel room : Nat} {toplevel : Bool} {v core : Value}
  {xs cores : List Value}

theorem ExpandsAlike.part (h : ExpandsAlike m bound fuel) (free : v.isMacroFree m = true)
    (below : v.isBelow bound = true) (makes : m.Makes l)
    (ends : ((calls fuel).expandPart room toplevel v).Ends l core n) :
    m.Makes n ∧ Like (.below bound True) .expanded v core := by
  obtain ⟨r, rfl, ends⟩ := ends_deeper.mp ends
  exact h free below makes ends

theorem ExpandsAlike.parts (h : ExpandsAlike m bound fuel) (free : areMacroFree m xs = true)
    (below : areBelow bound xs = true) (makes : m.Makes l)
    (ends : (xs.mapM ((calls fuel).expandPart room toplevel)).Ends l cores n) :
    m.Makes n ∧ List.Forall₂ (Like (.below bound True) .expanded) xs cores := by
  induction xs generalizing l cores with
  | nil =>
    obtain ⟨rfl, rfl⟩ := ends_mapM_nil.mp ends
    exact ⟨makes, .nil⟩
  | cons x xs ih =>
    simp only [areMacroFree, areBelow, Bool.and_eq_true] at free below
    obtain ⟨core, l', cores', first, rest, rfl⟩ := ends_mapM_cons.mp ends
    obtain ⟨makes, like⟩ := h.part free.1 below.1 makes first
    obtain ⟨makes, likes⟩ := ih free.2 below.2 makes rest
    exact ⟨makes, .cons like likes⟩

/-- The parts behind an atom, which stays. -/
theorem ExpandsAlike.partsBehind (h : ExpandsAlike m bound fuel) (isAtom : v.isAtom = true)
    (free : areMacroFree m xs = true) (below : areBelow bound xs = true) (makes : m.Makes l)
    (ends : ((v :: xs).mapM ((calls fuel).expandPart room toplevel)).Ends l cores n) :
    m.Makes n ∧ ∃ cores', cores = v :: cores' ∧
      List.Forall₂ (Like (.below bound True) .expanded) xs cores' := by
  have freeAll : areMacroFree m (v :: xs) = true := by
    cases v <;> first | exact free | cases isAtom
  have belowAll : areBelow bound (v :: xs) = true := by
    cases v <;> first | exact below | cases isAtom
  obtain ⟨makes, likes⟩ := h.parts freeAll belowAll makes ends
  cases likes with
  | cons first rest =>
    obtain rfl := first.eq_of_atom isAtom
    exact ⟨makes, _, rfl, rest⟩

/-- The sequence of the forms of a body, which was made by the expansion itself. -/
theorem sequence_alike (h : ∀ fewer < fuel, ExpandsAlike m bound fewer) {i : Nat} {e : Value}
    {es : List Value} (free : areMacroFree m (e :: es) = true) (below : areBelow bound (e :: es) = true)
    (makes : m.Makes l)
    (ends : ((calls fuel).expandPart room toplevel (.list i (.symbol "begin" :: e :: es))).Ends l core n) :
    m.Makes n ∧ ∃ k cores, core = .list k (.symbol "begin" :: cores) ∧
      List.Forall₂ (Like (.below bound True) .expanded) (e :: es) cores := by
  obtain ⟨r, rfl, ends⟩ := ends_deeper.mp ends
  cases fuel with
  | zero => cases ends
  | succ fuel =>
    have ends : ((Value.symbol "begin" :: e :: es).mapM ((calls fuel).expandPart r toplevel) >>=
        newList).Ends l core n := ends
    obtain ⟨_, _, run, list⟩ := outcome_bind_ok.mp ends
    obtain ⟨rfl, rfl⟩ := ends_newList.mp list
    obtain ⟨makes, cores, rfl, likes⟩ :=
      (h fuel (Nat.lt_succ_self fuel)).partsBehind rfl free below makes run
    exact ⟨makes.more 1, _, cores, rfl, likes⟩

theorem lambda_alike (h : ∀ fewer ≤ fuel, ExpandsAlike m bound fewer) {ps e body : Value}
    {es : List Value} {l' : Machine} (free : areMacroFree m (e :: es) = true)
    (below : areBelow bound (ps :: e :: es) = true) (makes : m.Makes l)
    (built : (Form.body (e :: es)).Ends l body l')
    (run : ((calls fuel).expandPart room toplevel body).Ends l' core n) (i j : Nat) :
    m.Makes n ∧ Like (.below bound True) .expanded (.list i (.symbol "lambda" :: ps :: e :: es))
      (.list j [.symbol "lambda", ps, core]) := by
  rw [areBelow, Bool.and_eq_true] at below
  have hps : Like (.below bound True) .plain ps ps := .of_isBelow ps below.1
  cases es with
  | nil =>
    obtain ⟨rfl, rfl⟩ := ends_pure.mp built
    simp only [areMacroFree, areBelow, Bool.and_eq_true] at free below
    obtain ⟨makes, like⟩ := (h fuel (Nat.le_refl _)).part free.1 below.2.1 makes run
    exact ⟨makes, .lambda hps like⟩
  | cons e' es =>
    obtain ⟨rfl, rfl⟩ := ends_newList.mp built
    obtain ⟨makes, k, cores, rfl, likes⟩ :=
      sequence_alike (fun _ fewer => h _ (Nat.le_of_lt fewer)) free below.2 (makes.more 1) run
    exact ⟨makes, .longLambda hps likes⟩

end Parts

/-- The expansion of a macro-free form is alike, by induction on the steps. -/
theorem expandsAlike (m : Machine) (bound fuel : Nat) : ExpandsAlike m bound fuel := by
  induction fuel using Nat.strongRecOn with
  | ind fuel ih =>
    intro room toplevel x core l n free below makes ends
    cases fuel with
    | zero => cases ends
    | succ fuel =>
      have h := ih fuel (Nat.lt_succ_self fuel)
      cases expand_succ_ends.mp ends with
      | atom notList => exact ⟨makes, (Like.of_isBelow x below).expanded_of_not_list notList⟩
      | @quote _ i d _ =>
        have below := areBelow_of_list below
        simp only [areBelow, Bool.and_eq_true] at below
        exact ⟨makes, .quote (Like.of_isBelow d below.2.1)⟩
      | shortTest run =>
        have free := areMacroFree_of_keyword (k := .test) free (by simp)
        have below := areBelow_of_list below
        simp only [areMacroFree, areBelow, Bool.and_eq_true] at free below
        obtain ⟨makes, _, rfl, likes⟩ := h.partsBehind rfl (by simp [areMacroFree, free, isMacroFree])
          (by simp [areBelow, below, isBelow]) makes run
        rcases likes with _ | ⟨ht, _ | ⟨he, _ | ⟨ho, _ | _⟩⟩⟩
        obtain rfl := ho.eq_of_atom rfl
        exact ⟨makes.more 1, .shortTest ht he⟩
      | test run =>
        have free := areMacroFree_of_keyword (k := .test) free (by simp)
        obtain ⟨makes, _, rfl, likes⟩ := h.partsBehind rfl free (areBelow_of_list below) makes run
        rcases likes with _ | ⟨ht, _ | ⟨he, _ | ⟨ho, _ | _⟩⟩⟩
        exact ⟨makes.more 1, .test ht he ho⟩
      | @assign _ _ target e _ _ _ kind run =>
        have free := areMacroFree_of_keyword (k := .assign) free (by simp)
        have below := areBelow_of_list below
        simp only [areMacroFree, areBelow, Bool.and_eq_true] at free below
        have isAtom : target.isAtom = true := by
          cases target <;> first | rfl | cases kind
        obtain ⟨makes, like⟩ := h.part free.2.1 below.2.2.1 makes run
        exact ⟨makes.more 1, .binding (Or.inl rfl) isAtom like⟩
      | @define _ i name e _ _ _ run =>
        have free : areMacroFree m [.symbol name, e] = true := free
        have below := areBelow_of_list below
        simp only [areMacroFree, areBelow, Bool.and_eq_true] at free below
        obtain ⟨makes, like⟩ := h.part free.2.1 below.2.2.1 makes run
        exact ⟨makes.more 1, .binding (Or.inr rfl) rfl like⟩
      | emptySequence => exact ⟨makes, .emptySequence⟩
      | sequence run =>
        have free := areMacroFree_of_keyword (k := .sequence) free (by simp)
        obtain ⟨makes, _, rfl, likes⟩ := h.partsBehind rfl free (areBelow_of_list below) makes run
        rcases likes with _ | ⟨he, hes⟩
        exact ⟨makes.more 1, .sequence he hes⟩
      | @lambda _ i ps e es _ _ _ _ _ _ built run =>
        have free : areMacroFree m (e :: es) = true := free
        obtain ⟨makes, like⟩ := lambda_alike (fun _ fewer => ih _ (Nat.lt_succ_of_le fewer)) free
          (areBelow_of_list below) makes built run i _
        exact ⟨makes.more 1, like⟩
      | application noKeyword missing run =>
        have free := (isMacroFree_of_noKeyword free noKeyword).2
        obtain ⟨makes, likes⟩ := h.parts free (areBelow_of_list below) makes run
        rcases likes with _ | ⟨hhead, hrest⟩
        exact ⟨makes.more 1, .application noKeyword hhead hrest⟩
      -- What a macro-free form does not have.
      | curried keyword =>
        obtain rfl | rfl := keyword
        · cases free
        · cases free
      | transformer => cases free
      | template => cases free
      | use noKeyword found =>
        have missing := (isMacroFree_of_noKeyword free noKeyword).1
        rw [makes.transformerOf?_eq, missing] at found
        cases found

/-! ## Settling alike -/

theorem Failure.Like.isEarly_iff {w : Matching} {f f' : Failure} (h : f.Like w f') :
    Halt.IsEarly (.failed f) ↔ Halt.IsEarly (.failed f') := by
  cases h <;> exact Iff.rfl

theorem Endings.isEarly_iff {w : Matching} {α β : Type} {Q : Matching → α → β → Prop} {o : Outcome α}
    {o' : Outcome β} (h : Endings w Q o o') : o.IsEarly ↔ o'.IsEarly := by
  cases h with
  | ok => constructor <;> rintro ⟨_, _, ⟨⟩, _⟩
  | failed hf =>
    constructor
    · rintro ⟨_, _, ⟨⟩, early⟩
      exact ⟨_, _, rfl, hf.isEarly_iff.mp early⟩
    · rintro ⟨_, _, ⟨⟩, early⟩
      exact ⟨_, _, rfl, hf.isEarly_iff.mpr early⟩
  | outOfSteps => exact ⟨fun _ => ⟨_, _, rfl, trivial⟩, fun _ => ⟨_, _, rfl, trivial⟩⟩

/-- When one of two runs settles on an outcome, so does the other, and the outcomes are alike with more
objects matched. -/
structure SettleAlike (w : Matching) (run run' : (fuel room : Nat) → Run Value) (m m' : Machine) :
    Prop where
  forward : ∀ o, Settles run m o →
    ∃ o', Settles run' m' o' ∧ ∃ w', w ≤ w' ∧ Endings w' LikeValues o o'
  backward : ∀ o', Settles run' m' o' →
    ∃ o, Settles run m o ∧ ∃ w', w ≤ w' ∧ Endings w' LikeValues o o'

/-- A form and its expansion settle alike. -/
theorem settleAlike_evaluate {w : Matching} {r : Reading} {form form' : Value} {m m' : Machine}
    (allowed : r.Allowed w) (like : Like w r form form') (states : m.Like w m') (frame : FrameId) :
    SettleAlike w (fun fuel room => evaluate fuel room form frame)
      (fun fuel room => evaluate fuel room form' frame) m m' where
  forward := by
    rintro o ⟨fuel, room, rfl, conclusive⟩
    have steps : Pace.first.FitsSteps fuel (fuel + 1) := Nat.lt_succ_self fuel
    have fits : Pace.first.Fits room (2 * room) := Nat.le_refl _
    have inStep := (calls_inStep steps).evaluate fits allowed like frame
    obtain stops | ⟨w', le, endings⟩ := inStep nofun m m' states
    · exact absurd stops conclusive
    · exact ⟨_, ⟨_, _, rfl, endings.isEarly_iff.not.mp conclusive⟩, w', le, endings⟩
  backward := by
    rintro o' ⟨fuel, room, rfl, conclusive⟩
    have steps : Pace.second.FitsSteps fuel fuel := Nat.le_refl _
    have fits : Pace.second.Fits (2 * room) room := Nat.le_refl _
    have inStep := (calls_inStep steps).evaluate fits allowed like frame
    obtain stops | ⟨w', le, endings⟩ := inStep nofun m m' states
    · exact absurd stops conclusive
    · exact ⟨_, ⟨_, _, rfl, endings.isEarly_iff.not.mpr conclusive⟩, w', le, endings⟩

open Session in
/-- The expansion of macro-free code keeps its meaning. Expanding it makes objects and changes nothing
else. From then on, in every frame of every numbered state, such as the states of sessions, the form and its
expansion settle on outcomes that are alike and leave states that are alike: where the one has a closure, the
other has one with the same parameters and frame and with the same body or its expansion. -/
theorem macroFree_expansion_alike :
    (∀ (limits : Limits) (table : Nat) (draws : Draws) (commands : List Command),
      (performed limits (fresh table draws) commands).machine.Numbered) ∧
    ∀ {fuel room : Nat} {x core : Value} {toplevel : Bool} {m n : Machine},
      x.isMacroFree m = true → x.isBelow m.nextObject = true →
      (expand fuel room x toplevel).Ends m core n →
      m.Makes n ∧
      ∀ (l : Machine) (frame : FrameId) (made : Nat), l.Numbered → x.isBelow l.nextObject = true →
        SettleAlike (.below l.nextObject True) (fun fuel room => evaluate fuel room x frame)
          (fun fuel room => evaluate fuel room core frame) l (l.made made) := by
  refine ⟨performed_numbered, ?_⟩
  intro fuel room x core toplevel m n free below ends
  refine ⟨(expandsAlike m _ fuel free below (.refl m) ends).1, fun l frame made numbered held => ?_⟩
  obtain ⟨_, like⟩ := expandsAlike m l.nextObject fuel free held (.refl m) ends
  exact settleAlike_evaluate (fun _ => trivial) like (numbered.like True made) frame

open Session in
/-- A closure with two forms in its body, a test without an alternative and an empty sequence, which is
then called. -/
theorem macroFree_expansion_alike_closure :
    let x : Value := .list 0 [.symbol "begin",
      .list 1 [.symbol "define", .symbol "f", .list 2 [.symbol "lambda", .list 3 [.symbol "a"],
        .list 4 [.symbol "if", .symbol "a", .int 1], .list 5 [.symbol "begin"]]],
      .list 6 [.symbol "f", .bool false]]
    let m := (performed (⟨40, 40⟩ : Limits) (fresh 0 .zeros) [.serve (.eval "'((1) (2) (3) (4) (5) (6))")]).machine
    x.isMacroFree m = true ∧ x.isBelow m.nextObject = true ∧ m.Numbered ∧
      ∃ core n, (expand 20 20 x true).Ends m core n ∧
        SettleAlike (.below m.nextObject True) (fun fuel room => evaluate fuel room x Machine.root)
          (fun fuel room => evaluate fuel room core Machine.root) m n ∧
        ∃ v t, Settles (fun fuel room => evaluate fuel room x Machine.root) m (.ok v, t) := by
  intro x m
  obtain ⟨sessions, alike⟩ := macroFree_expansion_alike
  have free : x.isMacroFree m = true := by decide +kernel
  have held : x.isBelow m.nextObject = true := by decide +kernel
  have numbered : m.Numbered := sessions _ _ _ _
  have accepted : (outcome (expand 20 20 x true) m).1.isOk = true := by decide +kernel
  have evaluated : (outcome (evaluate 20 20 x Machine.root) m).1.isOk = true := by decide +kernel
  refine ⟨free, held, numbered, ?_⟩
  rcases expanded : outcome (expand 20 20 x true) m with ⟨e | core, n⟩
  · rw [expanded] at accepted
    cases accepted
  obtain ⟨⟨made, rfl⟩, everywhere⟩ := alike free held expanded
  refine ⟨core, _, expanded, everywhere m Machine.root made numbered held, ?_⟩
  rcases settled : outcome (evaluate 20 20 x Machine.root) m with ⟨e | v, t⟩
  · rw [settled] at evaluated
    cases evaluated
  exact ⟨v, t, 20, 20, settled, by rintro ⟨_, _, ⟨⟩, _⟩⟩

end SmallLisp
