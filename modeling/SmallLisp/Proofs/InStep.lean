import SmallLisp.Proofs.Depth
import SmallLisp.Proofs.LikeStates
/-!
# Runs in step

Two computations are in step when from states that are alike they end alike, in states that are alike
again, with more objects matched. A limit may stop the one that has less room before the other. With equal
room neither is stopped before the other, but then no body may have been expanded.
-/
namespace SmallLisp

open Run Value

/-- Values whose texts differ only by those of values that are alike. -/
structure Value.ShownAlike (w : Matching) (v v' : Value) : Prop where
  asDeep : AsDeep 0 v v'
  equallyDeep : ¬ w.expanding → ∀ room, v.Shallow room ↔ v'.Shallow room
  longInteger : v.hasLongInteger = v'.hasLongInteger
  text : ∀ live style, TextLike w (v.text live style) (v'.text live style)

theorem Value.Like.shown {w : Matching} {v v' : Value} (h : Like w .plain v v') : ShownAlike w v v' where
  asDeep := h.asDeep
  equallyDeep strict := h.shallow_iff strict
  longInteger := h.hasLongInteger_eq
  text live style := .printed live style h

/-- The number of a list is not shown. -/
theorem Value.ShownAlike.list {w : Matching} {items items' : List Value}
    (h : List.Forall₂ (ShownAlike w) items items') (i j : Nat) :
    ShownAlike w (.list i items) (.list j items') where
  asDeep := .list (h.imp fun _ _ h => h.asDeep) i j
  equallyDeep strict room := shallow_list_iff (h.imp fun _ _ h => h.equallyDeep strict) i j room
  longInteger := by
    simp only [hasLongInteger]
    exact Like.anyLongInteger_eq (h.imp fun _ _ h => h.longInteger)
  text live style := by
    have items : List.Forall₂ (TextLike w) (texts live style items) (texts live style items') := by
      induction h with
      | nil => exact .nil
      | cons first _ ih => exact .cons (first.text live style) ih
    cases style with
    | source => exact .append (.append (.same _) (.intercalate _ items)) (.same _)
    | inspect => exact .append (.append (.same _) (.intercalate _ items)) (.same _)

/-- Which of two runs has less room, or that they have the same. -/
inductive Pace where
  | even
  | first
  | second

namespace Pace

/-- A limit has stopped the run with less room. -/
def Stops {α β : Type} : Pace → Outcome α → Outcome β → Prop
  | even, _, _ => False
  | first, o, _ => o.IsEarly
  | second, _, o => o.IsEarly

/-- An expansion may be twice as deep as the form, so the other run has twice as much room. -/
def Fits : Pace → (room room' : Nat) → Prop
  | even, room, room' => room = room'
  | first, room, room' => 2 * room ≤ room'
  | second, room, room' => 2 * room' ≤ room

theorem Fits.le_cases {p : Pace} {room room' : Nat} (h : p.Fits room room') :
    room = room' ∨ p = .first ∧ room ≤ room' ∨ p = .second ∧ room' ≤ room := by
  cases p with
  | even => exact Or.inl h
  | first => exact Or.inr (Or.inl ⟨rfl, by simp only [Fits] at h; omega⟩)
  | second => exact Or.inr (Or.inr ⟨rfl, by simp only [Fits] at h; omega⟩)

/-- With equal room no body may be expanded. -/
def Allows (p : Pace) (w : Matching) : Prop :=
  p = .even → ¬ w.expanding

theorem Allows.mono {p : Pace} {w w' : Matching} (h : p.Allows w) (le : w ≤ w') : p.Allows w' :=
  fun even expanding => h even (le.2.mp expanding)

end Pace

/-- How two runs end: with results that are alike in a sense of their own, or both without one. -/
inductive Endings {α β : Type} (w : Matching) (Q : Matching → α → β → Prop) : Outcome α → Outcome β → Prop
  | ok {x y m m'} : Q w x y → m.Like w m' → Endings w Q (.ok x, m) (.ok y, m')
  | failed {f f' m m'} : f.Like w f' → m.Like w m' →
      Endings w Q (.error (.failed f), m) (.error (.failed f'), m')
  | outOfSteps {m m'} : m.Like w m' → Endings w Q (.error .outOfSteps, m) (.error .outOfSteps, m')

/-- What more matched objects keep. -/
def Grows {α β : Type} (P : Matching → α → β → Prop) : Prop :=
  ∀ {w w'}, w ≤ w' → ∀ {x y}, P w x y → P w' x y

/-- Values that are alike up to the bodies of closures. -/
abbrev LikeValues (w : Matching) : Value → Value → Prop := Like w .plain

/-- Lists of such values. -/
abbrev LikeLists (w : Matching) : List Value → List Value → Prop := List.Forall₂ (LikeValues w)

theorem grows_like (r : Reading) : Grows fun w => Like w r :=
  fun le _ _ h => h.mono le

theorem Grows.forall₂ {α β : Type} {P : Matching → α → β → Prop} (h : Grows P) :
    Grows fun w => List.Forall₂ (P w) :=
  fun le _ _ all => all.imp fun _ _ like => h le like

theorem forall₂_zip_zip {α α' β β' : Type} {R : α → α' → Prop} {S : β → β' → Prop} {xs : List α}
    {xs' : List α'} {ys : List β} {ys' : List β'} (h : List.Forall₂ R xs xs')
    (h' : List.Forall₂ S ys ys') :
    List.Forall₂ (fun p p' => R p.1 p'.1 ∧ S p.2 p'.2) (xs.zip ys) (xs'.zip ys') := by
  induction h generalizing ys ys' with
  | nil => exact .nil
  | cons first _ ih =>
    cases h' with
    | nil => exact .nil
    | cons first' rest' => exact .cons ⟨first, first'⟩ (ih rest')

namespace Run

variable {α α' β β' γ γ' : Type} {p : Pace} {w : Matching} {P : Matching → α → α' → Prop}
  {Q : Matching → β → β' → Prop}

/-- From states that are alike two runs end alike, or a limit has stopped the one with less room. -/
def InStep (p : Pace) (w : Matching) (a : Run α) (a' : Run α') (P : Matching → α → α' → Prop) : Prop :=
  p.Allows w → ∀ m m', m.Like w m' →
    p.Stops (outcome a m) (outcome a' m') ∨
      ∃ w', w ≤ w' ∧ Endings w' P (outcome a m) (outcome a' m')

namespace InStep

theorem pure {x : α} {y : α'} (h : P w x y) : InStep p w (pure x) (pure y) P :=
  fun _ _ _ like => Or.inr ⟨w, le_refl w, .ok h like⟩

theorem fail {f f' : Failure} (h : f.Like w f') : InStep p w (fail f) (fail f') P :=
  fun _ _ _ like => Or.inr ⟨w, le_refl w, .failed h like⟩

theorem fail_same (f : Failure) : InStep p w (Run.fail f : Run α) (Run.fail f : Run α') P :=
  fail (.same f)

theorem outOfSteps : InStep p w (throw .outOfSteps : Run α) (throw .outOfSteps : Run α') P :=
  fun _ _ _ like => Or.inr ⟨w, le_refl w, .outOfSteps like⟩

/-- What is only shown where bodies may be expanded as they are. -/
theorem allowing {a : Run α} {a' : Run α'} (h : p.Allows w → InStep p w a a' P) : InStep p w a a' P :=
  fun allows => h allows allows

/-- The first run, which has less room, is stopped. -/
theorem first_stopped (h : Halt) (early : h.IsEarly) {a' : Run α'} :
    InStep .first w (throw h : Run α) a' P :=
  fun _ m _ _ => Or.inl ⟨h, m, rfl, early⟩

/-- The second run, which has less room, is stopped. -/
theorem second_stopped (h : Halt) (early : h.IsEarly) {a : Run α} :
    InStep .second w a (throw h : Run α') P :=
  fun _ _ m' _ => Or.inl ⟨h, m', rfl, early⟩

/-- A run that is stopped goes no further. -/
theorem stops_bind {a : Run α} {a' : Run α'} {k : α → Run β} {k' : α' → Run β'} {m m' : Machine}
    (stops : p.Stops (outcome a m) (outcome a' m')) :
    p.Stops (outcome (a >>= k) m) (outcome (a' >>= k') m') := by
  cases p with
  | even => exact stops
  | first =>
    obtain ⟨h, n, ends, early⟩ := stops
    exact ⟨h, n, outcome_bind_of_error ends k, early⟩
  | second =>
    obtain ⟨h, n, ends, early⟩ := stops
    exact ⟨h, n, outcome_bind_of_error ends k', early⟩

theorem bind {a : Run α} {a' : Run α'} {k : α → Run β} {k' : α' → Run β'} (h : InStep p w a a' P)
    (rest : ∀ w', w ≤ w' → ∀ x y, P w' x y → InStep p w' (k x) (k' y) Q) :
    InStep p w (a >>= k) (a' >>= k') Q := by
  intro allows m m' like
  rcases h allows m m' like with stops | ⟨w', le, endings⟩
  · exact Or.inl (stops_bind stops)
  · rw [outcome_bind, outcome_bind]
    generalize outcome a m = o at endings
    generalize outcome a' m' = o' at endings
    cases endings with
    | failed hf like => exact Or.inr ⟨w', le, .failed hf like⟩
    | outOfSteps like => exact Or.inr ⟨w', le, .outOfSteps like⟩
    | ok hx like =>
      rcases rest w' le _ _ hx (allows.mono le) _ _ like with stops | ⟨w'', le', endings⟩
      · exact Or.inl stops
      · exact Or.inr ⟨w'', le.trans le', endings⟩

/-- The same result, that what follows depends on. -/
theorem bind_same {a : Run α} {a' : Run α} {k : α → Run β} {k' : α → Run β'}
    (h : InStep p w a a' fun _ x y => x = y)
    (rest : ∀ w', w ≤ w' → ∀ x, InStep p w' (k x) (k' x) Q) : InStep p w (a >>= k) (a' >>= k') Q :=
  h.bind fun w' le x _ same => same ▸ rest w' le x

theorem ask {k : Machine → Run β} {k' : Machine → Run β'}
    (h : ∀ m m', m.Like w m' → InStep p w (k m) (k' m') Q) :
    InStep p w (get >>= k) (get >>= k') Q :=
  fun allows m m' like => h m m' like allows m m' like

theorem modifyGet {g g' : Machine → α × Machine} {P : Matching → α → α → Prop}
    (h : ∀ m m', m.Like w m' → ∃ w', w ≤ w' ∧ P w' (g m).1 (g' m').1 ∧ (g m).2.Like w' (g' m').2) :
    InStep p w (modifyGet g) (modifyGet g') P := by
  intro _ m m' like
  obtain ⟨w', le, hx, like⟩ := h m m' like
  exact Or.inr ⟨w', le, .ok hx like⟩

theorem modify {g g' : Machine → Machine} (h : ∀ m m', m.Like w m' → (g m).Like w (g' m')) :
    InStep p w (modify g) (modify g') fun _ _ _ => True :=
  fun _ m m' like => Or.inr ⟨w, le_refl w, .ok trivial (h m m' like)⟩

theorem ofExcept {a : Except Failure α} {a' : Except Failure α'} (h : Results w (P w) a a') :
    InStep p w (ofExcept a) (ofExcept a') P := by
  cases h with
  | ok h => exact pure h
  | error h => exact fail h

theorem deeper {room room' : Nat} {go : Nat → Run α} {go' : Nat → Run α'} (fits : p.Fits room room')
    (h : ∀ r r', r < room → p.Fits r r' → InStep p w (go r) (go' r') P) :
    InStep p w (deeper room go) (deeper room' go') P := by
  cases p with
  | even =>
    obtain rfl : room = room' := fits
    cases room with
    | zero => exact fail_same _
    | succ room => exact h room room (Nat.lt_succ_self room) rfl
  | first =>
    have fits : 2 * room ≤ room' := fits
    cases room with
    | zero => exact first_stopped (.failed .tooDeep) trivial
    | succ room =>
      obtain ⟨room', rfl⟩ : ∃ r, room' = r + 1 := ⟨room' - 1, by omega⟩
      exact h room room' (Nat.lt_succ_self room) (by simp only [Pace.Fits]; omega)
  | second =>
    have fits : 2 * room' ≤ room := fits
    cases room' with
    | zero => exact second_stopped (.failed .tooDeep) trivial
    | succ room' =>
      obtain ⟨room, rfl⟩ : ∃ r, room = r + 1 := ⟨room - 1, by omega⟩
      exact h room room' (Nat.lt_succ_self room) (by simp only [Pace.Fits]; omega)

theorem mapM {R : Matching → γ → γ' → Prop} (grows : Grows R) (grows' : Grows P) {f : γ → Run α}
    {f' : γ' → Run α'} {xs : List γ} {ys : List γ'} (all : List.Forall₂ (R w) xs ys)
    (h : ∀ w', w ≤ w' → ∀ x y, R w' x y → InStep p w' (f x) (f' y) P) :
    InStep p w (xs.mapM f) (ys.mapM f') fun w => List.Forall₂ (P w) := by
  induction xs generalizing w ys with
  | nil =>
    cases all
    exact pure .nil
  | cons x xs ih =>
    cases all with
    | cons first rest =>
      rw [List.mapM_cons, List.mapM_cons]
      refine bind (h w (le_refl w) _ _ first) fun w₁ le₁ x y hx => ?_
      refine bind (ih (rest.imp fun _ _ h => grows le₁ h) fun w' le => h w' (le₁.trans le)) ?_
      exact fun w₂ le₂ xs ys hxs => pure (.cons (grows' le₂ hx) hxs)

theorem spending (k : Nat) {a : Run α} {a' : Run α'} (h : InStep p w a a' P) :
    InStep p w (spending k a) (spending k a') P := by
  have spent {w m m'} (like : Machine.Like w m m') :
      Machine.Like w { m with continuations := m.continuations.setIfInBounds k false }
        { m' with continuations := m'.continuations.setIfInBounds k false } :=
    { like with continuations := by simp only [like.continuations] }
  intro allows m m' like
  rw [outcome_spending, outcome_spending]
  rcases h allows m m' like with stops | ⟨w', le, endings⟩
  · refine Or.inl ?_
    cases p with
    | even => exact stops
    | first =>
      obtain ⟨h, n, ends, early⟩ := stops
      exact ⟨h, _, by rw [ends], early⟩
    | second =>
      obtain ⟨h, n, ends, early⟩ := stops
      exact ⟨h, _, by rw [ends], early⟩
  · refine Or.inr ⟨w', le, ?_⟩
    generalize outcome a m = o at endings ⊢
    generalize outcome a' m' = o' at endings ⊢
    cases endings with
    | ok hx like => exact .ok hx (spent like)
    | failed hf like => exact .failed hf (spent like)
    | outOfSteps like => exact .outOfSteps (spent like)

/-- An object that only the first run makes. -/
theorem newList_alone {items : List Value} {k : Value → Run β} {b : Run β'}
    (rest : ∀ i, InStep p w (k (.list i items)) b Q) : InStep p w (newList items >>= k) b Q := by
  intro allows m m' like
  refine rest m.nextObject allows { m with nextObject := m.nextObject + 1 } m' ?_
  exact { like with objects := fun h => ⟨Nat.lt_succ_of_lt (like.objects h).1, (like.objects h).2⟩ }

end InStep

theorem newObject_inStep : InStep p w newObject newObject fun w i j => w.objects i j := by
  refine .modifyGet fun m m' like => ?_
  have newFirst (j : Nat) : ¬ w.objects m.nextObject j :=
    fun h => Nat.lt_irrefl _ (like.objects h).1
  have newSecond (i : Nat) : ¬ w.objects i m'.nextObject :=
    fun h => Nat.lt_irrefl _ (like.objects h).2
  have le : w ≤ w.add m.nextObject m'.nextObject newFirst newSecond := w.le_add _ _
  refine ⟨_, le, Or.inr ⟨rfl, rfl⟩, like.frames.mono le, like.transformers.mono le,
    like.continuations, ?_, like.output.imp fun _ _ h => h.mono le, like.draws⟩
  rintro i j (h | ⟨rfl, rfl⟩)
  · exact ⟨Nat.lt_succ_of_lt (like.objects h).1, Nat.lt_succ_of_lt (like.objects h).2⟩
  · exact ⟨Nat.lt_succ_self _, Nat.lt_succ_self _⟩

theorem newList_inStep {items items' : List Value} (h : LikeLists w items items') :
    InStep p w (newList items) (newList items') LikeValues :=
  newObject_inStep.bind fun _ le _ _ matched =>
    .pure (.list matched (h.imp fun _ _ h => h.mono le))

/-! ## Texts of values -/

/-- The run with less room is stopped at a value that is too deep, or the depths make no difference. -/
theorem depth_cases (allows : p.Allows w) {room room' : Nat} (fits : p.Fits room room')
    {v v' : Value} (h : ShownAlike w v v') :
    p = .first ∧ v.isDeeperThan room = true ∨ p = .second ∧ v'.isDeeperThan room' = true ∨
      v.isDeeperThan room = v'.isDeeperThan room' := by
  cases p with
  | even =>
    obtain rfl : room = room' := fits
    refine Or.inr (Or.inr ?_)
    rw [Bool.eq_iff_iff, ← Bool.not_eq_false, ← Bool.not_eq_false]
    exact not_congr (h.equallyDeep (allows rfl) room)
  | first =>
    cases deep : v.isDeeperThan room with
    | true => exact Or.inl ⟨rfl, rfl⟩
    | false =>
      have shallow : v'.Shallow room' := (h.asDeep.1 room deep).mono fits
      exact Or.inr (Or.inr shallow.symm)
  | second =>
    cases deep : v'.isDeeperThan room' with
    | true => exact Or.inr (Or.inl ⟨rfl, rfl⟩)
    | false =>
      have shallow : v.Shallow room := (h.asDeep.2 room' deep).mono fits
      exact Or.inr (Or.inr shallow)

section Texts

variable {room room' : Nat} (fits : p.Fits room room')
include fits

/-- The texts of two values, or the reason why there are none. -/
theorem text?_cases (allows : p.Allows w) (live : Nat → Bool) (style : Style) {v v' : Value}
    (h : ShownAlike w v v') :
    p = .first ∧ v.text? live room style = .error .tooDeep ∨
      p = .second ∧ v'.text? live room' style = .error .tooDeep ∨
      (∃ f, v.text? live room style = .error f ∧ v'.text? live room' style = .error f) ∨
      ∃ s s', v.text? live room style = .ok s ∧ v'.text? live room' style = .ok s' ∧
        TextLike w s s' := by
  unfold text?
  rcases depth_cases allows fits h with ⟨slow, deep⟩ | ⟨slow, deep⟩ | same
  · exact Or.inl ⟨slow, if_pos deep⟩
  · exact Or.inr (Or.inl ⟨slow, if_pos deep⟩)
  · rw [same, h.longInteger]
    refine Or.inr (Or.inr ?_)
    split
    · exact Or.inl ⟨_, rfl, rfl⟩
    · split
      · exact Or.inl ⟨_, rfl, rfl⟩
      · exact Or.inr ⟨_, _, rfl, rfl, h.text live style⟩

theorem text?_inStep (live : Nat → Bool) (style : Style) {v v' : Value} (h : ShownAlike w v v') :
    InStep p w (Run.ofExcept (v.text? live room style)) (Run.ofExcept (v'.text? live room' style))
      TextLike := by
  refine .allowing fun allows => ?_
  rcases text?_cases fits allows live style h with
    ⟨rfl, deep⟩ | ⟨rfl, deep⟩ | ⟨f, failed, failed'⟩ | ⟨s, s', shown, shown', texts⟩
  · rw [deep]
    exact .first_stopped (.failed .tooDeep) trivial
  · rw [deep]
    exact .second_stopped (.failed .tooDeep) trivial
  · rw [failed, failed']
    exact .fail_same f
  · rw [shown, shown']
    exact .pure texts

theorem source_inStep {v v' : Value} (h : ShownAlike w v v') :
    InStep p w (source room v) (source room' v') TextLike := by
  refine .ask fun m m' like => ?_
  rw [like.isLive_eq]
  exact text?_inStep fits _ _ h

theorem bare_inStep {v v' : Value} (h : LikeValues w v v') :
    InStep p w (bare room v) (bare room' v') TextLike := by
  refine .ask fun m m' like => ?_
  rw [like.isLive_eq]
  have shown := h.shown
  cases h with
  | atom isAtom =>
    cases v with
    | string s => exact .pure (.same s)
    | symbol | endOfText => exact text?_inStep fits _ .source shown
    | _ => exact text?_inStep fits _ .inspect shown
  | _ => exact text?_inStep fits _ .inspect shown

end Texts

/-! ## Frames and continuations -/

theorem keyOf_inStep {v v' : Value} (h : LikeValues w v v') :
    InStep p w (keyOf v) (keyOf v') Key.Like := by
  unfold keyOf
  obtain ⟨none, none'⟩ | ⟨key, key', found, found', same⟩ := rel_cases (h.key? rfl)
  · rw [none, none']
    exact .fail_same _
  · rw [found, found']
    exact .pure same

theorem bind_inStep (f : FrameId) {new new' : Binding} (h : new.Like w new') :
    InStep p w (Run.bind f new) (Run.bind f new') fun _ _ _ => True :=
  .modify fun _ _ like => { like with frames := like.frames.define f h }

section Targets

variable {room room' : Nat} (fits : p.Fits room room') (f : FrameId) {target target' v v' : Value}
include fits

theorem unbound_inStep (h : LikeValues w target target') :
    InStep p w (do Run.fail (.unbound (← bare room target)) : Run α)
      (do Run.fail (.unbound (← bare room' target')) : Run α') P :=
  (bare_inStep fits h).bind fun _ _ _ _ texts => .fail (.unbound texts)

theorem find_inStep (h : LikeValues w target target') :
    InStep p w (find room f target) (find room' f target') fun _ owner owner' => owner = owner' := by
  refine (keyOf_inStep h).bind fun w le key key' same => .ask fun m m' like => ?_
  rw [like.frames.find?_eq f same]
  split
  · exact .pure rfl
  · exact unbound_inStep fits (h.mono le)

theorem lookup_inStep (h : LikeValues w target target') :
    InStep p w (lookup room f target) (lookup room' f target') LikeValues := by
  refine (keyOf_inStep h).bind fun w le key key' sameKey => .ask fun m m' like => ?_
  obtain ⟨none, none'⟩ | ⟨v, v', found, found', same⟩ := rel_cases (like.frames.lookup? f sameKey)
  · rw [none, none']
    exact unbound_inStep fits (h.mono le)
  · rw [found, found']
    exact .pure same

theorem define_inStep (h : LikeValues w target target') (hv : LikeValues w v v') :
    InStep p w (define room f target v) (define room' f target' v') fun _ _ _ => True := by
  unfold define
  rw [h.name?_eq]
  split
  · exact bind_inStep f (Binding.ofName_like _ hv)
  · exact (bare_inStep fits h).bind fun _ _ _ _ texts => .fail (.type (.notName texts))

theorem assign_inStep (h : LikeValues w target target') (hv : LikeValues w v v') :
    InStep p w (assign room f target v) (assign room' f target' v') fun _ _ _ => True := by
  refine (find_inStep fits f h).bind_same fun w le owner => ?_
  have bound := InStep.ofExcept (p := p) (P := Binding.Like)
    (Binding.ofTarget_like (h.mono le) (hv.mono le))
  exact bound.bind fun w le b b' like => bind_inStep owner like

theorem bindParameters_inStep {args args' : List Value} (h : LikeValues w target target')
    (hargs : LikeLists w args args') :
    InStep p w (bindParameters room target args) (bindParameters room' target' args')
      Bindings.Like := by
  unfold bindParameters
  rw [h.name?_eq, h.kindName_eq, hargs.length_eq]
  cases target'.name? with
  | some name =>
    exact (newList_inStep hargs).bind fun w le v v' like => .pure (.cons (Binding.ofName_like _ like) .nil)
  | none =>
    obtain ⟨none, none'⟩ | ⟨ps, ps', found, found', hps⟩ := rel_cases h.elements?
    · rw [none, none']
      exact .fail_same _
    · rw [found, found']
      dsimp only
      rw [hps.length_eq]
      split
      · have grows : Grows TextLike := fun le _ _ texts => texts.mono le
        refine (InStep.mapM (grows_like .plain) grows hps fun w le v v' h => bare_inStep fits h).bind ?_
        intro w le names names' texts
        exact .fail (.arity _ _ (.append (.append (.same "(") (.intercalate " " texts)) (.same ")")))
      · exact .ofExcept (Bindings.ofPairs_like (forall₂_zip_zip hps hargs))

theorem newFrame_inStep {args args' : List Value} (h : LikeValues w target target')
    (hargs : LikeLists w args args') (outer : Option FrameId) :
    InStep p w (newFrame room target args outer) (newFrame room' target' args' outer)
      fun _ f f' => f = f' := by
  refine (bindParameters_inStep fits h hargs).bind fun w _ bs bs' hbs => .modifyGet fun m m' like => ?_
  obtain ⟨same, frames⟩ := like.frames.new hbs outer
  exact ⟨w, le_refl w, same, { like with frames := frames }⟩

end Targets

theorem openContinuation_inStep : InStep p w openContinuation openContinuation fun _ k k' => k = k' :=
  .modifyGet fun m m' like => ⟨w, le_refl w, by rw [like.continuations],
    { like with continuations := by simp only [like.continuations] }⟩

theorem invoke_inStep (k : Nat) {args args' : List Value}
    (h : LikeLists w args args') :
    InStep p w (invoke k args) (invoke k args') LikeValues := by
  refine .ask fun m m' like => ?_
  rw [like.isLive_eq]
  cases m'.isLive k with
  | false => exact InStep.fail_same _
  | true =>
    have length := h.length_eq
    rcases h with _ | ⟨first, _ | ⟨second, rest⟩⟩
    · exact InStep.pure (P := LikeValues) (.escape (.atom rfl))
    · exact InStep.pure (P := LikeValues) (.escape first)
    · dsimp only
      rw [length]
      exact InStep.fail_same _

theorem register_inStep (name : String) {t t' : Value} (h : LikeValues w t t') :
    InStep p w (register name t) (register name t') fun _ _ _ => True :=
  .modify fun _ _ like => { like with transformers := like.transformers.put (Binding.ofName_like name h) }

theorem transformer?_inStep {head head' : Value} (h : LikeValues w head head') :
    InStep p w (transformer? head) (transformer? head') fun w => Option.Rel (LikeValues w) := by
  have noName : InStep p w (Pure.pure none : Run (Option Value)) (Pure.pure none)
      fun w => Option.Rel (LikeValues w) := .pure .none
  cases h with
  | atom isAtom =>
    cases head with
    | symbol name => exact .ask fun m m' like => .pure (like.transformers.get? (.atom rfl))
    | _ => exact noName
  | _ => exact noName

end Run
end SmallLisp
