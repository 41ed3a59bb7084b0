import SmallLisp.Proofs.Approximation
/-!
# Helpers with more room

The text of a value, deep equality, templates and with them every helper of the evaluator and every
primitive need room only for depth: each approximates itself with more room.
-/
namespace SmallLisp

theorem Value.isDeeperThan_succ {room : Nat} {v : Value} (h : v.isDeeperThan (room + 1) = true) :
    v.isDeeperThan room = true := by
  induction room generalizing v with
  | zero =>
    obtain ⟨part, mem, _⟩ := List.any_eq_true.mp h
    unfold isDeeperThan
    cases hp : v.parts with
    | nil => simp [hp] at mem
    | cons _ _ => rfl
  | succ room ih =>
    obtain ⟨part, mem, deep⟩ := List.any_eq_true.mp h
    exact List.any_eq_true.mpr ⟨part, mem, ih deep⟩

theorem Value.isDeeperThan_of_le {room room' : Nat} (hroom : room ≤ room') {v : Value}
    (h : v.isDeeperThan room' = true) : v.isDeeperThan room = true := by
  induction hroom with
  | refl => exact h
  | step _ ih => exact ih (isDeeperThan_succ h)

theorem Value.text?_of_le {room room' : Nat} (hroom : room ≤ room') (live : Nat → Bool)
    (style : Style) (v : Value) :
    v.text? live room style = .error .tooDeep ∨
      v.text? live room style = v.text? live room' style := by
  unfold text?
  by_cases deep : v.isDeeperThan room = true
  · exact Or.inl (if_pos deep)
  · have deep' : ¬ v.isDeeperThan room' = true := fun h => deep (isDeeperThan_of_le hroom h)
    rw [if_neg deep, if_neg deep']
    exact Or.inr rfl

theorem Value.bareText?_of_le {room room' : Nat} (hroom : room ≤ room') (live : Nat → Bool)
    (v : Value) :
    v.bareText? live room = .error .tooDeep ∨ v.bareText? live room = v.bareText? live room' := by
  cases v with
  | string s => exact Or.inr rfl
  | symbol name => exact text?_of_le hroom live .source _
  | endOfText => exact text?_of_le hroom live .source _
  | _ => exact text?_of_le hroom live .inspect _

theorem Value.allEqual?_of_le {f g : Value → Value → Option Bool}
    (h : ∀ v w, f v w = none ∨ f v w = g v w) (xs ys : List Value) :
    allEqual? f xs ys = none ∨ allEqual? f xs ys = allEqual? g xs ys := by
  induction xs generalizing ys with
  | nil => exact Or.inr rfl
  | cons x xs ih =>
    cases ys with
    | nil => exact Or.inr rfl
    | cons y ys =>
      rcases h x y with missing | same
      · exact Or.inl (by simp [allEqual?, missing])
      · cases hg : g x y with
        | none => exact Or.inl (by simp [allEqual?, same, hg])
        | some b =>
          cases b with
          | false => exact Or.inr (by simp [allEqual?, same, hg])
          | true => simpa [allEqual?, same, hg] using ih ys

theorem Value.equal?_of_le {room room' : Nat} (hroom : room ≤ room') (v w : Value) :
    v.equal? room w = none ∨ v.equal? room w = v.equal? room' w := by
  induction room generalizing room' v w with
  | zero =>
    cases v <;> cases w <;> cases room' <;> first | exact Or.inr rfl | exact Or.inl rfl
  | succ room ih =>
    obtain ⟨room', rfl⟩ : ∃ r, room' = r + 1 := ⟨room' - 1, by omega⟩
    cases v <;> cases w <;> try exact Or.inr rfl
    next i xs j ys =>
      by_cases len : xs.length = ys.length
      · simp only [equal?, if_pos len]
        exact allEqual?_of_le (fun v w => ih (by omega) v w) xs ys
      · exact Or.inr (by simp only [equal?, if_neg len])

namespace Run

variable {s : Slack} {room room' : Nat} {α : Type}

theorem source_approximates (hroom : s.Fits room room') (v : Value) :
    Approximates s.Early (source room v) (source room' v) :=
  Approximates.bind (Approximates.refl _) fun m =>
    Approximates.ofExcept (fun le => v.text?_of_le le m.isLive .source) hroom

theorem bare_approximates (hroom : s.Fits room room') (v : Value) :
    Approximates s.Early (bare room v) (bare room' v) :=
  Approximates.bind (Approximates.refl _) fun m =>
    Approximates.ofExcept (fun le => v.bareText?_of_le le m.isLive) hroom

theorem find_approximates (hroom : s.Fits room room') (f : FrameId) (target : Value) :
    Approximates s.Early (find room f target) (find room' f target) := by
  refine Approximates.bind (Approximates.refl _) fun key =>
    Approximates.bind (Approximates.refl _) fun m => ?_
  cases m.frames.find? f key with
  | some owner => exact Approximates.refl _
  | none => exact Approximates.bind (bare_approximates hroom target) fun _ => Approximates.refl _

theorem lookup_approximates (hroom : s.Fits room room') (f : FrameId) (target : Value) :
    Approximates s.Early (lookup room f target) (lookup room' f target) := by
  refine Approximates.bind (Approximates.refl _) fun key =>
    Approximates.bind (Approximates.refl _) fun m => ?_
  cases m.frames.lookup? f key with
  | some v => exact Approximates.refl _
  | none => exact Approximates.bind (bare_approximates hroom target) fun _ => Approximates.refl _

theorem define_approximates (hroom : s.Fits room room') (f : FrameId) (target v : Value) :
    Approximates s.Early (define room f target v) (define room' f target v) := by
  unfold define
  cases target.name? with
  | some name => exact Approximates.refl _
  | none => exact Approximates.bind (bare_approximates hroom target) fun _ => Approximates.refl _

theorem assign_approximates (hroom : s.Fits room room') (f : FrameId) (target v : Value) :
    Approximates s.Early (assign room f target v) (assign room' f target v) :=
  Approximates.bind (find_approximates hroom f target) fun _ => Approximates.refl _

theorem bindParameters_approximates (hroom : s.Fits room room') (parameters : Value)
    (args : List Value) :
    Approximates s.Early (bindParameters room parameters args) (bindParameters room' parameters args) := by
  unfold bindParameters
  cases parameters.name? with
  | some name => exact Approximates.refl _
  | none =>
    cases parameters.elements? with
    | none => exact Approximates.refl _
    | some ps =>
      by_cases len : ps.length ≠ args.length
      · simp only [if_pos len]
        exact Approximates.bind (Approximates.mapM ps (bare_approximates hroom)) fun _ =>
          Approximates.refl _
      · simp only [if_neg len]
        exact Approximates.refl _

theorem newFrame_approximates (hroom : s.Fits room room') (parameters : Value) (args : List Value)
    (outer : Option FrameId) :
    Approximates s.Early (newFrame room parameters args outer) (newFrame room' parameters args outer) :=
  Approximates.bind (bindParameters_approximates hroom parameters args) fun _ =>
    Approximates.refl _

theorem numbers_approximates (hroom : s.Fits room room') (name : String) (args : List Value) :
    Approximates s.Early (numbers room name args) (numbers room' name args) := by
  induction args with
  | nil => exact Approximates.refl _
  | cons v vs ih =>
    unfold numbers
    cases v.number? with
    | some x => exact Approximates.bind ih fun _ => Approximates.refl _
    | none => exact Approximates.bind (source_approximates hroom v) fun _ => Approximates.refl _

theorem numbered_approximates (hroom : s.Fits room room') (name : String) (args : List Value) :
    Approximates s.Early (numbered room name args) (numbered room' name args) :=
  Approximates.bind (numbers_approximates hroom name args) fun _ => Approximates.refl _

theorem listOperand_approximates (hroom : s.Fits room room') (name : String) (v : Value) :
    Approximates s.Early (listOperand room name v) (listOperand room' name v) := by
  cases v with
  | list i items => exact Approximates.refl _
  | _ => exact Approximates.bind (source_approximates hroom _) fun _ => Approximates.refl _

end Run

open Run

namespace Form

variable {s : Slack} {room room' : Nat}

theorem refuse_approximates {α : Type} (hroom : s.Fits room room') (form : Value) (fault : FormFault) :
    Approximates s.Early (refuse room form fault : Run α) (refuse room' form fault) :=
  Approximates.bind (source_approximates hroom form) fun _ => Approximates.refl _

theorem require_approximates (hroom : s.Fits room room') (form : Value) (fault : FormFault) (ok : Bool) :
    Approximates s.Early (require room form fault ok) (require room' form fault ok) := by
  cases ok with
  | true => exact Approximates.refl _
  | false => exact refuse_approximates hroom form fault

theorem ofTemplate_approximates (hroom : s.Fits room room') (template : Value) :
    Approximates s.Early (ofTemplate room template) (ofTemplate room' template) := by
  induction room generalizing room' template with
  | zero =>
    rcases hroom.zero with rfl | early
    · exact Approximates.refl _
    · exact Approximates.halt early _
  | succ room ih =>
    obtain ⟨room', rfl, hr⟩ := hroom.succ
    unfold ofTemplate
    split
    · refine Approximates.bind (require_approximates hr _ _ _) fun _ => ?_
      split
      · split
        · exact Approximates.refl _
        · exact refuse_approximates hr _ _
      · split
        · split
          · exact Approximates.bind (Approximates.refl _) fun _ =>
              Approximates.bind (ih hr _) fun _ => Approximates.refl _
          · exact refuse_approximates hr _ _
        · exact Approximates.bind (ih hr _) fun _ =>
            Approximates.bind (Approximates.refl _) fun _ =>
              Approximates.bind (ih hr _) fun _ => Approximates.refl _
    · exact Approximates.refl _

theorem expandLet_approximates (hroom : s.Fits room room') (operands : List Value) :
    Approximates s.Early (expandLet room operands) (expandLet room' operands) := by
  unfold expandLet
  dsimp only
  split
  · split
    · exact Approximates.refl _
    · exact refuse_approximates hroom _ _
  · exact refuse_approximates hroom _ _

end Form

namespace Primitive

variable {s : Slack} {room room' : Nat}

theorem runEqual_approximates (hroom : s.Fits room room') (args : List Value) :
    Approximates s.Early (runEqual room args) (runEqual room' args) := by
  refine Approximates.bind (Approximates.refl _) fun (v, w) => ?_
  rcases hroom.eq_or_le with rfl | ⟨le, early⟩
  · exact Approximates.refl _
  · rcases v.equal?_of_le le w with missing | same
    · simp only [missing]
      exact Approximates.halt early _
    · simp only [same]
      exact Approximates.refl _

theorem runCons_approximates (hroom : s.Fits room room') (args : List Value) :
    Approximates s.Early (runCons room args) (runCons room' args) :=
  Approximates.bind (Approximates.refl _) fun (_, tail) =>
    Approximates.bind (listOperand_approximates hroom "cons" tail) fun _ => Approximates.refl _

theorem runCar_approximates (hroom : s.Fits room room') (args : List Value) :
    Approximates s.Early (runCar room args) (runCar room' args) :=
  Approximates.bind (Approximates.refl _) fun v =>
    Approximates.bind (listOperand_approximates hroom "car" v) fun _ => Approximates.refl _

theorem runCdr_approximates (hroom : s.Fits room room') (args : List Value) :
    Approximates s.Early (runCdr room args) (runCdr room' args) :=
  Approximates.bind (Approximates.refl _) fun v =>
    Approximates.bind (listOperand_approximates hroom "cdr" v) fun _ => Approximates.refl _

theorem runAppend_approximates (hroom : s.Fits room room') (args : List Value) :
    Approximates s.Early (runAppend room args) (runAppend room' args) :=
  Approximates.bind (Approximates.mapM args (listOperand_approximates hroom "append")) fun _ =>
    Approximates.refl _

theorem runLength_approximates (hroom : s.Fits room room') (args : List Value) :
    Approximates s.Early (runLength room args) (runLength room' args) := by
  refine Approximates.bind (Approximates.refl _) fun v => ?_
  split
  · exact Approximates.refl _
  · exact Approximates.refl _
  · exact Approximates.bind (source_approximates hroom _) fun _ => Approximates.refl _

theorem runDisplay_approximates (hroom : s.Fits room room') (args : List Value) :
    Approximates s.Early (runDisplay room args) (runDisplay room' args) := by
  refine Approximates.bind (Approximates.refl _) fun v => ?_
  split
  · exact Approximates.refl _
  · exact Approximates.bind (source_approximates hroom _) fun _ => Approximates.refl _

/-- A primitive that only asks for numbers. -/
theorem numbers_bind_approximates {α : Type} (hroom : s.Fits room room') (name : String)
    (args : List Value) (k : List Number → Run α) :
    Approximates s.Early (numbers room name args >>= k) (numbers room' name args >>= k) :=
  Approximates.bind (numbers_approximates hroom name args) fun _ => Approximates.refl _

theorem runElementary_approximates (f : Elementary) (hroom : s.Fits room room') (args : List Value) :
    Approximates s.Early (runElementary f room args) (runElementary f room' args) := by
  refine Approximates.bind (Approximates.refl _) fun v => ?_
  cases v.number? with
  | some x => exact Approximates.refl _
  | none =>
    refine Approximates.bind (Approximates.refl _) fun m => ?_
    rcases hroom.eq_or_le with rfl | ⟨le, early⟩
    · exact Approximates.refl _
    · rcases v.text?_of_le le m.isLive .source with deep | same
      · simp only [deep]
        exact Approximates.halt early _
      · simp only [same]
        exact Approximates.refl _

theorem runPower_approximates (hroom : s.Fits room room') (args : List Value) :
    Approximates s.Early (runPower room args) (runPower room' args) :=
  Approximates.bind (Approximates.refl _) fun _ => numbers_bind_approximates hroom _ _ _

theorem runAtan2_approximates (hroom : s.Fits room room') (args : List Value) :
    Approximates s.Early (runAtan2 room args) (runAtan2 room' args) :=
  Approximates.bind (Approximates.refl _) fun _ => numbers_bind_approximates hroom _ _ _

theorem runExtreme_approximates (name : String) (beats : Number → Number → Bool)
    (hroom : s.Fits room room') (args : List Value) :
    Approximates s.Early (runExtreme name beats room args) (runExtreme name beats room' args) :=
  Approximates.bind (numbered_approximates hroom name args) fun _ => Approximates.refl _

theorem run_approximates (p : Primitive) (hroom : s.Fits room room') (args : List Value) :
    Approximates s.Early (p.run room args) (p.run room' args) := by
  cases p with
  | add => exact numbers_bind_approximates hroom _ _ _
  | subtract => exact numbers_bind_approximates hroom _ _ _
  | multiply => exact numbers_bind_approximates hroom _ _ _
  | divide => exact numbers_bind_approximates hroom _ _ _
  | compare c => exact numbers_bind_approximates hroom _ _ _
  | hypotenuse => exact numbers_bind_approximates hroom _ _ _
  | not | same | list | random | isKind => exact Approximates.refl _
  | equal => exact runEqual_approximates hroom args
  | length => exact runLength_approximates hroom args
  | cons => exact runCons_approximates hroom args
  | car => exact runCar_approximates hroom args
  | cdr => exact runCdr_approximates hroom args
  | append => exact runAppend_approximates hroom args
  | display => exact runDisplay_approximates hroom args
  | atan2 => exact runAtan2_approximates hroom args
  | power => exact runPower_approximates hroom args
  | greatest => exact runExtreme_approximates _ _ hroom args
  | least => exact runExtreme_approximates "min" (fun a b => b.greater a) hroom args
  | elementary f => exact runElementary_approximates f hroom args
  | expandLet => exact Form.expandLet_approximates hroom args

end Primitive

end SmallLisp
