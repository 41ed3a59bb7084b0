import SmallLisp.Proofs.Expansion
import SmallLisp.Proofs.Finishing
/-!
# Templates

A template is filled from left to right: an unquoted part is its value, a spliced part gives its elements, and
everything else is itself. The code that a template becomes is expanded once more, so its unquoted parts are
expanded in place, and evaluating that code fills the template.
-/
namespace SmallLisp

open Run

/-- A template whose unquoted parts are core forms. A list is split into its first element and its rest, which
is a template again. -/
inductive Template where
  | quoted (v : Value)
  | unquoted (core : Value)
  | splice (core : Value) (rest : Template)
  | pair (first rest : Template)

namespace Template

/-- The elements of a list that is to go into a template, which is refused what is no list. The refusal shows the value,
but for one that nests too deep to be shown, and one with an integer of too many digits. -/
def elements (name : String) (room : Nat) : Value → Run (List Value)
  | .list _ items => return items
  | v => do
    if v.isDeeperThan room then fail .tooDeep
    else if v.hasLongInteger then fail (.longInteger none)
    else fail (.type (.notList name (v.text (← get).isLive .source)))

theorem listOperand_eq_elements (room : Nat) (name : String) (v : Value) :
    listOperand room name v = elements name room v := by
  have refused (v : Value) : (do fail (.type (.notList name (← source room v))) : Run (List Value)) =
      if v.isDeeperThan room then fail .tooDeep
      else if v.hasLongInteger then fail (.longInteger none)
      else (do fail (.type (.notList name (v.text (← get).isLive .source)))) := by
    unfold source Value.text?
    split
    · rfl
    · split <;> rfl
  cases v with
  | list => rfl
  | _ => exact refused _

/-- The value of a template in a frame. Each part is one level deeper. An escape ends the filling and is its
value. Whether the parts are lists is asked when both have their values. -/
def fill (frame : FrameId) (fuel : Nat) : Template → (room : Nat) → Run Value
  | quoted v, _ => return v
  | unquoted core, room => evaluate fuel room core frame
  | splice core rest, room => do
    let v ← deeper room fun room => evaluate fuel room core frame
    if v.isEscape then return v
    let w ← deeper room (rest.fill frame fuel)
    if w.isEscape then return w
    let items ← elements "append" room v
    newList (items ++ (← elements "append" room w))
  | pair first rest, room => do
    let v ← deeper room (first.fill frame fuel)
    if v.isEscape then return v
    let w ← deeper room (rest.fill frame fuel)
    if w.isEscape then return w
    newList (v :: (← elements "cons" room w))

theorem growing_fill (frame : FrameId) (t : Template) :
    ∀ room, Growing fun fuel => t.fill frame fuel room := by
  induction t with
  | quoted v => exact fun room => .const _
  | unquoted core => exact fun room => growing_evaluate room core frame
  | splice core rest ih =>
    intro room
    exact .passing (growing_part frame room core) fun v => .passing (.deeper ih room) fun w => .const _
  | pair first rest ihf ihr =>
    intro room
    exact .passing (.deeper ihf room) fun v => .passing (.deeper ihr room) fun w => .const _

/-- The core form that fills a template. -/
inductive IsCode : Template → Value → Prop
  | quoted {v i} : IsCode (quoted v) (.list i [.symbol "quote", v])
  | unquoted {core} : IsCode (unquoted core) core
  | splice {core rest code i} : IsCode rest code →
      IsCode (splice core rest) (.list i [.symbol "append", core, code])
  | pair {first rest code code' i} : IsCode first code → IsCode rest code' →
      IsCode (pair first rest) (.list i [.symbol "cons", code, code'])

/-- The states from which a part of a template is filled. -/
inductive Reaches (frame : FrameId) : Template → (room : Nat) → Machine → Machine → Prop
  | here {t room m} : Reaches frame t room m m
  | spliced {core rest room m v n l} :
      Finishes (fun fuel => evaluate fuel room core frame) m (.ok v, n) → v.isEscape = false →
      Reaches frame rest room n l → Reaches frame (splice core rest) (room + 1) m l
  | first {first rest room m l} : Reaches frame first room m l →
      Reaches frame (pair first rest) (room + 1) m l
  | rest {first rest room m v n l} :
      Finishes (fun fuel => first.fill frame fuel room) m (.ok v, n) → v.isEscape = false →
      Reaches frame rest room n l → Reaches frame (pair first rest) (room + 1) m l

end Template

/-- The names of the procedures that make lists stand for them. -/
structure Machine.BuildsLists (m : Machine) (frame : FrameId) : Prop where
  cons : m.frames.lookup? frame (.name "cons") = some (.primitive .cons)
  append : m.frames.lookup? frame (.name "append") = some (.primitive .append)

/-- The parts of a form with two operands are evaluated in turn. -/
theorem evaluate_binary {fuel room i : Nat} {head e e' : Value} {frame : FrameId}
    (noKeyword : CoreKeyword.ofHead? head = none) :
    evaluate (fuel + 1) room (.list i [head, e, e']) frame =
      passing id (Form.part frame room fuel head) fun p =>
        passing id (Form.part frame room fuel e) fun v =>
          passing id (Form.part frame room fuel e') fun w =>
            (calls fuel).callInPlace room frame p [v, w] := by
  rw [evaluate_application noKeyword]
  simp only [operandValues, Form.operands, bind_assoc]
  refine congrArg (Bind.bind _) (funext fun p => ?_)
  cases p.isEscape with
  | true => rfl
  | false =>
    simp only [Bool.false_eq_true, if_false, bind_assoc]
    refine congrArg (Bind.bind _) (funext fun v => ?_)
    cases v.isEscape with
    | true => rfl
    | false =>
      simp only [Bool.false_eq_true, if_false, bind_assoc]
      refine congrArg (Bind.bind _) (funext fun w => ?_)
      cases w.isEscape with
      | true => rfl
      | false => rfl

section Builtin

variable {frame : FrameId} {room : Nat} {e e' : Value}

/-- Two operands in turn, and a primitive on their values. -/
def binary (p : Primitive) (frame : FrameId) (room : Nat) (e e' : Value) (fuel : Nat) : Run Value :=
  passing id (Form.part frame room fuel e) fun v =>
    passing id (Form.part frame room fuel e') fun w => p.run room [v, w]

/-- An application of the name of a primitive. -/
theorem finishes_binary_iff {m : Machine} {o : Outcome Value} {i : Nat} {name : String} {p : Primitive}
    (noKeyword : CoreKeyword.ofHead? (.symbol name) = none)
    (found : m.frames.lookup? frame (.name name) = some (.primitive p)) :
    Finishes (fun fuel => evaluate fuel (room + 1) (.list i [.symbol name, e, e']) frame) m o ↔
      Finishes (binary p frame (room + 1) e e') m o := by
  have operand (e : Value) (fuel : Nat) :
      Approximates Slack.none.Early (Form.part frame (room + 1) fuel e)
        (Form.part frame (room + 1) (fuel + 1) e) :=
    growing_part frame _ e _ _ (Nat.le_succ fuel)
  have procedure : Finishes (fun fuel => Form.part frame (room + 1) fuel (.symbol name)) m
      (.ok (.primitive p), m) :=
    ⟨1, outcome_lookup found room, not_stopped_ok⟩
  rw [← Finishes.succ_iff (growing_evaluate _ _ _)]
  simp only [evaluate_binary noKeyword]
  rw [Finishes.passing_ok (growing_part _ _ _) ?_ procedure rfl]
  · constructor
    · refine Finishes.of_approximates fun fuel => ⟨fuel, ?_⟩
      refine .passing (.refl _) fun v _ => .passing (.refl _) fun w _ => ?_
      cases fuel with
      | zero => exact .outOfSteps _
      | succ fuel => exact .refl _
    · refine Finishes.of_approximates fun fuel => ⟨fuel + 1, ?_⟩
      exact .passing (operand e fuel) fun v _ => .passing (operand e' fuel) fun w _ => .refl _
  · intro q
    refine .passing (growing_part _ _ _) fun v => .passing (growing_part _ _ _) fun w => ?_
    exact growing_callInPlace _ _ _ _

end Builtin

namespace Template

variable {frame : FrameId} {t : Template} {code : Value}

theorem runAppend_two (room : Nat) (v w : Value) :
    Primitive.append.run room [v, w] = (do
      let items ← elements "append" room v
      newList (items ++ (← elements "append" room w))) := by
  change (do newList (← [v, w].mapM (listOperand room "append")).flatten) = _
  simp [listOperand_eq_elements]

theorem runCons_two (room : Nat) (v w : Value) :
    Primitive.cons.run room [v, w] = (do newList (v :: (← elements "cons" room w))) := by
  rw [← listOperand_eq_elements]
  rfl

/-- The code of a template fills it. -/
theorem IsCode.finishes_iff (h : IsCode t code) {room : Nat} {m : Machine}
    (steady : ∀ n, Reaches frame t room m n → n.BuildsLists frame) (o : Outcome Value) :
    Finishes (fun fuel => evaluate fuel room code frame) m o ↔
      Finishes (fun fuel => t.fill frame fuel room) m o := by
  induction h generalizing room m o with
  | quoted =>
    rw [← Finishes.succ_iff (growing_evaluate _ _ _)]
    exact Iff.rfl
  | unquoted => exact Iff.rfl
  | splice _ ih =>
    cases room with
    | zero =>
      have noKeyword : CoreKeyword.ofHead? (.symbol "append") = none := rfl
      rw [← Finishes.succ_iff (growing_evaluate _ _ _)]
      simp only [evaluate_binary noKeyword]
      exact Iff.rfl
    | succ room =>
      rw [finishes_binary_iff rfl (steady m .here).append]
      refine Finishes.passing_congr (growing_part _ _ _) (growing_part _ _ _) ?_ ?_
        (fun _ => Iff.rfl) fun v n done here => ?_
      · exact fun v => .passing (growing_part _ _ _) fun w => .const _
      · exact fun v => .passing (.deeper (growing_fill _ _) _) fun w => .const _
      · refine Finishes.passing_congr (growing_part _ _ _) (.deeper (growing_fill _ _) _)
          (fun _ => .const _) (fun _ => .const _) ?_ fun w _ _ _ => ?_
        · exact ih fun l reached => steady l (.spliced done here reached)
        · rw [runAppend_two]
  | pair _ _ ihf ihr =>
    cases room with
    | zero =>
      have noKeyword : CoreKeyword.ofHead? (.symbol "cons") = none := rfl
      rw [← Finishes.succ_iff (growing_evaluate _ _ _)]
      simp only [evaluate_binary noKeyword]
      exact Iff.rfl
    | succ room =>
      rw [finishes_binary_iff rfl (steady m .here).cons]
      have first := ihf fun l reached => steady l (.first reached)
      refine Finishes.passing_congr (growing_part _ _ _) (.deeper (growing_fill _ _) _) ?_ ?_
        first fun v n done here => ?_
      · exact fun v => .passing (growing_part _ _ _) fun w => .const _
      · exact fun v => .passing (.deeper (growing_fill _ _) _) fun w => .const _
      · refine Finishes.passing_congr (growing_part _ _ _) (.deeper (growing_fill _ _) _)
          (fun _ => .const _) (fun _ => .const _) ?_ fun w _ _ _ => ?_
        · exact ihr fun l reached => steady l (.rest ((first _).mp done) here reached)
        · rw [runCons_two]

/-- The unquoted parts from left to right. -/
def cores : Template → List Value
  | quoted _ => []
  | unquoted core => [core]
  | splice core rest => core :: rest.cores
  | pair first rest => first.cores ++ rest.cores

/-- Forms are evaluated one after another, each of them once; in between only lists are made. -/
inductive InTurn (frame : FrameId) : List Value → Machine → Machine → Prop
  | nil {m k} : InTurn frame [] m (m.made k)
  | cons {e es m k room v n l} :
      Finishes (fun fuel => evaluate fuel room e frame) (m.made k) (.ok v, n) →
      v.isEscape = false → InTurn frame es n l → InTurn frame (e :: es) m l

namespace InTurn

variable {es es' : List Value} {m n l : Machine} {count : Nat}

theorem of_made (h : InTurn frame es (m.made count) n) : InTurn frame es m n := by
  generalize hm : m.made count = m' at h
  cases h with
  | nil =>
    rw [← hm, Machine.made_made]
    exact .nil
  | cons done here rest =>
    rw [← hm, Machine.made_made] at done
    exact .cons done here rest

theorem append (h : InTurn frame es m n) (h' : InTurn frame es' n l) :
    InTurn frame (es ++ es') m l := by
  induction h with
  | nil => exact h'.of_made
  | cons done here _ ih => exact .cons done here (ih h')

/-- A list is made at the end. -/
theorem made (h : InTurn frame es m n) : InTurn frame es m (n.made count) := by
  have longer := h.append (.nil (k := count))
  rwa [List.append_nil] at longer

end InTurn

/-- Taking the elements of a list changes nothing. -/
theorem ends_elements_bind {room : Nat} {name : String} {v w : Value} {k : List Value → Run Value}
    {m n : Machine} (h : (elements name room v >>= k).Ends m w n) :
    ∃ items, (k items).Ends m w n := by
  rw [← listOperand_eq_elements] at h
  cases v with
  | list i items => exact ⟨items, h⟩
  | _ =>
    obtain ⟨_, _, failed, _⟩ := outcome_bind_ok.mp h
    obtain ⟨_, _, _, failed⟩ := outcome_bind_ok.mp failed
    exact absurd failed not_ends_fail

theorem ne_of_isEscape {v : Value} (here : v.isEscape = false) (w : Value) (there : w.isEscape = true) :
    w ≠ v := by
  rintro rfl
  rw [here] at there
  cases there

/-- A template that is filled has had each unquoted part evaluated once, from left to right. -/
theorem inTurn_of_fill {room : Nat} {m n : Machine} {v : Value} (here : v.isEscape = false)
    (h : Finishes (fun fuel => t.fill frame fuel room) m (.ok v, n)) : InTurn frame t.cores m n := by
  induction t generalizing room m n v with
  | quoted w =>
    obtain ⟨_, ends, _⟩ := h
    obtain ⟨rfl, rfl⟩ := ends_pure.mp ends
    exact .nil (k := 0)
  | unquoted core => exact .cons (k := 0) h here (.nil (k := 0))
  | splice core rest ih =>
    obtain ⟨w, l, first, plain, after⟩ := Finishes.of_passing (ne_of_isEscape here) h
    obtain ⟨w', l', second, plain', _, ends, _⟩ := Finishes.of_passing (ne_of_isEscape here) after
    obtain ⟨_, _, first⟩ := Finishes.of_deeper first
    obtain ⟨_, _, second⟩ := Finishes.of_deeper second
    obtain ⟨items, ends⟩ := ends_elements_bind ends
    obtain ⟨more, ends⟩ := ends_elements_bind ends
    obtain ⟨_, rfl⟩ := ends_newList.mp ends
    exact .cons (k := 0) first plain (ih plain' second).made
  | pair first rest ihf ihr =>
    obtain ⟨w, l, first, plain, after⟩ := Finishes.of_passing (ne_of_isEscape here) h
    obtain ⟨w', l', second, plain', _, ends, _⟩ := Finishes.of_passing (ne_of_isEscape here) after
    obtain ⟨_, _, first⟩ := Finishes.of_deeper first
    obtain ⟨_, _, second⟩ := Finishes.of_deeper second
    obtain ⟨items, ends⟩ := ends_elements_bind ends
    obtain ⟨_, rfl⟩ := ends_newList.mp ends
    exact (ihf plain first).append (ihr plain' second).made

end Template

end SmallLisp
