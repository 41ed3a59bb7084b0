import SmallLisp.Proofs.Escapes
import SmallLisp.Proofs.Overflows
import SmallLisp.Proofs.Reports
/-!
# How built-in procedures fail

A built-in procedure refuses operands by a failure of its own: there are too many or too few, or one is not of the kind
that the procedure works on. Other failures stray out of it in three ways. An integer too large for a double may meet a
double; the operand that a refusal shows may have no text; and lists may be too deep to be compared.
-/
namespace SmallLisp

open Run

/-- A failure by which a procedure refuses its operands. -/
inductive Failure.IsRefusal : Failure → Prop
  | arity (expected given : Nat) (detail : String) : IsRefusal (.arity expected given detail)
  | type (fault : TypeFault) : IsRefusal (.type fault)

namespace Primitive

/-- How many operands a procedure asks for, when it asks for a certain number. -/
def operandCount? : Primitive → Option Nat
  | random => some 0
  | not | length | car | cdr | display | isKind _ | elementary _ => some 1
  | same | equal | cons | atan2 | power => some 2
  | _ => none

/-- Whether a procedure gives a number. -/
def isNumeric : Primitive → Bool
  | add | subtract | multiply | divide | atan2 | power | hypotenuse | greatest | least | random | length
  | elementary _ => true
  | _ => false

/-- Whether a procedure takes a value without showing it. -/
def takes : Primitive → Value → Bool
  | add | subtract | multiply | divide | compare _ | atan2 | power | hypotenuse | greatest | least
  | elementary _ => Value.hasKind .number
  | cons | car | cdr | append => Value.hasKind .list
  | length => fun v => v.hasKind .list || v.hasKind .string
  | display => Value.hasKind .string
  | _ => fun _ => true

/-- The operand that a procedure shows: the first that it does not take. The first operand of `cons` may be any
value. -/
def shown? (p : Primitive) (args : List Value) : Option Value :=
  if ∀ n ∈ p.operandCount?, args.length = n then
    (if p = cons then args.drop 1 else args).find? fun v => !p.takes v
  else none

/-- Numbers for which a procedure needs a double that there is not. -/
def Overflows : Primitive → List Number → Overflow → Prop
  | add, xs, cause => Number.MeetsTooLarge (· + ·) (.int 0) xs ∧ cause = .integer
  | multiply, xs, cause => Number.MeetsTooLarge (· * ·) (.int 1) xs ∧ cause = .integer
  | subtract, x :: xs, cause => Number.MeetsTooLarge (· - ·) x xs ∧ cause = .integer
  | divide, xs, cause => Number.DivisionOverflows xs cause
  | atan2, [x, y], cause => Number.HasTooLarge [x, y] ∧ cause = .integer
  | hypotenuse, xs, cause => Number.HasTooLarge xs ∧ cause = .integer
  | _, _, _ => False

/-- The failures that stray out of a procedure. Only a function of one number makes a refusal of its own of a text that
is missing for a long integer. -/
inductive Strays (room : Nat) (p : Primitive) (args : List Value) : Failure → Prop
  | deep {v : Value} (shown : p.shown? args = some v) (h : v.isDeeperThan room = true) : Strays room p args .tooDeep
  | long {v : Value} (shown : p.shown? args = some v) (shallow : v.isDeeperThan room = false)
    (h : v.hasLongInteger = true) (other : ∀ f, p ≠ .elementary f) : Strays room p args (.longInteger none)
  | uncompared {v w : Value} (compares : p = .equal) (two : args = [v, w]) (h : v.equal? room w = none) :
    Strays room p args .tooDeep
  | overflow {xs : List Number} {cause : Overflow} (numbers : args.mapM Value.number? = some xs)
    (h : p.Overflows xs cause) : Strays room p args (.overflow cause)

end Primitive

/-! ## Computations that fail in known ways -/

namespace Run

/-- A computation fails in each of some ways when it can, and else gives a value or refuses. -/
def FailsAs (S : Failure → Prop) (P : Value → Prop) (a : Run Value) : Prop :=
  ∀ m, (∀ f, S f → outcome a m = (.error (.failed f), m)) ∧
    ((∀ f, ¬ S f) → (∃ v n, outcome a m = (.ok v, n) ∧ P v) ∨
      ∃ f, outcome a m = (.error (.failed f), m) ∧ f.IsRefusal)

/-- The failures of a value that has no text. -/
def Textless (room : Nat) (v : Value) (f : Failure) : Prop :=
  v.isDeeperThan room = true ∧ f = .tooDeep ∨
    v.isDeeperThan room = false ∧ v.hasLongInteger = true ∧ f = .longInteger none

namespace FailsAs

variable {S S' : Failure → Prop} {P : Value → Prop} {a b : Run Value}

theorem of_iff (same : ∀ f, S f ↔ S' f) (h : FailsAs S' P a) : FailsAs S P a := by
  have eq : S = S' := funext fun f => propext (same f)
  rwa [eq]

theorem congr (same : ∀ m, outcome a m = outcome b m) (h : FailsAs S P b) : FailsAs S P a := by
  intro m
  rw [same m]
  exact h m

theorem refusal (never : ∀ f, ¬ S f) {f : Failure} (h : f.IsRefusal) : FailsAs S P (fail f) :=
  fun _ => ⟨fun g strays => absurd strays (never g), fun _ => Or.inr ⟨f, rfl, h⟩⟩

theorem gives (never : ∀ f, ¬ S f) (h : ∀ m, ∃ v n, outcome a m = (.ok v, n) ∧ P v) : FailsAs S P a :=
  fun m => ⟨fun g strays => absurd strays (never g), fun _ => Or.inl (h m)⟩

theorem pure (never : ∀ f, ¬ S f) {v : Value} (h : P v) : FailsAs S P (pure v) :=
  gives never fun m => ⟨v, m, rfl, h⟩

theorem throws {f : Failure} (only : ∀ g, S g ↔ g = f) : FailsAs S P (fail f) := by
  refine fun _ => ⟨fun g strays => ?_, fun never => absurd ((only f).mpr rfl) (never f)⟩
  rw [(only g).mp strays]
  rfl

/-- A computation that shows a value first. -/
theorem source {room : Nat} {v : Value} {k : String → Run Value} (only : ∀ f, S f ↔ Textless room v f)
    (rest : (∀ f, ¬ S f) → ∀ text, FailsAs S P (k text)) : FailsAs S P (source room v >>= k) := by
  intro m
  have shows : outcome (Run.source room v) m = outcome (ofExcept (v.text? m.isLive room .source)) m := rfl
  cases text : v.text? m.isLive room .source with
  | error f =>
    have strays : S f := (only f).mpr (Session.text?_eq_error.mp text)
    have failed : outcome (Run.source room v >>= k) m = (.error (.failed f), m) := by
      refine outcome_bind_of_error ?_ k
      rw [shows, text]
      rfl
    refine ⟨fun g strays' => ?_, fun never => absurd strays (never f)⟩
    have same : v.text? m.isLive room .source = .error g := Session.text?_eq_error.mpr ((only g).mp strays')
    rw [text] at same
    cases same
    exact failed
  | ok shown =>
    have never : ∀ f, ¬ S f := by
      intro f strays
      have same : v.text? m.isLive room .source = .error f := Session.text?_eq_error.mpr ((only f).mp strays)
      rw [text] at same
      cases same
    have passed : outcome (Run.source room v >>= k) m = outcome (k shown) m := by
      refine outcome_bind_of_ok ?_ k
      rw [shows, text]
      rfl
    rw [passed]
    exact rest never shown m

end FailsAs

/-! ## Operands -/

variable {room : Nat} {args : List Value} {xs : List Number} {β : Type}

theorem hasKind_number (v : Value) : v.hasKind .number = v.number?.isSome := by
  cases v <;> rfl

theorem find?_eq_none_iff_mapM :
    (args.find? fun v => !v.hasKind .number) = none ↔ ∃ xs, args.mapM Value.number? = some xs := by
  induction args with
  | nil => exact iff_of_true rfl ⟨[], rfl⟩
  | cons v vs ih =>
    rw [List.find?_cons, hasKind_number, List.mapM_cons]
    cases number : v.number? with
    | none => exact iff_of_false nofun nofun
    | some x =>
      refine ih.trans ⟨?_, ?_⟩
      · rintro ⟨xs, all⟩
        exact ⟨x :: xs, by rw [all]; rfl⟩
      · rintro ⟨xs, all⟩
        cases rest : vs.mapM Value.number? with
        | none =>
          rw [rest] at all
          cases all
        | some ys => exact ⟨ys, rfl⟩

theorem outcome_numbers (room : Nat) (name : String) (h : args.mapM Value.number? = some xs) (m : Machine) :
    outcome (numbers room name args) m = (.ok xs, m) := by
  induction args generalizing xs with
  | nil =>
    cases h
    rfl
  | cons v vs ih =>
    rw [List.mapM_cons] at h
    obtain ⟨x, first, h⟩ := Option.bind_eq_some_iff.mp h
    obtain ⟨ys, rest, h⟩ := Option.bind_eq_some_iff.mp h
    cases h
    unfold numbers
    rw [first]
    exact outcome_bind_of_ok (ih rest) _

/-- The first operand that is no number is shown. -/
theorem outcome_numbers_refused (room : Nat) (name : String) {v : Value}
    (h : (args.find? fun v => !v.hasKind .number) = some v) (k : List Number → Run β) (m : Machine) :
    outcome (numbers room name args >>= k) m =
      outcome (source room v >>= fun shown => (fail (.type (.notNumber name shown)) : Run β)) m := by
  induction args generalizing k with
  | nil => cases h
  | cons u us ih =>
    rw [List.find?_cons, hasKind_number] at h
    unfold numbers
    cases number : u.number? with
    | none =>
      rw [number] at h
      cases h
      dsimp only
      rw [bind_assoc]
      refine outcome_bind_congr rfl fun shown n _ => ?_
      exact outcome_bind_of_error rfl k
    | some x =>
      rw [number] at h
      dsimp only
      rw [bind_assoc]
      exact ih h _

theorem outcome_listOperands (room : Nat) (name : String) (h : (args.find? fun v => !v.hasKind .list) = none)
    (m : Machine) : ∃ lists, outcome (args.mapM (listOperand room name)) m = (.ok lists, m) := by
  induction args with
  | nil => exact ⟨[], rfl⟩
  | cons v vs ih =>
    rw [List.find?_cons] at h
    cases v with
    | list i items =>
      obtain ⟨lists, rest⟩ := ih h
      refine ⟨items :: lists, ?_⟩
      rw [List.mapM_cons]
      exact outcome_bind_of_ok rest _
    | _ => cases h

theorem outcome_listOperand_refused (room : Nat) (name : String) {v : Value} (h : v.hasKind .list = false)
    (k : List Value → Run β) (m : Machine) : outcome (listOperand room name v >>= k) m =
      outcome (source room v >>= fun shown => (fail (.type (.notList name shown)) : Run β)) m := by
  unfold listOperand
  split
  · cases h
  · rw [bind_assoc]
    exact outcome_bind_congr rfl fun shown n _ => outcome_bind_of_error rfl k

/-- The first operand that is no list is shown. -/
theorem outcome_listOperands_refused (room : Nat) (name : String) {v : Value}
    (h : (args.find? fun v => !v.hasKind .list) = some v) (k : List (List Value) → Run β) (m : Machine) :
    outcome (args.mapM (listOperand room name) >>= k) m =
      outcome (source room v >>= fun shown => (fail (.type (.notList name shown)) : Run β)) m := by
  induction args generalizing k with
  | nil => cases h
  | cons u us ih =>
    rw [List.find?_cons] at h
    rw [List.mapM_cons, bind_assoc]
    cases kind : u.hasKind .list with
    | false =>
      rw [kind] at h
      cases h
      exact outcome_listOperand_refused room name kind _ m
    | true =>
      rw [kind] at h
      cases u with
      | list i items =>
        change outcome ((us.mapM (listOperand room name) >>= fun lists => pure (items :: lists)) >>= k) m = _
        rw [bind_assoc]
        exact ih h _
      | _ => cases kind

theorem length_of_mapM (h : args.mapM Value.number? = some xs) : xs.length = args.length := by
  induction args generalizing xs with
  | nil =>
    cases h
    rfl
  | cons v vs ih =>
    rw [List.mapM_cons] at h
    obtain ⟨x, _, h⟩ := Option.bind_eq_some_iff.mp h
    obtain ⟨ys, rest, h⟩ := Option.bind_eq_some_iff.mp h
    cases h
    rw [List.length_cons, List.length_cons, ih rest]

end Run

namespace Primitive

variable {room : Nat} {p : Primitive} {args : List Value} {xs : List Number} {v : Value} {f : Failure}

/-- Numbers that overflow are all taken. -/
theorem Overflows.shown? {cause : Overflow} (h : p.Overflows xs cause) (numbers : args.mapM Value.number? = some xs) :
    p.shown? args = none := by
  have all := find?_eq_none_iff_mapM.mpr ⟨xs, numbers⟩
  unfold Primitive.shown?
  split
  · unfold Overflows at h
    split at h
    · exact all
    · exact all
    · exact all
    · exact all
    · exact all
    · exact all
    · cases h
  · rfl

theorem strays_shown_iff (shown : p.shown? args = some v) (other : ∀ f, p ≠ .elementary f) :
    Strays room p args f ↔ Textless room v f := by
  constructor
  · rintro (⟨shown', h⟩ | ⟨shown', shallow, h, _⟩ | ⟨rfl, rfl, h⟩ | ⟨numbers, h⟩)
    · rw [shown] at shown'
      cases shown'
      exact Or.inl ⟨h, rfl⟩
    · rw [shown] at shown'
      cases shown'
      exact Or.inr ⟨shallow, h, rfl⟩
    · cases shown
    · rw [h.shown? numbers] at shown
      cases shown
  · rintro (⟨h, rfl⟩ | ⟨shallow, h, rfl⟩)
    · exact .deep shown h
    · exact .long shown shallow h other

theorem strays_iff_overflows (shown : p.shown? args = none) (other : p ≠ .equal) :
    Strays room p args f ↔
      ∃ xs cause, args.mapM Value.number? = some xs ∧ p.Overflows xs cause ∧ f = .overflow cause := by
  constructor
  · rintro (⟨shown', _⟩ | ⟨shown', _⟩ | ⟨compares, _⟩ | ⟨numbers, h⟩)
    · rw [shown] at shown'
      cases shown'
    · rw [shown] at shown'
      cases shown'
    · exact absurd compares other
    · exact ⟨_, _, numbers, h, rfl⟩
  · rintro ⟨xs, cause, numbers, h, rfl⟩
    exact .overflow numbers h

/-- What a procedure gives is a number if it computes one. -/
def GivesKind (p : Primitive) (v : Value) : Prop :=
  p.isNumeric = true → v.hasKind .number = true

theorem newNumber_gives_number (x : Number) (m : Machine) :
    ∃ v n, outcome (newNumber x) m = (.ok v, n) ∧ v.hasKind .number = true := by
  cases x with
  | int k => exact ⟨.int k, m, rfl, rfl⟩
  | float x =>
    unfold newNumber
    dsimp only
    split
    · exact ⟨.nan m.nextObject, _, rfl, rfl⟩
    · exact ⟨.float x, m, rfl, rfl⟩

section

variable {S : Failure → Prop} {P : Value → Prop} {k : List Number → Run Value}

theorem newNumber_failsAs (never : ∀ f, ¬ S f) (x : Number) : FailsAs S p.GivesKind (newNumber x) := by
  refine .gives never fun m => ?_
  obtain ⟨v, n, given, number⟩ := newNumber_gives_number x m
  exact ⟨v, n, given, fun _ => number⟩

/-- A number that is computed from numbers, or an overflow. -/
theorem ofOverflow_failsAs {e : Except Overflow Number}
    (h : (∃ cause, e = .error cause ∧ ∀ f, S f ↔ f = .overflow cause) ∨ (∀ f, ¬ S f) ∧ ∃ x, e = .ok x) :
    FailsAs S p.GivesKind (do newNumber (← ofOverflow e)) := by
  rcases h with ⟨cause, rfl, only⟩ | ⟨never, x, rfl⟩
  · exact .throws only
  · exact newNumber_failsAs never x

theorem ofMath_failsAs (never : ∀ f, ¬ S f) (name : String) (e : Except MathFault Number) :
    FailsAs S p.GivesKind (ofMath name e) := by
  cases e with
  | error fault => exact .refusal never (.type _)
  | ok x => exact newNumber_failsAs never x

/-- A procedure of numbers shows the first operand that is none. -/
theorem numbers_failsAs (name : String) (count : ∀ n ∈ p.operandCount?, args.length = n)
    (takes : p.takes = Value.hasKind .number) (plain : p ≠ .cons) (compares : p ≠ .equal)
    (other : ∀ f, p ≠ .elementary f)
    (rest : ∀ xs, args.mapM Value.number? = some xs →
      FailsAs (fun f => ∃ cause, p.Overflows xs cause ∧ f = .overflow cause) P (k xs)) :
    FailsAs (Strays room p args) P (numbers room name args >>= k) := by
  have shows : p.shown? args = args.find? fun v => !v.hasKind .number := by
    rw [shown?, if_pos count, if_neg plain, takes]
  cases shown : args.find? fun v => !v.hasKind .number with
  | some v =>
    rw [shown] at shows
    refine .congr (outcome_numbers_refused room name shown k) ?_
    refine .source (fun f => strays_shown_iff shows other) fun never text => .refusal never (.type _)
  | none =>
    rw [shown] at shows
    obtain ⟨xs, numbers⟩ := find?_eq_none_iff_mapM.mp shown
    refine .congr (fun m => outcome_bind_of_ok (outcome_numbers room name numbers m) k) ?_
    refine .of_iff (fun f => ?_) (rest xs numbers)
    rw [strays_iff_overflows shows compares]
    constructor
    · rintro ⟨ys, cause, numbers', h, rfl⟩
      rw [numbers] at numbers'
      cases numbers'
      exact ⟨cause, h, rfl⟩
    · rintro ⟨cause, h, rfl⟩
      exact ⟨xs, cause, numbers, h, rfl⟩

/-- Nothing strays out of a procedure that is given too many or too few operands. -/
theorem not_strays_of_count {n : Nat} (count : p.operandCount? = some n) (h : args.length ≠ n) :
    ¬ Strays room p args f := by
  have shows : p.shown? args = none := by
    rw [shown?, if_neg]
    intro all
    exact h (all n count)
  rintro (⟨shown, _⟩ | ⟨shown, _⟩ | ⟨rfl, rfl, _⟩ | ⟨numbers, overflows⟩)
  · rw [shows] at shown
    cases shown
  · rw [shows] at shown
    cases shown
  · cases count
    exact h rfl
  · have length := length_of_mapM numbers
    unfold Overflows at overflows
    split at overflows
    · cases count
    · cases count
    · cases count
    · cases count
    · cases count
      exact h length.symm
    · cases count
    · exact overflows

theorem requireArity_failsAs {a : Run Value} (name : String) {n : Nat} (count : p.operandCount? = some n)
    (rest : args.length = n → FailsAs (Strays room p args) P a) :
    FailsAs (Strays room p args) P (requireArity name n args >>= fun _ => a) := by
  unfold requireArity
  by_cases h : args.length = n
  · rw [if_pos h]
    exact rest h
  · rw [if_neg h]
    exact .refusal (fun f => not_strays_of_count count h) (.arity ..)

theorem oneOperand_failsAs {k : Value → Run Value} (name : String) (count : p.operandCount? = some 1)
    (rest : ∀ v, args = [v] → FailsAs (Strays room p args) P (k v)) :
    FailsAs (Strays room p args) P (oneOperand name args >>= k) := by
  by_cases one : ∃ v, args = [v]
  · obtain ⟨v, rfl⟩ := one
    exact rest v rfl
  · have given : oneOperand name args = fail (.arity 1 args.length name) := by
      unfold oneOperand
      split
      · exact absurd ⟨_, rfl⟩ one
      · rfl
    rw [given]
    refine .refusal (fun f => not_strays_of_count count fun length => ?_) (.arity ..)
    exact one (List.length_eq_one_iff.mp length)

theorem twoOperands_failsAs {k : Value × Value → Run Value} (name : String) (count : p.operandCount? = some 2)
    (rest : ∀ v w, args = [v, w] → FailsAs (Strays room p args) P (k (v, w))) :
    FailsAs (Strays room p args) P (twoOperands name args >>= k) := by
  by_cases two : ∃ v w, args = [v, w]
  · obtain ⟨v, w, rfl⟩ := two
    exact rest v w rfl
  · have given : twoOperands name args = fail (.arity 2 args.length name) := by
      unfold twoOperands
      split
      · exact absurd ⟨_, _, rfl⟩ two
      · rfl
    rw [given]
    refine .refusal (fun f => not_strays_of_count count fun length => ?_) (.arity ..)
    exact two (List.length_eq_two.mp length)

/-- Nothing strays out of a procedure that takes its operands and needs no doubles. -/
theorem not_strays (shown : p.shown? args = none) (small : ∀ xs cause, ¬ p.Overflows xs cause) (other : p ≠ .equal)
    (f : Failure) : ¬ Strays room p args f := by
  rw [strays_iff_overflows shown other]
  rintro ⟨xs, cause, _, h, _⟩
  exact small xs cause h

theorem shown?_eq_none (h : ∀ v ∈ args, p.takes v = true) : p.shown? args = none := by
  have all : ∀ vs : List Value, (∀ v ∈ vs, v ∈ args) → (vs.find? fun v => !p.takes v) = none := by
    intro vs subset
    refine List.find?_eq_none.mpr fun v mem => ?_
    rw [h v (subset v mem)]
    exact nofun
  unfold shown?
  split
  · split
    · exact all _ fun v => List.mem_of_mem_drop
    · exact all _ fun v => id
  · rfl

theorem shown?_one (v : Value) (count : p.operandCount? = some 1) :
    p.shown? [v] = if p.takes v then none else some v := by
  have plain : p ≠ .cons := by
    rintro rfl
    cases count
  rw [shown?, if_pos, if_neg plain, List.find?_cons, List.find?_nil]
  · cases p.takes v <;> rfl
  · intro n mem
    rw [count] at mem
    cases mem
    rfl

/-- A list operand is taken, and another value is shown. -/
theorem listOperand_failsAs (name : String) {v : Value} {k : List Value → Run Value}
    (other : ∀ f, p ≠ .elementary f) (shown : v.hasKind .list = false → p.shown? args = some v)
    (rest : ∀ i items, v = .list i items → FailsAs (Strays room p args) P (k items)) :
    FailsAs (Strays room p args) P (listOperand room name v >>= k) := by
  by_cases list : ∃ i items, v = .list i items
  · obtain ⟨i, items, rfl⟩ := list
    exact rest i items rfl
  · have kind : v.hasKind .list = false := by
      cases v with
      | list i items => exact absurd ⟨i, items, rfl⟩ list
      | _ => rfl
    refine .congr (outcome_listOperand_refused room name kind k) ?_
    exact .source (fun f => strays_shown_iff (shown kind) other) fun never text => .refusal never (.type _)

/-! ## The numeric procedures -/

/-- Computing from left to right overflows when an integer that is too large meets a double. -/
theorem combined_failsAs {op : Int → Int → Int} {fop : Float → Float → Float} {x : Number} {ys : List Number}
    (overflows : ∀ cause, p.Overflows ys cause ↔ Number.MeetsTooLarge op x xs ∧ cause = .integer) :
    FailsAs (fun f => ∃ cause, p.Overflows ys cause ∧ f = .overflow cause) p.GivesKind
      (do newNumber (← ofOverflow (xs.foldlM (Number.combine op fop) x))) := by
  refine ofOverflow_failsAs ?_
  rcases @Number.foldlM_combine op fop x xs with ⟨large, failed⟩ | ⟨small, given⟩
  · refine Or.inl ⟨.integer, failed, fun f => ⟨?_, ?_⟩⟩
    · rintro ⟨cause, h, rfl⟩
      rw [((overflows cause).mp h).2]
    · rintro rfl
      exact ⟨.integer, (overflows _).mpr ⟨large, rfl⟩, rfl⟩
  · refine Or.inr ⟨?_, given⟩
    rintro f ⟨cause, h, rfl⟩
    exact small ((overflows cause).mp h).1

/-- Numbers that all become doubles overflow when one is too large. -/
theorem floats_failsAs {k : List Float → Run Value} {ys : List Number}
    (overflows : ∀ cause, p.Overflows ys cause ↔ Number.HasTooLarge xs ∧ cause = .integer)
    (rest : ∀ {S : Failure → Prop}, (∀ f, ¬ S f) → ∀ zs, FailsAs S P (k zs)) :
    FailsAs (fun f => ∃ cause, p.Overflows ys cause ∧ f = .overflow cause) P (floats xs >>= k) := by
  unfold floats
  rcases Number.mapM_toFloat xs with ⟨large, failed⟩ | ⟨small, zs, _, given⟩
  · rw [failed]
    refine .congr (fun m => outcome_bind_of_error rfl k) (.throws fun f => ⟨?_, ?_⟩)
    · rintro ⟨cause, h, rfl⟩
      rw [((overflows cause).mp h).2]
    · rintro rfl
      exact ⟨.integer, (overflows _).mpr ⟨large, rfl⟩, rfl⟩
  · rw [given]
    refine .congr (fun m => outcome_bind_of_ok rfl k) (rest ?_ zs)
    rintro f ⟨cause, h, rfl⟩
    exact small ((overflows cause).mp h).1

theorem not_exists_overflow {ys : List Number} (small : ∀ cause, ¬ p.Overflows ys cause) (f : Failure) :
    ¬ ∃ cause, p.Overflows ys cause ∧ f = .overflow cause := by
  rintro ⟨cause, h, _⟩
  exact small cause h

theorem runSubtract_failsAs : FailsAs (Strays room subtract args) subtract.GivesKind (runSubtract room args) := by
  refine numbers_failsAs "-" nofun rfl nofun nofun nofun fun xs _ => ?_
  cases xs with
  | nil => exact .refusal (not_exists_overflow fun cause => id) (.arity ..)
  | cons x xs =>
    cases xs with
    | nil =>
      refine newNumber_failsAs (not_exists_overflow fun cause overflows => ?_) _
      exact Number.not_meetsTooLarge_nil (And.left overflows)
    | cons y rest => exact combined_failsAs fun _ => Iff.rfl

/-- One operand divides one, and this does not overflow. -/
theorem runDivide_failsAs : FailsAs (Strays room divide args) divide.GivesKind (runDivide room args) := by
  refine numbers_failsAs "/" nofun rfl nofun nofun nofun fun xs _ => ?_
  cases xs with
  | nil =>
    have never := not_exists_overflow (p := divide) fun cause (h : Number.DivisionOverflows [] cause) => nomatch h
    exact .refusal never (.arity ..)
  | cons x xs =>
    cases xs with
    | nil =>
      have never := not_exists_overflow (p := divide) fun cause (h : Number.DivisionOverflows [x] cause) => nomatch h
      rcases Number.div_cases (.int 1) x with ⟨cause, h, _⟩ | ⟨_, ⟨_, failed⟩ | ⟨_, z, given⟩⟩
      · exact absurd h (Number.not_quotientOverflows_one x cause)
      · dsimp only
        rw [failed]
        exact .refusal never (.type .divisionByZero)
      · dsimp only
        rw [given]
        exact newNumber_failsAs never (.float z)
    | cons y rest =>
      dsimp only
      rcases Number.foldlM_div x y rest with ⟨cause, h, failed⟩ | ⟨passed, failed | ⟨z, given⟩⟩
      · rw [failed]
        refine .congr (fun m => outcome_bind_of_error rfl _) (.throws fun f => ⟨?_, ?_⟩)
        · rintro ⟨cause', h', rfl⟩
          rw [h.unique h']
        · rintro rfl
          exact ⟨cause, h, rfl⟩
      · rw [failed]
        exact .refusal (not_exists_overflow (p := divide) passed) (.type .divisionByZero)
      · rw [given]
        exact newNumber_failsAs (not_exists_overflow (p := divide) passed) z

theorem runCompare_failsAs (c : Comparison) :
    FailsAs (Strays room (compare c) args) (compare c).GivesKind (runCompare c room args) :=
  numbers_failsAs c.name nofun rfl nofun nofun nofun fun _ _ =>
    .pure (not_exists_overflow fun _ => id) nofun

theorem runPower_failsAs : FailsAs (Strays room power args) power.GivesKind (runPower room args) := by
  refine twoOperands_failsAs "pow" rfl ?_
  rintro v w rfl
  refine numbers_failsAs "pow" (by rintro _ ⟨⟩; rfl) rfl nofun nofun nofun fun xs _ => ?_
  have never : ∀ f : Failure, ¬ ∃ cause, Overflows power xs cause ∧ f = .overflow cause :=
    not_exists_overflow fun cause => id
  split
  · exact ofMath_failsAs never "pow" _
  · exact .refusal never (.arity ..)

theorem runAtan2_failsAs : FailsAs (Strays room atan2 args) atan2.GivesKind (runAtan2 room args) := by
  refine requireArity_failsAs "atan2" rfl fun two => ?_
  refine numbers_failsAs "atan2" (by rintro _ ⟨⟩; exact two) rfl nofun nofun nofun fun xs numbers => ?_
  obtain ⟨x, y, rfl⟩ := List.length_eq_two.mp ((length_of_mapM numbers).trans two)
  refine floats_failsAs (fun _ => Iff.rfl) fun never zs => ?_
  split
  · exact newNumber_failsAs never _
  · exact .refusal never (.arity ..)

theorem runHypotenuse_failsAs :
    FailsAs (Strays room hypotenuse args) hypotenuse.GivesKind (runHypotenuse room args) :=
  numbers_failsAs "hypot" nofun rfl nofun nofun nofun fun _ _ =>
    floats_failsAs (fun _ => Iff.rfl) fun never _ => newNumber_failsAs never _

/-- The best of some elements is one of them. -/
theorem foldl_choice_mem {α : Type} (beats : α → α → Bool) (x : α) (xs : List α) :
    xs.foldl (fun best x => if beats x best then x else best) x ∈ x :: xs := by
  induction xs generalizing x with
  | nil => exact List.mem_singleton_self x
  | cons y ys ih =>
    rw [List.foldl_cons]
    rcases List.mem_cons.mp (ih (if beats y x then y else x)) with same | later
    · rw [same]
      split
      · exact List.mem_cons_of_mem _ List.mem_cons_self
      · exact List.mem_cons_self
    · exact List.mem_cons_of_mem _ (List.mem_cons_of_mem _ later)

/-- The greatest or the least operand is one of the operands. -/
theorem runExtreme_failsAs (name : String) (beats : Number → Number → Bool)
    (count : p.operandCount? = none) (takes : p.takes = Value.hasKind .number) (other : ∀ f, p ≠ .elementary f)
    (small : ∀ xs cause, ¬ p.Overflows xs cause) :
    FailsAs (Strays room p args) p.GivesKind (runExtreme name beats room args) := by
  have plain : p ≠ .cons := by
    rintro rfl
    cases count
  have compares : p ≠ .equal := by
    rintro rfl
    cases count
  unfold runExtreme numbered
  rw [bind_assoc]
  refine numbers_failsAs name (by rw [count]; nofun) takes plain compares other fun xs numbers => ?_
  have never := not_exists_overflow (small xs)
  rw [pure_bind]
  have all : ∀ v ∈ args, v.hasKind .number = true := by
    have none := List.find?_eq_none.mp (find?_eq_none_iff_mapM.mpr ⟨xs, numbers⟩)
    exact fun v mem => by simpa using none v mem
  split
  · exact .refusal never (.arity ..)
  · rename_i x others zipped
    refine .pure never fun _ => all _ ?_
    have chosen := foldl_choice_mem (fun (a b : Number × Value) => beats a.1 b.1) x others
    rw [← zipped] at chosen
    exact (List.of_mem_zip chosen).2

theorem runRandom_failsAs : FailsAs (Strays room random args) random.GivesKind (runRandom args) := by
  refine requireArity_failsAs "random" rfl fun _ => ?_
  refine .gives (not_strays (shown?_eq_none fun _ _ => rfl) (fun _ _ => id) nofun) fun m => ?_
  exact ⟨_, _, rfl, fun _ => rfl⟩

/-- A function of one number makes a refusal of its own when the operand that it shows holds a long integer. -/
theorem runElementary_failsAs (e : Elementary) :
    FailsAs (Strays room (elementary e) args) (elementary e).GivesKind (runElementary e room args) := by
  refine oneOperand_failsAs e.name rfl ?_
  rintro v rfl
  have shown := shown?_one (p := elementary e) v rfl
  cases number : v.number? with
  | some x =>
    have kind : v.hasKind .number = true := by rw [hasKind_number, number]; rfl
    have never : ∀ f, ¬ Strays room (elementary e) [v] f :=
      not_strays (shown.trans (if_pos kind)) (fun _ _ => id) nofun
    dsimp only
    split
    · exact .pure never fun _ => kind
    · exact ofMath_failsAs never _ _
  | none =>
    have kind : v.hasKind .number = false := by rw [hasKind_number, number]; rfl
    have shown : shown? (elementary e) [v] = some v := shown.trans (if_neg (by rw [takes, kind]; nofun))
    have deep {f : Failure} : Strays room (elementary e) [v] f ↔ v.isDeeperThan room = true ∧ f = .tooDeep := by
      constructor
      · rintro (⟨shown', h⟩ | ⟨_, _, _, other⟩ | ⟨⟨⟩, _⟩ | ⟨_, ⟨⟩⟩)
        rw [shown] at shown'
        cases shown'
        · exact ⟨h, rfl⟩
        · exact absurd rfl (other e)
      · rintro ⟨h, rfl⟩
        exact .deep shown h
    intro m
    rw [outcome_bind_of_ok (outcome_get m)]
    cases text : v.text? m.isLive room .source with
    | ok s =>
      refine FailsAs.refusal (fun f strays => ?_) (.type (.notNumber e.name s)) m
      rw [Session.text?_eq_error.mpr (Or.inl (deep.mp strays))] at text
      cases text
    | error f =>
      rcases Session.text?_eq_error.mp text with ⟨h, rfl⟩ | ⟨shallow, _, rfl⟩
      · exact FailsAs.throws (fun f => deep.trans (and_iff_right h)) m
      · refine FailsAs.refusal (fun f strays => ?_) (.type (.unwritable e.name)) m
        rw [shallow] at deep
        exact nomatch (deep.mp strays).1

/-! ## The procedures on lists, the equalities, predicates and output -/

theorem runNot_failsAs : FailsAs (Strays room not args) not.GivesKind (runNot args) := by
  refine oneOperand_failsAs "not" rfl ?_
  rintro v rfl
  have shown : shown? not [v] = none := shown?_eq_none fun _ _ => rfl
  exact .pure (not_strays shown (fun _ _ => id) nofun) nofun

theorem runIsKind_failsAs (k : Kind) :
    FailsAs (Strays room (isKind k) args) (isKind k).GivesKind (runIsKind k args) := by
  refine oneOperand_failsAs k.name rfl ?_
  rintro v rfl
  have shown : shown? (isKind k) [v] = none := shown?_eq_none fun _ _ => rfl
  exact .pure (not_strays shown (fun _ _ => id) nofun) nofun

theorem runSame_failsAs : FailsAs (Strays room same args) same.GivesKind (runSame args) := by
  refine twoOperands_failsAs "eq?" rfl ?_
  rintro v w rfl
  have shown : shown? same [v, w] = none := shown?_eq_none fun _ _ => rfl
  exact .pure (not_strays shown (fun _ _ => id) nofun) nofun

theorem runEqual_failsAs : FailsAs (Strays room equal args) equal.GivesKind (runEqual room args) := by
  refine twoOperands_failsAs "equal?" rfl ?_
  rintro v w rfl
  have shown : shown? equal [v, w] = none := shown?_eq_none fun _ _ => rfl
  have uncompared {f : Failure} : Strays room equal [v, w] f ↔ v.equal? room w = none ∧ f = .tooDeep := by
    constructor
    · rintro (⟨shown', _⟩ | ⟨shown', _⟩ | ⟨_, ⟨⟩, h⟩ | ⟨_, ⟨⟩⟩)
      · rw [shown] at shown'
        cases shown'
      · rw [shown] at shown'
        cases shown'
      · exact ⟨h, rfl⟩
    · rintro ⟨h, rfl⟩
      exact .uncompared rfl rfl h
  dsimp only
  cases compared : v.equal? room w with
  | none => exact .throws fun f => uncompared.trans (and_iff_right compared)
  | some b =>
    refine .pure (fun f strays => ?_) nofun
    rw [(uncompared.mp strays).1] at compared
    cases compared

theorem runCons_failsAs : FailsAs (Strays room cons args) cons.GivesKind (runCons room args) := by
  refine twoOperands_failsAs "cons" rfl ?_
  rintro v w rfl
  have shown : shown? cons [v, w] = if w.hasKind .list then none else some w := by
    rw [shown?, if_pos, if_pos rfl, List.drop_one, List.tail_cons, List.find?_cons, List.find?_nil]
    · have kind : takes cons w = w.hasKind .list := rfl
      rw [kind]
      cases w.hasKind .list <;> rfl
    · rintro _ ⟨⟩
      rfl
  refine listOperand_failsAs "cons" nofun (fun kind => by rw [shown, kind]; rfl) ?_
  rintro i items rfl
  exact .gives (not_strays shown (fun _ _ => id) nofun) fun m => ⟨_, _, rfl, nofun⟩

theorem runCar_failsAs : FailsAs (Strays room car args) car.GivesKind (runCar room args) := by
  refine oneOperand_failsAs "car" rfl ?_
  rintro v rfl
  have shown := shown?_one (p := car) v rfl
  refine listOperand_failsAs "car" nofun (fun kind => shown.trans (if_neg (by rw [takes, kind]; nofun))) ?_
  rintro i items rfl
  have never : ∀ f, ¬ Strays room car [.list i items] f := not_strays shown (fun _ _ => id) nofun
  cases items with
  | nil => exact .refusal never (.type _)
  | cons head tail => exact .pure never nofun

theorem runCdr_failsAs : FailsAs (Strays room cdr args) cdr.GivesKind (runCdr room args) := by
  refine oneOperand_failsAs "cdr" rfl ?_
  rintro v rfl
  have shown := shown?_one (p := cdr) v rfl
  refine listOperand_failsAs "cdr" nofun (fun kind => shown.trans (if_neg (by rw [takes, kind]; nofun))) ?_
  rintro i items rfl
  have never : ∀ f, ¬ Strays room cdr [.list i items] f := not_strays shown (fun _ _ => id) nofun
  cases items with
  | nil => exact .refusal never (.type _)
  | cons head tail => exact .gives never fun m => ⟨_, _, rfl, nofun⟩

theorem runList_failsAs : FailsAs (Strays room list args) list.GivesKind (newList args) :=
  .gives (not_strays (shown?_eq_none fun _ _ => rfl) (fun _ _ => id) nofun) fun _ => ⟨_, _, rfl, nofun⟩

/-- The first operand of `append` that is no list is shown. -/
theorem runAppend_failsAs : FailsAs (Strays room append args) append.GivesKind (runAppend room args) := by
  have shown : append.shown? args = args.find? fun v => !v.hasKind .list := by
    rw [shown?, if_pos nofun, if_neg nofun]
    rfl
  cases found : args.find? fun v => !v.hasKind .list with
  | some v =>
    rw [found] at shown
    refine .congr (outcome_listOperands_refused room "append" found _) ?_
    exact .source (fun f => strays_shown_iff shown nofun) fun never text => .refusal never (.type _)
  | none =>
    rw [found] at shown
    refine .gives (not_strays shown (fun _ _ => id) nofun) fun m => ?_
    obtain ⟨lists, given⟩ := outcome_listOperands room "append" found m
    exact ⟨_, _, outcome_bind_of_ok given _, nofun⟩

theorem runLength_failsAs : FailsAs (Strays room length args) length.GivesKind (runLength room args) := by
  refine oneOperand_failsAs "length" rfl ?_
  rintro v rfl
  have shown := shown?_one (p := length) v rfl
  split
  · exact .pure (not_strays shown (fun _ _ => id) nofun) fun _ => rfl
  · exact .pure (not_strays shown (fun _ _ => id) nofun) fun _ => rfl
  · rename_i noList noString
    have untaken : takes length v = false := by
      cases v with
      | list i items => exact absurd rfl (noList i items)
      | string s => exact absurd rfl (noString s)
      | _ => rfl
    rw [untaken] at shown
    exact .source (fun f => strays_shown_iff shown nofun) fun never text => .refusal never (.type _)

/-- A value that has a text is displayed. -/
theorem runDisplay_failsAs : FailsAs (Strays room display args) display.GivesKind (runDisplay room args) := by
  refine oneOperand_failsAs "display" rfl ?_
  rintro v rfl
  have shown := shown?_one (p := display) v rfl
  split
  · exact .gives (not_strays shown (fun _ _ => id) nofun) fun _ => ⟨_, _, rfl, nofun⟩
  · rename_i noString
    have untaken : takes display v = false := by
      cases v with
      | string s => exact absurd rfl (noString s)
      | _ => rfl
    rw [untaken] at shown
    exact .source (fun f => strays_shown_iff shown nofun) fun never text => .gives never fun _ => ⟨_, _, rfl, nofun⟩

/-- How each procedure but the transformer of `let` ends. -/
theorem run_failsAs (p : Primitive) (procedure : p ≠ .expandLet) :
    FailsAs (Strays room p args) p.GivesKind (p.run room args) := by
  cases p with
  | add => exact numbers_failsAs "+" nofun rfl nofun nofun nofun fun _ _ => combined_failsAs fun _ => Iff.rfl
  | multiply => exact numbers_failsAs "*" nofun rfl nofun nofun nofun fun _ _ => combined_failsAs fun _ => Iff.rfl
  | subtract => exact runSubtract_failsAs
  | divide => exact runDivide_failsAs
  | compare c => exact runCompare_failsAs c
  | not => exact runNot_failsAs
  | same => exact runSame_failsAs
  | equal => exact runEqual_failsAs
  | length => exact runLength_failsAs
  | cons => exact runCons_failsAs
  | car => exact runCar_failsAs
  | cdr => exact runCdr_failsAs
  | append => exact runAppend_failsAs
  | list => exact runList_failsAs
  | display => exact runDisplay_failsAs
  | atan2 => exact runAtan2_failsAs
  | power => exact runPower_failsAs
  | hypotenuse => exact runHypotenuse_failsAs
  | greatest => exact runExtreme_failsAs "max" _ rfl rfl nofun fun _ _ => id
  | least => exact runExtreme_failsAs "min" (fun a b => b.greater a) rfl rfl nofun fun _ _ => id
  | random => exact runRandom_failsAs
  | isKind k => exact runIsKind_failsAs k
  | elementary e => exact runElementary_failsAs e
  | expandLet => exact absurd rfl procedure

end

end Primitive

/-! ## The built-in procedures -/

theorem Number.isTooLarge_ten_pow {k : Nat} (h : 400 ≤ k) : IsTooLarge (10 ^ k) :=
  calc (2 ^ 54 - 1) * 2 ^ 970 = (2 ^ 54 - 1) * (2 ^ 97) ^ 10 := by rw [← pow_mul]
    _ ≤ 10 ^ 60 * (10 ^ 34) ^ 10 := Nat.mul_le_mul (by norm_num) (Nat.pow_le_pow_left (by norm_num) 10)
    _ = 10 ^ (60 + 34 * 10) := by rw [← pow_mul, ← pow_add]
    _ ≤ 10 ^ k := pow_le_pow_right₀ (by norm_num) h
    _ = (10 ^ k : Int).natAbs := (Int.natAbs_pow 10 k).symm

namespace Machine

/-- The built-in procedures that run no other code are primitives, and the transformer of `let` is none of them. -/
theorem builtin_cases {name : String} {v : Value} (builtin : (name, v) ∈ builtins) :
    (∃ c, v = .control c) ∨ ∃ p, p ≠ .expandLet ∧ v = .primitive p := by
  have all : builtins.all (fun b => match b.2 with
      | .control _ => true
      | .primitive p => p != .expandLet
      | _ => false) = true := by decide
  have this := List.all_eq_true.mp all _ builtin
  cases v with
  | control c => exact Or.inl ⟨c, rfl⟩
  | primitive p => exact Or.inr ⟨p, bne_iff_ne.mp this, rfl⟩
  | _ => cases this

/-- A built-in procedure that runs no other code ends in three ways, whatever its operands. It fails with what
strays out of it: an overflow, or the lack of a text or of room. It gives a value, which is a number if it
computes one and holds no escape if its operands hold none. Or it refuses its operands. A failure leaves the
state as it was. -/
theorem builtin_ends {name : String} {v : Value} (builtin : (name, v) ∈ builtins)
    (runsNoCode : ∀ c, v ≠ .control c) (fuel room : Nat) (args : List Value) (caller : FrameId) (m : Machine) :
    ∃ p, v = .primitive p ∧
      (∀ f, Primitive.Strays room p args f →
        outcome (apply (fuel + 1) room v args caller) m = (.error (.failed f), m) ∧ ¬ f.IsRefusal) ∧
      ((∀ f, ¬ Primitive.Strays room p args f) →
        (∃ w n, outcome (apply (fuel + 1) room v args caller) m = (.ok w, n) ∧
          (p.isNumeric = true → w.hasKind .number = true) ∧
          ((∀ u ∈ args, u.hasEscape = false) → w.hasEscape = false)) ∨
        ∃ f, outcome (apply (fuel + 1) room v args caller) m = (.error (.failed f), m) ∧ f.IsRefusal) := by
  obtain ⟨c, rfl⟩ | ⟨p, procedure, rfl⟩ := builtin_cases builtin
  · exact absurd rfl (runsNoCode c)
  · have failsAs : FailsAs (Primitive.Strays room p args) p.GivesKind (Primitive.run p room args) :=
      Primitive.run_failsAs p procedure
    obtain ⟨fails, ends⟩ := failsAs m
    refine ⟨p, rfl, fun f strays => ⟨fails f strays, ?_⟩, fun never => ?_⟩
    · rintro ⟨⟩ <;> cases strays
    · rcases ends never with ⟨w, n, given, number⟩ | refused
      · refine Or.inl ⟨w, n, given, number, fun free => ?_⟩
        exact (Primitive.run_gives escapeFree.hereditary p room free m).2 w n given
      · exact Or.inr refused

/-- The sum of a double and a large power of ten. -/
theorem sum_overflows : outcome (apply 1 2 (.primitive .add) [.float 1, .int (10 ^ 400)] root) (start .zeros) =
    (.error (.failed (.overflow .integer)), start .zeros) ∧ ¬ (Failure.overflow .integer).IsRefusal := by
  have builtin : ("+", Value.primitive .add) ∈ builtins :=
    List.mem_append_left _ (List.mem_append_left _ List.mem_cons_self)
  obtain ⟨p, ⟨⟩, fails, _⟩ := builtin_ends builtin nofun 0 2 [.float 1, .int (10 ^ 400)] root (start .zeros)
  have met : Number.MeetsTooLarge (· + ·) (.int 0) [.float 1, .int (10 ^ 400)] :=
    Number.meetsTooLarge_int_cons_float.mpr (Or.inr ⟨_, List.mem_singleton_self _, Number.isTooLarge_ten_pow le_rfl⟩)
  exact fails _ (.overflow rfl ⟨met, rfl⟩)

end Machine

end SmallLisp
