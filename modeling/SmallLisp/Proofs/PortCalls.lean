import SmallLisp.Proofs.ReadingEnds
/-!
# Calls of a port

A port may be asked for tokens and for forms in any order, and for all that it has. Each call ends. It takes characters
from the port, or its answer is final: the end of the text, or a string that stays open. Every call after a final
answer is given the same answer and leaves the port as it is.
-/
namespace SmallLisp.Reader

open Run

variable {α : Type} {p q : Port} {f : Failure} {fuel room : Nat} {token : String} {call : Call}

/-! ## Calls one after another -/

/-- What a port is asked for: its next token, or its next form with so much room. -/
inductive Call where
  | token
  | form (room : Nat)

/-- What a port gives. -/
inductive Piece where
  | token (text : String)
  | form (d : Datum)

/-- What a call gives, none at the end of the text. -/
def Call.make : Call → Reading (Option Piece)
  | .token => do return (← nextToken).map .token
  | .form room => do return (← read room).map .form

/-- The answers to calls, each with the port that it leaves to the next call, also when it is a failure. -/
def Port.answers : Port → List Call → List (Ending (Option Piece))
  | _, [] => []
  | p, call :: calls =>
    let answer := outcome call.make p
    answer :: answer.2.answers calls

/-- By the rules of reading, a call is answered so. -/
inductive CallEnds : Call → Port → Ending (Option Piece) → Prop where
  | token {p q : Port} {a : Except Failure (Option String)} (search : NextEnds p (a, q)) :
      CallEnds .token p (a.map (Option.map .token), q)
  | form {room : Nat} {p q : Port} {a : Except Failure (Option Datum)} (reading : ReadEnds room p (a, q)) :
      CallEnds (.form room) p (a.map (Option.map .form), q)

/-- By the rules of reading, calls one after another are answered so. -/
inductive CallsEnd : Port → List Call → List (Ending (Option Piece)) → Prop where
  | nil {p : Port} : CallsEnd p [] []
  | cons {p : Port} {call : Call} {calls : List Call} {o : Ending (Option Piece)} {os : List (Ending (Option Piece))}
      (first : CallEnds call p o) (rest : CallsEnd o.2 calls os) : CallsEnd p (call :: calls) (o :: os)

theorem callEnds_iff {o : Ending (Option Piece)} : CallEnds call p o ↔ outcome call.make p = o := by
  constructor
  · intro h
    cases h with
    | token search =>
      unfold Call.make
      rw [outcome_bind_pure, nextEnds_iff.mp search]
    | form reading =>
      unfold Call.make
      rw [outcome_bind_pure, readEnds_iff.mp reading]
  · rintro rfl
    cases call with
    | token =>
      unfold Call.make
      rw [outcome_bind_pure]
      exact .token (nextEnds_nextToken p)
    | form room =>
      unfold Call.make
      rw [outcome_bind_pure]
      exact .form (readEnds_iff.mpr rfl)

theorem callsEnd_iff {calls : List Call} {os : List (Ending (Option Piece))} :
    CallsEnd p calls os ↔ p.answers calls = os := by
  constructor
  · intro h
    induction h with
    | nil => rfl
    | @cons p call calls o os first _ ih =>
      change outcome call.make p :: (outcome call.make p).2.answers calls = o :: os
      rw [callEnds_iff.mp first, ih]
  · rintro rfl
    induction calls generalizing p with
    | nil => exact .nil
    | cons call calls ih => exact .cons (callEnds_iff.mpr rfl) ih

/-! ## Final answers -/

theorem make_of_end (h : outcome nextToken q = (.ok none, q)) (call : Call) :
    outcome call.make q = (.ok none, q) := by
  cases call with
  | token =>
    unfold Call.make
    rw [outcome_bind_pure, h]
    rfl
  | form room =>
    unfold Call.make
    rw [outcome_bind_pure, read_end h]
    rfl

theorem make_of_error (h : outcome nextToken q = (.error f, q)) (call : Call) :
    outcome call.make q = (.error f, q) := by
  cases call with
  | token =>
    unfold Call.make
    rw [outcome_bind_pure, h]
    rfl
  | form room =>
    unfold Call.make
    rw [outcome_bind_pure, read_error h]
    rfl

/-- After a final answer every call is given this answer. -/
theorem CallEnds.final {o : Ending (Option Piece)} (h : CallEnds call p o) (final : isFinal o.1 = true)
    (next : Call) : outcome next.make o.2 = o := by
  cases h with
  | @token _ q a search =>
    rcases a with f | _ | text
    · exact make_of_error (search.again nofun) next
    · exact make_of_end (search.again nofun) next
    · cases final
  | @form room _ q a reading =>
    rcases a with f | _ | d
    · exact make_of_error ((reading.tells rfl).2 final) next
    · exact make_of_end (reading.again rfl) next
    · cases final

/-- Every other answer has taken something from the port. -/
theorem CallEnds.unread_lt {o : Ending (Option Piece)} (h : CallEnds call p o) (goesOn : isFinal o.1 = false) :
    o.2.unread < p.unread := by
  cases h with
  | token search =>
    rw [isFinal_map] at goesOn
    exact search.unread_lt_of_not_final goesOn
  | form reading =>
    rw [isFinal_map] at goesOn
    exact reading.unread_lt goesOn

/-- Where every call is given one answer, calls one after another are. -/
theorem answers_of_settled {o : Ending (Option Piece)} (settled : ∀ call : Call, outcome call.make o.2 = o)
    (calls : List Call) : ∀ later ∈ o.2.answers calls, later = o := by
  induction calls with
  | nil => exact nofun
  | cons call calls ih =>
    change ∀ later ∈ outcome call.make o.2 :: (outcome call.make o.2).2.answers calls, later = o
    rw [settled call]
    exact List.forall_mem_cons.mpr ⟨rfl, ih⟩

/-- Once an answer is final, it is the answer for good. -/
theorem answers_pairwise (p : Port) (calls : List Call) :
    (p.answers calls).Pairwise fun o later => isFinal o.1 = true → later = o := by
  induction calls generalizing p with
  | nil => exact .nil
  | cons call calls ih =>
    refine .cons (fun later mem final => ?_) (ih _)
    exact answers_of_settled ((callEnds_iff.mpr rfl).final final) calls later mem

/-- Every answer that is not final takes at least one character. -/
theorem countP_answers_le (p : Port) (calls : List Call) :
    ((p.answers calls).countP fun o => !isFinal o.1) ≤ p.unread := by
  induction calls generalizing p with
  | nil => exact Nat.zero_le _
  | cons call calls ih =>
    have rest := ih (outcome call.make p).2
    have here : CallEnds call p (outcome call.make p) := callEnds_iff.mpr rfl
    change (outcome call.make p :: (outcome call.make p).2.answers calls).countP _ ≤ p.unread
    cases final : isFinal (outcome call.make p).1 with
    | true =>
      have none : ((outcome call.make p).2.answers calls).countP (fun o => !isFinal o.1) = 0 := by
        rw [List.countP_eq_zero]
        intro later mem
        rw [answers_of_settled (here.final final) calls later mem, final]
        exact Bool.false_ne_true
      rw [List.countP_cons_of_neg (by rw [final]; exact Bool.false_ne_true), none]
      exact Nat.zero_le _
    | false =>
      have less := here.unread_lt final
      rw [List.countP_cons_of_pos (by rw [final]; rfl)]
      omega

/-- Reading goes on and comes to an end, whatever port it starts from. The search for a token has at most two turns for
each line. It gives a token, which is not empty and leaves fewer characters, or the end where there is nothing but
blanks and comments, or it fails at a string that stays open on its line. A form, and all forms of a port, are read by
rules that know no bound on the work; nesting fails only where the room is less than the characters to come. When
tokens and forms are asked for in any order, each call ends by the same rules. The end of the text and the failure at
an open string are then the answer to every later call, which leaves the port as it is, and there is no more than one
other answer for each character. -/
theorem reading_progresses (p : Port) :
    (∃ turns ≤ 2 * p.below.length + 2, Searches turns p (outcome nextToken p)) ∧
    p.Advances (outcome nextToken p) ∧
    (∀ token q, outcome nextToken p = (.ok (some token), q) → token ≠ "" ∧ q.unread < p.unread) ∧
    (∀ room,
      (∀ o, ReadEnds room p o ↔ outcome (read room) p = o) ∧
      (∀ e, RepeatEnds (ReadEnds room) p e ↔ p.forms room = e) ∧
      ∀ q, outcome (read room) p = (.error .tooDeep, q) → room < p.unread) ∧
    ∀ calls,
      (∀ os, CallsEnd p calls os ↔ p.answers calls = os) ∧
      ((p.answers calls).Pairwise fun o later => isFinal o.1 = true → later = o) ∧
      ((p.answers calls).countP fun o => !isFinal o.1) ≤ p.unread := by
  refine ⟨p.endsWithin, p.advances, fun token q => unread_lt_of_token, fun room => ⟨fun o => readEnds_iff,
    fun e => repeatEnds_forms_iff, fun q failed => ?_⟩, fun calls => ⟨fun os => callsEnd_iff, answers_pairwise p calls,
    countP_answers_le p calls⟩⟩
  exact ((readEnds_iff.mpr failed).tells rfl).1 rfl

/-- A list runs into a string that stays open. There is another line, but nothing more is given. -/
theorem reading_progresses_mixed_calls :
    ∃ first second third fourth,
      (Port.ofText "a (b \"c\nd" ⟨0, []⟩).answers [.token, .form 9, .token, .form 0] = [first, second, third, fourth] ∧
        isFinal first.1 = false ∧ isFinal second.1 = true ∧ third = second ∧ fourth = second := by
  obtain ⟨_, _, _, _, calls⟩ := reading_progresses (Port.ofText "a (b \"c\nd" ⟨0, []⟩)
  obtain ⟨_, same, _⟩ := calls [.token, .form 9, .token, .form 0]
  have finals : ((Port.ofText "a (b \"c\nd" ⟨0, []⟩).answers [.token, .form 9, .token, .form 0]).map
      (fun o => isFinal o.1) = [false, true, true, true] := by decide +kernel
  generalize (Port.ofText "a (b \"c\nd" ⟨0, []⟩).answers [.token, .form 9, .token, .form 0] = os at same finals
  obtain ⟨first, os, rfl, goesOn, finals⟩ := List.map_eq_cons_iff.mp finals
  obtain ⟨second, os, rfl, final, finals⟩ := List.map_eq_cons_iff.mp finals
  obtain ⟨third, os, rfl, _, finals⟩ := List.map_eq_cons_iff.mp finals
  obtain ⟨fourth, rfl, _⟩ := List.map_eq_singleton_iff.mp finals
  obtain ⟨_, same⟩ := List.pairwise_cons.mp same
  obtain ⟨later, _⟩ := List.pairwise_cons.mp same
  exact ⟨first, second, third, fourth, rfl, goesOn, final, later third (by simp) final, later fourth (by simp) final⟩

end SmallLisp.Reader
