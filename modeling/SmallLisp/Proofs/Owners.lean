import SmallLisp.Proofs.Interruption
/-!
# Owners on the way out

The calls that own a continuation on the way from one task to another all have continuations of their own,
since continuations are only ever added. An interruption passes all of them but the one that an escape
names: there the value is taken out, and evaluation goes on with it.
-/
namespace SmallLisp

open Run

/-- Continuations are added and never taken away. Every value is good. -/
def addingContinuations : Discipline :=
  { keepingTransformers with
    Moves := fun m n => m.continuations.size ≤ n.continuations.size
    trans := Nat.le_trans
    quiet := fun h => by simp [h.continuations]
    define := fun _ _ _ => Nat.le_refl _
    frame := fun _ _ _ => Nat.le_refl _
    owner := fun h => by
      rw [Array.size_push] at h
      simp only [Array.size_setIfInBounds]
      exact Nat.le_of_succ_le h }

theorem addingContinuations_respects (fuel : Nat) :
    Calls.Respects addingContinuations (calls fuel) :=
  Calls.respects_of_all_good (fun _ => trivial) fuel

theorem size_le_of_meets {α : Type} {a : Run α} {Q : α → Machine → Prop} {m : Machine} {o : Outcome α}
    (meets : addingContinuations.Meets a Q) (h : outcome a m = o) :
    m.continuations.size ≤ o.2.continuations.size := by
  have moves := (meets m ⟨fun _ _ _ => trivial, fun _ _ => trivial⟩).1
  rwa [h] at moves

theorem part_meets_adding (frame : FrameId) (room fuel : Nat) (e : Value) :
    addingContinuations.Meets (Form.part frame room fuel e) addingContinuations.Final :=
  .deeper fun r => (addingContinuations_respects fuel).evaluate r frame trivial

theorem Yield.size_le {es vs : List Value} {frame : FrameId} {room : Nat} {m n : Machine}
    (h : Yield es frame room m vs n) : m.continuations.size ≤ n.continuations.size := by
  obtain ⟨fuel, ends, _⟩ := h
  exact size_le_of_meets (Form.operands_meets (fun e _ => part_meets_adding frame room fuel e)
    fun _ _ => trivial) ends

theorem size_le_of_newFrame {ps : Value} {args : List Value} {home : Option FrameId} {room : Nat}
    {inside : FrameId} {m n : Machine} (h : (newFrame room ps args home).Ends m inside n) :
    m.continuations.size ≤ n.continuations.size :=
  size_le_of_meets (Discipline.newFrame_meets ps (fun _ _ => trivial) home) h

theorem size_le_of_evaluate {form : Value} {frame : FrameId} {room : Nat} {m : Machine}
    {o : Outcome Value} (h : Finishes (fun fuel => evaluate fuel room form frame) m o) :
    m.continuations.size ≤ o.2.continuations.size := by
  obtain ⟨fuel, ends, _⟩ := h
  exact size_le_of_meets ((addingContinuations_respects fuel).evaluate room frame trivial) ends

theorem size_le_of_expand {form : Value} {room : Nat} {m : Machine} {o : Outcome Value}
    (h : Finishes (fun fuel => expand fuel room form false) m o) :
    m.continuations.size ≤ o.2.continuations.size := by
  obtain ⟨fuel, ends, _⟩ := h
  exact size_le_of_meets ((addingContinuations_respects fuel).expand room (by simp) trivial) ends

namespace Leads

variable {p q : Point} {own : Option Nat} {k : Nat}

theorem size_le (h : Leads p own q) : p.state.continuations.size ≤ q.state.continuations.size := by
  cases h with
  | condition => exact Nat.le_refl _
  | consequent done => exact size_le_of_evaluate done
  | alternative done => exact size_le_of_evaluate done
  | assigned => exact Nat.le_refl _
  | defined => exact Nat.le_refl _
  | former before => exact before.size_le
  | last before => exact before.size_le
  | operand _ before => exact before.size_le
  | body _ values inside => exact Nat.le_trans values.size_le (size_le_of_newFrame inside)
  | call _ values => exact values.size_le
  | applied inside => exact size_le_of_newFrame inside
  | spread => exact Nat.le_refl _
  | evaluated expanded => exact size_le_of_expand expanded
  | extent => simp [Machine.opened]

/-- An owner has the next continuation, and the task inside begins after that. -/
theorem owner (h : Leads p (some k) q) :
    k = p.state.continuations.size ∧ k < q.state.continuations.size := by
  cases h with
  | extent => simp [Machine.opened]

end Leads

/-- One task leads to another by way of tasks in between; the owners among them are listed from the
innermost out. -/
inductive Path : Point → List Nat → Point → Prop
  | here {p} : Path p [] p
  | into {p own q ks r} : Leads p own q → Path q ks r → Path p (ks ++ own.toList) r

/-- The state after several continuations are spent. -/
def Machine.spentAll (m : Machine) (ks : List Nat) : Machine :=
  ks.foldl Machine.spent m

theorem Machine.spentAll_append (m : Machine) (ks ks' : List Nat) :
    m.spentAll (ks ++ ks') = (m.spentAll ks).spentAll ks' :=
  List.foldl_append ..

/-- What is no escape to an owner passes it unchanged. -/
theorem Outcome.through_of_foreign {own : Option Nat} {o : Outcome Value} (hi : o.Interrupts)
    (foreign : ∀ k v, o.1 = .ok (.escape k v) → k ∉ own.toList) :
    o.through own = (o.1, o.2.spentAll own.toList) := by
  cases own with
  | none => rfl
  | some k =>
    obtain ⟨e | v, n⟩ := o
    · rfl
    · cases v with
      | escape k' w =>
        have other : k' ≠ k := by simpa using foreign k' w rfl
        simp [through, Except.map, Value.received_of_ne other, Machine.spentAll]
      | _ => cases hi _ rfl

namespace Path

variable {p q r : Point} {ks : List Nat} {o : Outcome Value} {k : Nat}

/-- The owners on a path have continuations made on it. -/
theorem le_of_mem (h : Path p ks q) (mem : k ∈ ks) : p.state.continuations.size ≤ k := by
  induction h with
  | here => cases mem
  | into leads _ ih =>
    rcases List.mem_append.mp mem with later | own
    · exact Nat.le_trans leads.size_le (ih later)
    · obtain rfl := Option.mem_toList.mp own
      exact Nat.le_of_eq leads.owner.1.symm

theorem nodup (h : Path p ks q) : ks.Nodup := by
  induction h with
  | here => exact List.nodup_nil
  | @into p own q ks r leads path ih =>
    cases own with
    | none => simpa using ih
    | some k =>
      refine List.nodup_append.mpr ⟨ih, by simp, ?_⟩
      rintro a ha b hb rfl
      obtain rfl : a = k := by simpa using hb
      exact absurd (path.le_of_mem ha) (Nat.not_le.mpr leads.owner.2)

/-- An interruption passes every task on the way but the owner that an escape names. -/
theorem finishes (h : Path p ks q) (hi : o.Interrupts)
    (foreign : ∀ k v, o.1 = .ok (.escape k v) → k ∉ ks) (hq : q.Finishes o) :
    p.Finishes (o.1, o.2.spentAll ks) := by
  induction h with
  | here => exact hq
  | @into p own q ks r leads path ih =>
    have inner := ih (fun k v same mem => foreign k v same (List.mem_append_left _ mem)) hq
    have outer := leads.finishes (o := (o.1, o.2.spentAll ks)) hi inner
    have apart (k : Nat) (v : Value) (same : o.1 = .ok (.escape k v)) : k ∉ own.toList :=
      fun mem => foreign k v same (List.mem_append_right _ mem)
    rw [Outcome.through_of_foreign (o := (o.1, o.2.spentAll ks)) hi apart] at outer
    rwa [Machine.spentAll_append]

/-- The owner that an escape names is on the way just once, and gives the value. -/
theorem owner_finishes {v : Value} {u : Machine} (h : Path p ks q) (mem : k ∈ ks)
    (hq : q.Finishes (.ok (.escape k v), u)) :
    ∃ r r' outer inner, ks = inner ++ k :: outer ∧ Path p outer r ∧ Leads r (some k) r' ∧
      Path r' inner q ∧ r.Finishes (.ok v, (u.spentAll inner).spent k) := by
  induction h with
  | here => cases mem
  | @into p own q' ks q leads path ih =>
    rcases List.mem_append.mp mem with later | own
    · obtain ⟨r, r', outer, inner, rfl, before, owns, after, gives⟩ := ih later hq
      exact ⟨r, r', outer ++ own.toList, inner, by simp, .into leads before, owns, after, gives⟩
    · obtain rfl := Option.mem_toList.mp own
      have apart : k ∉ ks := fun later =>
        absurd (path.le_of_mem later) (Nat.not_le.mpr leads.owner.2)
      have interrupts : Outcome.Interrupts (.ok (.escape k v), u) := by
        rintro _ ⟨⟩
        rfl
      have inner := path.finishes interrupts (by rintro _ _ ⟨⟩; exact apart) hq
      have gives := leads.finishes (o := (.ok (.escape k v), u.spentAll ks)) interrupts inner
      simp only [Outcome.through, Except.map, Value.received_self] at gives
      exact ⟨p, q', [], ks, rfl, .here, leads, path, gives⟩

end Path

/-- Where one task leads to another, a failure or an escape of the second is the outcome of the first, in the
very state that the second leaves but for the continuations spent on the way. An escape to one of
those goes no further than to its owner, which gives the value. -/
theorem interruptions_pass {p q : Point} {ks : List Nat} (path : Path p ks q) :
    ks.Nodup ∧
    (∀ o : Outcome Value, ks = [] → o.Interrupts → q.Finishes o → p.Finishes o) ∧
    (∀ h u, q.Finishes (.error h, u) → p.Finishes (.error h, u.spentAll ks)) ∧
    (∀ k v u, k ∉ ks → q.Finishes (.ok (.escape k v), u) →
      p.Finishes (.ok (.escape k v), u.spentAll ks)) ∧
    ∀ k v u, k ∈ ks → q.Finishes (.ok (.escape k v), u) →
      ∃ r r' outer inner, ks = inner ++ k :: outer ∧ Path p outer r ∧ Leads r (some k) r' ∧
        Path r' inner q ∧ r.Finishes (.ok v, (u.spentAll inner).spent k) := by
  refine ⟨path.nodup, ?_, ?_, ?_, ?_⟩
  · rintro o rfl interrupts ends
    exact path.finishes interrupts (fun _ _ _ => List.not_mem_nil) ends
  · intro h u failed
    exact path.finishes (by rintro _ ⟨⟩) (by rintro _ _ ⟨⟩) failed
  · intro k v u foreign escaped
    exact path.finishes (by rintro _ ⟨⟩; rfl) (by rintro _ _ ⟨⟩; exact foreign) escaped
  · intro k v u own escaped
    exact path.owner_finishes own escaped

/-- A call with a continuation of its own, of a procedure that escapes to an earlier one. -/
theorem interruptions_pass_foreign_call :
    ∃ f q u, Path ⟨.evaluate (.list 0 [.control .callWithEscape, f]) Machine.root, 3,
        (Machine.start .zeros).opened⟩ [1] q ∧
      q.Finishes (.ok (.escape 0 (.int 5)), u) ∧
      Point.Finishes ⟨.evaluate (.list 0 [.control .callWithEscape, f]) Machine.root, 3,
        (Machine.start .zeros).opened⟩ (.ok (.escape 0 (.int 5)), u.spent 1) := by
  let body := Value.list 0 [.continuation 0, .int 5]
  let f := Value.closure 0 (.list 0 [.symbol "j"]) body Machine.root
  let m := (Machine.start .zeros).opened.opened
  let u := { m with frames := (m.frames.new [.ofName "j" (.continuation 1)] (some Machine.root)).2 }
  have values : Yield [.control .callWithEscape, f] Machine.root 3 (Machine.start .zeros).opened
      [.control .callWithEscape, f] (Machine.start .zeros).opened := ⟨1, rfl, not_stopped_ok⟩
  have frame : (newFrame 2 (.list 0 [.symbol "j"]) [.continuation 1] (some Machine.root)).Ends m 1 u :=
    rfl
  have path : Path ⟨.evaluate (.list 0 [.control .callWithEscape, f]) Machine.root, 3,
      (Machine.start .zeros).opened⟩ [1] ⟨.evaluate body 1, 1, u⟩ :=
    .into (.call rfl values nofun) (.into .extent (.into (.applied frame) .here))
  have escaped : Point.Finishes ⟨.evaluate body 1, 1, u⟩ (.ok (.escape 0 (.int 5)), u) :=
    ⟨3, rfl, not_stopped_ok⟩
  obtain ⟨_, _, _, foreign, _⟩ := interruptions_pass path
  exact ⟨f, _, u, path, escaped, foreign 0 (.int 5) u (by simp) escaped⟩

end SmallLisp
