import SmallLisp.Proofs.Expansion
/-!
# Faults of templates

A template is at fault where a splice stands alone or a part to be unquoted or spliced is not one form. With
room enough a template without a fault becomes code, and one with a fault is refused for its first.
-/
namespace SmallLisp

open Run

namespace Value

theorem sizeOf_parts {v p : Value} (h : p ∈ v.parts) : sizeOf p < sizeOf v := by
  cases v with
  | list i items =>
    have := List.sizeOf_lt_of_mem (show p ∈ items from h)
    simp only [list.sizeOf_spec]
    omega
  | closure i parameters body home =>
    have either : p = parameters ∨ p = body := by simpa [parts] using h
    simp only [closure.sizeOf_spec]
    rcases either with rfl | rfl
    · omega
    · omega
  | escape k value =>
    rw [List.mem_singleton.mp h]
    simp only [escape.sizeOf_spec]
    omega
  | _ => cases h

/-- Every value has room somewhere. -/
theorem isDeeperThan_sizeOf (size : Nat) (v : Value) (h : sizeOf v ≤ size) :
    v.isDeeperThan size = false := by
  induction size generalizing v with
  | zero =>
    cases inside : v.parts with
    | nil => simp [isDeeperThan, inside]
    | cons p ps =>
      have := sizeOf_parts (v := v) (p := p) (by simp [inside])
      omega
  | succ size ih =>
    refine List.any_eq_false.mpr fun p hp => ?_
    have := sizeOf_parts hp
    rw [ih p (by omega)]
    simp

end Value

namespace Form

/-- What a template begins with when it neither unquotes nor splices. -/
structure IsOrdinary (head : Value) : Prop where
  noUnquote : head.isSymbol "unquote" = false
  noSplice : head.isSymbol "unquote-splicing" = false
  noSplicing : isHeadedBy "unquote-splicing" head = false

/-- The failure that reports a form: its text is in it, unless it has none. -/
def refusal (m : Machine) (form : Value) (fault : FormFault) : Failure :=
  if form.hasLongInteger then .longInteger none
  else .malformed (form.text m.isLive .source) fault

theorem refuse_ends {α : Type} (m : Machine) (form : Value) (fault : FormFault) :
    ∃ room, ∀ room', room ≤ room' → outcome (refuse room' form fault : Run α) m =
      (.error (.failed (refusal m form fault)), m) := by
  refine ⟨sizeOf form, fun room' le => ?_⟩
  have shallow := form.isDeeperThan_sizeOf room' le
  cases long : form.hasLongInteger with
  | true => simp [refuse, source, Value.text?, shallow, long, refusal, outcome_bind, Run.ofExcept]
  | false => simp [refuse, source, Value.text?, shallow, long, refusal, outcome_bind, Run.ofExcept]

theorem eq_of_isHeadedBy {name : String} {v : Value} (h : isHeadedBy name v = true) :
    ∃ i rest, v = .list i (.symbol name :: rest) := by
  unfold isHeadedBy at h
  split at h
  · rw [Value.eq_of_isSymbol h]
    exact ⟨_, _, rfl⟩
  · cases h

/-- The ways in which a template list can begin. -/
inductive Begins : Value → Prop
  | straySplice : Begins (.symbol "unquote-splicing")
  | unquote : Begins (.symbol "unquote")
  | splicing {j : Nat} {operands : List Value} : Begins (.list j (.symbol "unquote-splicing" :: operands))
  | ordinary {head : Value} (h : IsOrdinary head) : Begins head

theorem begins (head : Value) : Begins head := by
  cases noSplice : head.isSymbol "unquote-splicing" with
  | true => exact Value.eq_of_isSymbol noSplice ▸ .straySplice
  | false =>
    cases noUnquote : head.isSymbol "unquote" with
    | true => exact Value.eq_of_isSymbol noUnquote ▸ .unquote
    | false =>
      cases noSplicing : isHeadedBy "unquote-splicing" head with
      | true =>
        obtain ⟨j, operands, rfl⟩ := eq_of_isHeadedBy noSplicing
        exact .splicing
      | false => exact .ordinary ⟨noUnquote, noSplice, noSplicing⟩

/-- A report does not tell which object a list is. -/
theorem refuse_list {α : Type} (i j room : Nat) (items : List Value) (fault : FormFault) :
    (refuse room (.list i items) fault : Run α) = refuse room (.list j items) fault := by
  cases room with
  | zero => rfl
  | succ room => rfl

end Form

theorem newList_ends (items : List Value) (m : Machine) :
    (newList items).Ends m (.list m.nextObject items) (m.made 1) := rfl

namespace Template

mutual

/-- The first fault of a template, with the form at fault. -/
def fault? : Value → Option (Value × FormFault)
  | .list _ items => faultIn? items
  | _ => none

def faultIn? : List Value → Option (Value × FormFault)
  | [] => none
  | head :: rest =>
    if head.isSymbol "unquote-splicing" then some (.list 0 (head :: rest), .straySplice)
    else if head.isSymbol "unquote" then
      if rest.length = 1 then none else some (.list 0 (head :: rest), .wrongLength)
    else if Form.isHeadedBy "unquote-splicing" head then
      match head with
      | .list _ [_, _] => faultIn? rest
      | _ => some (head, .wrongLength)
    else fault? head <|> faultIn? rest

end

/-- With room enough a template becomes code, some objects later. -/
def Builds (template : Value) : Prop :=
  ∀ m : Machine, ∃ code count room, ∀ room', room ≤ room' →
    (Form.ofTemplate room' template).Ends m code (m.made count)

/-- With room enough a template is refused for a fault of a form. -/
def Refuses (template form : Value) (fault : FormFault) : Prop :=
  ∀ m : Machine, ∃ count room, ∀ room', room ≤ room' → outcome (Form.ofTemplate room' template) m =
    (.error (.failed (Form.refusal m form fault)), m.made count)

variable {head template form : Value} {fault : FormFault} {rest : List Value} {i j : Nat}

/-- Room for one level more is room enough. -/
theorem Builds.of_succ (h : ∀ m : Machine, ∃ code count room, ∀ room', room ≤ room' →
    (Form.ofTemplate (room' + 1) template).Ends m code (m.made count)) : Builds template := by
  intro m
  obtain ⟨code, count, room, built⟩ := h m
  refine ⟨code, count, room + 1, fun room' le => ?_⟩
  obtain ⟨room', rfl⟩ : ∃ r, room' = r + 1 := ⟨room' - 1, by omega⟩
  exact built room' (Nat.le_of_succ_le_succ le)

theorem Refuses.of_succ (h : ∀ m : Machine, ∃ count room, ∀ room', room ≤ room' →
    outcome (Form.ofTemplate (room' + 1) template) m =
      (.error (.failed (Form.refusal m form fault)), m.made count)) :
    Refuses template form fault := by
  intro m
  obtain ⟨count, room, refused⟩ := h m
  refine ⟨count, room + 1, fun room' le => ?_⟩
  obtain ⟨room', rfl⟩ : ∃ r, room' = r + 1 := ⟨room' - 1, by omega⟩
  exact refused room' (Nat.le_of_succ_le_succ le)

/-- The step of a template that neither unquotes nor splices. -/
theorem ofTemplate_ordinary (ordinary : Form.IsOrdinary head) (room : Nat) :
    Form.ofTemplate (room + 1) (.list i (head :: rest)) = (do
      let first ← Form.ofTemplate room head
      let after ← Form.ofTemplate room (← newList rest)
      newList [.symbol "cons", first, after]) := by
  obtain ⟨noUnquote, noSplice, noSplicing⟩ := ordinary
  simp only [Form.ofTemplate, noUnquote, noSplice, noSplicing]
  rfl

theorem ofTemplate_splice {x : Value} (room : Nat) :
    Form.ofTemplate (room + 1) (.list i (.list j [.symbol "unquote-splicing", x] :: rest)) = (do
      let after ← Form.ofTemplate room (← newList rest)
      newList [.symbol "append", x, after]) := rfl

theorem builds_atom (notPair : template.hasKind .pair = false) : Builds template := by
  refine .of_succ fun m => ⟨.list m.nextObject [.symbol "quote", template], 1, 0, fun room _ => ?_⟩
  cases template with
  | list i items =>
    cases items with
    | nil => rfl
    | cons head rest => cases notPair
  | _ => rfl

theorem builds_unquote {x : Value} : Builds (.list i [.symbol "unquote", x]) :=
  .of_succ fun _ => ⟨x, 0, 0, fun _ _ => rfl⟩

theorem Builds.splice {x : Value} (after : ∀ k, Builds (.list k rest)) :
    Builds (.list i (.list j [.symbol "unquote-splicing", x] :: rest)) := by
  refine .of_succ fun m => ?_
  obtain ⟨code, count, room, after⟩ := after m.nextObject (m.made 1)
  let l := m.made (1 + count)
  refine ⟨.list l.nextObject [.symbol "append", x, code], 1 + count + 1, room, fun room' le => ?_⟩
  rw [ofTemplate_splice]
  refine outcome_bind_ok.mpr ⟨_, _, newList_ends _ _, ?_⟩
  refine outcome_bind_ok.mpr ⟨_, _, after room' le, ?_⟩
  exact ends_newList.mpr (by simp [l])

theorem Builds.pair (ordinary : Form.IsOrdinary head) (first : Builds head)
    (after : ∀ k, Builds (.list k rest)) : Builds (.list i (head :: rest)) := by
  refine .of_succ fun m => ?_
  obtain ⟨code, count, room₁, first⟩ := first m
  obtain ⟨code', count', room₂, after⟩ := after (m.made count).nextObject (m.made (count + 1))
  let l := m.made (count + 1 + count')
  refine ⟨.list l.nextObject [.symbol "cons", code, code'], count + 1 + count' + 1,
    room₁ + room₂, fun room' le => ?_⟩
  rw [ofTemplate_ordinary ordinary]
  refine outcome_bind_ok.mpr ⟨_, _, first room' (by omega), ?_⟩
  refine outcome_bind_ok.mpr ⟨_, _, newList_ends _ _, ?_⟩
  rw [Machine.made_made]
  refine outcome_bind_ok.mpr ⟨_, _, after room' (by omega), ?_⟩
  exact ends_newList.mpr (by simp [l])

theorem Refuses.splice {x : Value} (after : ∀ k, Refuses (.list k rest) form fault) :
    Refuses (.list i (.list j [.symbol "unquote-splicing", x] :: rest)) form fault := by
  refine .of_succ fun m => ?_
  obtain ⟨count, room, after⟩ := after m.nextObject (m.made 1)
  refine ⟨1 + count, room, fun room' le => ?_⟩
  rw [ofTemplate_splice, outcome_bind_of_ok (newList_ends rest m),
    outcome_bind_of_error (after room' le), Machine.made_made]
  rfl

theorem Refuses.first (ordinary : Form.IsOrdinary head) (first : Refuses head form fault) :
    Refuses (.list i (head :: rest)) form fault := by
  refine .of_succ fun m => ?_
  obtain ⟨count, room, first⟩ := first m
  refine ⟨count, room, fun room' le => ?_⟩
  rw [ofTemplate_ordinary ordinary, outcome_bind_of_error (first room' le)]

theorem Refuses.later (ordinary : Form.IsOrdinary head) (first : Builds head)
    (after : ∀ k, Refuses (.list k rest) form fault) : Refuses (.list i (head :: rest)) form fault := by
  refine .of_succ fun m => ?_
  obtain ⟨code, count, room₁, first⟩ := first m
  obtain ⟨count', room₂, after⟩ := after (m.made count).nextObject (m.made (count + 1))
  refine ⟨count + 1 + count', room₁ + room₂, fun room' le => ?_⟩
  rw [ofTemplate_ordinary ordinary, outcome_bind_of_ok (first room' (by omega)),
    outcome_bind_of_ok (newList_ends rest _)]
  have ends := after room' (by omega)
  rw [Machine.made_made] at ends
  exact outcome_bind_of_error ends _

/-- A template that is refused at once. -/
theorem refuses_at_once {α : Type} (step : ∀ room m h n,
      outcome (Form.refuse room form fault : Run α) m = (.error h, n) →
      outcome (Form.ofTemplate (room + 1) template) m = (.error h, n)) :
    Refuses template form fault := by
  refine .of_succ fun m => ?_
  obtain ⟨room, refused⟩ := Form.refuse_ends (α := α) m form fault
  exact ⟨0, room, fun room' le => step room' m _ _ (refused room' le)⟩

/-- Whether a template has a fault decides what becomes of it. -/
structure IsDecided (template : Value) : Prop where
  builds : fault? template = none → Builds template
  refuses : ∀ {form fault}, fault? template = some (form, fault) → Refuses template form fault

namespace IsDecided

theorem of_builds (clean : fault? template = none) (h : Builds template) : IsDecided template := by
  refine ⟨fun _ => h, fun faulty => ?_⟩
  rw [clean] at faulty
  cases faulty

theorem of_refuses (faulty : fault? template = some (form, fault)) (h : Refuses template form fault) :
    IsDecided template := by
  refine ⟨fun clean => ?_, fun same => ?_⟩
  · rw [faulty] at clean
    cases clean
  · rw [faulty] at same
    cases same
    exact h

theorem ordinary (here : Form.IsOrdinary head) (first : IsDecided head)
    (after : ∀ k, IsDecided (.list k rest)) : IsDecided (.list i (head :: rest)) := by
  have split : fault? (.list i (head :: rest)) = (fault? head <|> faultIn? rest) := by
    simp [fault?, faultIn?, here.noSplice, here.noUnquote, here.noSplicing]
  cases firstFault : fault? head with
  | some report =>
    rw [firstFault] at split
    exact of_refuses split (.first here (first.refuses firstFault))
  | none =>
    rw [firstFault] at split
    have built := first.builds firstFault
    cases laterFault : faultIn? rest with
    | some report =>
      rw [laterFault] at split
      exact of_refuses split (.later here built fun k => (after k).refuses laterFault)
    | none =>
      rw [laterFault] at split
      exact of_builds split (.pair here built fun k => (after k).builds laterFault)

/-- An unquoted part is a form of two elements. -/
theorem unquote : IsDecided (.list i (.symbol "unquote" :: rest)) := by
  match rest with
  | [] =>
    refine of_refuses rfl (refuses_at_once (α := Value) fun room m h n refused => ?_)
    rwa [Form.refuse_list 0 i] at refused
  | [x] => exact of_builds rfl builds_unquote
  | x :: y :: more =>
    have faulty : fault? (.list i (.symbol "unquote" :: x :: y :: more)) =
        some (.list 0 (.symbol "unquote" :: x :: y :: more), .wrongLength) := by
      simp [fault?, faultIn?, Value.isSymbol]
    refine of_refuses faulty (refuses_at_once (α := Value) fun room m h n refused => ?_)
    rwa [Form.refuse_list 0 i] at refused

/-- So is a spliced part. -/
theorem splicing {operands : List Value} (after : ∀ k, IsDecided (.list k rest)) :
    IsDecided (.list i (.list j (.symbol "unquote-splicing" :: operands) :: rest)) := by
  match operands with
  | [] => exact of_refuses rfl (refuses_at_once (α := Value) fun _ _ _ _ refused => refused)
  | [x] =>
    have same : fault? (.list i (.list j [.symbol "unquote-splicing", x] :: rest)) = faultIn? rest := rfl
    cases later : faultIn? rest with
    | none => exact of_builds (same.trans later) (.splice fun k => (after k).builds later)
    | some report => exact of_refuses (same.trans later) (.splice fun k => (after k).refuses later)
  | x :: y :: more => exact of_refuses rfl (refuses_at_once (α := Value) fun _ _ _ _ refused => refused)

theorem cons (first : IsDecided head) (after : ∀ k, IsDecided (.list k rest)) :
    IsDecided (.list i (head :: rest)) := by
  cases Form.begins head with
  | straySplice =>
    refine of_refuses rfl (refuses_at_once (α := Unit) fun room m h n refused => ?_)
    rw [Form.refuse_list 0 i] at refused
    exact outcome_bind_of_error refused _
  | unquote => exact unquote
  | splicing => exact splicing after
  | ordinary here => exact ordinary here first after

end IsDecided

mutual

theorem isDecided (template : Value) : IsDecided template := by
  cases template with
  | list i items => exact isDecided_list items i
  | _ => exact .of_builds rfl (builds_atom rfl)

theorem isDecided_list (items : List Value) (i : Nat) : IsDecided (.list i items) := by
  cases items with
  | nil => exact .of_builds rfl (builds_atom rfl)
  | cons head rest => exact .cons (isDecided head) (isDecided_list rest)

end

end Template

end SmallLisp
