import SmallLisp.Proofs.Likeness
import SmallLisp.Proofs.Room
/-!
# How deep values that are alike are nested

An expansion can nest a form deeper, by the sequence that it puts around the forms of a body, or less deep.
Of two values that are alike neither is more than twice as deep as the other; without expansions they are
equally deep.
-/
namespace SmallLisp

/-- How much deeper one of two forms may be than twice the other. -/
def Reading.allowance : Reading → Nat
  | plain => 0
  | expanded => 1

theorem Reading.allowance_le (r : Reading) : r.allowance ≤ 1 := by
  cases r <;> decide

namespace Value

/-- A value with parts at most so many levels deep. -/
def Shallow (room : Nat) (v : Value) : Prop :=
  v.isDeeperThan room = false

theorem shallow_succ_iff {room : Nat} {v : Value} :
    v.Shallow (room + 1) ↔ ∀ part ∈ v.parts, part.Shallow room := by
  simp [Shallow, isDeeperThan]

theorem shallow_zero_iff {v : Value} : v.Shallow 0 ↔ v.parts = [] := by
  simp [Shallow, isDeeperThan]

theorem Shallow.of_parts {v : Value} (h : v.parts = []) (room : Nat) : v.Shallow room := by
  cases room with
  | zero => exact shallow_zero_iff.mpr h
  | succ room => exact shallow_succ_iff.mpr (by simp [h])

theorem Shallow.mono {room room' : Nat} {v : Value} (h : v.Shallow room) (le : room ≤ room') :
    v.Shallow room' := by
  by_contra deep
  rw [Shallow, Bool.not_eq_false] at deep
  exact Bool.false_ne_true (h.symm.trans (isDeeperThan_of_le le deep))

/-- The second value is at most twice as deep as the first, and so many levels more. -/
def DeepensBy (more : Nat) (v v' : Value) : Prop :=
  ∀ room, v.Shallow room → v'.Shallow (2 * room + more)

namespace DeepensBy

variable {v v' : Value} {more more' : Nat} {items items' : List Value}

theorem mono (h : DeepensBy more v v') (le : more ≤ more') : DeepensBy more' v v' :=
  fun room shallow => (h room shallow).mono (by omega)

theorem of_parts (nil : v'.parts = []) : DeepensBy more v v' :=
  fun _ _ => .of_parts nil _

/-- One level of each value is two more for the parts of the second. -/
theorem of_step (nonempty : v.parts ≠ [])
    (h : ∀ room, (∀ part ∈ v.parts, part.Shallow room) →
      ∀ part ∈ v'.parts, part.Shallow (2 * room + more + 1)) : DeepensBy more v v' := by
  rintro (_ | room) shallow
  · exact absurd (shallow_zero_iff.mp shallow) nonempty
  · have parts := h room (shallow_succ_iff.mp shallow)
    exact (shallow_succ_iff.mpr parts).mono (by omega)

theorem all (h : List.Forall₂ (DeepensBy more) items items') {room : Nat}
    (shallow : ∀ part ∈ items, part.Shallow room) :
    ∀ part ∈ items', part.Shallow (2 * room + more) := by
  induction h with
  | nil => exact nofun
  | cons first _ ih =>
    intro part mem
    rcases List.mem_cons.mp mem with rfl | mem
    · exact first room (shallow _ List.mem_cons_self)
    · exact ih (fun part mem => shallow part (List.mem_cons_of_mem _ mem)) part mem

theorem list (h : List.Forall₂ (DeepensBy more) items items') (i j : Nat) :
    DeepensBy more (.list i items) (.list j items') := by
  cases h with
  | nil => exact of_parts rfl
  | cons first rest =>
    refine of_step (by simp [parts]) fun _ shallow part mem => ?_
    exact (all (.cons first rest) shallow part mem).mono (Nat.le_succ _)

theorem closure {ps ps' body body' : Value} (hps : DeepensBy 0 ps ps') (hbody : DeepensBy 1 body body')
    (i j : Nat) (home : FrameId) :
    DeepensBy more (.closure i ps body home) (.closure j ps' body' home) := by
  refine of_step (by simp [parts]) fun room shallow part mem => ?_
  rcases List.mem_cons.mp mem with rfl | mem
  · exact (hps room (shallow _ List.mem_cons_self)).mono (by omega)
  · obtain rfl := List.mem_singleton.mp mem
    exact (hbody room (shallow _ (by simp [parts]))).mono (by omega)

theorem escape (h : DeepensBy 0 v v') (k : Nat) : DeepensBy more (.escape k v) (.escape k v') := by
  refine of_step (by simp [parts]) fun room shallow part mem => ?_
  obtain rfl := List.mem_singleton.mp mem
  exact (h room (shallow _ List.mem_cons_self)).mono (by omega)

end DeepensBy

/-- Neither of two values is more than twice as deep as the other, and so many levels more. -/
def AsDeep (more : Nat) (v v' : Value) : Prop :=
  DeepensBy more v v' ∧ DeepensBy more v' v

namespace AsDeep

variable {v v' : Value} {more more' : Nat} {items items' : List Value}

theorem mono (h : AsDeep more v v') (le : more ≤ more') : AsDeep more' v v' :=
  ⟨h.1.mono le, h.2.mono le⟩

theorem of_atom (h : v.isAtom = true) : AsDeep more v v := by
  have nil : v.parts = [] := by cases v <;> first | rfl | cases h
  exact ⟨.of_parts nil, .of_parts nil⟩

theorem all (h : List.Forall₂ (AsDeep more) items items') :
    List.Forall₂ (DeepensBy more) items items' ∧ List.Forall₂ (DeepensBy more) items' items :=
  ⟨h.imp fun _ _ h => h.1, (h.imp fun _ _ h => h.2).flip⟩

theorem list (h : List.Forall₂ (AsDeep more) items items') (i j : Nat) :
    AsDeep more (.list i items) (.list j items') :=
  ⟨.list (all h).1 i j, .list (all h).2 j i⟩

theorem shortTest {t t' e e' : Value} (ht : AsDeep 1 t t') (he : AsDeep 1 e e') (i j : Nat) :
    AsDeep 1 (.list i [.symbol "if", t, e]) (.list j [.symbol "if", t', e', .unspecified]) := by
  refine ⟨.of_step (by simp [parts]) fun room shallow => ?_,
    .of_step (by simp [parts]) fun room shallow => ?_⟩
  · simp only [parts, List.forall_mem_cons] at shallow ⊢
    obtain ⟨_, t, e, _⟩ := shallow
    exact ⟨.of_parts rfl _, (ht.1 room t).mono (by omega), (he.1 room e).mono (by omega),
      .of_parts rfl _, nofun⟩
  · simp only [parts, List.forall_mem_cons] at shallow ⊢
    obtain ⟨_, t, e, _⟩ := shallow
    exact ⟨.of_parts rfl _, (ht.2 room t).mono (by omega), (he.2 room e).mono (by omega), nofun⟩

theorem longLambda {ps ps' : Value} {es es' : List Value} (hps : AsDeep 0 ps ps')
    (hes : List.Forall₂ (AsDeep 1) es es') (i j k : Nat) :
    AsDeep 1 (.list i (.symbol "lambda" :: ps :: es))
      (.list j [.symbol "lambda", ps', .list k (.symbol "begin" :: es')]) := by
  refine ⟨.of_step (by simp [parts]) fun room shallow => ?_,
    .of_step (by simp [parts]) fun room shallow => ?_⟩
  · simp only [parts, List.forall_mem_cons] at shallow ⊢
    obtain ⟨_, ps, es⟩ := shallow
    have begin : Shallow (2 * room + 1) (.symbol "begin") := .of_parts rfl _
    refine ⟨.of_parts rfl _, (hps.1 room ps).mono (by omega), ?_, nofun⟩
    exact shallow_succ_iff.mpr (List.forall_mem_cons.mpr ⟨begin, DeepensBy.all (all hes).1 es⟩)
  · simp only [parts, List.forall_mem_cons] at shallow ⊢
    obtain ⟨_, ps, body, _⟩ := shallow
    refine ⟨.of_parts rfl _, (hps.2 room ps).mono (by omega), fun part mem => ?_⟩
    cases room with
    | zero => cases shallow_zero_iff.mp body
    | succ room =>
      have es := (List.forall_mem_cons.mp (shallow_succ_iff.mp body)).2
      exact (DeepensBy.all (all hes).2 es part mem).mono (by omega)

/-- A sequence of nothing has one part, its expansion has none. -/
theorem emptySequence (i : Nat) : AsDeep 1 (.list i [.symbol "begin"]) .unspecified := by
  refine ⟨.of_parts rfl, fun room _ => shallow_succ_iff.mpr fun part mem => ?_⟩
  obtain rfl := List.mem_singleton.mp mem
  exact .of_parts rfl _

end AsDeep

/-- Lists are equally deep when their items are. -/
theorem shallow_list_iff {items items' : List Value}
    (h : List.Forall₂ (fun v v' => ∀ room, v.Shallow room ↔ v'.Shallow room) items items')
    (i j room : Nat) : (list i items).Shallow room ↔ (list j items').Shallow room := by
  cases room with
  | zero => cases h <;> simp [shallow_zero_iff, parts]
  | succ room =>
    simp only [shallow_succ_iff, parts]
    induction h with
    | nil => rfl
    | cons first _ ih => simp only [List.forall_mem_cons, first room, ih]

namespace Like

variable {w : Matching} {r : Reading} {v v' : Value}

/-- Values that are alike nest alike, but for what an expansion adds or leaves out. -/
theorem asDeep (h : Like w r v v') : AsDeep r.allowance v v' := by
  have all {r vs vs'} (hs : List.Forall₂ (fun v v' => ∃ _ : Like w r v v', AsDeep r.allowance v v')
      vs vs') : List.Forall₂ (AsDeep r.allowance) vs vs' := hs.imp fun _ _ ⟨_, h⟩ => h
  have symbol (name : String) : AsDeep 1 (.symbol name) (.symbol name) := .of_atom rfl
  induction h with
  | atom isAtom => exact .of_atom isAtom
  | nan => exact ⟨.of_parts rfl, .of_parts rfl⟩
  | @closure r r' i j ps ps' body body' home _ _ _ _ hps hbody =>
    have hbody := hbody.mono r'.allowance_le
    exact ⟨.closure hps.1 hbody.1 i j home, .closure hps.2 hbody.2 j i home⟩
  | escape _ h => exact ⟨.escape h.1 _, .escape h.2 _⟩
  | list _ _ items => exact .list (all items) _ _
  | quote _ d => exact .list (.cons (symbol _) (.cons (d.mono (Nat.zero_le _)) .nil)) _ _
  | shortTest _ _ t e => exact .shortTest t e _ _
  | test _ _ _ t e o => exact .list (.cons (symbol _) (.cons t (.cons e (.cons o .nil)))) _ _
  | binding _ isAtom _ e => exact .list (.cons (symbol _) (.cons (.of_atom isAtom) (.cons e .nil))) _ _
  | emptySequence => exact .emptySequence _
  | sequence _ _ e es => exact .list (.cons (symbol _) (.cons e (all es))) _ _
  | lambda _ _ ps body =>
    exact .list (.cons (symbol _) (.cons (ps.mono (Nat.zero_le _)) (.cons body .nil))) _ _
  | longLambda _ _ ps es => exact .longLambda ps (all es) _ _ _
  | application _ _ _ head args => exact .list (.cons head (all args)) _ _

/-- Without expansions values that are alike are equally deep. -/
theorem shallow_iff (strict : ¬ w.expanding) (h : Like w .plain v v') (room : Nat) :
    v.Shallow room ↔ v'.Shallow room := by
  generalize plain : Reading.plain = r at h
  induction h generalizing room with
  | atom => exact Iff.rfl
  | nan => exact ⟨fun _ => .of_parts rfl _, fun _ => .of_parts rfl _⟩
  | @closure r r' _ _ _ _ _ _ _ _ allowed _ _ hps hbody =>
    cases r' with
    | expanded => exact absurd (allowed rfl) strict
    | plain =>
      cases room with
      | zero => simp [shallow_zero_iff, parts]
      | succ room =>
        simp only [shallow_succ_iff, parts, List.forall_mem_cons]
        rw [hps room rfl, hbody room rfl]
  | escape _ h =>
    cases room with
    | zero => simp [shallow_zero_iff, parts]
    | succ room => simpa [shallow_succ_iff, parts] using h room rfl
  | list _ _ items => exact shallow_list_iff (items.imp fun _ _ ⟨_, h⟩ room => h room rfl) _ _ room
  | _ => cases plain

end Like

end Value

end SmallLisp
