import SmallLisp.Proofs.EvaluationInStep
import SmallLisp.Proofs.Panes
/-!
# Runs seen through a pane

Code that does not use the name in a pane and defines nothing in it does the same in the pane and in the frame
behind. Both runs make the same objects and frames, and only the homes of closures tell the pane from what is
behind it.
-/
namespace SmallLisp

open Run

variable {p : Pane} {l m n : Machine} {room : Nat} {x : FrameId} {v v' : Value}

namespace Pane

/-! ## Values and code -/

namespace Shows

/-- What homes have no part in is the same. -/
theorem observed {γ : Type} {f : Value → γ} (h : p.Shows v v') (blind : ∀ φ v, f (Value.rehome φ v) = f v) :
    f v' = f v := by
  rw [← blind id v', h, blind]

theorem list_inv {i : Nat} {items : List Value} (h : p.Shows (.list i items) v') :
    ∃ items', v' = .list i items' ∧ items'.map (Value.rehome id) = items.map (Value.rehome p.through) := by
  unfold Shows at h
  rw [Value.rehome_list] at h
  cases v' with
  | list j items' =>
    rw [Value.rehome_list] at h
    obtain ⟨rfl, same⟩ := Value.list.inj h
    exact ⟨items', rfl, same⟩
  | _ => cases h

theorem closure_inv {i : Nat} {parameters body : Value} {home : FrameId}
    (h : p.Shows (.closure i parameters body home) v') : ∃ parameters' body',
      v' = .closure i parameters' body' (p.through home) ∧
        parameters'.rehome (fun _ => 0) = parameters.rehome (fun _ => 0) ∧ p.Shows body body' := by
  unfold Shows at h
  cases v' with
  | closure j parameters' body' home' =>
    obtain ⟨rfl, parameters, body, rfl⟩ := Value.closure.inj h
    exact ⟨parameters', body', rfl, parameters, body⟩
  | _ => cases h

theorem escape_inv {k : Nat} (h : p.Shows (.escape k v) v') : ∃ u, v' = .escape k u ∧ p.Shows v u := by
  unfold Shows at h
  cases v' with
  | escape j u =>
    obtain ⟨rfl, same⟩ := Value.escape.inj h
    exact ⟨u, rfl, same⟩
  | _ => cases h

/-- The homes in the parameters of a closure are no matter. -/
theorem parameters (h : p.Shows v v') : v'.rehome (fun _ => 0) = v.rehome fun _ => 0 := by
  have same := congrArg (Value.rehome fun _ => 0) h
  simpa only [Value.rehome_rehome] using same

theorem symbol_inv {name : String} (h : p.Shows (.symbol name) v') : v' = .symbol name := by
  unfold Shows at h
  cases v' <;> cases h
  rfl

end Shows

/-- A value as it is seen in a state: the name in the pane is not come upon in it. -/
structure Sees (p : Pane) (m : Machine) (v v' : Value) : Prop where
  guards : p.Guards m v
  shows : p.Shows v v'

abbrev SeesAll (p : Pane) (m : Machine) : List Value → List Value → Prop :=
  List.Forall₂ (p.Sees m)

theorem Sees.mono (h : p.Sees m v v') (later : p.Later m n) : p.Sees n v v' :=
  ⟨h.guards.mono later, h.shows⟩

namespace SeesAll

variable {vs vs' : List Value}

theorem mono (h : p.SeesAll m vs vs') (later : p.Later m n) : p.SeesAll n vs vs' :=
  h.imp fun _ _ sees => sees.mono later

theorem guards (h : p.SeesAll m vs vs') : ∀ v ∈ vs, p.Guards m v := by
  induction h with
  | nil => exact nofun
  | cons first _ ih => exact List.forall_mem_cons.mpr ⟨first.guards, ih⟩

theorem shows (h : p.SeesAll m vs vs') : vs'.map (Value.rehome id) = vs.map (Value.rehome p.through) := by
  induction h with
  | nil => rfl
  | cons first _ ih => rw [List.map_cons, List.map_cons, first.shows, ih]

theorem of_map (guards : ∀ v ∈ vs, p.Guards m v)
    (shows : vs'.map (Value.rehome id) = vs.map (Value.rehome p.through)) : p.SeesAll m vs vs' := by
  induction vs generalizing vs' with
  | nil =>
    obtain rfl := List.map_eq_nil_iff.mp shows
    exact .nil
  | cons v vs ih =>
    cases vs' with
    | nil => cases shows
    | cons v' vs' =>
      obtain ⟨first, later⟩ := List.cons.inj shows
      obtain ⟨here, rest⟩ := List.forall_mem_cons.mp guards
      exact .cons ⟨here, first⟩ (ih rest later)

end SeesAll

theorem Sees.list_inv {i : Nat} {items : List Value} (h : p.Sees m (.list i items) v') :
    ∃ items', v' = .list i items' ∧ p.SeesAll m items items' := by
  obtain ⟨items', rfl, same⟩ := h.shows.list_inv
  exact ⟨items', rfl, .of_map ((guards_hereditary p m).list.mp h.guards) same⟩

/-- Code in a frame that neither comes upon the name in the pane nor defines anything there. -/
structure Reads (p : Pane) (m : Machine) (x : FrameId) (e e' : Value) : Prop where
  exists_ : x < m.frames.all.size
  sees : p.Sees m e e'
  hidden : p.Exposes m x → ¬ e.Uses p.name
  inert : x = p.frame → ¬ e.Defines

theorem Reads.mono {e e' : Value} (h : p.Reads m x e e') (later : p.Later m n) : p.Reads n x e e' where
  exists_ := Nat.lt_of_lt_of_le h.exists_ later.size
  sees := h.sees.mono later
  hidden exposed := h.hidden (later.exposes x h.exists_ exposed)
  inert := h.inert

section Parts

variable {i : Nat} {head form : Value} {rest : List Value} (h : p.Reads m x (.list i (head :: rest)) form)
include h

/-- A part of a core form that is evaluated in its frame. -/
theorem Reads.part {e e' : Value} (sees : p.Sees m e e') (mem : e ∈ Form.scopeParts head rest) :
    p.Reads m x e e' where
  exists_ := h.exists_
  sees := sees
  hidden exposed uses := h.hidden exposed (.part mem uses)
  inert same defines := h.inert same (.part mem defines)

theorem Reads.parts {es es' : List Value} (sees : p.SeesAll m es es')
    (parts : ∀ e ∈ es, e ∈ Form.scopeParts head rest) : List.Forall₂ (p.Reads m x) es es' := by
  induction sees with
  | nil => exact .nil
  | cons first _ ih =>
    obtain ⟨here, later⟩ := List.forall_mem_cons.mp parts
    exact .cons (h.part first here) (ih later)

end Parts

/-! ## Runs -/

variable {α α' β β' γ : Type} {R : Machine → α → α' → Prop} {R' : Machine → β → β' → Prop}

/-- How two runs end of which the second is the first seen through the pane. -/
inductive Ended (p : Pane) (m : Machine) (R : Machine → α → α' → Prop) : Outcome α → Outcome α' → Prop
  | ok {y y' n n'} : p.In n → p.Later m n → p.ShowsState n n' → R n y y' → Ended p m R (.ok y, n) (.ok y', n')
  | error {h n n'} : p.In n → p.Later m n → p.ShowsState n n' → Ended p m R (.error h, n) (.error h, n')

theorem Ended.seen {o o' : Outcome Value} (ended : p.Ended m p.Sees o o') :
    p.In o.2 ∧ o'.1.map (Value.rehome id) = o.1.map (Value.rehome p.through) ∧ p.ShowsState o.2 o'.2 := by
  cases ended with
  | error inside _ shows => exact ⟨inside, rfl, shows⟩
  | ok inside _ shows sees => exact ⟨inside, congrArg Except.ok sees.shows, shows⟩

/-- The second run is the first seen through the pane. -/
def Follows (p : Pane) (m : Machine) (a : Run α) (a' : Run α') (R : Machine → α → α' → Prop) : Prop :=
  ∀ m', p.In m → p.ShowsState m m' → p.Ended m R (outcome a m) (outcome a' m')

namespace Follows

theorem pure {y : α} {y' : α'} (h : R m y y') : p.Follows m (pure y) (pure y') R :=
  fun _ inside shows => .ok inside (.refl p m) shows h

theorem throw (h : Halt) : p.Follows m (throw h : Run α) (throw h : Run α') R :=
  fun _ inside shows => .error inside (.refl p m) shows

theorem fail (f : Failure) : p.Follows m (fail f : Run α) (Run.fail f : Run α') R :=
  throw (.failed f)

/-- The pane is in its place. -/
theorem within {a : Run α} {a' : Run α'} (h : p.In m → p.Follows m a a' R) : p.Follows m a a' R :=
  fun m' inside shows => h inside m' inside shows

theorem fail_bind (f : Failure) {k : α → Run β} {k' : α' → Run β'} :
    p.Follows m (Run.fail f >>= k) (Run.fail f >>= k') R' :=
  fun _ inside shows => .error inside (.refl p m) shows

theorem bind {a : Run α} {a' : Run α'} {k : α → Run β} {k' : α' → Run β'} (first : p.Follows m a a' R)
    (rest : ∀ n y y', p.Later m n → R n y y' → p.Follows n (k y) (k' y') R') :
    p.Follows m (a >>= k) (a' >>= k') R' := by
  intro m' inside shows
  rw [outcome_bind, outcome_bind]
  generalize outcome a m = o, outcome a' m' = o', first m' inside shows = ended
  cases ended with
  | error inside later shows => exact .error inside later shows
  | ok inside later shows related =>
    have next := rest _ _ _ later related _ inside shows
    dsimp only
    generalize outcome (k _) _ = o, outcome (k' _) _ = o' at next
    cases next with
    | error inside later' shows => exact .error inside (later.trans later') shows
    | ok inside later' shows related => exact .ok inside (later.trans later') shows related

theorem mono {R' : Machine → α → α' → Prop} {a : Run α} {a' : Run α'} (h : p.Follows m a a' R)
    (weaker : ∀ n y y', p.Later m n → R n y y' → R' n y y') : p.Follows m a a' R' := by
  intro m' inside shows
  generalize outcome a m = o, outcome a' m' = o', h m' inside shows = ended
  cases ended with
  | error inside later shows => exact .error inside later shows
  | ok inside later shows related => exact .ok inside later shows (weaker _ _ _ later related)

/-- The state is read. -/
theorem get_bind {k : Machine → Run β} {k' : Machine → Run β'}
    (rest : ∀ m', p.In m → p.ShowsState m m' → p.Follows m (k m) (k' m') R') :
    p.Follows m (get >>= k) (get >>= k') R' :=
  fun m' inside shows => rest m' inside shows m' inside shows

theorem deeper {go : Nat → Run α} {go' : Nat → Run α'} (h : ∀ room, p.Follows m (go room) (go' room) R)
    (room : Nat) : p.Follows m (Run.deeper room go) (Run.deeper room go') R := by
  cases room with
  | zero => exact fail .tooDeep
  | succ room => exact h room

theorem mapM {f : Value → Run Value} {f' : Value → Run Value} {vs vs' : List Value} (h : p.SeesAll m vs vs')
    (one : ∀ n v v', p.Sees n v v' → p.Follows n (f v) (f' v') p.Sees) :
    p.Follows m (vs.mapM f) (vs'.mapM f') p.SeesAll := by
  induction vs generalizing m vs' with
  | nil =>
    cases h
    exact pure .nil
  | cons v vs ih =>
    cases h with
    | cons first rest =>
      rw [List.mapM_cons, List.mapM_cons]
      refine (one m _ _ first).bind fun n w w' later sees => ?_
      refine (ih (SeesAll.mono rest later)).bind fun l ws ws' later all => ?_
      exact pure (.cons (sees.mono later) all)

/-- A quiet computation that does the same with other homes. -/
theorem of_rehomes {tr : α → γ} {tr' : α' → γ} {a : Run α} {a' : Run α'} {b : Run γ} {Q : α → Prop}
    (first : Rehomes p.through tr a b) (second : Rehomes id tr' a' b) (gives : Gives a Q) :
    p.Follows m a a' fun _ y y' => Q y ∧ tr' y' = tr y := by
  intro m' inside shows
  have same := second m'
  rw [shows, first m] at same
  obtain ⟨quiet, good⟩ := gives m
  generalize outcome a m = o at same quiet good
  generalize outcome a' m' = o' at same
  obtain ⟨r, n⟩ := o
  obtain ⟨r', n'⟩ := o'
  obtain ⟨results, states⟩ := Prod.mk.inj same
  have later : p.Later m n := .of_frames quiet.frames
  have inside : p.In n := inside.of_frames quiet.frames quiet.transformers
  cases r with
  | error h =>
    cases r' with
    | error h' =>
      obtain rfl := Except.error.inj results
      exact .error inside later states.symm
    | ok y' => cases results
  | ok y =>
    cases r' with
    | error h' => cases results
    | ok y' => exact .ok inside later states.symm ⟨good y n rfl, (Except.ok.inj results).symm⟩

/-- A quiet computation on operands. -/
theorem of_operands {f : List Value → Run Value} {vs vs' : List Value} (h : p.SeesAll m vs vs')
    (rehomes : ∀ φ vs, Rehomes φ (Value.rehome φ) (f vs) (f (vs.map (Value.rehome φ))))
    (gives : Gives (f vs) (p.Guards m)) : p.Follows m (f vs) (f vs') p.Sees := by
  have second := rehomes id vs'
  rw [h.shows] at second
  exact (of_rehomes (rehomes p.through vs) second gives).mono fun n v v' later ⟨guards, shows⟩ =>
    ⟨guards.mono later, shows⟩

end Follows

/-! ## What runs do with frames and names -/

end Pane

/-- Every target is bound. -/
theorem Bindings.binds_ofPairs {pairs : List (Value × Value)} {bs : Bindings} (h : ofPairs pairs = .ok bs)
    {key : Key} (target : ∃ pair ∈ pairs, Key.ofValue? pair.1 = some key) : bs.binds key = true := by
  unfold ofPairs at h
  generalize ([] : Bindings) = bound at h
  have among : binds bound key = true ∨ ∃ pair ∈ pairs, Key.ofValue? pair.1 = some key := Or.inr target
  clear target
  induction pairs generalizing bound with
  | nil =>
    cases h
    simpa using among
  | cons pair pairs ih =>
    rw [List.foldlM_cons] at h
    cases made : Binding.ofTarget pair.1 pair.2 with
    | error f => simp [made, Bind.bind, Except.bind] at h
    | ok b =>
      simp only [made, Bind.bind, Except.bind] at h
      refine ih _ h ?_
      rw [binds_put]
      rcases among with earlier | ⟨other, mem, named⟩
      · exact Or.inl (by rw [earlier, Bool.or_true])
      · rcases List.mem_cons.mp mem with rfl | mem
        · have same : b.key = key := Option.some.inj ((Binding.ofTarget_eq_ok made).2.2.symm.trans named)
          exact Or.inl (by simp [same])
        · exact Or.inr ⟨other, mem, named⟩

/-- Parameters are bound to what was passed, each of them. -/
theorem Hereditary.bindParameters_gives {Good : Value → Prop} (good : Hereditary Good) (room : Nat) (parameters : Value)
    {args : List Value} (h : ∀ v ∈ args, Good v) (name : String) :
    Gives (bindParameters room parameters args) fun bs => (∀ b ∈ bs, Good b.value) ∧
      (parameters.HasParameter name → bs.binds (.name name) = true) := by
  unfold bindParameters
  split
  · rename_i one named
    refine (good.newList_gives h).bind fun v hv => .pure ⟨List.forall_mem_singleton.mpr hv, ?_⟩
    rintro (same | ⟨ps, listed, _⟩)
    · obtain rfl := Option.some.inj (named.symm.trans same)
      exact if_pos rfl
    · cases parameters with
      | symbol _ => cases listed
      | endOfText => cases listed
      | _ => cases named
  · rename_i ps none listed
    split
    · exact (Gives.mapM fun p _ => bare_gives room p).bind fun _ _ => .fail _
    · rename_i equal
      refine .ofExcept fun bs made =>
        ⟨Bindings.forall_ofPairs made fun p mem => h _ (List.of_mem_zip mem).2, ?_⟩
      rintro (same | ⟨ps', listed', p, mem, key⟩)
      · rw [none] at same
        cases same
      · obtain rfl := Option.some.inj (listed.symm.trans listed')
        have firsts : (ps.zip args).map (·.1) = ps :=
          List.map_fst_zip (Nat.le_of_eq (Classical.not_not.mp equal))
        rw [← firsts] at mem
        obtain ⟨pair, inside, rfl⟩ := List.mem_map.mp mem
        exact Bindings.binds_ofPairs made ⟨pair, inside, key⟩
  · exact .fail _

namespace Pane

section State

variable {target target' : Value} {vs vs' : List Value}

theorem Guards.lookup? {key : Key} (inside : p.In m) (found : m.frames.lookup? x key = some v) : p.Guards m v := by
  obtain ⟨owner, _, found⟩ := Option.bind_eq_some_iff.mp found
  exact Bindings.of_get? (inside.bindings owner) found

theorem bare_follows (shows : p.Shows target target') :
    p.Follows m (bare room target) (bare room target') fun _ text text' => text' = text := by
  have second : Rehomes id id (bare room target') (bare room (target'.rehome id)) := bare_rehomes target'
  rw [shows] at second
  exact (Follows.of_rehomes (bare_rehomes target) second (bare_gives room target)).mono fun _ _ _ _ h => h.2

theorem source_follows (shows : p.Shows v v') :
    p.Follows m (source room v) (source room v') fun _ text text' => text' = text := by
  have second : Rehomes id id (source room v') (source room (v'.rehome id)) := source_rehomes v'
  rw [shows] at second
  exact (Follows.of_rehomes (source_rehomes v) second (source_gives room v)).mono fun _ _ _ _ h => h.2

/-- The name in the pane is not looked up in it. -/
def Hides (p : Pane) (m : Machine) (x : FrameId) (target : Value) : Prop :=
  p.Exposes m x → Key.ofValue? target ≠ some (.name p.name)

variable (p) in
theorem unbound_follows (shows : p.Shows target target') :
    p.Follows m (do Run.fail (.unbound (← bare room target)) : Run α)
      (do Run.fail (.unbound (← bare room target')) : Run α') R :=
  (bare_follows shows).bind fun _ _ _ _ same => same ▸ .fail _

theorem find_follows (shows : p.Shows target target') (hides : p.Hides m x target) :
    p.Follows m (find room x target) (find room (p.through x) target') fun _ owner owner' =>
      owner' = owner ∧ owner ≠ p.frame := by
  unfold find keyOf
  rw [shows.observed (f := Key.ofValue?) fun _ v => Value.ofValue?_rehome v]
  cases key? : Key.ofValue? target with
  | none => exact .fail_bind _
  | some key =>
    have hidden (same : key = .name p.name) (exposed : p.Exposes m x) : False :=
      hides exposed (key?.trans (congrArg some same))
    simp only [pure_bind]
    refine .get_bind fun m' inside state => ?_
    rw [find?_through inside state hidden]
    cases found : m.frames.find? x key with
    | none => exact unbound_follows p shows
    | some owner =>
      refine .pure ⟨rfl, ?_⟩
      rintro rfl
      have same : key = .name p.name := (inside.binds key).mp (Frames.binds_of_find? found)
      exact hidden same (same.subst (motive := fun key => m.frames.find? x key = some p.frame) found)

theorem lookup_follows (shows : p.Shows target target') (hides : p.Hides m x target) :
    p.Follows m (lookup room x target) (lookup room (p.through x) target') p.Sees := by
  unfold lookup keyOf
  rw [shows.observed (f := Key.ofValue?) fun _ v => Value.ofValue?_rehome v]
  cases key? : Key.ofValue? target with
  | none => exact .fail_bind _
  | some key =>
    have hidden (same : key = .name p.name) (exposed : p.Exposes m x) : False :=
      hides exposed (key?.trans (congrArg some same))
    simp only [pure_bind]
    refine .get_bind fun m' inside state => ?_
    have same := lookup?_through inside state hidden
    cases found : m.frames.lookup? x key with
    | none =>
      rw [found, Option.map_none, Option.map_eq_none_iff] at same
      rw [same]
      exact unbound_follows p shows
    | some v =>
      rw [found] at same
      obtain ⟨v', found', same⟩ := Option.map_eq_some_iff.mp same
      rw [found']
      exact .pure ⟨.lookup? inside found, same⟩

theorem bind_follows {owner : FrameId} (other : owner ≠ p.frame) {b b' : Binding} (guards : p.Guards m b.value)
    (shows : b'.rehome id = b.rehome p.through) :
    p.Follows m (Run.bind owner b) (Run.bind owner b') fun _ _ _ => True := by
  intro m' inside state
  have first := bind_rehomes (φ := p.through) owner b m
  have second := bind_rehomes (φ := id) owner b' m'
  rw [state, shows, first] at second
  exact .ok (inside.define other guards) (inside.later_define owner) (Prod.mk.inj second).2.symm trivial

theorem define_follows (other : x ≠ p.frame) (shows : p.Shows target target') (sees : p.Sees m v v') :
    p.Follows m (Run.define room x target v) (Run.define room x target' v') fun _ _ _ => True := by
  unfold Run.define
  rw [shows.observed (f := Value.name?) fun _ v => Value.name?_rehome v]
  cases target.name? with
  | none => exact (bare_follows shows).bind fun _ _ _ _ same => same ▸ .fail _
  | some name =>
    exact bind_follows other sees.guards (congrArg (Binding.ofName name) sees.shows)

theorem assign_follows (shows : p.Shows target target')
    (hides : p.Hides m x target) (sees : p.Sees m v v') :
    p.Follows m (Run.assign room x target v) (Run.assign room (p.through x) target' v') fun _ _ _ => True := by
  refine (find_follows shows hides).bind fun n owner owner' later ⟨same, other⟩ => ?_
  subst same
  have first := Rehomes.ofExcept (φ := p.through) (Binding.ofTarget_rehome (φ := p.through) target v)
  have second := Rehomes.ofExcept (φ := id) (Binding.ofTarget_rehome (φ := id) target' v')
  rw [shows.parameters, sees.shows] at second
  have made : Gives (ofExcept (Binding.ofTarget target v)) fun b => p.Guards m b.value :=
    .ofExcept fun b made => (Binding.ofTarget_eq_ok made).2.1 ▸ sees.guards
  refine (Follows.of_rehomes first second made).bind fun l b b' later' ⟨guards, same⟩ => ?_
  exact bind_follows other (guards.mono (later.trans later')) same

/-- Homes have no part in which parameters are bound. -/
theorem newFrame_follows {parameters parameters' : Value} {home : FrameId}
    (shows : parameters'.rehome (fun _ => 0) = parameters.rehome fun _ => 0) (all : p.SeesAll m vs vs')
    (exists_ : home < m.frames.all.size) :
    p.Follows m (newFrame room parameters vs (some home)) (newFrame room parameters' vs' (some (p.through home)))
      fun n inside inside' => inside' = inside ∧ inside ≠ p.frame ∧ inside < n.frames.all.size ∧
        (p.Exposes n inside → p.Exposes m home ∧ ¬ parameters.HasParameter p.name) := by
  have bind (φ : FrameId → FrameId) (parameters : Value) (vs : List Value) :
      Rehomes φ (Bindings.rehome φ) (bindParameters room parameters vs)
        (bindParameters room (parameters.rehome fun _ => 0) (vs.map (Value.rehome φ))) :=
    bindParameters_rehomes parameters vs
  have first := bind p.through parameters vs
  have second := bind id parameters' vs'
  rw [shows, all.shows] at second
  have gives := (guards_hereditary p m).bindParameters_gives room parameters all.guards p.name
  refine (Follows.of_rehomes first second gives).bind fun n bs bs' later ⟨⟨guards, bound⟩, same⟩ => ?_
  intro n' inside state
  have exists' : home < n.frames.all.size := Nat.lt_of_lt_of_le exists_ later.size
  have frames : n'.frames.rehome id = n.frames.rehome p.through := congrArg Machine.frames state
  have number : n'.frames.all.size = n.frames.all.size := by
    have sizes := congrArg (fun fs : Frames => fs.all.size) frames
    simpa only [Frames.size_rehome] using sizes
  refine .ok (inside.new exists' fun b mem => (guards b mem).mono later) (inside.later_new exists' bs) ?_
    ⟨number, Nat.ne_of_gt inside.lt, ?_, fun exposed => ?_⟩
  · have made := n.frames.new_rehome (φ := p.through) bs (some home)
    have made' := n'.frames.new_rehome (φ := id) bs' (some (p.through home))
    rw [frames, same] at made'
    change ({ n'.rehome id with frames := (n'.frames.new bs' (some (p.through home))).2.rehome id } : Machine) =
      { n.rehome p.through with frames := (n.frames.new bs (some home)).2.rehome p.through }
    rw [made, made', state]
    rfl
  · change n.frames.all.size < (n.frames.new bs (some home)).2.all.size
    rw [Frames.size_new]
    exact Nat.lt_succ_self _
  · obtain ⟨free, exposed⟩ := inside.exposes_new exists' exposed
    refine ⟨later.exposes home exists_ exposed, fun among => ?_⟩
    rw [bound among] at free
    cases free

theorem invoke_follows (k : Nat) (all : p.SeesAll m vs vs') :
    p.Follows m (invoke k vs) (invoke k vs') p.Sees := by
  have gives (vs : List Value) (guards : ∀ v ∈ vs, p.Guards m v) : Gives (invoke k vs) (p.Guards m) := by
    have checked {a : Run Value} (answered : Gives a (p.Guards m)) : Gives (do
        if !(← get).isLive k then Run.fail .spentContinuation
        a) (p.Guards m) := by
      refine Gives.get.next fun m => ?_
      split
      · exact Gives.next (.fail _) fun _ => answered
      · exact answered
    rcases vs with _ | ⟨v, _ | ⟨w, rest⟩⟩
    · exact checked (.pure (guards_escape_iff.mpr (guards_hereditary p m).unspecified))
    · exact checked (.pure (guards_escape_iff.mpr (guards v (by simp))))
    · exact checked (.fail _)
  exact .of_operands all (fun φ vs => invoke_rehomes k vs) (gives vs all.guards)

/-- The continuations have no part in what is seen. -/
theorem ShowsState.owned {m' : Machine} (state : p.ShowsState m m') (change : Array Bool → Array Bool) :
    p.ShowsState { m with continuations := change m.continuations }
      { m' with continuations := change m'.continuations } := by
  unfold ShowsState at state ⊢
  exact congrArg (fun l : Machine => { l with continuations := change l.continuations }) state

theorem Ended.owned {o o' : Outcome Value} (ended : p.Ended m p.Sees o o') (change : Array Bool → Array Bool) :
    p.Ended m p.Sees (o.1, { o.2 with continuations := change o.2.continuations })
      (o'.1, { o'.2 with continuations := change o'.2.continuations }) := by
  cases ended with
  | error inside later state =>
    exact .error (inside.of_frames rfl rfl) (later.trans (.of_frames rfl)) (state.owned change)
  | @ok y y' n n' inside later state sees =>
    have kept : p.Later n { n with continuations := change n.continuations } := .of_frames rfl
    exact .ok (inside.of_frames rfl rfl) (later.trans kept) (state.owned change) (sees.mono kept)

theorem openContinuation_follows : p.Follows m openContinuation openContinuation fun _ k k' => k' = k := by
  intro m' inside state
  have same : m'.continuations.size = m.continuations.size := by
    unfold ShowsState at state
    have sizes := congrArg (fun l : Machine => l.continuations.size) state
    exact sizes
  exact .ok (inside.of_frames rfl rfl) (.of_frames rfl) (state.owned fun c => c.push true) same

theorem Follows.spending {a a' : Run Value} (h : p.Follows m a a' p.Sees) (k : Nat) :
    p.Follows m (spending k a) (Run.spending k a') p.Sees := by
  intro m' inside state
  rw [outcome_spending, outcome_spending]
  exact (h m' inside state).owned fun c => c.setIfInBounds k false

theorem register_follows (name : String) (sees : p.Sees m v v') :
    p.Follows m (register name v) (register name v') fun _ _ _ => True := by
  intro m' inside state
  have first := register_rehomes (φ := p.through) name v m
  have second := register_rehomes (φ := id) name v' m'
  rw [state, sees.shows, first] at second
  exact .ok (inside.register sees.guards) (.of_frames rfl) (Prod.mk.inj second).2.symm trivial

theorem transformer?_follows {head head' : Value} (shows : p.Shows head head') :
    p.Follows m (transformer? head) (transformer? head') fun n t t' =>
      t'.map (Value.rehome id) = t.map (Value.rehome p.through) ∧ ∀ u ∈ t, p.Guards n u := by
  by_cases named : ∃ name, head = .symbol name
  · obtain ⟨name, rfl⟩ := named
    obtain rfl := shows.symbol_inv
    refine .get_bind fun m' inside state => .pure ⟨?_, fun u found => ?_⟩
    · have same := congrArg (fun l : Machine => l.transformers.get? (.name name)) state
      simpa only [Machine.rehome, Bindings.get?_rehome] using same
    · exact Bindings.of_get? inside.transformers found
  · have none (v : Value) (h : ¬ ∃ name, v = .symbol name) : transformer? v = Pure.pure none := by
      cases v with
      | symbol name => exact absurd ⟨name, rfl⟩ h
      | _ => rfl
    have other : ¬ ∃ name, head' = .symbol name := by
      rintro ⟨name, rfl⟩
      unfold Shows at shows
      cases head with
      | symbol s => exact named ⟨s, rfl⟩
      | _ => cases shows
    rw [none head named, none head' other]
    exact .pure ⟨rfl, fun u mem => absurd mem (Option.not_mem_none u)⟩

theorem Sees.received (sees : p.Sees m v v') (k : Nat) : p.Sees m (v.received k) (v'.received k) where
  guards := by
    unfold Value.received
    split
    · split
      · exact guards_escape_iff.mp sees.guards
      · exact sees.guards
    · exact sees.guards
  shows := by
    unfold Shows
    rw [← Value.received_rehome, ← Value.received_rehome, sees.shows]

theorem newList_follows (all : p.SeesAll m vs vs') : p.Follows m (newList vs) (newList vs') p.Sees :=
  .of_operands all (fun _ vs => newList_rehomes vs) ((guards_hereditary p m).newList_gives all.guards)

theorem oneOperand_follows (name : String) (all : p.SeesAll m vs vs') :
    p.Follows m (oneOperand name vs) (oneOperand name vs') p.Sees :=
  .of_operands all (fun _ vs => oneOperand_rehomes name vs) ((guards_hereditary p m).oneOperand_gives name all.guards)

theorem twoOperands_follows (name : String) (all : p.SeesAll m vs vs') :
    p.Follows m (twoOperands name vs) (twoOperands name vs') fun n vw vw' =>
      p.Sees n vw.1 vw'.1 ∧ p.Sees n vw.2 vw'.2 := by
  have second := twoOperands_rehomes (φ := id) name vs'
  rw [all.shows] at second
  have gives := (guards_hereditary p m).twoOperands_gives name all.guards
  refine (Follows.of_rehomes (twoOperands_rehomes name vs) second gives).mono
    fun n vw vw' later ⟨⟨first, last⟩, same⟩ => ?_
  obtain ⟨shows, shows'⟩ := Prod.mk.inj same
  exact ⟨⟨first.mono later, shows⟩, last.mono later, shows'⟩

theorem listOperand_follows (name : String) (sees : p.Sees m v v') :
    p.Follows m (listOperand room name v) (listOperand room name v') p.SeesAll := by
  have second : Rehomes id (List.map (Value.rehome id)) (listOperand room name v')
      (listOperand room name (v'.rehome id)) := listOperand_rehomes name v'
  rw [sees.shows] at second
  have gives := (guards_hereditary p m).listOperand_gives room name sees.guards
  exact (Follows.of_rehomes (listOperand_rehomes name v) second gives).mono fun n vs vs' later ⟨guards, same⟩ =>
    .of_map (fun u mem => (guards u mem).mono later) same

theorem refuse_follows (shows : p.Shows v v') (fault : FormFault) :
    p.Follows m (Form.refuse room v fault : Run α) (Form.refuse room v' fault : Run α) R := by
  have refused (φ : FrameId → FrameId) (v : Value) : Rehomes φ id (Form.refuse room v fault : Run α)
      (Form.refuse room (v.rehome φ) fault) := Form.refuse_rehomes v fault
  have second := refused id v'
  rw [shows] at second
  have gives : Gives (Form.refuse room v fault : Run α) fun _ => False :=
    (source_gives room v).next fun _ => .fail _
  exact (Follows.of_rehomes (refused p.through v) second gives).mono
    fun _ _ _ _ h => h.1.elim

theorem require_follows (shows : p.Shows v v') (fault : FormFault) (ok : Bool) :
    p.Follows m (Form.require room v fault ok) (Form.require room v' fault ok) fun _ _ _ => True := by
  cases ok with
  | true => exact .pure trivial
  | false => exact refuse_follows shows fault

theorem body_follows (all : p.SeesAll m vs vs') : p.Follows m (Form.body vs) (Form.body vs') p.Sees :=
  .of_operands all (fun _ vs => Form.body_rehomes vs) ((guards_hereditary p m).body_gives all.guards)

theorem ofTemplate_follows (sees : p.Sees m v v') :
    p.Follows m (Form.ofTemplate room v) (Form.ofTemplate room v') p.Sees := by
  have second : Rehomes id (Value.rehome id) (Form.ofTemplate room v') (Form.ofTemplate room (v'.rehome id)) :=
    Form.ofTemplate_rehomes v'
  rw [sees.shows] at second
  have gives := (guards_hereditary p m).ofTemplate_gives room sees.guards
  exact (Follows.of_rehomes (Form.ofTemplate_rehomes v) second gives).mono fun n u u' later ⟨guards, same⟩ =>
    ⟨guards.mono later, same⟩

end State

end Pane

end SmallLisp
