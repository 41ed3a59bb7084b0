import SmallLisp.Proofs.Mentions
/-!
# Other homes

The home of a closure is a number that nothing shows and nothing compares. A computation that looks no key
up in a frame does the same when all closures have other homes, given by a map of the frames. What a closure has
for its parameters is never run, so the homes in it are left out of account.
-/
namespace SmallLisp

open Run

variable {φ ψ : FrameId → FrameId}

namespace Value

mutual

/-- A value with other homes. The homes in the parameters of a closure are all made the same. -/
def rehome (φ : FrameId → FrameId) : Value → Value
  | list i items => list i (rehomeAll φ items)
  | closure i parameters body home =>
    closure i (rehome (fun _ => 0) parameters) (rehome φ body) (φ home)
  | escape k v => escape k (rehome φ v)
  | symbol name => symbol name
  | int n => int n
  | float x => float x
  | nan i => nan i
  | string s => string s
  | bool b => bool b
  | continuation k => continuation k
  | primitive p => primitive p
  | control c => control c
  | unspecified => unspecified
  | endOfText => endOfText

def rehomeAll (φ : FrameId → FrameId) : List Value → List Value
  | [] => []
  | v :: vs => rehome φ v :: rehomeAll φ vs

end

theorem rehomeAll_eq_map (vs : List Value) : rehomeAll φ vs = vs.map (rehome φ) := by
  induction vs with
  | nil => rfl
  | cons v vs ih => simp [rehomeAll, ih]

@[simp] theorem rehome_list (i : Nat) (items : List Value) :
    (list i items).rehome φ = list i (items.map (rehome φ)) := by
  rw [rehome, rehomeAll_eq_map]

mutual

theorem rehome_rehome : (v : Value) → ∀ φ ψ : FrameId → FrameId, (v.rehome φ).rehome ψ = v.rehome fun f => ψ (φ f)
  | list i items, φ, ψ => by rw [rehome, rehome, rehome, rehomeAll_rehomeAll items]
  | closure i parameters body home, φ, ψ => by
    rw [rehome, rehome, rehome, rehome_rehome parameters, rehome_rehome body]
  | escape k v, φ, ψ => by rw [rehome, rehome, rehome, rehome_rehome v]
  | symbol _, _, _ | int _, _, _ | float _, _, _ | nan _, _, _ | string _, _, _ | bool _, _, _
  | continuation _, _, _ | primitive _, _, _ | control _, _, _ | unspecified, _, _ | endOfText, _, _ => rfl

theorem rehomeAll_rehomeAll : (vs : List Value) → ∀ φ ψ : FrameId → FrameId,
    rehomeAll ψ (rehomeAll φ vs) = rehomeAll (fun f => ψ (φ f)) vs
  | [], _, _ => rfl
  | v :: vs, φ, ψ => by rw [rehomeAll, rehomeAll, rehomeAll, rehome_rehome v, rehomeAll_rehomeAll vs]

end

/-! ## What homes have no part in -/

variable {v w : Value}

@[simp] theorem name?_rehome (v : Value) : (v.rehome φ).name? = v.name? := by cases v <;> rfl

@[simp] theorem kindName_rehome (v : Value) : (v.rehome φ).kindName = v.kindName := by cases v <;> rfl

@[simp] theorem isProcedure_rehome (v : Value) : (v.rehome φ).isProcedure = v.isProcedure := by cases v <;> rfl

@[simp] theorem isFalse_rehome (v : Value) : (v.rehome φ).isFalse = v.isFalse := by cases v <;> rfl

@[simp] theorem isEscape_rehome (v : Value) : (v.rehome φ).isEscape = v.isEscape := by cases v <;> rfl

@[simp] theorem isSymbol_rehome (name : String) (v : Value) : (v.rehome φ).isSymbol name = v.isSymbol name := by
  cases v <;> rfl

@[simp] theorem number?_rehome (v : Value) : (v.rehome φ).number? = v.number? := by cases v <;> rfl

@[simp] theorem ofValue?_rehome : (v : Value) → Key.ofValue? (v.rehome φ) = Key.ofValue? v
  | escape k v => by rw [rehome, Key.ofValue?, Key.ofValue?, ofValue?_rehome v]
  | symbol _ | int _ | float _ | nan _ | string _ | bool _ | list .. | closure .. | continuation _ | primitive _
  | control _ | unspecified | endOfText => rfl

@[simp] theorem ofHead?_rehome (v : Value) : Keyword.ofHead? (v.rehome φ) = Keyword.ofHead? v := by
  cases v <;> rfl

@[simp] theorem coreOfHead?_rehome (v : Value) : CoreKeyword.ofHead? (v.rehome φ) = CoreKeyword.ofHead? v := by
  cases v <;> rfl

@[simp] theorem hasKind_rehome (k : Kind) (v : Value) : (v.rehome φ).hasKind k = v.hasKind k := by
  cases v with
  | list i items => cases items <;> cases k <;> rfl
  | _ => cases k <;> rfl

@[simp] theorem isParameter_rehome (v : Value) : Form.isParameter (v.rehome φ) = Form.isParameter v := by
  cases v <;> rfl

@[simp] theorem areParameters_rehome (v : Value) : Form.areParameters (v.rehome φ) = Form.areParameters v := by
  cases v with
  | list i items => simp [Form.areParameters, List.all_map, Function.comp_def]
  | _ => rfl

@[simp] theorem isHeadedBy_rehome (name : String) (v : Value) :
    Form.isHeadedBy name (v.rehome φ) = Form.isHeadedBy name v := by
  cases v with
  | list i items => cases items <;> simp [Form.isHeadedBy]
  | _ => rfl

theorem elements?_rehome (v : Value) : (v.rehome φ).elements? = v.elements?.map (List.map (rehome φ)) := by
  cases v with
  | list i items => simp [elements?]
  | string s =>
    have atoms (ps : List Text.CodePoint) : (ps.map fun p => string (Text.ofPoints [p])).map (rehome φ) =
        ps.map fun p => string (Text.ofPoints [p]) := by
      rw [List.map_map]
      rfl
    simp only [rehome, elements?, Option.map_some, atoms]
  | _ => rfl

theorem received_rehome (k : Nat) (v : Value) : (v.rehome φ).received k = (v.received k).rehome φ := by
  cases v with
  | escape k' u =>
    simp only [rehome, received]
    split <;> rfl
  | list i items => simp [received]
  | _ => rfl

@[simp] theorem same_rehome (v w : Value) : (v.rehome φ).same (w.rehome φ) = v.same w := by
  cases v <;> cases w <;> simp [same, rehome, rehomeAll_eq_map, name?]

mutual

@[simp] theorem text_rehome (live : Nat → Bool) : (style : Style) → (v : Value) → ∀ φ : FrameId → FrameId,
    (v.rehome φ).text live style = v.text live style
  | .source, list i items, φ => by rw [rehome, text, text, texts_rehome live .source items]
  | .inspect, list i items, φ => by rw [rehome, text, text, texts_rehome live .inspect items]
  | .source, closure i parameters body home, φ => by
    rw [rehome, text, text, text_rehome live .source parameters, text_rehome live .source body]
  | .inspect, closure i parameters body home, φ => by
    rw [rehome, text, text, text_rehome live .source parameters, text_rehome live .source body]
  | .source, escape k v, φ => by rw [rehome, text, text, text_rehome live .inspect v]
  | .inspect, escape k v, φ => by rw [rehome, text, text, text_rehome live .inspect v]
  | _, symbol _, _ | _, int _, _ | _, float _, _ | _, nan _, _ | _, string _, _ | _, bool _, _
  | _, continuation _, _ | _, primitive _, _ | _, control _, _ | _, unspecified, _ | _, endOfText, _ => rfl

theorem texts_rehome (live : Nat → Bool) (style : Style) : (vs : List Value) → ∀ φ : FrameId → FrameId,
    texts live style (rehomeAll φ vs) = texts live style vs
  | [], _ => rfl
  | v :: vs, φ => by rw [rehomeAll, texts, texts, text_rehome live style v, texts_rehome live style vs]

end

mutual

@[simp] theorem hasLongInteger_rehome : (v : Value) → ∀ φ : FrameId → FrameId,
    (v.rehome φ).hasLongInteger = v.hasLongInteger
  | list i items, φ => by rw [rehome, hasLongInteger, hasLongInteger, anyLongInteger_rehome items]
  | closure i parameters body home, φ => by
    rw [rehome, hasLongInteger, hasLongInteger, hasLongInteger_rehome parameters, hasLongInteger_rehome body]
  | escape k v, φ => by rw [rehome, hasLongInteger, hasLongInteger, hasLongInteger_rehome v]
  | symbol _, _ | int _, _ | float _, _ | nan _, _ | string _, _ | bool _, _ | continuation _, _ | primitive _, _
  | control _, _ | unspecified, _ | endOfText, _ => rfl

theorem anyLongInteger_rehome : (vs : List Value) → ∀ φ : FrameId → FrameId,
    anyLongInteger (rehomeAll φ vs) = anyLongInteger vs
  | [], _ => rfl
  | v :: vs, φ => by
    rw [rehomeAll, anyLongInteger, anyLongInteger, hasLongInteger_rehome v, anyLongInteger_rehome vs]

end

@[simp] theorem isDeeperThan_rehome (room : Nat) (v : Value) (φ : FrameId → FrameId) :
    (v.rehome φ).isDeeperThan room = v.isDeeperThan room := by
  induction room generalizing v φ with
  | zero => cases v <;> simp [isDeeperThan, parts, rehome, rehomeAll_eq_map]
  | succ room ih =>
    cases v <;> simp [isDeeperThan, parts, rehome, rehomeAll_eq_map, List.any_map, Function.comp_def, ih]

@[simp] theorem text?_rehome (live : Nat → Bool) (room : Nat) (style : Style) (v : Value) :
    (v.rehome φ).text? live room style = v.text? live room style := by
  simp [text?]

@[simp] theorem bareText?_rehome (live : Nat → Bool) (room : Nat) (v : Value) :
    (v.rehome φ).bareText? live room = v.bareText? live room := by
  cases v with
  | list i items =>
    have same := text?_rehome (φ := φ) live room .inspect (list i items)
    rw [rehome] at same ⊢
    exact same
  | closure i parameters body home => exact text?_rehome (φ := φ) live room .inspect (closure i parameters body home)
  | escape k v => exact text?_rehome (φ := φ) live room .inspect (escape k v)
  | _ => rfl

theorem equal?_rehome (room : Nat) (v w : Value) : (v.rehome φ).equal? room (w.rehome φ) = v.equal? room w := by
  have all (room : Nat) (ih : ∀ v w : Value, (v.rehome φ).equal? room (w.rehome φ) = v.equal? room w)
      (vs ws : List Value) : allEqual? (equal? room) (vs.map (rehome φ)) (ws.map (rehome φ)) =
        allEqual? (equal? room) vs ws := by
    induction vs generalizing ws with
    | nil => cases ws <;> rfl
    | cons v vs ihs =>
      cases ws with
      | nil => rfl
      | cons w ws => simp only [List.map_cons, allEqual?, ih, ihs]
  induction room generalizing v w with
  | zero =>
    cases v <;> cases w <;> simp [equal?, rehome, same, rehomeAll_eq_map, name?]
  | succ room ih =>
    cases v <;> cases w <;> simp [equal?, rehome, same, rehomeAll_eq_map, name?, all room ih]

end Value

/-! ## Bindings, frames and states -/

/-- A target's homes have no part in its key, nor in how the key is shown. -/
def Binding.rehome (φ : FrameId → FrameId) (b : Binding) : Binding :=
  ⟨b.key, b.target.rehome fun _ => 0, b.value.rehome φ, (Value.ofValue?_rehome b.target).trans b.keyed⟩

theorem Binding.rehome_congr {ψ : FrameId → FrameId} {b : Binding} (same : b.value.rehome φ = b.value.rehome ψ) :
    b.rehome φ = b.rehome ψ := by
  rw [rehome.eq_def, rehome.eq_def, Binding.mk.injEq]
  exact ⟨rfl, rfl, same⟩

theorem Binding.rehome_rehome (b : Binding) (φ ψ : FrameId → FrameId) :
    (b.rehome φ).rehome ψ = b.rehome fun x => ψ (φ x) := by
  rw [rehome.eq_def ψ, rehome.eq_def _ b, Binding.mk.injEq]
  exact ⟨rfl, b.target.rehome_rehome _ _, b.value.rehome_rehome φ ψ⟩

namespace Bindings

def rehome (φ : FrameId → FrameId) (bs : Bindings) : Bindings :=
  bs.map (Binding.rehome φ)

variable {bs : Bindings}

theorem get?_rehome (bs : Bindings) (key : Key) : (bs.rehome φ).get? key = (bs.get? key).map (Value.rehome φ) := by
  induction bs with
  | nil => rfl
  | cons b bs ih =>
    change (if b.key = key then some (b.value.rehome φ) else (rehome φ bs).get? key) =
      (if b.key = key then some b.value else get? bs key).map (Value.rehome φ)
    rw [ih]
    split <;> rfl

@[simp] theorem binds_rehome (bs : Bindings) (key : Key) : (bs.rehome φ).binds key = bs.binds key := by
  induction bs with
  | nil => rfl
  | cons b bs ih =>
    change (if b.key = key then true else (rehome φ bs).binds key) = _
    rw [ih]
    rfl

theorem put_rehome (bs : Bindings) (b : Binding) : (bs.put b).rehome φ = (bs.rehome φ).put (b.rehome φ) := by
  induction bs with
  | nil => rfl
  | cons c cs ih =>
    change rehome φ (if c.key = b.key then { c with value := b.value } :: cs else c :: put cs b) =
      if c.key = b.key then { c.rehome φ with value := b.value.rehome φ } :: rehome φ cs
      else c.rehome φ :: (rehome φ cs).put (b.rehome φ)
    rw [← ih]
    split <;> rfl

end Bindings

theorem Binding.ofTarget_rehome (target v : Value) :
    ofTarget (target.rehome fun _ => 0) (v.rehome φ) = (ofTarget target v).map (rehome φ) := by
  cases keyed : Key.ofValue? target with
  | none => rw [ofTarget_of_no_key keyed, ofTarget_of_no_key ((Value.ofValue?_rehome target).trans keyed)]; rfl
  | some key =>
    rw [ofTarget_of_key keyed, ofTarget_of_key ((Value.ofValue?_rehome target).trans keyed)]
    rfl

theorem Bindings.ofPairs_rehome (pairs : List (Value × Value)) :
    ofPairs (pairs.map fun p => (p.1.rehome fun _ => 0, p.2.rehome φ)) = (ofPairs pairs).map (rehome φ) := by
  have fold (bs : Bindings) :
      (pairs.map fun p => (p.1.rehome fun _ => 0, p.2.rehome φ)).foldlM
        (fun bs pair => do return bs.put (← Binding.ofTarget pair.1 pair.2)) (bs.rehome φ) =
      Except.map (rehome φ)
        (pairs.foldlM (fun bs pair => do return bs.put (← Binding.ofTarget pair.1 pair.2)) bs) := by
    induction pairs generalizing bs with
    | nil => rfl
    | cons p ps ih =>
      rw [List.map_cons, List.foldlM_cons, List.foldlM_cons, Binding.ofTarget_rehome]
      cases Binding.ofTarget p.1 p.2 with
      | error f => rfl
      | ok b =>
        have next := ih (bs.put b)
        rw [put_rehome] at next
        exact next
  exact fold []

namespace Frames

/-- All frames with other homes, also around each other. -/
def rehome (φ : FrameId → FrameId) (fs : Frames) : Frames :=
  ⟨fs.all.map fun frame => ⟨frame.bindings.rehome φ, frame.outer.map φ⟩⟩

variable (fs : Frames) (f : FrameId)

@[simp] theorem size_rehome : (fs.rehome φ).all.size = fs.all.size :=
  Array.size_map

theorem get?_rehome : (fs.rehome φ).get? f =
    (fs.get? f).map fun frame => ⟨frame.bindings.rehome φ, frame.outer.map φ⟩ := by
  simp [get?, rehome]

theorem bindingsOf_rehome : (fs.rehome φ).bindingsOf f = (fs.bindingsOf f).rehome φ := by
  unfold bindingsOf
  rw [get?_rehome]
  cases fs.get? f <;> rfl

theorem outer?_rehome : (fs.rehome φ).outer? f = (fs.outer? f).map φ := by
  unfold outer?
  rw [get?_rehome]
  cases fs.get? f <;> rfl

theorem define_rehome (b : Binding) : (fs.define f b).rehome φ = (fs.rehome φ).define f (b.rehome φ) := by
  unfold rehome define
  congr 1
  refine Array.ext_getElem? fun g => ?_
  simp only [Array.getElem?_map, Array.getElem?_modify]
  split
  · cases fs.all[g]? with
    | none => rfl
    | some frame => simp [Bindings.put_rehome]
  · rfl

theorem new_rehome (bs : Bindings) (outer : Option FrameId) :
    (fs.new bs outer).2.rehome φ = ((fs.rehome φ).new (bs.rehome φ) (outer.map φ)).2 := by
  simp [new, rehome]

end Frames

def Machine.rehome (φ : FrameId → FrameId) (m : Machine) : Machine :=
  { m with frames := m.frames.rehome φ, transformers := m.transformers.rehome φ }

/-! ## Computations with other homes -/

namespace Run

variable {α α' β β' γ γ' : Type} {tr : α → α'} {tr' : β → β'}

/-- The second computation does with other homes what the first does, and its result is the translated one. -/
def Rehomes (φ : FrameId → FrameId) (tr : α → α') (a : Run α) (a' : Run α') : Prop :=
  ∀ m, outcome a' (m.rehome φ) = ((outcome a m).1.map tr, (outcome a m).2.rehome φ)

namespace Rehomes

theorem pure {x : α} {y : α'} (h : tr x = y) : Rehomes φ tr (pure x) (pure y) :=
  fun m => congrArg (fun y => (Except.ok y, m.rehome φ)) h.symm

theorem throw (h : Halt) : Rehomes φ tr (throw h : Run α) (throw h : Run α') :=
  fun _ => rfl

theorem fail (f : Failure) : Rehomes φ tr (fail f : Run α) (Run.fail f : Run α') :=
  throw (.failed f)

theorem bind {a : Run α} {a' : Run α'} {k : α → Run β} {k' : α' → Run β'} (first : Rehomes φ tr a a')
    (rest : ∀ x, Rehomes φ tr' (k x) (k' (tr x))) : Rehomes φ tr' (a >>= k) (a' >>= k') := by
  intro m
  have same := first m
  rw [outcome_bind, outcome_bind, same]
  rcases outcome a m with ⟨h | x, n⟩
  · rfl
  · exact rest x n

/-- A computation whose result has no homes. -/
theorem bind_same {a a' : Run γ} {k : γ → Run β} {k' : γ → Run β'} (first : Rehomes φ id a a')
    (rest : ∀ x, Rehomes φ tr' (k x) (k' x)) : Rehomes φ tr' (a >>= k) (a' >>= k') :=
  first.bind rest

/-- The state is read. -/
theorem get_bind {k : Machine → Run β} {k' : Machine → Run β'} (rest : ∀ m, Rehomes φ tr' (k m) (k' (m.rehome φ))) :
    Rehomes φ tr' (get >>= k) (get >>= k') :=
  fun m => rest m m

theorem ofExcept {e : Except Failure α} {e' : Except Failure α'} (h : e' = e.map tr) :
    Rehomes φ tr (ofExcept e) (Run.ofExcept e') := by
  subst h
  cases e with
  | error f => exact fail f
  | ok x => exact pure rfl

theorem ofExcept_same (e : Except Failure γ) : Rehomes φ id (Run.ofExcept e) (Run.ofExcept e) :=
  ofExcept (by cases e <;> rfl)

theorem mapM {f : α → Run β} {f' : α' → Run β'} (xs : List α) (h : ∀ x, Rehomes φ tr' (f x) (f' (tr x))) :
    Rehomes φ (List.map tr') (xs.mapM f) ((xs.map tr).mapM f') := by
  induction xs with
  | nil => exact pure rfl
  | cons x xs ih =>
    rw [List.map_cons, List.mapM_cons, List.mapM_cons]
    exact (h x).bind fun y => ih.bind fun ys => pure rfl

end Rehomes

variable {room : Nat}

theorem newObject_rehomes : Rehomes φ id newObject newObject :=
  fun _ => rfl

theorem newList_rehomes (items : List Value) :
    Rehomes φ (Value.rehome φ) (newList items) (newList (items.map (Value.rehome φ))) :=
  newObject_rehomes.bind_same fun _ => .pure (Value.rehome_list _ _)

theorem source_rehomes (v : Value) : Rehomes φ id (source room v) (source room (v.rehome ψ)) :=
  .get_bind fun m => by
    rw [Value.text?_rehome]
    exact .ofExcept_same (v.text? m.isLive room .source)

theorem bare_rehomes (v : Value) : Rehomes φ id (bare room v) (bare room (v.rehome ψ)) :=
  .get_bind fun m => by
    rw [Value.bareText?_rehome]
    exact .ofExcept_same (v.bareText? m.isLive room)

theorem writeLine_rehomes (line : String) : Rehomes φ id (writeLine line) (writeLine line) :=
  fun _ => rfl

theorem requireArity_rehomes (name : String) (expected : Nat) (args : List Value) :
    Rehomes φ id (requireArity name expected args) (requireArity name expected (args.map (Value.rehome φ))) := by
  unfold requireArity
  rw [List.length_map]
  split
  · exact .pure rfl
  · exact .fail _

theorem ofOverflow_rehomes (e : Except Overflow α) : Rehomes φ id (ofOverflow e) (ofOverflow e) := by
  cases e with
  | error cause => exact .fail _
  | ok x => exact .pure rfl

theorem oneOperand_rehomes (name : String) (args : List Value) :
    Rehomes φ (Value.rehome φ) (oneOperand name args) (oneOperand name (args.map (Value.rehome φ))) := by
  rcases args with _ | ⟨v, _ | ⟨w, rest⟩⟩
  · exact .fail _
  · exact .pure rfl
  · simp only [List.map_cons, oneOperand, List.length_cons, List.length_map]
    exact .fail _

theorem twoOperands_rehomes (name : String) (args : List Value) :
    Rehomes φ (Prod.map (Value.rehome φ) (Value.rehome φ)) (twoOperands name args)
      (twoOperands name (args.map (Value.rehome φ))) := by
  rcases args with _ | ⟨v, _ | ⟨w, _ | ⟨u, rest⟩⟩⟩
  · exact .fail _
  · exact .fail _
  · exact .pure rfl
  · simp only [List.map_cons, twoOperands, List.length_cons, List.length_map]
    exact .fail _

theorem numbers_rehomes (name : String) (args : List Value) :
    Rehomes φ id (numbers room name args) (numbers room name (args.map (Value.rehome φ))) := by
  induction args with
  | nil => exact .pure rfl
  | cons v vs ih =>
    unfold numbers
    simp only [List.map_cons, Value.number?_rehome]
    cases v.number? with
    | some x => exact ih.bind_same fun xs => .pure rfl
    | none => exact (source_rehomes v).bind_same fun _ => .fail _

theorem listOperand_rehomes (name : String) (v : Value) :
    Rehomes φ (List.map (Value.rehome φ)) (listOperand room name v) (listOperand room name (v.rehome φ)) := by
  cases v with
  | list i items =>
    rw [Value.rehome_list]
    exact .pure rfl
  | closure i parameters body home =>
    exact (source_rehomes (.closure i parameters body home)).bind_same fun _ => .fail _
  | escape k v => exact (source_rehomes (.escape k v)).bind_same fun _ => .fail _
  | _ => exact (source_rehomes _).bind_same fun _ => .fail _

theorem newNumber_rehomes (x : Number) : Rehomes φ (Value.rehome φ) (newNumber x) (newNumber x) := by
  cases x with
  | int n => exact .pure rfl
  | float x =>
    unfold newNumber
    dsimp only
    split
    · exact newObject_rehomes.bind_same fun _ => .pure rfl
    · exact .pure rfl

end Run

end SmallLisp
