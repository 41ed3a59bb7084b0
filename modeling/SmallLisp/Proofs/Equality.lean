import SmallLisp.Proofs.Ledgers
import SmallLisp.Proofs.LikeStates
import SmallLisp.Proofs.RoundTrip
/-!
# The two equalities

`same` compares lists by the objects that they are, `equal?` by their items. `equal?` says no more than it has room for,
but what it says with some room it says with more, so there is one relation that it decides. Neither relation finds a
result that is no number equal to itself unless it is the same object; without such results both are equivalences.
That the same list is equal to itself rests on the ledger of a session: one number has one list.
-/
namespace SmallLisp

open Run

namespace Value

variable {u v w : Value} {i j room room' : Nat} {xs ys : List Value} {b : Bool}

/-! ## Equality to any depth -/

/-- Equality to any depth, which `equal?` finds when it has room enough. -/
def Equal (v w : Value) : Prop :=
  ∃ room, v.equal? room w = some true

/-- The lists among two values are not both values. -/
theorem lists_cases (v w : Value) :
    (∃ i xs j ys, v = .list i xs ∧ w = .list j ys) ∨ (v.hasKind .list && w.hasKind .list) = false := by
  cases v with
  | list i xs =>
    cases w with
    | list j ys => exact Or.inl ⟨i, xs, j, ys, rfl, rfl⟩
    | _ => exact Or.inr rfl
  | _ => exact Or.inr rfl

theorem allEqual?_mono {f g : Value → Value → Option Bool} (more : ∀ x y b, f x y = some b → g x y = some b)
    (h : allEqual? f xs ys = some b) : allEqual? g xs ys = some b := by
  induction xs generalizing ys with
  | nil => exact h
  | cons x xs ih =>
    cases ys with
    | nil => exact h
    | cons y ys =>
      obtain ⟨first, found, rest⟩ := Option.bind_eq_some_iff.mp h
      refine Option.bind_eq_some_iff.mpr ⟨first, more x y first found, ?_⟩
      cases first with
      | true => exact ih rest
      | false => exact rest

/-- What is said with some room is said with one level more. -/
theorem equal?_succ (h : v.equal? room w = some b) : v.equal? (room + 1) w = some b := by
  induction room generalizing v w b with
  | zero =>
    obtain ⟨i, xs, j, ys, rfl, rfl⟩ | notLists := lists_cases v w
    · cases h
    · rwa [Like.equal?_of_not_lists notLists] at h ⊢
  | succ room ih =>
    obtain ⟨i, xs, j, ys, rfl, rfl⟩ | notLists := lists_cases v w
    · unfold equal? at h ⊢
      split at h
      · rename_i length
        rw [if_pos length]
        exact allEqual?_mono (fun x y b => ih) h
      · rename_i length
        rwa [if_neg length]
    · rwa [Like.equal?_of_not_lists notLists] at h ⊢

theorem equal?_mono (le : room ≤ room') (h : v.equal? room w = some b) : v.equal? room' w = some b := by
  induction le with
  | refl => exact h
  | step _ ih => exact equal?_succ ih

/-- Whatever room there is, `equal?` says nothing but whether the values are equal. -/
theorem equal_iff (h : v.equal? room w = some b) : v.Equal w ↔ b = true := by
  constructor
  · rintro ⟨enough, found⟩
    have one := equal?_mono (Nat.le_max_left room enough) h
    rw [equal?_mono (Nat.le_max_right room enough) found] at one
    exact (Option.some.inj one).symm
  · rintro rfl
    exact ⟨room, h⟩

theorem equal_iff_same (notLists : (v.hasKind .list && w.hasKind .list) = false) : v.Equal w ↔ v.same w = true :=
  equal_iff (Like.equal?_of_not_lists notLists 0)

theorem allEqual?_eq_true {f : Value → Value → Option Bool} (length : xs.length = ys.length) :
    allEqual? f xs ys = some true ↔ List.Forall₂ (fun x y => f x y = some true) xs ys := by
  induction xs generalizing ys with
  | nil =>
    cases ys with
    | nil => exact iff_of_true rfl .nil
    | cons y ys => cases length
  | cons x xs ih =>
    cases ys with
    | nil => cases length
    | cons y ys =>
      rw [List.forall₂_cons, ← ih (Nat.succ.inj length)]
      constructor
      · intro h
        obtain ⟨first, found, rest⟩ := Option.bind_eq_some_iff.mp h
        cases first with
        | true => exact ⟨found, rest⟩
        | false => cases rest
      · rintro ⟨found, rest⟩
        exact Option.bind_eq_some_iff.mpr ⟨true, found, rest⟩

theorem equal?_list_eq_true :
    (list i xs).equal? (room + 1) (list j ys) = some true ↔
      List.Forall₂ (fun x y => x.equal? room y = some true) xs ys := by
  change (if xs.length = ys.length then allEqual? (equal? room) xs ys else some false) = some true ↔ _
  split
  · rename_i length
    exact allEqual?_eq_true length
  · rename_i length
    exact iff_of_false nofun fun h => length h.length_eq

/-- Lists are equal when they are equal item by item. -/
theorem equal_list_iff : (list i xs).Equal (list j ys) ↔ List.Forall₂ Equal xs ys := by
  constructor
  · rintro ⟨room, h⟩
    cases room with
    | zero => cases h
    | succ room => exact (equal?_list_eq_true.mp h).imp fun x y found => ⟨room, found⟩
  · intro h
    have enough : ∃ room, List.Forall₂ (fun x y => x.equal? room y = some true) xs ys := by
      induction h with
      | nil => exact ⟨0, .nil⟩
      | cons first _ ih =>
        obtain ⟨room, first⟩ := first
        obtain ⟨room', rest⟩ := ih
        refine ⟨max room room', .cons (equal?_mono (Nat.le_max_left _ _) first) ?_⟩
        exact rest.imp fun x y => equal?_mono (Nat.le_max_right _ _)
    obtain ⟨room, each⟩ := enough
    exact ⟨room + 1, equal?_list_eq_true.mpr each⟩

/-- Induction over values that are equal. -/
theorem Equal.induct {motive : Value → Value → Prop}
    (lists : ∀ i j xs ys, List.Forall₂ (fun x y => Equal x y ∧ motive x y) xs ys →
      motive (list i xs) (list j ys))
    (atoms : ∀ v w, (v.hasKind .list && w.hasKind .list) = false → v.same w = true → motive v w)
    (h : v.Equal w) : motive v w := by
  obtain ⟨room, h⟩ := h
  induction room generalizing v w with
  | zero =>
    obtain ⟨i, xs, j, ys, rfl, rfl⟩ | notLists := lists_cases v w
    · cases h
    · exact atoms v w notLists ((equal_iff_same notLists).mp ⟨0, h⟩)
  | succ room ih =>
    obtain ⟨i, xs, j, ys, rfl, rfl⟩ | notLists := lists_cases v w
    · exact lists i j xs ys ((equal?_list_eq_true.mp h).imp fun x y found => ⟨⟨room, found⟩, ih found⟩)
    · exact atoms v w notLists ((equal_iff_same notLists).mp ⟨room + 1, h⟩)

/-! ## Values that are the same -/

/-- How two values can be the same. -/
inductive Same : Value → Value → Prop
  | int (n : Int) : Same (int n) (int n)
  | float {x y : Float} (h : (x == y) = true) : Same (float x) (float y)
  | nan (i : Nat) : Same (nan i) (nan i)
  | string (s : String) : Same (string s) (string s)
  | bool (b : Bool) : Same (bool b) (bool b)
  | list {i j : Nat} {xs ys : List Value} (h : i = j ∨ xs = [] ∧ ys = []) : Same (list i xs) (list j ys)
  | closure (i : Nat) (ps body ps' body' : Value) (home home' : FrameId) :
    Same (closure i ps body home) (closure i ps' body' home')
  | continuation (k : Nat) : Same (continuation k) (continuation k)
  | primitive (p : Primitive) : Same (primitive p) (primitive p)
  | control (c : Control) : Same (control c) (control c)
  | unspecified : Same unspecified unspecified
  | name {v w : Value} {name : String} (first : v.name? = some name) (second : w.name? = some name) : Same v w

theorem same_iff : v.same w = true ↔ Same v w := by
  constructor
  · intro h
    unfold same at h
    split at h
    · rw [eq_of_beq h]
      exact .int _
    · exact .float h
    · rw [eq_of_beq h]
      exact .nan _
    · rw [eq_of_beq h]
      exact .string _
    · rw [eq_of_beq h]
      exact .bool _
    · simp only [Bool.or_eq_true, beq_iff_eq, Bool.and_eq_true, List.isEmpty_iff] at h
      exact .list h
    · rw [eq_of_beq h]
      exact .closure ..
    · rw [eq_of_beq h]
      exact .continuation _
    · rw [eq_of_beq h]
      exact .primitive _
    · rw [eq_of_beq h]
      exact .control _
    · exact .unspecified
    · obtain ⟨named, same⟩ := Bool.and_eq_true_iff.mp h
      obtain ⟨name, first⟩ := Option.isSome_iff_exists.mp named
      exact .name first ((eq_of_beq same).symm.trans first)
  · intro h
    cases h with
    | float h => exact h
    | list h =>
      simp only [same, Bool.or_eq_true, beq_iff_eq, Bool.and_eq_true, List.isEmpty_iff]
      exact h
    | name first second =>
      cases v with
      | symbol name =>
        cases w with
        | symbol | endOfText => simp_all [same, name?]
        | _ => cases second
      | endOfText =>
        cases w with
        | symbol | endOfText => simp_all [same, name?]
        | _ => cases second
      | _ => cases first
    | unspecified => rfl
    | _ => simp [same]

theorem same_symm (h : v.same w = true) : w.same v = true := by
  rw [same_iff] at h ⊢
  cases h with
  | float h => exact .float (PartialEquivBEq.symm h)
  | list h => exact .list (h.imp Eq.symm And.symm)
  | closure => exact .closure ..
  | name first second => exact .name second first
  | unspecified => exact .unspecified
  | _ => constructor

/-- Values that are the same as one value are the same, lists apart. -/
theorem Same.trans (h : Same u v) (h' : Same v w) : Same u w ∨ v.hasKind .list = true := by
  cases h with
  | list => exact Or.inr rfl
  | float h =>
    cases h' with
    | float h' => exact Or.inl (.float (PartialEquivBEq.trans h h'))
    | name first => cases first
  | closure =>
    cases h' with
    | closure => exact Or.inl (.closure ..)
    | name first => cases first
  | name first second =>
    cases h' with
    | name first' second' =>
      cases second.symm.trans first'
      exact Or.inl (.name first second')
    | _ => cases second
  | _ => exact Or.inl h'

theorem hasKind_list_of_same (h : Same v w) : v.hasKind .list = w.hasKind .list := by
  cases h with
  | name first second =>
    cases v with
    | list => cases first
    | _ =>
      cases w with
      | list => cases second
      | _ => rfl
  | _ => rfl

theorem Equal.hasKind_list (h : v.Equal w) : v.hasKind .list = w.hasKind .list := by
  obtain ⟨i, xs, j, ys, rfl, rfl⟩ | notLists := lists_cases v w
  · rfl
  · exact hasKind_list_of_same (same_iff.mp ((equal_iff_same notLists).mp h))

theorem exists_list (h : v.hasKind .list = true) : ∃ i xs, v = .list i xs := by
  cases v with
  | list i xs => exact ⟨i, xs, rfl⟩
  | _ => cases h

theorem Equal.symm (h : v.Equal w) : w.Equal v := by
  refine h.induct (motive := fun v w => w.Equal v) ?_ ?_
  · intro i j xs ys each
    exact equal_list_iff.mpr (each.flip.imp fun _ _ h => h.2)
  · intro v w notLists same
    rw [Bool.and_comm] at notLists
    exact (equal_iff_same notLists).mpr (same_symm same)

theorem forall₂_trans {zs : List Value}
    (h : List.Forall₂ (fun x y => Equal x y ∧ ∀ z, Equal y z → Equal x z) xs ys) (h' : List.Forall₂ Equal ys zs) :
    List.Forall₂ Equal xs zs := by
  induction h generalizing zs with
  | nil => exact h'
  | cons first _ ih =>
    cases h' with
    | cons first' rest' => exact .cons (first.2 _ first') (ih rest')

theorem Equal.trans (h : u.Equal v) (h' : v.Equal w) : u.Equal w := by
  refine h.induct (motive := fun u v => ∀ w, v.Equal w → u.Equal w) ?_ ?_ w h'
  · intro i j xs ys each w h'
    obtain ⟨k, zs, rfl⟩ := exists_list (h'.hasKind_list.symm.trans rfl)
    exact equal_list_iff.mpr (forall₂_trans each (equal_list_iff.mp h'))
  · intro u v notLists same w h'
    have kind := hasKind_list_of_same (same_iff.mp same)
    rw [kind, Bool.and_self] at notLists
    have same' := (equal_iff_same (by rw [notLists]; rfl)).mp h'
    rcases (same_iff.mp same).trans (same_iff.mp same') with both | list
    · exact (equal_iff_same (by rw [kind, notLists]; rfl)).mpr (same_iff.mpr both)
    · rw [notLists] at list
      cases list

/-! ## Values without results that are no number -/

/-- Values with no result that is no number, at any depth of lists. -/
inductive IsOrdinary : Value → Prop
  | symbol (name : String) : IsOrdinary (symbol name)
  | endOfText : IsOrdinary endOfText
  | int (n : Int) : IsOrdinary (int n)
  | float {x : Float} (number : x.isNaN = false) : IsOrdinary (float x)
  | string (s : String) : IsOrdinary (string s)
  | bool (b : Bool) : IsOrdinary (bool b)
  | list (i : Nat) {items : List Value} (each : ∀ v ∈ items, IsOrdinary v) : IsOrdinary (list i items)
  | closure (i : Nat) (parameters body : Value) (home : FrameId) : IsOrdinary (closure i parameters body home)
  | continuation (k : Nat) : IsOrdinary (continuation k)
  | primitive (p : Primitive) : IsOrdinary (primitive p)
  | control (c : Control) : IsOrdinary (control c)
  | unspecified : IsOrdinary unspecified

theorem beq_self_of_number {x : Float} (number : x.isNaN = false) : (x == x) = true := by
  rw [Float.isNaN_eq_decide_eq_nan, decide_eq_false_iff_not] at number
  exact Float.beq_self_iff.mpr number

theorem same_refl (h : v.IsOrdinary) : v.same v = true := by
  rw [same_iff]
  cases h with
  | symbol name => exact .name rfl rfl
  | endOfText => exact .name rfl rfl
  | float number => exact .float (beq_self_of_number number)
  | list => exact .list (Or.inl rfl)
  | closure => exact .closure ..
  | unspecified => exact .unspecified
  | _ => constructor

theorem Equal.refl (h : v.IsOrdinary) : v.Equal v := by
  induction h with
  | list i _ ih => exact equal_list_iff.mpr (List.forall₂_same.mpr ih)
  | _ =>
    refine (equal_iff_same rfl).mpr (same_refl ?_)
    constructor
    try assumption

/-! ## Lists that a ledger has -/

theorem same_trans {L : Ledger} (hu : Booked L u) (hv : Booked L v) (hw : Booked L w) (h : u.same v = true)
    (h' : v.same w = true) : u.same w = true := by
  rw [same_iff] at h h' ⊢
  rcases h.trans h' with both | list
  · exact both
  · obtain ⟨j, ys, rfl⟩ := exists_list list
    obtain ⟨i, xs, rfl⟩ := exists_list ((hasKind_list_of_same h).trans rfl)
    obtain ⟨k, zs, rfl⟩ := exists_list ((hasKind_list_of_same h').symm.trans rfl)
    have entry := (Booked.list_iff.mp hv).1
    refine .list ?_
    cases h with
    | name first => cases first
    | list first =>
      cases h' with
      | name first => cases first
      | list second =>
        rcases first with rfl | ⟨rfl, rfl⟩
        · rcases second with rfl | ⟨rfl, rfl⟩
          · exact Or.inl rfl
          · rw [(Booked.list_iff.mp hu).1] at entry
            cases entry
            exact Or.inr ⟨rfl, rfl⟩
        · rcases second with rfl | ⟨_, rfl⟩
          · rw [(Booked.list_iff.mp hw).1] at entry
            cases entry
            exact Or.inr ⟨rfl, rfl⟩
          · exact Or.inr ⟨rfl, rfl⟩

/-- Values that are the same are equal, because a list has its number to itself. -/
theorem equal_of_same {L : Ledger} (hv : Booked L v) (hw : Booked L w) (ordinary : v.IsOrdinary)
    (h : v.same w = true) : v.Equal w := by
  obtain ⟨i, xs, j, ys, rfl, rfl⟩ | notLists := lists_cases v w
  · cases same_iff.mp h with
    | list one =>
      rcases one with rfl | ⟨rfl, rfl⟩
      · have entry := (Booked.list_iff.mp hv).1
        rw [(Booked.list_iff.mp hw).1] at entry
        cases entry
        exact .refl ordinary
      · exact equal_list_iff.mpr .nil
    | name first => cases first
  · exact (equal_iff_same notLists).mpr h

/-! ## Kinds -/

/-- Values of one kind; the empty list has a kind of its own. -/
def SameKind (v w : Value) : Prop :=
  v.kindName = w.kindName ∧ v.hasKind .empty = w.hasKind .empty

/-- The value at a place inside lists within lists. -/
def inside? : (path : List Nat) → Value → Option Value
  | [], v => some v
  | n :: path, list _ items => items[n]?.bind (inside? path)
  | _ :: _, _ => none

theorem Equal.sameKind (h : v.Equal w) : v.SameKind w := by
  obtain ⟨i, xs, j, ys, rfl, rfl⟩ | notLists := lists_cases v w
  · refine ⟨rfl, ?_⟩
    cases equal_list_iff.mp h <;> rfl
  · cases same_iff.mp ((equal_iff_same notLists).mp h) with
    | list => cases notLists
    | @name v w name first second =>
      have symbol {u : Value} (named : u.name? = some name) : u.kindName = "Symbol" ∧ u.hasKind .empty = false := by
        cases u with
        | symbol | endOfText => exact ⟨rfl, rfl⟩
        | _ => cases named
      exact ⟨(symbol first).1.trans (symbol second).1.symm, (symbol first).2.trans (symbol second).2.symm⟩
    | _ => exact ⟨rfl, rfl⟩

theorem inside?_of_not_list (h : v.hasKind .list = false) (n : Nat) (path : List Nat) :
    inside? (n :: path) v = none := by
  cases v with
  | list => cases h
  | _ => rfl

theorem rel_getElem? {R : Value → Value → Prop} (h : List.Forall₂ R xs ys) (n : Nat) :
    Option.Rel R xs[n]? ys[n]? := by
  induction h generalizing n with
  | nil => exact .none
  | cons first _ ih =>
    cases n with
    | zero => exact .some first
    | succ n => exact ih n

/-- Values that are equal have equal values at the same places. -/
theorem Equal.inside? (h : v.Equal w) (path : List Nat) : Option.Rel Equal (v.inside? path) (w.inside? path) := by
  induction path generalizing v w with
  | nil => exact .some h
  | cons n path ih =>
    cases list : v.hasKind .list with
    | true =>
      obtain ⟨i, xs, rfl⟩ := exists_list list
      obtain ⟨j, ys, rfl⟩ := exists_list (h.hasKind_list.symm.trans list)
      unfold Value.inside?
      rcases rel_cases (rel_getElem? (equal_list_iff.mp h) n) with ⟨first, second⟩ | ⟨x, y, first, second, item⟩
      · rw [first, second]
        exact .none
      · rw [first, second]
        exact ih item
    | false =>
      rw [inside?_of_not_list list, inside?_of_not_list (h.hasKind_list.symm.trans list)]
      exact .none

/-! ## Room -/

theorem allEqual?_answers {f : Value → Value → Option Bool} (h : ∀ x ∈ xs, ∀ y, ∃ b, f x y = some b)
    (ys : List Value) : ∃ b, allEqual? f xs ys = some b := by
  induction xs generalizing ys with
  | nil => exact ⟨true, rfl⟩
  | cons x xs ih =>
    obtain ⟨first, later⟩ := List.forall_mem_cons.mp h
    cases ys with
    | nil => exact ⟨true, rfl⟩
    | cons y ys =>
      obtain ⟨b, found⟩ := first y
      cases b with
      | true =>
        obtain ⟨b, rest⟩ := ih later ys
        exact ⟨b, Option.bind_eq_some_iff.mpr ⟨true, found, rest⟩⟩
      | false => exact ⟨false, Option.bind_eq_some_iff.mpr ⟨false, found, rfl⟩⟩

/-- One level of room more than a value has levels is enough to compare it with any other. -/
theorem equal?_answers (h : v.isDeeperThan room = false) (w : Value) : ∃ b, v.equal? (room + 1) w = some b := by
  induction room generalizing v w with
  | zero =>
    obtain ⟨i, xs, j, ys, rfl, rfl⟩ | notLists := lists_cases v w
    · cases xs with
      | nil => cases ys <;> exact ⟨_, rfl⟩
      | cons x xs => cases h
    · exact ⟨_, Like.equal?_of_not_lists notLists 1⟩
  | succ room ih =>
    obtain ⟨i, xs, j, ys, rfl, rfl⟩ | notLists := lists_cases v w
    · change ∃ b, (if xs.length = ys.length then allEqual? (equal? (room + 1)) xs ys else some false) = some b
      split
      · refine allEqual?_answers (fun x mem y => ih ?_ y) ys
        exact Bool.eq_false_iff.mpr (List.any_eq_false.mp h x mem)
      · exact ⟨false, rfl⟩
    · exact ⟨_, Like.equal?_of_not_lists notLists (room + 1 + 1)⟩

end Value

/-! ## Data and their texts -/

namespace Datum

variable {d d' : Datum} {ds ds' : List Datum} {v v' : Value} {vs vs' : List Value}

/-- A datum that is a negative zero or holds one. -/
inductive HoldsNegativeZero : Datum → Prop
  | here : HoldsNegativeZero (.float (-0))
  | inside {items : List Datum} {d : Datum} (mem : d ∈ items) (h : HoldsNegativeZero d) :
    HoldsNegativeZero (.list items)

theorem IsReadable.forms_text (h : d.IsReadable) {room : Nat} (fits : d.depth ≤ room) :
    (Reader.Port.ofText d.text ⟨0, []⟩).forms room = ([d], none) := by
  have alone : (Reader.Port.ofText (String.intercalate "\n" ([d].map Datum.text)) ⟨0, []⟩).forms room = _ :=
    Reader.forms_texts (by simpa using h) (by simpa using fits) ⟨0, []⟩
  rwa [List.map_singleton, String.intercalate_singleton] at alone

/-- Readable data with one text are one datum, because the text is read as either. -/
theorem IsReadable.text_inj (h : d.IsReadable) (h' : d'.IsReadable) (same : d.text = d'.text) : d = d' := by
  have first := h.forms_text (Nat.le_max_left d.depth d'.depth)
  have second := h'.forms_text (Nat.le_max_right d.depth d'.depth)
  rw [same, second] at first
  injection first with one
  injection one with one
  exact one.symm

theorem forall₂_of_shapes {R : Value → Value → Prop}
    (h : ∀ d ∈ ds, ∀ {v v'}, d.IsShapeOf v → d.IsShapeOf v' → R v v') (shapes : AreShapesOf ds vs)
    (shapes' : AreShapesOf ds vs') : List.Forall₂ R vs vs' := by
  induction ds generalizing vs vs' with
  | nil =>
    cases shapes
    cases shapes'
    exact .nil
  | cons d ds ih =>
    obtain ⟨one, later⟩ := List.forall_mem_cons.mp h
    cases shapes with
    | cons first rest =>
      cases shapes' with
      | cons first' rest' => exact .cons (one first first') (ih later rest rest')

/-- Values with the shape of one readable datum are equal. -/
theorem IsReadable.equal (h : d.IsReadable) (shape : d.IsShapeOf v) (shape' : d.IsShapeOf v') : v.Equal v' := by
  induction h generalizing v v' with
  | list _ ih =>
    cases shape with
    | list i shapes =>
      cases shape' with
      | list j shapes' => exact Value.equal_list_iff.mpr (forall₂_of_shapes (fun d mem => ih d mem) shapes shapes')
  | bool b =>
    cases shape
    cases shape'
    exact .refl (.bool b)
  | @int n =>
    cases shape
    cases shape'
    exact .refl (.int n)
  | float number =>
    cases shape
    cases shape'
    exact .refl (.float number)
  | @string s =>
    cases shape
    cases shape'
    exact .refl (.string s)
  | @symbol name =>
    cases shape
    cases shape'
    exact .refl (.symbol name)

/-- Doubles that are equal are one double, but for the two zeros. -/
theorem eq_of_beq_float {x y : Float} (hx : x ≠ -0) (hy : y ≠ -0) (h : (x == y) = true) : x = y := by
  obtain ⟨_, _, same | ⟨_, zero⟩ | ⟨zero, _⟩⟩ := Float.beq_iff_ne_nan_and_eq.mp h
  · exact same
  · exact absurd zero hy
  · exact absurd zero hx

theorem isShapeOf_list_iff {i : Nat} : d.IsShapeOf (.list i vs) ↔ ∃ ds, d = .list ds ∧ AreShapesOf ds vs := by
  constructor
  · rintro ⟨⟩
    exact ⟨_, rfl, ‹_›⟩
  · rintro ⟨ds, rfl, shapes⟩
    exact .list i shapes

/-- Data without a negative zero whose values are equal are one datum. -/
theorem eq_of_equal (h : v.Equal v') (shape : d.IsShapeOf v) (shape' : d'.IsShapeOf v') (hd : ¬ d.HoldsNegativeZero)
    (hd' : ¬ d'.HoldsNegativeZero) : d = d' := by
  refine h.induct (motive := fun v v' => ∀ d d', IsShapeOf d v → IsShapeOf d' v' → ¬ d.HoldsNegativeZero →
    ¬ d'.HoldsNegativeZero → d = d') ?_ ?_ d d' shape shape' hd hd'
  · intro i j xs ys each d d' shape shape' hd hd'
    obtain ⟨ds, rfl, shapes⟩ := isShapeOf_list_iff.mp shape
    obtain ⟨ds', rfl, shapes'⟩ := isShapeOf_list_iff.mp shape'
    have hds : ∀ d ∈ ds, ¬ d.HoldsNegativeZero := fun d mem zero => hd (.inside mem zero)
    have hds' : ∀ d ∈ ds', ¬ d.HoldsNegativeZero := fun d mem zero => hd' (.inside mem zero)
    clear hd hd' shape shape'
    congr 1
    induction each generalizing ds ds' with
    | nil =>
      cases shapes
      cases shapes'
      rfl
    | cons one _ ih =>
      cases shapes with
      | cons first rest =>
        cases shapes' with
        | cons first' rest' =>
          obtain ⟨zero, zeros⟩ := List.forall_mem_cons.mp hds
          obtain ⟨zero', zeros'⟩ := List.forall_mem_cons.mp hds'
          rw [one.2 _ _ first first' zero zero', ih _ rest _ rest' zeros zeros']
  · intro v w notLists same d d' shape shape' hd hd'
    cases Value.same_iff.mp same with
    | float h =>
      cases shape
      cases shape'
      exact congrArg _ (eq_of_beq_float (fun zero => hd (zero ▸ .here)) (fun zero => hd' (zero ▸ .here)) h)
    | list => cases notLists
    | name first second =>
      cases shape with
      | symbol name =>
        cases shape' with
        | symbol name' =>
          cases first
          cases second
          rfl
        | _ => cases second
      | _ => cases first
    | int | string | bool =>
      cases shape
      cases shape'
      rfl
    | _ => cases shape

/-- Readable data without a negative zero have equal values just when they have one text. -/
theorem equal_iff_text_eq (h : d.IsReadable) (h' : d'.IsReadable) (hd : ¬ d.HoldsNegativeZero)
    (hd' : ¬ d'.HoldsNegativeZero) (shape : d.IsShapeOf v) (shape' : d'.IsShapeOf v') (live : Nat → Bool) :
    v.Equal v' ↔ v.text live .source = v'.text live .source := by
  rw [shape.text_eq live, shape'.text_eq live]
  constructor
  · intro equal
    rw [eq_of_equal equal shape shape' hd hd']
  · intro same
    obtain rfl := h.text_inj h' same
    exact h.equal shape shape'

end Datum

/-! ## The procedures -/

namespace Primitive

variable (fuel room : Nat) (v w : Value) (caller : FrameId) (m : Machine)

theorem outcome_equal : outcome (apply (fuel + 1) room (.primitive .equal) [v, w] caller) m =
    match v.equal? room w with
    | some b => (.ok (.bool b), m)
    | none => (.error (.failed .tooDeep), m) := by
  change outcome (match v.equal? room w with | some b => (return .bool b : Run Value) | none => fail .tooDeep) m = _
  cases v.equal? room w <;> rfl

end Primitive

namespace Session

/-- The values among some that have no result that is no number inside. -/
abbrev Ordinary (vs : List Value) : Type :=
  { v : Value // v ∈ vs ∧ v.IsOrdinary }

/-- The laws of the two equalities, for all values that have come up in a session and hold no result that is no number.
Both are equivalences, and what is the same is equal. Lists are equal when they are equal item by item, values that are
equal are of one kind at every place, and readable data without a negative zero are equal just when they have one text.
The procedures decide the two relations, as far as there is room. -/
theorem equality_laws {limits : Limits} {table : Nat} {vs : List Value} {s : Session}
    (known : Known limits table vs s) :
    Equivalence (fun v w : Ordinary vs => v.1.same w.1 = true) ∧
    Equivalence (fun v w : Ordinary vs => v.1.Equal w.1) ∧
    (∀ v w : Ordinary vs, v.1.same w.1 = true → v.1.Equal w.1) ∧
    (∀ i xs j ys, (Value.list i xs).Equal (.list j ys) ↔ List.Forall₂ Value.Equal xs ys) ∧
    (∀ v w : Value, v.Equal w → ∀ path, Option.Rel Value.SameKind (v.inside? path) (w.inside? path)) ∧
    (∀ d d' : Datum, d.IsReadable → d'.IsReadable → ¬ d.HoldsNegativeZero → ¬ d'.HoldsNegativeZero →
      ∀ v v' live, d.IsShapeOf v → d'.IsShapeOf v' →
        (v.Equal v' ↔ v.text live .source = v'.text live .source)) ∧
    ∀ fuel v w caller m,
      (∀ room, outcome (apply (fuel + 1) room (.primitive .same) [v, w] caller) m = (.ok (.bool (v.same w)), m)) ∧
      (∀ room, outcome (apply (fuel + 1) room (.primitive .equal) [v, w] caller) m = (.error (.failed .tooDeep), m) ∨
        ∃ b, outcome (apply (fuel + 1) room (.primitive .equal) [v, w] caller) m = (.ok (.bool b), m) ∧
          (b = true ↔ v.Equal w)) ∧
      ∀ room, v.isDeeperThan room = false →
        ∃ b, outcome (apply (fuel + 1) (room + 1) (.primitive .equal) [v, w] caller) m = (.ok (.bool b), m) := by
  obtain ⟨L, _, booked⟩ := known.booked
  refine ⟨⟨fun v => Value.same_refl v.2.2, fun h => Value.same_symm h, fun {u v w} h h' => ?_⟩,
    ⟨fun v => .refl v.2.2, fun h => h.symm, fun h h' => h.trans h'⟩, fun v w h => ?_,
    fun i xs j ys => Value.equal_list_iff, fun v w h path => ?_,
    fun d d' readable readable' hd hd' v v' live shape shape' => ?_, fun fuel v w caller m => ?_⟩
  · exact Value.same_trans (booked u u.2.1) (booked v v.2.1) (booked w w.2.1) h h'
  · exact Value.equal_of_same (booked v v.2.1) (booked w w.2.1) v.2.2 h
  · rcases rel_cases (h.inside? path) with ⟨first, second⟩ | ⟨x, y, first, second, equal⟩
    · rw [first, second]
      exact .none
    · rw [first, second]
      exact .some equal.sameKind
  · exact Datum.equal_iff_text_eq readable readable' hd hd' shape shape' live
  · refine ⟨fun room => rfl, fun room => ?_, fun room shallow => ?_⟩
    · rw [Primitive.outcome_equal]
      cases compared : v.equal? room w with
      | none => exact Or.inl rfl
      | some b => exact Or.inr ⟨b, rfl, (Value.equal_iff compared).symm⟩
    · obtain ⟨b, compared⟩ := Value.equal?_answers shallow w
      rw [Primitive.outcome_equal, compared]
      exact ⟨b, rfl⟩

/-- Two lists that were read from one text. -/
theorem equality_laws_twice_read : ∃ s,
    Known .standard 0 [.list 1 [.symbol "a"], .list 0 [.symbol "a"]] s ∧
      (Value.list 1 [.symbol "a"]).Equal (.list 0 [.symbol "a"]) ∧
      (Value.list 1 [.symbol "a"]).same (.list 0 [.symbol "a"]) = false := by
  have start : Known .standard 0 [] (fresh 0 .zeros) := .fresh _
  have known := (start.deed (.datum (.list [.symbol "a"]))).deed (.datum (.list [.symbol "a"]))
  have readable : (Datum.list [.symbol "a"]).IsReadable :=
    .list (List.forall_mem_singleton.mpr (.symbol (.of_all nofun rfl) rfl))
  have positive : ¬ (Datum.list [.symbol "a"]).HoldsNegativeZero := by
    rintro (_ | ⟨mem, h⟩)
    cases List.mem_singleton.mp mem
    cases h
  have shape (i : Nat) : (Datum.list [.symbol "a"]).IsShapeOf (.list i [.symbol "a"]) :=
    .list i (.cons (.symbol "a") .nil)
  obtain ⟨_, _, _, _, _, texts, _⟩ := equality_laws known
  refine ⟨_, known, ?_, by decide⟩
  exact (texts _ _ readable readable positive positive _ _ (fun _ => true) (shape 1) (shape 0)).mpr rfl

end Session

end SmallLisp
