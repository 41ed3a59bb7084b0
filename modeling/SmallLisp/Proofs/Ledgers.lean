import SmallLisp.Proofs.Custody
import SmallLisp.Proofs.Likeness
import SmallLisp.Proofs.Obedience
/-!
# Ledgers

A list is made once, with its items, and its number is its own from then on. A ledger says which items the list of a
number has; it grows as lists are made. A value is booked when each list inside it has the items that the ledger gives
to its number, so two booked lists with one number have the same items. Every operation of the evaluator books what it
makes, so a session has a ledger at every point, and each value that comes up in it is booked from then on.
-/
namespace SmallLisp

open Run Custody

/-- The items of the lists made so far, by number. -/
abbrev Ledger := Nat → Option (List Value)

namespace Ledger

/-- A later ledger has more lists. -/
def Grows (L L' : Ledger) : Prop :=
  ∀ i items, L i = some items → L' i = some items

def enter (L : Ledger) (i : Nat) (items : List Value) : Ledger :=
  fun j => if j = i then some items else L j

variable {L L' L'' : Ledger} {i : Nat} {items : List Value}

theorem Grows.refl (L : Ledger) : L.Grows L := fun _ _ recorded => recorded

theorem Grows.trans (first : L.Grows L') (second : L'.Grows L'') : L.Grows L'' :=
  fun i items recorded => second i items (first i items recorded)

theorem enter_self (L : Ledger) (i : Nat) (items : List Value) : L.enter i items i = some items :=
  if_pos rfl

theorem grows_enter (new : L i = none) (items : List Value) : L.Grows (L.enter i items) := by
  intro j others recorded
  unfold enter
  split
  · rename_i same
    rw [same, new] at recorded
    cases recorded
  · exact recorded

end Ledger

namespace Value

/-- Each list inside a value has the items that the ledger gives to its number. -/
inductive Booked (L : Ledger) : Value → Prop
  | intro {v : Value} (recorded : ∀ i items, v = .list i items → L i = some items)
    (parts : ∀ u ∈ v.parts, Booked L u) : Booked L v

namespace Booked

variable {L L' : Ledger} {v : Value} {i k : Nat} {vs : List Value} {parameters body : Value} {home : FrameId}

theorem mono (grows : L.Grows L') (h : Booked L v) : Booked L' v := by
  induction h with
  | intro recorded _ ih => exact .intro (fun i items same => grows i items (recorded i items same)) ih

theorem atom (h : v.isAtom = true) : Booked L v := by
  cases v with
  | nan | list | closure | escape => cases h
  | _ => exact .intro nofun nofun

theorem nan (i : Nat) : Booked L (.nan i) := .intro nofun nofun

theorem list_iff : Booked L (.list i vs) ↔ L i = some vs ∧ ∀ v ∈ vs, Booked L v := by
  constructor
  · rintro ⟨recorded, parts⟩
    exact ⟨recorded i vs rfl, parts⟩
  · rintro ⟨recorded, each⟩
    refine .intro ?_ each
    rintro _ _ ⟨⟩
    exact recorded

theorem items (h : Booked L (.list i vs)) : ∀ v ∈ vs, Booked L v := (list_iff.mp h).2

theorem closure_iff : Booked L (.closure i parameters body home) ↔ Booked L parameters ∧ Booked L body := by
  constructor
  · rintro ⟨_, parts⟩
    exact ⟨parts _ (by simp [Value.parts]), parts _ (by simp [Value.parts])⟩
  · rintro ⟨first, second⟩
    refine .intro (by rintro _ _ ⟨⟩) ?_
    simpa [Value.parts] using ⟨first, second⟩

theorem escape_iff : Booked L (.escape k v) ↔ Booked L v := by
  constructor
  · rintro ⟨_, parts⟩
    exact parts _ (by simp [Value.parts])
  · intro h
    refine .intro (by rintro _ _ ⟨⟩) ?_
    simpa [Value.parts] using h

theorem received (h : Booked L v) (k : Nat) : Booked L (v.received k) := by
  unfold Value.received
  split
  · split
    · exact escape_iff.mp h
    · exact h
  · exact h

end Booked

/-- All of some values are booked. -/
abbrev AllBooked (L : Ledger) (vs : List Value) : Prop :=
  ∀ v ∈ vs, Booked L v

theorem AllBooked.mono {L L' : Ledger} {vs : List Value} (grows : L.Grows L') (h : AllBooked L vs) :
    AllBooked L' vs :=
  fun v mem => (h v mem).mono grows

end Value

open Value

namespace Machine

/-- All values that a state holds are booked, and new objects have numbers that are in no entry. -/
structure Records (L : Ledger) (m : Machine) : Prop where
  stores : m.Stores (Booked L)
  numbered : ∀ {i items}, L i = some items → i < m.nextObject

namespace Records

variable {L L' : Ledger} {m n : Machine}

theorem congr (h : m.Records L) (frames : n.frames = m.frames) (transformers : n.transformers = m.transformers)
    (le : m.nextObject ≤ n.nextObject) : n.Records L :=
  ⟨h.stores.congr frames transformers, fun recorded => Nat.lt_of_lt_of_le (h.numbered recorded) le⟩

theorem new (h : m.Records L) : L m.nextObject = none := by
  cases found : L m.nextObject with
  | none => rfl
  | some items => exact absurd (h.numbered found) (Nat.lt_irrefl _)

theorem mono_stores (h : m.Records L) (grows : L.Grows L') : m.Stores (Booked L') where
  frames f b mem := (h.stores.frames f b mem).mono grows
  transformers b mem := (h.stores.transformers b mem).mono grows

end Records

end Machine

/-- The custody of states that a ledger records. -/
def Ledger.custody : Custody Empty where
  World := Ledger
  Later := Ledger.Grows
  Safe L m := m.Records L
  Good := Booked
  beside i := i.elim
  refl := .refl
  trans := .trans
  later grows h := h.mono grows
  unspecified := .atom rfl

namespace Run

variable {ε σ α : Type} {L : Ledger} {room : Nat}

/-- From a state that a ledger records a computation leads to one that a later ledger records; what it gives
has a property in that ledger. -/
abbrev Books [Housing σ] (L : Ledger) (a : Stateful ε σ α) (P : Ledger → α → Prop) : Prop :=
  Ledger.custody.Keeps L (fun _ => a) a P

/-- A change of the state that the ledger goes on recording. -/
theorem still_books {g : Machine → α × Machine} (records : ∀ m : Machine, m.Records L → (g m).2.Records L) :
    Books L (modifyGet g : Run α) fun _ _ => True :=
  .modifyGet (fun i => i.elim) fun m here => ⟨L, Ledger.Grows.refl L, records m here, trivial⟩

theorem newObject_books : Books L newObject fun _ _ => True :=
  still_books fun _ records => records.congr rfl rfl (Nat.le_succ _)

theorem writeLine_books (line : String) : Books L (writeLine line) fun _ _ => True :=
  still_books fun _ records => records.congr rfl rfl (Nat.le_refl _)

/-- A new list is entered under its number. -/
theorem newList_books {items : List Value} (h : AllBooked L items) : Books L (newList items) Booked := by
  have taken : Books L newObject fun L' i => L' i = some items ∧ AllBooked L' items := by
    refine .modifyGet (fun i => i.elim) fun m records => ?_
    have grows := Ledger.grows_enter records.new items
    refine ⟨L.enter m.nextObject items, grows, ⟨(records.mono_stores grows).congr rfl rfl, ?_⟩,
      L.enter_self _ items, h.mono grows⟩
    intro j others recorded
    unfold Ledger.enter at recorded
    split at recorded
    · rename_i same
      rw [same]
      exact Nat.lt_succ_self _
    · exact Nat.lt_succ_of_lt (records.numbered recorded)
  exact taken.bind fun _ _ _ entered => .pure (Booked.list_iff.mpr entered)

/-- Keeping the books is a judgement; its worlds are ledgers. -/
def bookkeeping : Judgement where
  World := Ledger
  Later := Ledger.Grows
  Good := Booked
  At L m := m.Records L
  Holds L a Q := Books L a Q
  refl := .refl
  trans := .trans
  later grows h := h.mono grows
  symbol _ := .atom rfl
  int _ := .atom rfl
  float _ := .atom rfl
  nan i := .nan i
  bool _ := .atom rfl
  unspecified := .atom rfl
  items h := h.items
  pure_holds h := .pure h
  throw_holds h := .throw h
  bind_holds h rest := h.bind rest
  get_holds _ rest := .get_bind (fun i => i.elim) rest
  newObject_holds := newObject_books
  newList_holds h := newList_books h
  writeLine_holds := writeLine_books
  draw_holds := still_books fun _ records => records.congr rfl rfl (Nat.le_refl _)

theorem addFrame_books {bs : Bindings} (h : ∀ b ∈ bs, Booked L b.value) (outer : Option FrameId) :
    Books L (modifyGet fun m => ((m.frames.new bs outer).1, { m with frames := (m.frames.new bs outer).2 }) :
      Run FrameId) fun _ _ => True :=
  still_books fun _ records => ⟨records.stores.frame h outer, records.numbered⟩

theorem newFrame_books (parameters : Value) {args : List Value} (h : AllBooked L args) (outer : Option FrameId) :
    Books L (newFrame room parameters args outer) fun _ _ => True :=
  (Judgement.bindParameters_holds (J := bookkeeping) parameters h).bind fun _ _ _ bound =>
    addFrame_books bound outer

/-- Keeping the books is a regime: any frame may be bound in, and transformers registered. -/
def bookkeeper : Regime Unit where
  toJudgement := bookkeeping
  Beside L _ a Q := Books L a Q
  Final := Booked
  Home _ _ := True
  Registers := True
  same h := h
  bind_beside h rest := h.bind rest
  final h := h
  good h _ := h
  root h := h trivial
  home _ _ := trivial
  opens h := ⟨trivial, (Booked.closure_iff.mp h).2⟩
  closes hparameters hbody _ := Booked.closure_iff.mpr ⟨hparameters, hbody⟩
  found records _ found := records.stores.lookup? found
  transformer records := records.stores.transformers
  escapes _ _ h := Booked.escape_iff.mpr h
  frame_holds h _ := addFrame_books h _
  register_holds _ _ h := still_books fun _ records => ⟨records.stores.register h, records.numbered⟩

theorem bookkeeper_bindsFreely : bookkeeper.BindsFreely :=
  fun _ _ _ hb => still_books fun _ records => ⟨records.stores.define hb _, records.numbered⟩

theorem bookkeeper_owns : bookkeeper.Owns := by
  intro L go go' body
  have opened : Books L openContinuation fun _ _ => True :=
    still_books fun _ records => records.congr rfl rfl (Nat.le_refl _)
  refine opened.next fun L' grows k => ?_
  have spent := Keeps.spending (body L' k (fun _ h => h.mono grows) (.atom rfl)) k (fun i => i.elim)
    fun _ _ records => records.congr rfl rfl (Nat.le_refl _)
  exact spent.bind fun _ _ _ h => .pure (h.received k)

/-- Every run books what it makes. -/
theorem calls_book (fuel : Nat) : Calls.Obeys bookkeeper (fun _ => calls fuel) (calls fuel) :=
  calls_obey bookkeeper_bindsFreely bookkeeper_owns (fun h => h) fuel

end Run

/-! ## Sessions -/

namespace Value

mutual

/-- The lists of a datum are entered under the numbers that they are given. -/
theorem ofDatum_booked (d : Datum) (next : Nat) {L : Ledger} (numbered : ∀ i items, L i = some items → i < next) :
    next ≤ (ofDatum d next).2 ∧ ∃ L' : Ledger, (∀ i < next, L' i = L i) ∧
      (∀ i items, L' i = some items → i < (ofDatum d next).2) ∧ Booked L' (ofDatum d next).1 := by
  cases d with
  | list items =>
    have later (i : Nat) (vs : List Value) (recorded : L i = some vs) : i < next + 1 :=
      Nat.lt_succ_of_lt (numbered i vs recorded)
    obtain ⟨le, L', same, numbered', booked⟩ := ofData_booked items (next + 1) later
    have new : L' next = none := by
      rw [same next (Nat.lt_succ_self _)]
      cases found : L next with
      | none => rfl
      | some vs => exact absurd (numbered next vs found) (Nat.lt_irrefl _)
    refine ⟨Nat.le_of_succ_le le, L'.enter next (ofData items (next + 1)).1, fun i below => ?_,
      fun i vs recorded => ?_, ?_⟩
    · unfold Ledger.enter
      rw [if_neg (Nat.ne_of_lt below)]
      exact same i (Nat.lt_succ_of_lt below)
    · unfold Ledger.enter at recorded
      split at recorded
      · rename_i here
        rw [here]
        exact le
      · exact numbered' i vs recorded
    · exact Booked.list_iff.mpr ⟨L'.enter_self _ _, booked.mono (Ledger.grows_enter new _)⟩
  | _ => exact ⟨Nat.le_refl _, L, fun _ _ => rfl, numbered, .atom rfl⟩

theorem ofData_booked (ds : List Datum) (next : Nat) {L : Ledger}
    (numbered : ∀ i items, L i = some items → i < next) :
    next ≤ (ofData ds next).2 ∧ ∃ L' : Ledger, (∀ i < next, L' i = L i) ∧
      (∀ i items, L' i = some items → i < (ofData ds next).2) ∧ AllBooked L' (ofData ds next).1 := by
  cases ds with
  | nil => exact ⟨Nat.le_refl _, L, fun _ _ => rfl, numbered, nofun⟩
  | cons d ds =>
    obtain ⟨le, L₁, same, numbered₁, first⟩ := ofDatum_booked d next numbered
    obtain ⟨le', L₂, same', numbered₂, rest⟩ := ofData_booked ds (ofDatum d next).2 numbered₁
    have grows : L₁.Grows L₂ := fun i items recorded => (same' i (numbered₁ i items recorded)).trans recorded
    refine ⟨Nat.le_trans le le', L₂, fun i below => ?_, numbered₂, ?_⟩
    · rw [same' i (Nat.lt_of_lt_of_le below le), same i below]
    · exact List.forall_mem_cons.mpr ⟨first.mono grows, rest⟩

end

end Value

namespace Session

variable {L : Ledger}

theorem instantiate_books (d : Datum) : Books L (instantiate d) Booked := by
  refine run_keeps (.modifyGet (fun i => i.elim) fun m records => ?_)
  obtain ⟨le, L', same, numbered, booked⟩ :=
    Value.ofDatum_booked d m.nextObject fun _ _ recorded => records.numbered recorded
  have grows : L.Grows L' := fun i items recorded => (same i (records.numbered recorded)).trans recorded
  exact ⟨L', grows, ⟨(records.mono_stores grows).congr rfl rfl, fun recorded => numbered _ _ recorded⟩, booked⟩

/-- Engines serve and book what they make. -/
theorem serves_booked (limits : Limits) : Ledger.custody.Serves (fun _ => limits) limits where
  nesting i := i.elim
  written := writeLine_books
  source _ := Judgement.source_holds (J := bookkeeping) _
  instantiate _ := instantiate_books _
  expand h := (calls_book limits.steps).expand _ (fun _ => trivial) h
  evaluate h := (calls_book limits.steps).evaluate _ trivial h

theorem releases_booked : Ledger.custody.Releases :=
  fun L => .modifyGet (fun i => i.elim) fun _ records =>
    ⟨L, Ledger.Grows.refl L, records.congr rfl rfl (Nat.le_refl _), trivial⟩

theorem fresh_records (table : Nat) (draws : Draws) : (fresh table draws).machine.Records fun _ => none := by
  refine ⟨⟨fun f b mem => ?_, List.forall_mem_singleton.mpr (.atom rfl)⟩, nofun⟩
  obtain ⟨named, inside, rfl⟩ := mem_fresh_bindings mem
  have atoms : (Machine.builtins.all fun named => named.2.isAtom) = true := rfl
  exact .atom (List.all_eq_true.mp atoms named inside)

/-! ## The values of a session -/

/-- What may be done in a session with values that have come up in it. Steps and room may be any. -/
inductive Deed (limits : Limits) (vs : List Value) : Act Value → Prop
  | text (code : String) : Deed limits vs (eval limits code)
  | datum (d : Datum) : Deed limits vs (instantiate d)
  | list {items : List Value} (each : ∀ v ∈ items, v ∈ vs) : Deed limits vs (run (newList items))
  | expansion {form : Value} (mem : form ∈ vs) (fuel room : Nat) (toplevel : Bool) :
    Deed limits vs (run (SmallLisp.expand fuel room form toplevel))
  | evaluation {form : Value} (mem : form ∈ vs) (fuel room : Nat) (frame : FrameId) :
    Deed limits vs (run (SmallLisp.evaluate fuel room form frame))
  | application {procedure : Value} {args : List Value} (mem : procedure ∈ vs) (each : ∀ v ∈ args, v ∈ vs)
    (fuel room : Nat) (caller : FrameId) : Deed limits vs (run (SmallLisp.apply fuel room procedure args caller))

/-- The value that a computation gives, if it does. -/
def given : Except Halt Value → List Value
  | .ok v => [v]
  | .error _ => []

/-- Values that have come up in a session, and its state then. They come from what is done in it, from frames and
transformers, and from inside other values; atoms are there from the start. Evaluations inside others begin in a new
frame or with other live continuations. -/
inductive Known (limits : Limits) (table : Nat) : List Value → Session → Prop
  | fresh (draws : Draws) : Known limits table [] (fresh table draws)
  | command {vs : List Value} {s : Session} (before : Known limits table vs s) (command : Command) :
    Known limits table vs (outcome (command.perform limits) s).2
  | deed {vs : List Value} {s : Session} {a : Act Value} (before : Known limits table vs s) (deed : Deed limits vs a) :
    Known limits table (given (outcome a s).1 ++ vs) (outcome a s).2
  | frame {vs args : List Value} {s : Session} (before : Known limits table vs s) (each : ∀ v ∈ args, v ∈ vs)
    (room : Nat) (parameters : Value) (outer : Option FrameId) :
    Known limits table vs (outcome (run (newFrame room parameters args outer)) s).2
  | continuations {vs : List Value} {s : Session} (before : Known limits table vs s) (live : Array Bool) :
    Known limits table vs { s with machine := { s.machine with continuations := live } }
  | atom {vs : List Value} {s : Session} (before : Known limits table vs s) {v : Value} (isAtom : v.isAtom = true) :
    Known limits table (v :: vs) s
  | bound {vs : List Value} {s : Session} (before : Known limits table vs s) {f : FrameId} {b : Binding}
    (mem : b ∈ s.machine.frames.bindingsOf f) : Known limits table (b.value :: vs) s
  | transformer {vs : List Value} {s : Session} (before : Known limits table vs s) {b : Binding}
    (mem : b ∈ s.machine.transformers) : Known limits table (b.value :: vs) s
  | part {vs : List Value} {s : Session} (before : Known limits table vs s) {u v : Value} (mem : v ∈ vs)
    (inside : u ∈ v.parts) : Known limits table (u :: vs) s

theorem Deed.books {limits : Limits} {vs : List Value} {a : Act Value} (h : Deed limits vs a) (booked : AllBooked L vs) :
    Books L a Booked := by
  cases h with
  | text code => exact eval_keeps (serves_booked limits) code
  | datum d => exact instantiate_books d
  | list each => exact run_keeps (newList_books fun v item => booked v (each v item))
  | expansion mem fuel room toplevel => exact run_keeps ((calls_book fuel).expand room (fun _ => trivial) (booked _ mem))
  | evaluation mem fuel room frame => exact run_keeps ((calls_book fuel).evaluate room trivial (booked _ mem))
  | application mem each fuel room caller =>
    exact run_keeps ((calls_book fuel).apply room caller (booked _ mem) fun v arg => booked v (each v arg))

/-- Whatever is done in a session, a ledger has all lists that have come up in it. -/
theorem Known.booked {limits : Limits} {table : Nat} {vs : List Value} {s : Session} (h : Known limits table vs s) :
    ∃ L, s.machine.Records L ∧ AllBooked L vs := by
  induction h with
  | fresh draws => exact ⟨_, fresh_records table draws, nofun⟩
  | command _ command ih =>
    obtain ⟨L, records, booked⟩ := ih
    obtain ⟨_, L', grows, records', _⟩ := perform_keeps (serves_booked limits) releases_booked command _ records
    exact ⟨L', records', booked.mono grows⟩
  | @deed vs s a _ deed ih =>
    obtain ⟨L, records, booked⟩ := ih
    obtain ⟨_, L', grows, records', good⟩ := deed.books booked s records
    refine ⟨L', records', List.forall_mem_append.mpr ⟨?_, booked.mono grows⟩⟩
    cases ended : (outcome a s).1 with
    | error e => exact nofun
    | ok v => exact List.forall_mem_singleton.mpr (good v ended)
  | frame _ each room parameters outer ih =>
    obtain ⟨L, records, booked⟩ := ih
    have created := @newFrame_books L room parameters _ (fun v arg => booked v (each v arg)) outer
    obtain ⟨_, L', grows, records', _⟩ := run_keeps created _ records
    exact ⟨L', records', booked.mono grows⟩
  | continuations _ live ih =>
    obtain ⟨L, records, booked⟩ := ih
    exact ⟨L, records.congr rfl rfl (Nat.le_refl _), booked⟩
  | atom _ isAtom ih =>
    obtain ⟨L, records, booked⟩ := ih
    exact ⟨L, records, List.forall_mem_cons.mpr ⟨.atom isAtom, booked⟩⟩
  | bound _ mem ih =>
    obtain ⟨L, records, booked⟩ := ih
    exact ⟨L, records, List.forall_mem_cons.mpr ⟨records.stores.frames _ _ mem, booked⟩⟩
  | transformer _ mem ih =>
    obtain ⟨L, records, booked⟩ := ih
    exact ⟨L, records, List.forall_mem_cons.mpr ⟨records.stores.transformers _ mem, booked⟩⟩
  | part _ mem inside ih =>
    obtain ⟨L, records, booked⟩ := ih
    cases booked _ mem with
    | intro _ parts => exact ⟨L, records, List.forall_mem_cons.mpr ⟨parts _ inside, booked⟩⟩

end Session

end SmallLisp
