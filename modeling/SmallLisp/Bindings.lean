import SmallLisp.Value.Text
/-!
Bindings: values under keys, in the order in which the keys were first bound. Code binds names; parameters
that were never expanded may be any values but lists. Numbers and truth values that are equal are one key, and an
object is a key of its own. A key is shown as the value that was first bound under it.
-/
namespace SmallLisp

inductive Key where
  | name (s : String)
  | whole (n : Int)
  /-- A float that is no whole number, by its bits. -/
  | float (bits : UInt64)
  | string (s : String)
  /-- A closure, or the result of a calculation that has none. -/
  | object (i : Nat)
  | continuation (k : Nat)
  | primitive (p : Primitive)
  | control (c : Control)
  | unspecified
  | escape (k : Nat) (value : Key)
  deriving DecidableEq, Repr

namespace Key

def ofFloat (x : Float) : Key :=
  match (Number.Binary64.ofFloat x).whole? with
  | some n => whole n
  | none => float x.toBits

/-- The key that a value is; lists, and escapes with lists, are none. -/
def ofValue? : Value → Option Key
  | .symbol s => some (name s)
  | .endOfText => some (name Value.endName)
  | .int n => some (whole n)
  | .bool b => some (whole (if b then 1 else 0))
  | .float x => some (ofFloat x)
  | .string s => some (string s)
  | .nan i | .closure i .. => some (object i)
  | .continuation k => some (continuation k)
  | .primitive p => some (primitive p)
  | .control c => some (control c)
  | .unspecified => some unspecified
  | .escape k v => (ofValue? v).map (escape k)
  | .list .. => none

def name? : Key → Option String
  | name s => some s
  | _ => none

end Key

/-- A value under the key that a target is. -/
structure Binding where
  key : Key
  target : Value
  value : Value
  keyed : Key.ofValue? target = some key

namespace Binding

def ofName (name : String) (v : Value) : Binding :=
  ⟨.name name, .symbol name, v, rfl⟩

/-- Binds a value to a target. -/
def ofTarget (target v : Value) : Except Failure Binding :=
  match keyed : Key.ofValue? target with
  | some key => .ok ⟨key, target, v, keyed⟩
  | none => .error (.misuse .noKey)

theorem ofTarget_of_key {target : Value} {key : Key} (keyed : Key.ofValue? target = some key) (v : Value) :
    ofTarget target v = .ok ⟨key, target, v, keyed⟩ := by
  unfold ofTarget
  split
  · rename_i found keyed'
    obtain rfl : key = found := Option.some.inj (keyed.symm.trans keyed')
    rfl
  · rename_i missing
    cases keyed.symm.trans missing

theorem ofTarget_of_no_key {target : Value} (none : Key.ofValue? target = none) (v : Value) :
    ofTarget target v = .error (.misuse .noKey) := by
  unfold ofTarget
  split
  · rename_i keyed
    cases none.symm.trans keyed
  · rfl

/-- What is bound to a target has the target's key. -/
theorem ofTarget_eq_ok {target v : Value} {b : Binding} (h : ofTarget target v = .ok b) :
    b.target = target ∧ b.value = v ∧ Key.ofValue? target = some b.key := by
  cases keyed : Key.ofValue? target with
  | some key =>
    rw [ofTarget_of_key keyed] at h
    cases h
    exact ⟨rfl, rfl, rfl⟩
  | none =>
    rw [ofTarget_of_no_key keyed] at h
    cases h

end Binding

abbrev Bindings := List Binding

namespace Bindings

def get? : Bindings → Key → Option Value
  | [], _ => none
  | b :: bs, key => if b.key = key then some b.value else get? bs key

def binds : Bindings → Key → Bool
  | [], _ => false
  | b :: bs, key => if b.key = key then true else binds bs key

def keys (bs : Bindings) : List Key :=
  bs.map (·.key)

/-- Binds a key, in its place and under its first target when it is bound already, else at the end. -/
def put : Bindings → Binding → Bindings
  | [], new => [new]
  | b :: bs, new =>
    if b.key = new.key then { b with value := new.value } :: bs else b :: put bs new

/-- Binds targets to values from left to right. -/
def ofPairs (pairs : List (Value × Value)) : Except Failure Bindings :=
  pairs.foldlM (fun bs (target, v) => do return bs.put (← Binding.ofTarget target v)) []

theorem get?_put (bs : Bindings) (new : Binding) (key : Key) :
    get? (bs.put new) key = if new.key = key then some new.value else get? bs key := by
  induction bs with
  | nil => rfl
  | cons b bs ih =>
    by_cases hb : b.key = new.key
    · by_cases h : new.key = key
      · simp [put, get?, hb, h]
      · simp [put, get?, hb, h]
    · by_cases h : new.key = key
      · subst h
        simp [put, get?, hb, ih]
      · simp [put, get?, hb, ih, h]

theorem binds_put (bs : Bindings) (new : Binding) (key : Key) :
    binds (bs.put new) key = (decide (new.key = key) || binds bs key) := by
  induction bs with
  | nil => simp [put, binds]
  | cons b bs ih =>
    by_cases hb : b.key = new.key
    · by_cases h : new.key = key
      · simp [put, binds, hb, h]
      · simp [put, binds, hb, h]
    · by_cases h : b.key = key
      · subst h
        simp [put, binds, hb]
      · simp [put, binds, hb, h, ih]

/-- Binding a key keeps the order of the keys; a new one goes last. -/
theorem keys_put (bs : Bindings) (new : Binding) :
    keys (bs.put new) = if binds bs new.key then keys bs else keys bs ++ [new.key] := by
  induction bs with
  | nil => rfl
  | cons b bs ih =>
    by_cases hb : b.key = new.key
    · simp [put, binds, keys, hb]
    · simp only [keys] at ih
      simp only [put, binds, keys, hb, if_false, List.map_cons, ih]
      split <;> simp

theorem isSome_get? (bs : Bindings) (key : Key) : (get? bs key).isSome = binds bs key := by
  induction bs with
  | nil => rfl
  | cons b bs ih =>
    by_cases hb : b.key = key
    · simp [get?, binds, hb]
    · simp [get?, binds, hb, ih]

def text? (live : Nat → Bool) (room : Nat) (bs : Bindings) : Except Failure String := do
  let entries ← bs.mapM fun b => do
    return (← b.target.bareText? live room) ++ ": " ++ (← b.value.text? live room .inspect)
  return "\x7b" ++ String.intercalate ", " entries ++ "\x7d"

end Bindings

end SmallLisp
