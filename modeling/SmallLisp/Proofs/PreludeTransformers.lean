import SmallLisp.Proofs.FrameByFrame
import SmallLisp.Proofs.SettledForms
/-!
# The transformers of the prelude

The prelude registers `and`, `or`, `when` and `unless` as closures of the root frame that take all operands as
one list. While the list procedures have their built-in meaning, the application of such a closure gives the
form that it is there for. It leaves nothing behind but the numbers of a few lists and a frame that holds the
operands.
-/
namespace SmallLisp

open Run

/-! ## Code that is written as a datum -/

namespace Datum

mutual

/-- Whether a value is written as the datum, whatever the numbers of its lists. Floats are left out. -/
def writes : Datum → Value → Bool
  | .symbol s, .symbol t => s == t
  | .int a, .int b => a == b
  | .string s, .string t => s == t
  | .bool a, .bool b => a == b
  | .list ds, .list _ vs => writesAll ds vs
  | _, _ => false

def writesAll : List Datum → List Value → Bool
  | [], [] => true
  | d :: ds, v :: vs => writes d v && writesAll ds vs
  | _, _ => false

end

variable {v : Value} {vs : List Value}

theorem writes_symbol_iff {s : String} : (symbol s).writes v = true ↔ v = .symbol s := by
  cases v with
  | symbol => simpa [writes] using eq_comm
  | _ => simp [writes]

theorem writes_int_iff {a : Int} : (int a).writes v = true ↔ v = .int a := by
  cases v with
  | int => simpa [writes] using eq_comm
  | _ => simp [writes]

theorem writes_bool_iff {b : Bool} : (bool b).writes v = true ↔ v = .bool b := by
  cases v with
  | bool => simpa [writes] using eq_comm
  | _ => simp [writes]

theorem writes_list_iff {ds : List Datum} :
    (list ds).writes v = true ↔ ∃ i vs, v = .list i vs ∧ writesAll ds vs = true := by
  cases v <;> simp [writes]

theorem writesAll_nil_iff : writesAll [] vs = true ↔ vs = [] := by
  cases vs <;> simp [writesAll]

theorem writesAll_cons_iff {d : Datum} {ds : List Datum} :
    writesAll (d :: ds) vs = true ↔ ∃ v vs', vs = v :: vs' ∧ d.writes v = true ∧ writesAll ds vs' = true := by
  cases vs <;> simp [writesAll]

/-- The application of a named procedure. -/
def call (name : String) (args : List Datum) : Datum :=
  .list (.symbol name :: args)

def quoted (d : Datum) : Datum :=
  call "quote" [d]

theorem writes_call_iff {name : String} {args : List Datum} :
    (call name args).writes v = true ↔ ∃ i vs, v = .list i (.symbol name :: vs) ∧ writesAll args vs = true := by
  rw [call, writes_list_iff]
  constructor
  · rintro ⟨i, _, rfl, h⟩
    obtain ⟨_, vs, rfl, named, h⟩ := writesAll_cons_iff.mp h
    exact ⟨i, vs, by rw [writes_symbol_iff.mp named], h⟩
  · rintro ⟨i, vs, rfl, h⟩
    exact ⟨i, _, rfl, writesAll_cons_iff.mpr ⟨_, vs, rfl, writes_symbol_iff.mpr rfl, h⟩⟩

theorem writesAll_singleton_iff {d : Datum} :
    writesAll [d] vs = true ↔ ∃ v, vs = [v] ∧ d.writes v = true := by
  simp [writesAll_cons_iff, writesAll_nil_iff]

theorem writesAll_pair_iff {d d' : Datum} :
    writesAll [d, d'] vs = true ↔ ∃ v v', vs = [v, v'] ∧ d.writes v = true ∧ d'.writes v' = true := by
  simp [writesAll_cons_iff, writesAll_nil_iff]

end Datum

/-! ## Code that yields a value -/

variable {l m n : Machine} {frame : FrameId} {i : Nat} {name : String}

/-- With enough steps and room a form has a value, and leaves a state. -/
def Yields (m : Machine) (frame : FrameId) (e v : Value) (n : Machine) : Prop :=
  Settles (fun fuel room => evaluate fuel room e frame) m (.ok v, n)

/-- The operands of a form have values. -/
def YieldsAll (m : Machine) (frame : FrameId) (es vs : List Value) (n : Machine) : Prop :=
  Settles (operandValues es frame) m (.ok (.values vs), n)

theorem yields_symbol {v : Value} (bound : m.frames.lookup? frame (.name name) = some v) :
    Yields m frame (.symbol name) v m :=
  ⟨1, 0, outcome_lookup bound 0, not_stopped_ok⟩

theorem yields_int (a : Int) : Yields m frame (.int a) (.int a) m :=
  ⟨1, 0, rfl, not_stopped_ok⟩

theorem yields_bool (b : Bool) : Yields m frame (.bool b) (.bool b) m :=
  ⟨1, 0, rfl, not_stopped_ok⟩

theorem yields_quote (v : Value) : Yields m frame (.list i [.symbol "quote", v]) v m :=
  ⟨1, 0, rfl, not_stopped_ok⟩

theorem Yields.test {t c e v u : Value} (condition : Yields m frame t v n) (here : v.isEscape = false)
    (taken : Yields n frame (if v.isFalse then e else c) u l) :
    Yields m frame (.list i [.symbol "if", t, c, e]) u l := by
  refine settles_evaluate_test_iff.mpr ?_
  refine (Settles.bind_iff (improving_evaluate t frame)
    (Improving.unlessEscape (improving_evaluate (if v.isFalse then e else c) frame) v) condition).mpr ?_
  rw [Value.unlessEscape, here]
  exact taken

theorem yieldsAll_nil : YieldsAll m frame [] [] m :=
  ⟨0, 0, rfl, not_stopped_ok⟩

theorem Yields.cons {e v : Value} {es vs : List Value} (first : Yields m frame e v n)
    (here : v.isEscape = false) (rest : YieldsAll n frame es vs l) :
    YieldsAll m frame (e :: es) (v :: vs) l := by
  have all : Settles (fun fuel room => operandValues (e :: es) frame fuel room >>= pure) m
        (.ok (.values (v :: vs)), l) ↔
      Settles (fun fuel room => operandValues es frame fuel room >>= fun vs => pure (vs.after v)) n
        (.ok (.values (v :: vs)), l) :=
    settles_operands_cons_iff (k := fun vs _ _ => pure vs) (fun vs => Improving.plain (pure vs)) here first
  simp only [bind_pure] at all
  refine all.mpr ((Settles.bind_iff (improving_operandValues es frame) ?_ rest).mpr ?_)
  · exact Improving.plain _
  · exact settles_pure_iff.mpr rfl

/-- The application of a primitive by its name. -/
theorem YieldsAll.primitive {p : Primitive} {es vs : List Value} {u : Value}
    (args : YieldsAll m frame es vs n) (bound : m.frames.lookup? frame (.name name) = some (.primitive p))
    (noKeyword : CoreKeyword.ofHead? (.symbol name) = none)
    (run : outcome (p.run 0 vs) n = (.ok u, l)) :
    Yields m frame (.list i (.symbol name :: es)) u l := by
  have all : YieldsAll m frame (.symbol name :: es) (.primitive p :: vs) n :=
    (yields_symbol bound).cons rfl args
  exact (settles_application_iff noKeyword all).mpr ⟨1, 0, run, not_stopped_ok⟩

/-! ## List procedures -/

/-- The list procedures have their built-in meaning in a frame. -/
structure Frames.HasListProcedures (fs : Frames) (f : FrameId) : Prop where
  isEmpty : fs.lookup? f (.name "null?") = some (.primitive (.isKind .empty))
  equal : fs.lookup? f (.name "=") = some (.primitive (.compare .equal))
  length : fs.lookup? f (.name "length") = some (.primitive .length)
  car : fs.lookup? f (.name "car") = some (.primitive .car)
  cdr : fs.lookup? f (.name "cdr") = some (.primitive .cdr)
  cons : fs.lookup? f (.name "cons") = some (.primitive .cons)
  append : fs.lookup? f (.name "append") = some (.primitive .append)

/-- Code has a value with a property, whatever the numbers of the lists that it is written with. -/
def Code (m : Machine) (frame : FrameId) (d : Datum) (P : Value → Prop) (n : Machine) : Prop :=
  ∀ e, d.writes e = true → ∃ v, P v ∧ Yields m frame e v n

/-- A list of some values. -/
def Value.Lists (vs : List Value) (v : Value) : Prop :=
  ∃ i, v = .list i vs

/-- A list whose elements have properties, one each. -/
def Value.ListsEach (Ps : List (Value → Prop)) (v : Value) : Prop :=
  ∃ i vs, v = .list i vs ∧ List.Forall₂ (fun P v => P v) Ps vs

namespace Code

open Datum
open Value (Lists ListsEach)

variable {d d' : Datum} {P P' : Value → Prop} {v : Value} {vs : List Value}

theorem symbol (bound : m.frames.lookup? frame (.name name) = some v) : Code m frame (.symbol name) (· = v) m := by
  intro e written
  rw [writes_symbol_iff.mp written]
  exact ⟨v, rfl, yields_symbol bound⟩

theorem bool (b : Bool) : Code m frame (.bool b) (· = .bool b) m := by
  intro e written
  rw [writes_bool_iff.mp written]
  exact ⟨_, rfl, yields_bool b⟩

theorem quoted (h : ∀ v, d.writes v = true → P v) : Code m frame (quoted d) P m := by
  intro e written
  obtain ⟨i, _, rfl, parts⟩ := writes_call_iff.mp written
  obtain ⟨v, rfl, hv⟩ := writesAll_singleton_iff.mp parts
  exact ⟨v, h v hv, yields_quote v⟩

theorem quoted_symbol (name : String) : Code m frame (Datum.quoted (.symbol name)) (· = .symbol name) m :=
  quoted fun _ => writes_symbol_iff.mp

/-- A test between two pieces of code. -/
theorem test {c a : Datum} {b : Bool} (condition : Code m frame d (· = .bool b) n)
    (taken : Code n frame (if b then c else a) P l) : Code m frame (call "if" [d, c, a]) P l := by
  intro e written
  obtain ⟨i, _, rfl, parts⟩ := writes_call_iff.mp written
  obtain ⟨t, _, rfl, ht, branches⟩ := writesAll_cons_iff.mp parts
  obtain ⟨ce, ae, rfl, hc, ha⟩ := writesAll_pair_iff.mp branches
  obtain ⟨_, rfl, condition⟩ := condition t ht
  obtain ⟨v, hv, taken⟩ := taken (if b then ce else ae) (by cases b <;> assumption)
  refine ⟨v, hv, condition.test rfl ?_⟩
  cases b <;> exact taken

/-- A primitive applied to the value of one piece of code. -/
theorem primitive {p : Primitive} (arg : Code m frame d P n)
    (bound : m.frames.lookup? frame (.name name) = some (.primitive p))
    (noKeyword : CoreKeyword.ofHead? (.symbol name) = none)
    (run : ∀ v, P v → v.isEscape = false ∧ ∃ u, P' u ∧ outcome (p.run 0 [v]) n = (.ok u, l)) :
    Code m frame (call name [d]) P' l := by
  intro e written
  obtain ⟨i, _, rfl, parts⟩ := writes_call_iff.mp written
  obtain ⟨a, rfl, ha⟩ := writesAll_singleton_iff.mp parts
  obtain ⟨v, hv, yields⟩ := arg a ha
  obtain ⟨here, u, hu, run⟩ := run v hv
  exact ⟨u, hu, (yields.cons here yieldsAll_nil).primitive bound noKeyword run⟩

/-- A primitive applied to the values of two pieces of code. -/
theorem primitive₂ {p : Primitive} {Q : Value → Prop} (first : Code m frame d P n)
    {l' : Machine} (second : Code n frame d' P' l)
    (bound : m.frames.lookup? frame (.name name) = some (.primitive p))
    (noKeyword : CoreKeyword.ofHead? (.symbol name) = none)
    (run : ∀ v w, P v → P' w → v.isEscape = false ∧ w.isEscape = false ∧
      ∃ u, Q u ∧ outcome (p.run 0 [v, w]) l = (.ok u, l')) :
    Code m frame (call name [d, d']) Q l' := by
  intro e written
  obtain ⟨i, _, rfl, parts⟩ := writes_call_iff.mp written
  obtain ⟨a, b, rfl, ha, hb⟩ := writesAll_pair_iff.mp parts
  obtain ⟨v, hv, first⟩ := first a ha
  obtain ⟨w, hw, second⟩ := second b hb
  obtain ⟨here, here', u, hu, run⟩ := run v w hv hw
  exact ⟨u, hu, (first.cons here (second.cons here' yieldsAll_nil)).primitive bound noKeyword run⟩

section Lists

variable (h : m.frames.HasListProcedures frame)
include h

theorem isEmpty (list : Code m frame d (Lists vs) n) :
    Code m frame (call "null?" [d]) (· = .bool vs.isEmpty) n := by
  refine list.primitive h.isEmpty (by decide) ?_
  rintro _ ⟨i, rfl⟩
  exact ⟨rfl, _, rfl, by cases vs <;> rfl⟩

theorem hasLength (list : Code m frame d (Lists vs) n) (k : Nat) :
    Code m frame (call "=" [call "length" [d], .int k]) (· = .bool (decide (vs.length = k))) n := by
  have length : Code m frame (call "length" [d]) (· = .int vs.length) n := by
    refine list.primitive h.length (by decide) ?_
    rintro _ ⟨i, rfl⟩
    exact ⟨rfl, _, rfl, rfl⟩
  have constant : Code n frame (.int k) (· = .int k) n := by
    intro e written
    rw [writes_int_iff.mp written]
    exact ⟨.int k, rfl, yields_int k⟩
  have compared : Comparison.equal.chain [.int vs.length, .int k] = decide (vs.length = k) := by
    rw [Bool.eq_iff_iff, decide_eq_true_iff, ← Int.ofNat_inj]
    simp [Comparison.chain, Comparison.holds, Number.compare?]
  refine length.primitive₂ constant h.equal (by decide) ?_
  rintro _ _ rfl rfl
  exact ⟨rfl, rfl, _, congrArg Value.bool compared, rfl⟩

theorem car (list : Code m frame d (Lists (v :: vs)) n) : Code m frame (call "car" [d]) (· = v) n := by
  refine list.primitive h.car (by decide) ?_
  rintro _ ⟨i, rfl⟩
  exact ⟨rfl, _, rfl, rfl⟩

theorem cdr (list : Code m frame d (Lists (v :: vs)) n) : Code m frame (call "cdr" [d]) (Lists vs) (n.made 1) := by
  refine list.primitive h.cdr (by decide) ?_
  rintro _ ⟨i, rfl⟩
  exact ⟨rfl, _, ⟨_, rfl⟩, rfl⟩

/-- A list appended to an empty one is copied. -/
theorem append (list : Code m frame d (Lists vs) n) :
    Code m frame (call "append" [d, Datum.quoted (.list [])]) (Lists vs) (n.made 1) := by
  have empty : Code n frame (Datum.quoted (.list [])) (Lists []) n := quoted fun v written => by
    obtain ⟨i, _, rfl, items⟩ := writes_list_iff.mp written
    exact ⟨i, by rw [writesAll_nil_iff.mp items]⟩
  refine list.primitive₂ empty h.append (by decide) ?_
  rintro _ _ ⟨i, rfl⟩ ⟨j, rfl⟩
  refine ⟨rfl, rfl, _, ⟨n.nextObject, rfl⟩, ?_⟩
  change outcome (newList [vs, []].flatten) n = _
  simp [Machine.made]

end Lists

end Code

/-! ## The application of a transformer -/

/-- Whether a value is a closure of the root frame that takes its operands as one list, with a body written as
the datum. -/
def Value.isTransformer (parameter : String) (code : Datum) : Value → Bool
  | .closure _ (.symbol name) body home => name == parameter && home == Machine.root && code.writes body
  | _ => false

theorem Value.isTransformer_iff {parameter : String} {code : Datum} {t : Value} :
    t.isTransformer parameter code = true ↔
      ∃ i body, t = .closure i (.symbol parameter) body Machine.root ∧ code.writes body = true := by
  constructor
  · intro h
    unfold isTransformer at h
    split at h
    · rename_i i _ body _
      simp only [Bool.and_eq_true, beq_iff_eq] at h
      obtain ⟨⟨rfl, rfl⟩, written⟩ := h
      exact ⟨i, body, rfl, written⟩
    · cases h
  · rintro ⟨i, body, rfl, written⟩
    simp [isTransformer, written]

/-- The state in which the body of such a closure is evaluated. -/
def Machine.called (m : Machine) (parameter : String) (operands : List Value) : Machine :=
  { m with
    frames := (m.frames.new [.ofName parameter (.list m.nextObject operands)] (some root)).2
    nextObject := m.nextObject + 1 }

/-- The root frame is there, and each frame is enclosed by an earlier one. -/
structure Machine.Founded (m : Machine) : Prop where
  exists_ : root < m.frames.all.size
  ordered : m.frames.Ordered

theorem Machine.Rooted.founded (h : m.Rooted) : m.Founded :=
  ⟨h.exists_, h.ordered⟩

namespace Machine.Founded

variable (h : m.Founded) (parameter : String) (operands : List Value)
include h

theorem called : (m.called parameter operands).Founded where
  exists_ := by
    change root < (m.frames.new _ _).2.all.size
    rw [Frames.size_new]
    exact Nat.lt_succ_of_lt h.exists_
  ordered := h.ordered.new _ h.exists_

theorem lookup?_parameter :
    (m.called parameter operands).frames.lookup? m.frames.all.size (.name parameter) =
      some (.list m.nextObject operands) := by
  refine (h.ordered.lookup?_new _ h.exists_ _).trans ?_
  simp [Binding.ofName, Bindings.binds, Bindings.get?]

theorem lookup?_other (different : name ≠ parameter) :
    (m.called parameter operands).frames.lookup? m.frames.all.size (.name name) =
      m.frames.lookup? root (.name name) := by
  refine (h.ordered.lookup?_new _ h.exists_ _).trans ?_
  simp [Binding.ofName, Bindings.binds, different.symm]

/-- The list procedures have their meaning in the body when they have it at the root. -/
theorem hasListProcedures (procedures : m.frames.HasListProcedures root)
    (free : parameter ∉ ["null?", "=", "length", "car", "cdr", "cons", "append"]) :
    (m.called parameter operands).frames.HasListProcedures m.frames.all.size := by
  have kept {name : String} (mem : name ∈ ["null?", "=", "length", "car", "cdr", "cons", "append"]) :
      (m.called parameter operands).frames.lookup? m.frames.all.size (.name name) =
        m.frames.lookup? root (.name name) :=
    h.lookup?_other parameter operands fun same => free (same ▸ mem)
  exact ⟨(kept (by simp)).trans procedures.isEmpty, (kept (by simp)).trans procedures.equal,
    (kept (by simp)).trans procedures.length, (kept (by simp)).trans procedures.car,
    (kept (by simp)).trans procedures.cdr, (kept (by simp)).trans procedures.cons,
    (kept (by simp)).trans procedures.append⟩

end Machine.Founded

/-- The application of a transformer is the evaluation of its body. -/
theorem settles_apply_of_yields {body v : Value} {parameter : String} {es : List Value}
    (yields : Yields (m.called parameter es) m.frames.all.size body v n) :
    Settles (fun fuel room => apply fuel room (.closure i (.symbol parameter) body Machine.root) es frame) m
      (.ok v, n) := by
  obtain ⟨fuel, room, ends, conclusive⟩ := yields
  exact ⟨fuel + 1, room + 1, ends, conclusive⟩

/-! ## What the transformers make -/

open Datum (call quoted)
open Value (Lists ListsEach)

/-- What a template makes of a list of parts. -/
def Datum.listed : List Datum → Datum
  | [] => quoted (.list [])
  | d :: ds => call "cons" [d, listed ds]

/-- What a template makes of a form with one head and all operands but the first. -/
def Datum.spliced (head parameter : String) : Datum :=
  call "cons" [quoted (.symbol head),
    call "append" [call "cdr" [.symbol parameter], quoted (.list [])]]

/-- The body of a transformer with forms of its own for no operand and for one. -/
def Datum.byLength (empty longer : Datum) : Datum :=
  call "if" [call "null?" [.symbol "args"], empty,
    call "if" [call "=" [call "length" [.symbol "args"], .int 1], call "car" [.symbol "args"], longer]]

def conjunctionCode : Datum :=
  .byLength (.bool true)
    (.listed [quoted (.symbol "if"), call "car" [.symbol "args"], .spliced "and" "args", quoted (.bool false)])

def disjunctionCode : Datum :=
  .byLength (.bool false)
    (.listed [quoted (.symbol "let"),
      .listed [.listed [quoted (.symbol "or-value"), call "car" [.symbol "args"]]],
      .listed [quoted (.symbol "if"), quoted (.symbol "or-value"), quoted (.symbol "or-value"),
        .spliced "or" "args"]])

def onTrueCode : Datum :=
  .listed [quoted (.symbol "if"), call "car" [.symbol "form"], .spliced "begin" "form"]

def onFalseCode : Datum :=
  .listed [quoted (.symbol "if"), .listed [quoted (.symbol "not"), call "car" [.symbol "form"]],
    .spliced "begin" "form"]

namespace Code

variable {d : Datum} {ds : List Datum} {P : Value → Prop} {Ps : List (Value → Prop)} {v : Value} {vs : List Value}

theorem listed_nil : Code m frame (.listed []) (ListsEach []) m := quoted fun v written => by
  obtain ⟨i, _, rfl, items⟩ := Datum.writes_list_iff.mp written
  exact ⟨i, [], by rw [Datum.writesAll_nil_iff.mp items], .nil⟩

section Lists

variable (h : m.frames.HasListProcedures frame)
include h

/-- A list is made from its parts, the last one first. -/
theorem listed_cons (first : Code m frame d P n) (here : ∀ v, P v → v.isEscape = false)
    (rest : Code n frame (.listed ds) (ListsEach Ps) l) :
    Code m frame (.listed (d :: ds)) (ListsEach (P :: Ps)) (l.made 1) := by
  refine first.primitive₂ rest h.cons (by decide) ?_
  rintro v _ hv ⟨i, vs, rfl, hvs⟩
  exact ⟨here v hv, rfl, _, ⟨l.nextObject, v :: vs, rfl, .cons hv hvs⟩, rfl⟩

theorem spliced (head : String) {parameter : String}
    (bound : m.frames.lookup? frame (.name parameter) = some (.list i (v :: vs))) :
    Code m frame (.spliced head parameter) (Lists (.symbol head :: vs)) (m.made 3) := by
  have operands : Code m frame (.symbol parameter) (Lists (v :: vs)) m := fun e written => by
    obtain ⟨_, rfl, yields⟩ := symbol bound e written
    exact ⟨_, ⟨i, rfl⟩, yields⟩
  have tail := append h (cdr h operands)
  refine (quoted_symbol head).primitive₂ tail h.cons (by decide) ?_
  rintro _ _ rfl ⟨j, rfl⟩
  exact ⟨rfl, rfl, _, ⟨_, rfl⟩, rfl⟩

end Lists

end Code

/-- What the prelude registers, and the primitive that `let` is at first. -/
structure Machine.HasPrelude (m : Machine) : Prop where
  conjunction : (m.transformers.get? (.name "and")).any (Value.isTransformer "args" conjunctionCode) = true
  disjunction : (m.transformers.get? (.name "or")).any (Value.isTransformer "args" disjunctionCode) = true
  onTrue : (m.transformers.get? (.name "when")).any (Value.isTransformer "form" onTrueCode) = true
  onFalse : (m.transformers.get? (.name "unless")).any (Value.isTransformer "form" onFalseCode) = true
  binding : (m.transformers.get? (.name "let")).any (Value.same (.primitive .expandLet)) = true

/-- The use of a transformer gives a form with a property, and a state with some more lists. -/
def Machine.UseGives (m : Machine) (t : Value) (parameter : String) (es : List Value) (P : Value → Prop)
    (count : Nat) : Prop :=
  ∃ v, P v ∧ Settles (fun fuel room => apply fuel room t es Machine.root) m
    (.ok v, (m.called parameter es).made count)

section Uses

variable {t e e' : Value} {es : List Value} {parameter : String}

theorem useGives_of_code {code : Datum} {P : Value → Prop} {count : Nat}
    (ht : t.isTransformer parameter code = true)
    (run : Code (m.called parameter es) m.frames.all.size code P ((m.called parameter es).made count)) :
    m.UseGives t parameter es P count := by
  obtain ⟨i, body, rfl, written⟩ := Value.isTransformer_iff.mp ht
  obtain ⟨v, hv, yields⟩ := run body written
  exact ⟨v, hv, settles_apply_of_yields yields⟩

theorem not_escape_of_eq {v : Value} (here : v.isEscape = false) (u : Value) (h : u = v) : u.isEscape = false :=
  h ▸ here

theorem not_escape_of_listsEach {Ps : List (Value → Prop)} (u : Value) (h : ListsEach Ps u) :
    u.isEscape = false := by
  obtain ⟨i, vs, rfl, _⟩ := h
  rfl

theorem not_escape_of_lists {vs : List Value} (u : Value) (h : Lists vs u) : u.isEscape = false := by
  obtain ⟨i, rfl⟩ := h
  rfl

variable (founded : m.Founded)
include founded

/-- The parameter stands for the operands. -/
theorem Code.operands (parameter : String) (es : List Value) :
    Code (m.called parameter es) m.frames.all.size (.symbol parameter) (Lists es) (m.called parameter es) := by
  intro e written
  obtain ⟨_, rfl, yields⟩ := Code.symbol (founded.lookup?_parameter parameter es) e written
  exact ⟨_, ⟨_, rfl⟩, yields⟩

variable (procedures : m.frames.HasListProcedures Machine.root)
include procedures

/-- With no operand there is no template. -/
theorem useGives_none {b : Bool} {longer : Datum} (ht : t.isTransformer "args" (.byLength (.bool b) longer) = true) :
    m.UseGives t "args" [] (· = .bool b) 0 := by
  have lists := founded.hasListProcedures "args" [] procedures (by decide)
  exact useGives_of_code ht (.test ((Code.operands founded "args" []).isEmpty lists) (.bool b))

/-- One operand is taken as it is. -/
theorem useGives_one {empty longer : Datum} (ht : t.isTransformer "args" (.byLength empty longer) = true) :
    m.UseGives t "args" [e] (· = e) 0 := by
  have lists := founded.hasListProcedures "args" [e] procedures (by decide)
  have operands := Code.operands founded "args" [e]
  exact useGives_of_code ht (.test (operands.isEmpty lists) (.test (operands.hasLength lists 1) (operands.car lists)))

/-- From two operands on the template is filled in. -/
theorem useGives_more {empty longer : Datum} {P : Value → Prop} {count : Nat}
    (ht : t.isTransformer "args" (.byLength empty longer) = true)
    (run : Code (m.called "args" (e :: e' :: es)) m.frames.all.size longer P
      ((m.called "args" (e :: e' :: es)).made count)) :
    m.UseGives t "args" (e :: e' :: es) P count := by
  have lists := founded.hasListProcedures "args" (e :: e' :: es) procedures (by decide)
  have operands := Code.operands founded "args" (e :: e' :: es)
  refine useGives_of_code ht (.test (operands.isEmpty lists) (.test (operands.hasLength lists 1) ?_))
  have notOne : (e :: e' :: es).length ≠ 1 := by simp
  simpa [notOne] using run

variable (form : e.isEscape = false)
include form

/-- `(and e es ...)` becomes `(if e (and es ...) #f)`. -/
theorem useGives_conjunction (ht : t.isTransformer "args" conjunctionCode = true) :
    m.UseGives t "args" (e :: e' :: es) (ListsEach [(· = .symbol "if"), (· = e),
      Lists (.symbol "and" :: e' :: es), (· = .bool false)]) 7 := by
  refine useGives_more founded procedures ht ?_
  have lists := founded.hasListProcedures "args" (e :: e' :: es) procedures (by decide)
  have operands := Code.operands founded "args" (e :: e' :: es)
  have rest := Code.spliced lists "and" (founded.lookup?_parameter "args" (e :: e' :: es))
  have alternative : Code ((m.called "args" (e :: e' :: es)).made 3) m.frames.all.size (quoted (.bool false))
      (· = .bool false) ((m.called "args" (e :: e' :: es)).made 3) :=
    .quoted fun _ => Datum.writes_bool_iff.mp
  have made := Code.listed_cons lists (.quoted_symbol "if") (not_escape_of_eq rfl) <|
    Code.listed_cons lists (operands.car lists) (not_escape_of_eq form) <|
    Code.listed_cons lists rest not_escape_of_lists <|
    Code.listed_cons lists alternative (not_escape_of_eq rfl) Code.listed_nil
  simp only [Machine.made_made] at made
  exact made

/-- `(or e es ...)` becomes `(let ((or-value e)) (if or-value or-value (or es ...)))`. -/
theorem useGives_disjunction (ht : t.isTransformer "args" disjunctionCode = true) :
    m.UseGives t "args" (e :: e' :: es) (ListsEach [(· = .symbol "let"),
      ListsEach [ListsEach [(· = .symbol "or-value"), (· = e)]],
      ListsEach [(· = .symbol "if"), (· = .symbol "or-value"), (· = .symbol "or-value"),
        Lists (.symbol "or" :: e' :: es)]]) 13 := by
  refine useGives_more founded procedures ht ?_
  have lists := founded.hasListProcedures "args" (e :: e' :: es) procedures (by decide)
  have operands := Code.operands founded "args" (e :: e' :: es)
  have binding := Code.listed_cons lists (.quoted_symbol "or-value") (not_escape_of_eq rfl) <|
    Code.listed_cons lists (operands.car lists) (not_escape_of_eq form) Code.listed_nil
  have bindings := Code.listed_cons lists binding not_escape_of_listsEach Code.listed_nil
  have rest := Code.spliced (m := (m.called "args" (e :: e' :: es)).made 3) lists "or"
    (founded.lookup?_parameter "args" (e :: e' :: es))
  have test := Code.listed_cons (m := (m.called "args" (e :: e' :: es)).made 3) lists (.quoted_symbol "if")
      (not_escape_of_eq rfl) <|
    Code.listed_cons lists (.quoted_symbol "or-value") (not_escape_of_eq rfl) <|
    Code.listed_cons lists (.quoted_symbol "or-value") (not_escape_of_eq rfl) <|
    Code.listed_cons lists rest not_escape_of_lists Code.listed_nil
  have made := Code.listed_cons lists (.quoted_symbol "let") (not_escape_of_eq rfl) <|
    Code.listed_cons lists bindings not_escape_of_listsEach <|
    Code.listed_cons lists test not_escape_of_listsEach Code.listed_nil
  simp only [Machine.made_made] at made
  exact made

/-- `(when e es ...)` becomes `(if e (begin es ...))`. -/
theorem useGives_onTrue (ht : t.isTransformer "form" onTrueCode = true) :
    m.UseGives t "form" (e :: es) (ListsEach [(· = .symbol "if"), (· = e), Lists (.symbol "begin" :: es)]) 6 := by
  refine useGives_of_code ht ?_
  have lists := founded.hasListProcedures "form" (e :: es) procedures (by decide)
  have operands := Code.operands founded "form" (e :: es)
  have rest := Code.spliced lists "begin" (founded.lookup?_parameter "form" (e :: es))
  have made := Code.listed_cons lists (.quoted_symbol "if") (not_escape_of_eq rfl) <|
    Code.listed_cons lists (operands.car lists) (not_escape_of_eq form) <|
    Code.listed_cons lists rest not_escape_of_lists Code.listed_nil
  simp only [Machine.made_made] at made
  exact made

/-- `(unless e es ...)` becomes `(if (not e) (begin es ...))`. -/
theorem useGives_onFalse (ht : t.isTransformer "form" onFalseCode = true) :
    m.UseGives t "form" (e :: es) (ListsEach [(· = .symbol "if"), ListsEach [(· = .symbol "not"), (· = e)],
      Lists (.symbol "begin" :: es)]) 8 := by
  refine useGives_of_code ht ?_
  have lists := founded.hasListProcedures "form" (e :: es) procedures (by decide)
  have operands := Code.operands founded "form" (e :: es)
  have negated := Code.listed_cons lists (.quoted_symbol "not") (not_escape_of_eq rfl) <|
    Code.listed_cons lists (operands.car lists) (not_escape_of_eq form) Code.listed_nil
  have rest := Code.spliced (m := (m.called "form" (e :: es)).made 2) lists "begin"
    (founded.lookup?_parameter "form" (e :: es))
  have made := Code.listed_cons lists (.quoted_symbol "if") (not_escape_of_eq rfl) <|
    Code.listed_cons lists negated not_escape_of_listsEach <|
    Code.listed_cons lists rest not_escape_of_lists Code.listed_nil
  simp only [Machine.made_made] at made
  exact made

end Uses

end SmallLisp
