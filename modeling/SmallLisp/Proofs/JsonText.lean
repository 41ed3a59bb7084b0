import Mathlib.Data.List.Chain
import Mathlib.Data.List.Forall2
import SmallLisp.Json.Reader
import SmallLisp.Json.Writer
import SmallLisp.Repl
/-!
# Reading back what was written

A JSON text is read back as the value it was written for, up to one thing: a string is written by its
UTF-16 units, and a high surrogate that stands alone before a low one that stands alone is read as the
character of the two. The strings are compared as sequences of units, of which the text spells one after the
other; arrays and objects are read back because their parts are, whatever text follows them.
-/
namespace SmallLisp

namespace Text

/-- The UTF-16 units of code points, one after the other. -/
def unitsOf (ps : List CodePoint) : List Nat :=
  ps.flatMap CodePoint.units

/-- The code points of a sequence of units: a high surrogate joins a low one after it. -/
def ofUnits : List Nat → List CodePoint
  | [] => []
  | [unit] => [.ofUnit unit]
  | high :: low :: rest =>
    if isHighSurrogate high && isLowSurrogate low then .char (joinSurrogates high low) :: ofUnits rest
    else .ofUnit high :: ofUnits (low :: rest)

/-- A text as it is read back: its surrogates joined where they can be. -/
def joined (s : String) : String :=
  ofPoints (ofUnits (unitsOf (points s)))

/-- A character is no surrogate. -/
theorem toNat_bounds (c : Char) : c.toNat < 0xd800 ∨ 0xdfff < c.toNat ∧ c.toNat < 0x110000 := by
  have valid := c.valid
  simpa only [UInt32.isValidChar, Nat.isValidChar, Char.toNat_val] using valid

theorem isHighSurrogate_toNat (c : Char) : isHighSurrogate c.toNat = false := by
  have bounds := toNat_bounds c
  simp only [isHighSurrogate, Bool.and_eq_false_iff, decide_eq_false_iff_not]
  omega

theorem isLowSurrogate_toNat (c : Char) : isLowSurrogate c.toNat = false := by
  have bounds := toNat_bounds c
  simp only [isLowSurrogate, Bool.and_eq_false_iff, decide_eq_false_iff_not]
  omega

theorem CodePoint.ofUnit_toNat (c : Char) : CodePoint.ofUnit c.toNat = .char c := by
  unfold CodePoint.ofUnit
  rw [isHighSurrogate_toNat, isLowSurrogate_toNat, Char.ofNat_toNat]
  rfl

theorem ofUnits_of_not_high {unit : Nat} (h : isHighSurrogate unit = false) (rest : List Nat) :
    ofUnits (unit :: rest) = .ofUnit unit :: ofUnits rest := by
  cases rest with
  | nil => rfl
  | cons low rest => rw [ofUnits, h, Bool.false_and, if_neg Bool.false_ne_true]

theorem ofUnits_of_not_low {low : Nat} (high : Nat) (h : isLowSurrogate low = false) (rest : List Nat) :
    ofUnits (high :: low :: rest) = .ofUnit high :: ofUnits (low :: rest) := by
  rw [ofUnits, h, Bool.and_false, if_neg Bool.false_ne_true]

/-- The units of a character are read as that character. -/
theorem ofUnits_units (c : Char) (rest : List Nat) :
    ofUnits ((CodePoint.char c).units ++ rest) = .char c :: ofUnits rest := by
  unfold CodePoint.units CodePoint.code
  dsimp only
  split
  · rw [List.singleton_append, ofUnits_of_not_high (isHighSurrogate_toNat c), CodePoint.ofUnit_toNat]
  · rename_i large
    have bounds := toNat_bounds c
    have high : isHighSurrogate (0xd800 + (c.toNat - 0x10000) / 0x400) = true := by
      simp only [isHighSurrogate, Bool.and_eq_true, decide_eq_true_eq]
      omega
    have low : isLowSurrogate (0xdc00 + (c.toNat - 0x10000) % 0x400) = true := by
      simp only [isLowSurrogate, Bool.and_eq_true, decide_eq_true_eq]
      omega
    have whole : 0x10000 + (0xd800 + (c.toNat - 0x10000) / 0x400 - 0xd800) * 0x400 +
        (0xdc00 + (c.toNat - 0x10000) % 0x400 - 0xdc00) = c.toNat := by omega
    have same : joinSurrogates (0xd800 + (c.toNat - 0x10000) / 0x400)
        (0xdc00 + (c.toNat - 0x10000) % 0x400) = c := by
      unfold joinSurrogates
      rw [whole, Char.ofNat_toNat]
    rw [List.cons_append, List.singleton_append, ofUnits, high, low, Bool.and_self, if_pos rfl, same]

theorem CodePoint.code_lt (p : CodePoint) : p.code < 0x110000 := by
  cases p with
  | char c =>
    have bounds := toNat_bounds c
    change c.toNat < 0x110000
    omega
  | surrogate n =>
    have small := n.isLt
    change 0xd800 + n.val < 0x110000
    omega

theorem CodePoint.units_lt (p : CodePoint) : ∀ unit ∈ p.units, unit < 0x10000 := by
  have bound := p.code_lt
  intro unit mem
  unfold CodePoint.units at mem
  split at mem
  · rw [List.mem_singleton] at mem
    omega
  · simp only [List.mem_cons, List.not_mem_nil, or_false] at mem
    omega

theorem CodePoint.ofUnit_surrogate (n : Fin 0x800) : CodePoint.ofUnit (0xd800 + n) = .surrogate n := by
  have small := n.isLt
  have half : (isHighSurrogate (0xd800 + n) || isLowSurrogate (0xd800 + n)) = true := by
    simp only [isHighSurrogate, isLowSurrogate, Bool.or_eq_true, Bool.and_eq_true, decide_eq_true_eq]
    omega
  rw [CodePoint.ofUnit, if_pos half, Nat.add_sub_cancel_left, Fin.ofNat_val_eq_self]

/-- The first unit of a point is a low surrogate just if the point is one. -/
theorem CodePoint.units_eq_cons (p : CodePoint) :
    ∃ unit more, p.units = unit :: more ∧ isLowSurrogate unit = isLowSurrogate p.code := by
  have bound := p.code_lt
  unfold CodePoint.units
  split
  · exact ⟨p.code, [], rfl, rfl⟩
  · refine ⟨_, _, rfl, ?_⟩
    have high : isLowSurrogate (0xd800 + (p.code - 0x10000) / 0x400) = false := by
      simp only [isLowSurrogate, Bool.and_eq_false_iff, decide_eq_false_iff_not]
      omega
    have large : isLowSurrogate p.code = false := by
      simp only [isLowSurrogate, Bool.and_eq_false_iff, decide_eq_false_iff_not]
      omega
    rw [high, large]

/-- A surrogate is read alone unless it is a high one before a low one. -/
theorem ofUnits_surrogate (n : Fin 0x800) {ps : List CodePoint}
    (h : ∀ q ∈ ps.head?, isHighSurrogate (CodePoint.surrogate n).code = false ∨ isLowSurrogate q.code = false) :
    ofUnits ((CodePoint.surrogate n).units ++ unitsOf ps) = .surrogate n :: ofUnits (unitsOf ps) := by
  have small : (CodePoint.surrogate n).code < 0x10000 := by
    have bound := n.isLt
    change 0xd800 + n.val < 0x10000
    omega
  have unit : (CodePoint.surrogate n).units = [(CodePoint.surrogate n).code] := if_pos small
  have alone : CodePoint.ofUnit (CodePoint.surrogate n).code = .surrogate n := CodePoint.ofUnit_surrogate n
  rw [unit, List.singleton_append]
  cases ps with
  | nil => exact congrArg (· :: []) alone
  | cons q ps =>
    obtain ⟨next, more, units, low⟩ := q.units_eq_cons
    have next : unitsOf (q :: ps) = next :: (more ++ unitsOf ps) := by
      rw [unitsOf, List.flatMap_cons, units]
      rfl
    rcases h q rfl with notHigh | notLow
    · rw [ofUnits_of_not_high notHigh, alone]
    · rw [next, ofUnits_of_not_low _ (low.trans notLow), alone]

/-- No high surrogate stands right before a low one. -/
def NoSplitPair (ps : List CodePoint) : Prop :=
  ps.IsChain fun p q => isHighSurrogate p.code = false ∨ isLowSurrogate q.code = false

/-- A text is read back as it is where no high surrogate stands right before a low one. -/
theorem joined_ofPoints {ps : List CodePoint} (h : NoSplitPair ps) : joined (ofPoints ps) = ofPoints ps := by
  have same : ofUnits (unitsOf ps) = ps := by
    induction ps with
    | nil => rfl
    | cons p ps ih =>
      obtain ⟨apart, later⟩ := List.isChain_cons.mp h
      rw [unitsOf, List.flatMap_cons, ← unitsOf]
      cases p with
      | char c => rw [ofUnits_units, ih later]
      | surrogate n => rw [ofUnits_surrogate n apart, ih later]
  rw [joined, points_ofPoints, same]

/-- Two halves that stand one after the other are read as one character, and the characters that spell them
are not. -/
example : joined (ofPoints [.ofUnit 0xd83d, .ofUnit 0xde00]) = "😀" ∧
    joined (ofPoints [.char (Char.ofNat 0xdd83d), .char (Char.ofNat 0xdde00)]) =
      ofPoints [.char (Char.ofNat 0xdd83d), .char (Char.ofNat 0xdde00)] := by decide

end Text

/-- A response as it is read back. -/
def Repl.Response.joined (r : Repl.Response) : Repl.Response :=
  ⟨match r.result with
    | .ok text => .ok (Text.joined text)
    | .error text => .error (Text.joined text), r.output.map Text.joined⟩

namespace Json

open Text

/-! ## Strings -/

/-- A unit is written with four hexadecimal digits. -/
theorem toList_hexDigits {n : Nat} (h : n < 0x10000) : (Utf8.hexDigits 4 n).toList =
    [Nat.digitChar (n / 16 / 16 / 16), Nat.digitChar (n / 16 / 16 % 16), Nat.digitChar (n / 16 % 16),
      Nat.digitChar (n % 16)] := by
  have last (width n : Nat) : (Utf8.hexDigits (width + 2) n).toList =
      (Utf8.hexDigits (width + 1) (n / 16)).toList ++ [Nat.digitChar (n % 16)] := by
    simp only [Utf8.hexDigits, String.toList_ofList]
    by_cases small : n < 16
    · rw [Nat.toDigits_of_lt_base small, Nat.div_eq_of_lt small, Nat.mod_eq_of_lt small]
      have zero : Nat.toDigits 16 0 = ['0'] := rfl
      rw [zero]
      simp [List.replicate_succ']
    · rw [Nat.toDigits_of_base_le (by decide) (by omega)]
      simp
  have first {n : Nat} (h : n < 16) : (Utf8.hexDigits 1 n).toList = [Nat.digitChar n] := by
    simp [Utf8.hexDigits, Nat.toDigits_of_lt_base h]
  rw [last, last, last, first (by omega)]
  rfl

theorem hexValue?_digitChar : ∀ n < 16, hexValue? (Nat.digitChar n) = some n := by decide

theorem codeUnit?_unitEscape {n : Nat} (h : n < 0x10000) {rest : List Char} (follows : rest ≠ []) :
    codeUnit? ((Utf8.hexDigits 4 n).toList ++ rest) = some n := by
  obtain ⟨c, rest, rfl⟩ := List.exists_cons_of_ne_nil follows
  rw [toList_hexDigits h]
  have value : ((n / 16 / 16 / 16 * 16 + n / 16 / 16 % 16) * 16 + n / 16 % 16) * 16 + n % 16 = n := by
    omega
  have digit (k : Nat) := hexValue?_digitChar (k % 16) (Nat.mod_lt k (by decide))
  simp only [List.cons_append, List.nil_append, codeUnit?, hexValue?_digitChar (n / 16 / 16 / 16) (by omega),
    digit]
  exact congrArg some value

/-- A text that spells units one after the other: a printable character, a short escape, or an escape by
the unit itself. -/
inductive Spells : List Nat → List Char → Prop where
  | nil : Spells [] []
  | plain {c : Char} {units : List Nat} {text : List Char} (printable : 0x20 ≤ c.toNat)
      (notQuote : c ≠ '"') (notEscape : c ≠ '\\') (rest : Spells units text) :
      Spells (c.toNat :: units) (c :: text)
  | short {c e : Char} {units : List Nat} {text : List Char} (known : simpleEscape? e = some c)
      (rest : Spells units text) : Spells (c.toNat :: units) ('\\' :: e :: text)
  | unit {n : Nat} {units : List Nat} {text : List Char} (small : n < 0x10000)
      (rest : Spells units text) : Spells (n :: units) (unitEscape n ++ text)

theorem Spells.escapes {ns us : List Nat} {text : List Char} (small : ∀ n ∈ ns, n < 0x10000)
    (rest : Spells us text) : Spells (ns ++ us) (ns.flatMap unitEscape ++ text) := by
  induction ns with
  | nil => exact rest
  | cons n ns ih =>
    obtain ⟨first, later⟩ := List.forall_mem_cons.mp small
    rw [List.flatMap_cons, List.append_assoc]
    exact .unit first (ih later)

theorem Spells.pointText (p : CodePoint) {us : List Nat} {text : List Char} (rest : Spells us text) :
    Spells (p.units ++ us) (pointText p ++ text) := by
  unfold Json.pointText
  split
  · exact .short (c := '"') rfl rest
  · exact .short (c := '\\') rfl rest
  · exact .short (c := '\n') rfl rest
  · exact .short (c := '\r') rfl rest
  · exact .short (c := '\t') rfl rest
  · exact .short (c := '\x08') rfl rest
  · exact .short (c := '\x0c') rfl rest
  · rename_i c notQuote notEscape _ _ _ _ _
    split
    · rename_i printable
      have unit : (CodePoint.char c).units = [c.toNat] := if_pos (by change c.toNat < 0x10000; omega)
      rw [unit]
      exact .plain printable.1 notQuote notEscape rest
    · exact .escapes (CodePoint.units_lt _) rest
  · exact .escapes (CodePoint.units_lt _) rest

theorem spells_text (ps : List CodePoint) : Spells (unitsOf ps) (ps.flatMap pointText) := by
  induction ps with
  | nil => exact .nil
  | cons p ps ih => exact ih.pointText p

theorem length_hexDigits {n : Nat} (small : n < 0x10000) : (Utf8.hexDigits 4 n).toList.length = 4 := by
  rw [toList_hexDigits small]
  rfl

theorem length_unitEscape {n : Nat} (small : n < 0x10000) : (unitEscape n).length = 6 := by
  rw [unitEscape, List.length_cons, List.length_cons, length_hexDigits small]

/-- A unit is read alone unless it is a high surrogate with an escape after it. -/
theorem hexEscape_alone {n : Nat} (small : n < 0x10000) (position : Nat) {rest : List Char}
    (follows : rest ≠ []) (h : isHighSurrogate n = false ∨ ∀ more, rest ≠ '\\' :: 'u' :: more) :
    hexEscape position ((Utf8.hexDigits 4 n).toList ++ rest) = .ok (CodePoint.ofUnit n, 4) := by
  have unread : ((Utf8.hexDigits 4 n).toList ++ rest).drop 4 = rest :=
    List.drop_left' (length_hexDigits small)
  unfold hexEscape
  simp only [codeUnit?_unitEscape small follows, unread]
  cases high : isHighSurrogate n with
  | false => rfl
  | true =>
    have other := h.resolve_left (by rw [high]; exact Bool.noConfusion)
    rw [if_pos rfl]
    split
    · rename_i more
      exact absurd rfl (other more)
    · rfl

/-- A high surrogate is joined with the unit after it if that is a low one. -/
theorem hexEscape_pair {high low : Nat} (small : high < 0x10000) (small' : low < 0x10000)
    (position : Nat) (h : isHighSurrogate high = true) {rest : List Char} (follows : rest ≠ []) :
    hexEscape position ((Utf8.hexDigits 4 high).toList ++ (unitEscape low ++ rest)) =
      .ok (if isLowSurrogate low then (.char (joinSurrogates high low), 10) else (CodePoint.ofUnit high, 4)) := by
  have unread : ((Utf8.hexDigits 4 high).toList ++ (unitEscape low ++ rest)).drop 4 =
      unitEscape low ++ rest := List.drop_left' (length_hexDigits small)
  have more : ¬ ((Utf8.hexDigits 4 low).toList ++ rest).length < 5 := by
    have := List.length_pos_iff.mpr follows
    rw [List.length_append, length_hexDigits small']
    omega
  have first : codeUnit? ((Utf8.hexDigits 4 high).toList ++ (unitEscape low ++ rest)) = some high :=
    codeUnit?_unitEscape small (List.cons_ne_nil _ _)
  unfold hexEscape
  simp only [first, h, if_true, unread]
  simp only [unitEscape, List.cons_append, if_neg more, codeUnit?_unitEscape small' follows]
  split <;> rfl

/-- What an escape by a unit is read as, when other units are spelled after it: the unit alone, or a low
surrogate joined to it. -/
theorem hexEscape_spells {us : List Nat} {text : List Char} (h : Spells us text) {n : Nat}
    (small : n < 0x10000) (position : Nat) (more : List Char) :
    (hexEscape position ((Utf8.hexDigits 4 n).toList ++ (text ++ '"' :: more)) = .ok (CodePoint.ofUnit n, 4) ∧
        ofUnits (n :: us) = CodePoint.ofUnit n :: ofUnits us) ∨
      ∃ low us' text', low < 0x10000 ∧ text = unitEscape low ++ text' ∧ Spells us' text' ∧
        hexEscape position ((Utf8.hexDigits 4 n).toList ++ (text ++ '"' :: more)) =
          .ok (.char (joinSurrogates n low), 10) ∧
        ofUnits (n :: us) = .char (joinSurrogates n low) :: ofUnits us' := by
  have follows (text : List Char) : text ++ '"' :: more ≠ [] :=
    List.append_ne_nil_of_right_ne_nil text (List.cons_ne_nil _ _)
  cases high : isHighSurrogate n with
  | false => exact .inl ⟨hexEscape_alone small _ (follows text) (.inl high), ofUnits_of_not_high high us⟩
  | true =>
    have alone := hexEscape_alone small position (follows text)
    cases h with
    | nil => exact .inl ⟨alone (.inr fun _ same => absurd (List.head_eq_of_cons_eq same) (by decide)), rfl⟩
    | @plain c us text _ _ notEscape _ =>
      exact .inl ⟨alone (.inr fun _ same => notEscape (List.head_eq_of_cons_eq same)),
        ofUnits_of_not_low n (isLowSurrogate_toNat c) us⟩
    | @short c e us text known _ =>
      refine .inl ⟨alone (.inr fun _ same => ?_), ofUnits_of_not_low n (isLowSurrogate_toNat c) us⟩
      have unit : e = 'u' := List.head_eq_of_cons_eq (List.tail_eq_of_cons_eq same)
      rw [unit] at known
      cases known
    | @unit low us text small' rest =>
      have pair : hexEscape position ((Utf8.hexDigits 4 n).toList ++ (unitEscape low ++ text ++ '"' :: more)) =
          .ok (if isLowSurrogate low then (.char (joinSurrogates n low), 10) else (CodePoint.ofUnit n, 4)) := by
        rw [List.append_assoc (unitEscape low)]
        exact hexEscape_pair small small' position high (follows text)
      cases isLow : isLowSurrogate low with
      | false =>
        rw [isLow, if_neg Bool.false_ne_true] at pair
        exact .inl ⟨pair, ofUnits_of_not_low n isLow us⟩
      | true =>
        rw [isLow, if_pos rfl] at pair
        refine .inr ⟨low, us, text, small', rfl, rest, pair, ?_⟩
        rw [ofUnits, high, isLow, Bool.and_self, if_pos rfl]

theorem stringFrom_unit {start fuel position n : Nat} {read : List CodePoint} {p : CodePoint} {rest : List Char}
    (h : hexEscape (position + 1) rest = .ok (p, n)) :
    stringFrom start (fuel + 1) read ⟨position, '\\' :: 'u' :: rest⟩ =
      stringFrom start fuel (p :: read) ⟨position + (n + 2), rest.drop n⟩ := by
  simp only [stringFrom, h]
  rfl

theorem stringFrom_short {start fuel position : Nat} {read : List CodePoint} {c e : Char} {rest : List Char}
    (h : simpleEscape? e = some c) :
    stringFrom start (fuel + 1) read ⟨position, '\\' :: e :: rest⟩ =
      stringFrom start fuel (.char c :: read) ⟨position + 2, rest⟩ := by
  have notUnit : e ≠ 'u' := by
    rintro rfl
    cases h
  simp only [stringFrom, h]
  rfl

theorem stringFrom_plain {start fuel position : Nat} {read : List CodePoint} {c : Char} {rest : List Char}
    (printable : 0x20 ≤ c.toNat) (notQuote : c ≠ '"') (notEscape : c ≠ '\\') :
    stringFrom start (fuel + 1) read ⟨position, c :: rest⟩ =
      stringFrom start fuel (.char c :: read) ⟨position + 1, rest⟩ := by
  have notControl : ¬ c.toNat < 0x20 := by omega
  rw [stringFrom]
  split <;> rename_i shape
  · cases shape
  · cases shape
    exact absurd rfl notQuote
  · cases shape
    exact absurd rfl notEscape
  · cases shape
    exact absurd rfl notEscape
  · cases shape
    exact absurd rfl notEscape
  · cases shape
    rw [if_neg notControl]
    rfl

/-- The string that spells these units is read up to its closing quote. -/
theorem stringFrom_spells {start fuel : Nat} {us : List Nat} {text : List Char}
    (h : Spells us text) (position : Nat) (read : List CodePoint) (more : List Char) (enough : text.length < fuel) :
    ∃ q, stringFrom start fuel read ⟨position, text ++ '"' :: more⟩ =
      .ok (ofPoints (read.reverse ++ ofUnits us), ⟨q, more⟩) := by
  induction fuel generalizing position us text read with
  | zero => exact absurd enough (Nat.not_lt_zero _)
  | succ fuel ih =>
    have goOn {us : List Nat} {text : List Char} (p : CodePoint) {position : Nat} (rest : Spells us text)
        (enough : text.length < fuel) : ∃ q, stringFrom start fuel (p :: read)
          ⟨position, text ++ '"' :: more⟩ =
            .ok (ofPoints (read.reverse ++ p :: ofUnits us), ⟨q, more⟩) := by
      have given := ih rest position (p :: read) enough
      rwa [List.reverse_cons, List.append_assoc, List.singleton_append] at given
    cases h with
    | nil => exact ⟨position + 1, by rw [ofUnits, List.append_nil]; rfl⟩
    | @plain c us text printable notQuote notEscape rest =>
      rw [List.cons_append, stringFrom_plain printable notQuote notEscape,
        ofUnits_of_not_high (isHighSurrogate_toNat c), CodePoint.ofUnit_toNat]
      exact goOn (.char c) rest (Nat.lt_of_succ_lt_succ enough)
    | @short c e us text known rest =>
      rw [List.cons_append, List.cons_append, stringFrom_short known,
        ofUnits_of_not_high (isHighSurrogate_toNat c), CodePoint.ofUnit_toNat]
      exact goOn (.char c) rest (by simp at enough; omega)
    | @unit n us text small rest =>
      rw [List.length_append, length_unitEscape small] at enough
      rw [List.append_assoc]
      change ∃ q, stringFrom start (fuel + 1) read
        ⟨position, '\\' :: 'u' :: ((Utf8.hexDigits 4 n).toList ++ (text ++ '"' :: more))⟩ = _
      rcases hexEscape_spells rest small (position + 1) more with
        ⟨escape, units⟩ | ⟨low, us', text', small', rfl, rest', escape, units⟩
      · rw [stringFrom_unit escape, List.drop_left' (length_hexDigits small), units]
        exact goOn (.ofUnit n) rest (by omega)
      · rw [List.length_append, length_unitEscape small'] at enough
        have both : ((Utf8.hexDigits 4 n).toList ++ (unitEscape low ++ text' ++ '"' :: more)).drop 10 =
            text' ++ '"' :: more := by
          rw [List.append_assoc, ← List.append_assoc]
          refine List.drop_left' ?_
          rw [List.length_append, length_hexDigits small, length_unitEscape small']
        rw [stringFrom_unit escape, both, units]
        exact goOn (.char (joinSurrogates n low)) rest' (by omega)

theorem toList_stringText (s : String) : (stringText s).toList =
    '"' :: ((points s).flatMap pointText ++ ['"']) :=
  String.toList_ofList

theorem length_stringText_pos (s : String) : 0 < (stringText s).toList.length := by
  rw [toList_stringText]
  exact Nat.succ_pos _

/-- The text of a string is read back from its opening quote on. -/
theorem stringFrom_text (position : Nat) (s : String) (more : List Char) :
    ∃ rest q, (stringText s).toList ++ more = '"' :: rest ∧
      stringFrom position (rest.length + 2) [] ⟨position + 1, rest⟩ = .ok (joined s, ⟨q, more⟩) := by
  rw [toList_stringText, List.cons_append, List.append_assoc, List.singleton_append]
  generalize written : (points s).flatMap pointText = text
  have spelled : Spells (unitsOf (points s)) text := written ▸ spells_text (points s)
  have enough : text.length < (text ++ '"' :: more).length + 2 := by
    rw [List.length_append]
    omega
  obtain ⟨q, read⟩ := stringFrom_spells spelled (position + 1) [] more enough
  exact ⟨_, q, rfl, read⟩

/-! ## Values -/

/-- A text that is read as this value, whatever comes after it. It can stand anywhere in an array. -/
structure ReadsAs (room : Nat) (text : List Char) (j : Json) : Prop where
  begins : ∃ c, text.head? = some c ∧ Cursor.isSpace c = false ∧ c ≠ ']'
  value : ∀ fuel position more, text.length ≤ fuel →
    ∃ q, valueFrom fuel room ⟨position, text ++ more⟩ = .ok (j, ⟨q, more⟩)

theorem takeWhile_isSpace {text : List Char} {c : Char} (begins : text.head? = some c)
    (notSpace : Cursor.isSpace c = false) : text.takeWhile Cursor.isSpace = [] := by
  obtain ⟨rest, rfl⟩ := List.head?_eq_some_iff.mp begins
  exact List.takeWhile_cons_of_neg (by rw [notSpace]; exact Bool.false_ne_true)

theorem Cursor.advance_one {position : Nat} {c : Char} {rest : List Char} :
    (⟨position, c :: rest⟩ : Cursor).advance 1 = ⟨position + 1, rest⟩ := rfl

theorem Cursor.skipSpace_of_not_space {position : Nat} {text : List Char} {c : Char}
    (begins : text.head? = some c) (notSpace : isSpace c = false) :
    (⟨position, text⟩ : Cursor).skipSpace = ⟨position, text⟩ := by
  unfold skipSpace
  rw [takeWhile_isSpace begins notSpace]
  rfl

theorem Cursor.skipSpace_blank {position : Nat} {text : List Char} {c : Char}
    (begins : text.head? = some c) (notSpace : isSpace c = false) :
    (⟨position, ' ' :: text⟩ : Cursor).skipSpace = ⟨position + 1, text⟩ := by
  unfold skipSpace
  rw [List.takeWhile_cons_of_pos rfl, takeWhile_isSpace begins notSpace]
  rfl

theorem valueFrom_string {fuel room position : Nat} {rest : List Char} {s : String} {c : Cursor}
    (h : stringFrom position (rest.length + 2) [] ⟨position + 1, rest⟩ = .ok (s, c)) :
    valueFrom (fuel + 1) room ⟨position, '"' :: rest⟩ = .ok (.string s, c) := by
  have h' : stringFrom position (fueled ⟨position, '"' :: rest⟩) [] ⟨position + 1, rest⟩ = .ok (s, c) := h
  simp only [valueFrom, Cursor.advance_one, h']
  rfl

theorem ReadsAs.string (room : Nat) (s : String) :
    ReadsAs room (text (.string s)).toList (.string (joined s)) := by
  rw [Json.text]
  refine ⟨⟨'"', by rw [toList_stringText]; rfl, rfl, by decide⟩, fun fuel position more enough => ?_⟩
  obtain ⟨rest, q, text, read⟩ := stringFrom_text position s more
  obtain ⟨fuel, rfl⟩ := Nat.exists_eq_add_of_le' (Nat.le_trans (length_stringText_pos s) enough)
  exact ⟨q, by rw [text]; exact valueFrom_string read⟩

theorem ReadsAs.bool (room : Nat) (b : Bool) :
    ReadsAs room (text (.bool b)).toList (.bool b) := by
  cases b with
  | true =>
    refine ⟨⟨'t', rfl, rfl, by decide⟩, fun fuel position more enough => ?_⟩
    obtain ⟨fuel, rfl⟩ := Nat.exists_eq_add_of_le' enough
    exact ⟨position + 4, rfl⟩
  | false =>
    refine ⟨⟨'f', rfl, rfl, by decide⟩, fun fuel position more enough => ?_⟩
    obtain ⟨fuel, rfl⟩ := Nat.exists_eq_add_of_le' enough
    exact ⟨position + 5, rfl⟩

theorem head?_intercalate {text : List Char} {c : Char} (begins : text.head? = some c)
    (texts : List (List Char)) (more : List Char) :
    ([',', ' '].intercalate (text :: texts) ++ more).head? = some c := by
  obtain ⟨rest, rfl⟩ := List.head?_eq_some_iff.mp begins
  cases texts with
  | nil => rw [List.intercalate_singleton]; rfl
  | cons text texts => rw [List.intercalate_cons_cons]; rfl

theorem itemsFrom_last {fuel room position q : Nat} {text more : List Char} {j : Json}
    (h : valueFrom fuel room ⟨position, text⟩ = .ok (j, ⟨q, ']' :: more⟩)) :
    itemsFrom (fuel + 1) room ⟨position, text⟩ = .ok ([j], ⟨q + 1, more⟩) := by
  rw [itemsFrom, h]
  rfl

theorem itemsFrom_next {fuel room position q : Nat} {text rest : List Char} {c : Char} {j : Json}
    {js : List Json} {after : Cursor}
    (h : valueFrom fuel room ⟨position, text⟩ = .ok (j, ⟨q, ',' :: ' ' :: rest⟩))
    (begins : rest.head? = some c) (notSpace : Cursor.isSpace c = false)
    (others : itemsFrom fuel room ⟨q + 1 + 1, rest⟩ = .ok (js, after)) :
    itemsFrom (fuel + 1) room ⟨position, text⟩ = .ok (j :: js, after) := by
  have comma : (⟨q, ',' :: ' ' :: rest⟩ : Cursor).skipSpace = ⟨q, ',' :: ' ' :: rest⟩ :=
    Cursor.skipSpace_of_not_space rfl rfl
  simp only [itemsFrom, h, comma, Cursor.advance_one, Cursor.skipSpace_blank begins notSpace, others, bind,
    Except.bind]
  rfl

/-- The texts between the brackets of an array, a comma and a blank between them. -/
theorem itemsFrom_intercalate {room : Nat} {texts : List (List Char)} {js : List Json}
    (h : List.Forall₂ (ReadsAs room) texts js) (nonempty : texts ≠ []) (fuel position : Nat)
    (more : List Char) (enough : ([',', ' '].intercalate texts).length < fuel) :
    ∃ q, itemsFrom fuel room ⟨position, [',', ' '].intercalate texts ++ ']' :: more⟩ =
      .ok (js, ⟨q, more⟩) := by
  induction h generalizing fuel position with
  | nil => exact absurd rfl nonempty
  | @cons text j texts js first later ih =>
    obtain ⟨fuel, rfl⟩ := Nat.exists_eq_add_of_le' (Nat.succ_le_of_lt (Nat.zero_lt_of_lt enough))
    cases later with
    | nil =>
      rw [List.intercalate_singleton] at enough ⊢
      obtain ⟨q, read⟩ := first.value fuel position (']' :: more) (Nat.le_of_lt_succ enough)
      exact ⟨q + 1, itemsFrom_last read⟩
    | @cons text' j' texts js second later =>
      rw [List.intercalate_cons_cons, List.length_append, List.length_append] at enough
      rw [List.intercalate_cons_cons, List.append_assoc, List.append_assoc]
      obtain ⟨c, begins, notSpace, _⟩ := second.begins
      have enough' : ([',', ' '].intercalate (text' :: texts)).length < fuel := by
        simp only [List.length_cons, List.length_nil] at enough
        omega
      obtain ⟨q, read⟩ := first.value fuel position
        (',' :: ' ' :: ([',', ' '].intercalate (text' :: texts) ++ ']' :: more)) (by omega)
      obtain ⟨q', others⟩ := ih (List.cons_ne_nil _ _) fuel (q + 1 + 1) enough'
      exact ⟨q', itemsFrom_next read (head?_intercalate begins texts _) notSpace others⟩

theorem ReadsAs.array {room : Nat} {texts : List (List Char)} {js : List Json}
    (h : List.Forall₂ (ReadsAs room) texts js) :
    ReadsAs (room + 1) ('[' :: ([',', ' '].intercalate texts ++ [']'])) (.array js) := by
  refine ⟨⟨'[', rfl, rfl, by decide⟩, fun fuel position more enough => ?_⟩
  obtain ⟨fuel, rfl⟩ := Nat.exists_eq_add_of_le' (Nat.le_trans (Nat.succ_pos _) enough)
  rw [List.length_cons, List.length_append] at enough
  rw [List.cons_append, List.append_assoc, List.singleton_append]
  cases h with
  | nil => exact ⟨position + 1 + 0 + 1, rfl⟩
  | @cons text j texts js first later =>
    obtain ⟨c, begins, notSpace, notClosed⟩ := first.begins
    have begun := head?_intercalate begins texts (']' :: more)
    obtain ⟨q, read⟩ := itemsFrom_intercalate (.cons first later) (List.cons_ne_nil _ _)
      fuel (position + 1) more (by simp only [List.length_cons] at enough; omega)
    refine ⟨q, ?_⟩
    have notEmpty : ([',', ' '].intercalate (text :: texts) ++ ']' :: more).head? ≠ some ']' := by
      rw [begun]
      exact fun same => notClosed (Option.some.inj same)
    rw [valueFrom]
    simp only [deeper, Cursor.advance_one, Cursor.skipSpace_of_not_space begun notSpace, if_neg notEmpty, read]
    rfl

/-- A text that is read as this member of an object. -/
def MemberReadsAs (room : Nat) (text : List Char) (member : String × Json) : Prop :=
  ∃ key value, text = (stringText key).toList ++ ':' :: ' ' :: value ∧
    joined key = member.1 ∧ ReadsAs room value member.2

/-- A member is put behind those before it, and then the object ends or a comma follows. -/
theorem membersFrom_member {room : Nat} {text : List Char} {member : String × Json}
    (h : MemberReadsAs room text member) (before : List (String × Json)) (fuel position : Nat)
    (enough : text.length ≤ fuel) {c : Char} (notSpace : Cursor.isSpace c = false) (rest : List Char) :
    ∃ q, membersFrom (fuel + 1) room before ⟨position, text ++ c :: rest⟩ =
      if c = '}' then .ok (putMember before member.1 member.2, ⟨q + 1, rest⟩)
      else if c = ',' then
        membersFrom fuel room (putMember before member.1 member.2) (⟨q + 1, rest⟩ : Cursor).skipSpace
      else .error (.at .comma q) := by
  obtain ⟨key, value, rfl, named, reads⟩ := h
  obtain ⟨inside, q, opened, name⟩ :=
    stringFrom_text position key (':' :: ' ' :: (value ++ c :: rest))
  obtain ⟨first, begins, notSpace', _⟩ := reads.begins
  obtain ⟨q', read⟩ := reads.value fuel (q + 1 + 1) (c :: rest) (by simp at enough; omega)
  have whole : (stringText key).toList ++ ':' :: ' ' :: value ++ c :: rest = '"' :: inside := by
    rw [← opened, List.append_assoc]
    rfl
  have solid : (⟨q + 1, ' ' :: (value ++ c :: rest)⟩ : Cursor).skipSpace =
      ⟨q + 1 + 1, value ++ c :: rest⟩ :=
    Cursor.skipSpace_blank (by rw [List.head?_append, begins]; rfl) notSpace'
  refine ⟨q', ?_⟩
  have name' : stringFrom position (fueled ⟨position, '"' :: inside⟩) [] ⟨position + 1, inside⟩ =
      .ok (joined key, ⟨q, ':' :: ' ' :: (value ++ c :: rest)⟩) := name
  have colon : (⟨q, ':' :: ' ' :: (value ++ c :: rest)⟩ : Cursor).skipSpace =
      ⟨q, ':' :: ' ' :: (value ++ c :: rest)⟩ := Cursor.skipSpace_of_not_space rfl rfl
  rw [whole, membersFrom, ← named]
  simp only [List.head?_cons, ne_eq, not_true_eq_false, if_false, Cursor.advance_one, name', colon,
    solid, read, Cursor.skipSpace_of_not_space List.head?_cons notSpace, bind, Except.bind]
  split
  · rename_i same
    cases same
    rfl
  · rename_i same
    cases same
    rfl
  · rename_i notClosed notComma
    rw [if_neg fun same => notClosed rest (by rw [same]), if_neg fun same => notComma rest (by rw [same])]

theorem MemberReadsAs.begins {room : Nat} {text : List Char} {member : String × Json}
    (h : MemberReadsAs room text member) : text.head? = some '"' := by
  obtain ⟨key, value, rfl, _⟩ := h
  rw [toList_stringText]
  rfl

/-- A member of a new name is put behind the others. -/
theorem putMember_of_new {members : List (String × Json)} {name : String} (value : Json)
    (h : name ∉ members.map Prod.fst) : putMember members name value = members ++ [(name, value)] := by
  induction members with
  | nil => rfl
  | cons member members ih =>
    obtain ⟨other, old⟩ := member
    rw [List.map_cons, List.mem_cons, not_or] at h
    rw [putMember, if_neg fun same => h.1 same.symm, ih h.2]
    rfl

/-- The texts between the braces of an object, whose names are all different. -/
theorem membersFrom_intercalate {room : Nat} {texts : List (List Char)} {members : List (String × Json)}
    (h : List.Forall₂ (MemberReadsAs room) texts members) (nonempty : texts ≠ [])
    (before : List (String × Json)) (distinct : ((before ++ members).map Prod.fst).Nodup)
    (fuel position : Nat) (more : List Char) (enough : ([',', ' '].intercalate texts).length < fuel) :
    ∃ q, membersFrom fuel room before ⟨position, [',', ' '].intercalate texts ++ '}' :: more⟩ =
      .ok (before ++ members, ⟨q, more⟩) := by
  induction h generalizing fuel position before with
  | nil => exact absurd rfl nonempty
  | @cons text member texts members first later ih =>
    obtain ⟨fuel, rfl⟩ := Nat.exists_eq_add_of_le' (Nat.succ_le_of_lt (Nat.zero_lt_of_lt enough))
    have new : member.1 ∉ before.map Prod.fst := by
      rw [List.map_append, List.map_cons] at distinct
      exact fun mem => (List.nodup_append.mp distinct).2.2 _ mem _ (List.mem_cons_self ..) rfl
    have put := putMember_of_new member.2 new
    cases later with
    | nil =>
      rw [List.intercalate_singleton] at enough ⊢
      obtain ⟨q, read⟩ := membersFrom_member first before fuel position
        (Nat.le_of_lt_succ enough) (c := '}') rfl more
      rw [if_pos rfl, put] at read
      exact ⟨q + 1, read⟩
    | @cons text' member' texts members second later =>
      rw [List.intercalate_cons_cons, List.length_append, List.length_append] at enough
      rw [List.intercalate_cons_cons, List.append_assoc, List.append_assoc]
      have enough' : ([',', ' '].intercalate (text' :: texts)).length < fuel := by
        simp only [List.length_cons, List.length_nil] at enough
        omega
      have begun := head?_intercalate second.begins texts ('}' :: more)
      obtain ⟨q, read⟩ := membersFrom_member first before fuel position (by omega)
        (c := ',') rfl (' ' :: ([',', ' '].intercalate (text' :: texts) ++ '}' :: more))
      obtain ⟨q', others⟩ := ih (List.cons_ne_nil _ _) (before ++ [member])
        (by rwa [List.append_assoc, List.singleton_append]) fuel (q + 1 + 1) enough'
      rw [if_neg (by decide), if_pos rfl, put, Cursor.skipSpace_blank begun rfl, others,
        List.append_assoc] at read
      exact ⟨q', read⟩

theorem ReadsAs.object {room : Nat} {texts : List (List Char)} {members : List (String × Json)}
    (h : List.Forall₂ (MemberReadsAs room) texts members) (distinct : (members.map Prod.fst).Nodup) :
    ReadsAs (room + 1) ('{' :: ([',', ' '].intercalate texts ++ ['}'])) (.object members) := by
  refine ⟨⟨'{', rfl, rfl, by decide⟩, fun fuel position more enough => ?_⟩
  obtain ⟨fuel, rfl⟩ := Nat.exists_eq_add_of_le' (Nat.le_trans (Nat.succ_pos _) enough)
  rw [List.length_cons, List.length_append] at enough
  rw [List.cons_append, List.append_assoc, List.singleton_append]
  cases h with
  | nil => exact ⟨position + 1 + 0 + 1, rfl⟩
  | @cons text member texts members first later =>
    have begun := head?_intercalate first.begins texts ('}' :: more)
    have quote : Cursor.isSpace '"' = false := rfl
    obtain ⟨q, read⟩ := membersFrom_intercalate (.cons first later) (List.cons_ne_nil _ _) [] distinct
      fuel (position + 1) more (by simp only [List.length_cons] at enough; omega)
    refine ⟨q, ?_⟩
    have notEmpty : ([',', ' '].intercalate (text :: texts) ++ '}' :: more).head? ≠ some '}' := by
      rw [begun]
      exact fun same => absurd (Option.some.inj same) (by decide)
    rw [valueFrom]
    simp only [deeper, Cursor.advance_one, Cursor.skipSpace_of_not_space begun quote, if_neg notEmpty, read]
    rfl

/-- A whole text that is read as a value. -/
theorem ReadsAs.read {room : Nat} {text : List Char} {j : Json} (h : ReadsAs room text j)
    (unmarked : text.head? ≠ some '\ufeff') : read room text = .ok j := by
  obtain ⟨c, begins, notSpace, _⟩ := h.begins
  obtain ⟨q, given⟩ := h.value (2 * text.length + 2) 0 [] (by omega)
  rw [List.append_nil] at given
  unfold Json.read
  simp only [if_neg unmarked, Cursor.skipSpace_of_not_space begins notSpace, given, bind, Except.bind]
  rfl

theorem toList_array (items : List Json) : (text (.array items)).toList =
    '[' :: ([',', ' '].intercalate ((itemTexts items).map String.toList) ++ [']']) := by
  rw [Json.text, String.toList_append, String.toList_append, String.toList_intercalate]
  rfl

theorem toList_object (members : List (String × Json)) : (text (.object members)).toList =
    '{' :: ([',', ' '].intercalate ((memberTexts members).map String.toList) ++ ['}']) := by
  rw [Json.text, String.toList_append, String.toList_append, String.toList_intercalate]
  rfl

theorem ReadsAs.strings (room : Nat) (texts : List String) :
    ReadsAs (room + 1) (text (.array (texts.map .string))).toList
      (.array ((texts.map joined).map .string)) := by
  rw [toList_array]
  refine .array ?_
  induction texts with
  | nil => exact .nil
  | cons text texts ih => exact .cons (.string room text) ih

theorem MemberReadsAs.of_value {room : Nat} (name : String) {value read : Json}
    (h : ReadsAs room (text value).toList read) (same : joined name = name) :
    MemberReadsAs room (stringText name ++ ": " ++ text value).toList (name, read) := by
  refine ⟨name, _, ?_, same, h⟩
  rw [String.toList_append, String.toList_append, List.append_assoc]
  rfl

theorem read_object {room : Nat} {members read : List (String × Json)}
    (h : List.Forall₂ (MemberReadsAs room) ((memberTexts members).map String.toList) read)
    (distinct : (read.map Prod.fst).Nodup) :
    Json.read (room + 1) (Json.object members).text.toList = .ok (.object read) := by
  have reads := ReadsAs.object h distinct
  rw [toList_object]
  refine reads.read ?_
  rw [List.head?_cons]
  decide

/-- The text of a response is read back as the same response, up to the surrogates in its strings. -/
theorem read_response (r : Repl.Response) (room : Nat) :
    Json.read (room + 2) r.toJson.text.toList = .ok r.joined.toJson := by
  have output := MemberReadsAs.of_value "output" (ReadsAs.strings room r.output) rfl
  have ok (b : Bool) := MemberReadsAs.of_value "ok" (ReadsAs.bool (room + 1) b) rfl
  obtain ⟨result | result, lines⟩ := r
  · have error := MemberReadsAs.of_value "error" (ReadsAs.string (room + 1) result) rfl
    have distinct : ["ok", "error", "output"].Nodup := by decide
    exact read_object (.cons (ok false) (.cons error (.cons output .nil))) distinct
  · have text := MemberReadsAs.of_value "result" (ReadsAs.string (room + 1) result) rfl
    have distinct : ["ok", "result", "output"].Nodup := by decide
    exact read_object (.cons (ok true) (.cons text (.cons output .nil))) distinct

/-! ## Texts of one line -/

theorem Spells.newline_notMem {us : List Nat} {text : List Char} (h : Spells us text) : '\n' ∉ text := by
  induction h with
  | nil => exact List.not_mem_nil
  | @plain c us text printable _ _ _ ih =>
    refine List.not_mem_cons_of_ne_of_not_mem ?_ ih
    rintro rfl
    exact absurd printable (by decide)
  | @short c e us text known _ ih =>
    refine List.not_mem_cons_of_ne_of_not_mem (by decide) (List.not_mem_cons_of_ne_of_not_mem ?_ ih)
    rintro rfl
    cases known
  | @unit n us text small _ ih =>
    have digit : ∀ k < 16, '\n' ≠ Nat.digitChar k := by decide
    have digits : '\n' ∉ (Utf8.hexDigits 4 n).toList := by
      rw [toList_hexDigits small]
      simp only [List.mem_cons, List.not_mem_nil, or_false, not_or]
      exact ⟨digit _ (by omega), digit _ (by omega), digit _ (by omega), digit _ (by omega)⟩
    intro mem
    rcases List.mem_append.mp mem with mem | mem
    · exact List.not_mem_cons_of_ne_of_not_mem (by decide)
        (List.not_mem_cons_of_ne_of_not_mem (by decide) digits) mem
    · exact ih mem

theorem newline_notMem_stringText (s : String) : '\n' ∉ (stringText s).toList := by
  rw [toList_stringText]
  have text := (spells_text (points s)).newline_notMem
  simp [text]

theorem newline_notMem_intercalate {texts : List (List Char)} (h : ∀ text ∈ texts, '\n' ∉ text) :
    '\n' ∉ [',', ' '].intercalate texts := by
  induction texts with
  | nil => exact List.not_mem_nil
  | cons text texts ih =>
    obtain ⟨first, later⟩ := List.forall_mem_cons.mp h
    cases texts with
    | nil => rwa [List.intercalate_singleton]
    | cons text' texts =>
      rw [List.intercalate_cons_cons]
      simp [first, ih later]

theorem newline_notMem_member {name : String} {value : Json}
    (h : '\n' ∉ (text value).toList) :
    '\n' ∉ (stringText name ++ ": " ++ text value).toList := by
  simp [h, newline_notMem_stringText]

theorem newline_notMem_strings (texts : List String) :
    '\n' ∉ (text (.array (texts.map .string))).toList := by
  have lines : ∀ text ∈ (itemTexts (texts.map .string)).map String.toList, '\n' ∉ text := by
    induction texts with
    | nil => exact List.forall_mem_nil _
    | cons text texts ih => exact List.forall_mem_cons.mpr ⟨newline_notMem_stringText text, ih⟩
  rw [toList_array]
  simp [newline_notMem_intercalate lines]

theorem newline_notMem_object {members : List (String × Json)}
    (h : ∀ member ∈ members, '\n' ∉ (text member.2).toList) :
    '\n' ∉ (Json.object members).text.toList := by
  have texts : ∀ text ∈ (memberTexts members).map String.toList, '\n' ∉ text := by
    induction members with
    | nil => exact List.forall_mem_nil _
    | cons member members ih =>
      obtain ⟨first, later⟩ := List.forall_mem_cons.mp h
      exact List.forall_mem_cons.mpr ⟨newline_notMem_member first, ih later⟩
  rw [toList_object]
  simp [newline_notMem_intercalate texts]

/-- The text of a response is one line. -/
theorem newline_notMem_response (r : Repl.Response) : '\n' ∉ r.toJson.text.toList := by
  have ok (b : Bool) : '\n' ∉ (text (.bool b)).toList := by cases b <;> decide
  have text (s : String) : '\n' ∉ (text (.string s)).toList := newline_notMem_stringText s
  obtain ⟨result | result, lines⟩ := r
  · refine newline_notMem_object ?_
    simp [ok, text, newline_notMem_strings]
  · refine newline_notMem_object ?_
    simp [ok, text, newline_notMem_strings]

end Json

end SmallLisp
