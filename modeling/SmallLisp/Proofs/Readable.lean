import SmallLisp.Proofs.NumberText
import SmallLisp.Proofs.Tokens
import SmallLisp.Value.Text
/-!
# Readable data

A datum is readable when each of its atoms is what some token stands for. The text of a readable datum is
that of the value made of it, and the text of a readable atom is one token, which stands for the atom.
-/
namespace SmallLisp

open Number Reader

namespace Datum

mutual

/-- The text of a datum in source form. -/
def text : Datum → String
  | .symbol name => name
  | .int n => intText n
  | .float x => floatText .source x
  | .string s => "\"" ++ s ++ "\""
  | .bool b => if b then "#t" else "#f"
  | .list items => "(" ++ String.intercalate " " (texts items) ++ ")"

def texts : List Datum → List String
  | [] => []
  | d :: ds => text d :: texts ds

end

mutual

/-- The number of lists that are open at the deepest place. -/
def depth : Datum → Nat
  | .list items => depths items + 1
  | _ => 0

def depths : List Datum → Nat
  | [] => 0
  | d :: ds => max (depth d) (depths ds)

end

/-- The data that texts are read as. -/
inductive IsReadable : Datum → Prop where
  | bool (b : Bool) : IsReadable (.bool b)
  | int {n : Int} (short : (natDigits n.natAbs).length ≤ digitLimit) : IsReadable (.int n)
  | float {x : Float} (number : x.isNaN = false) : IsReadable (.float x)
  | string {s : String} (noBreak : '\n' ∉ s.toList) (token : IsStringToken s.toList) :
      IsReadable (.string s)
  | symbol {name : String} (token : IsAtomToken name.toList)
      (same : atom name = .ok (.symbol name)) : IsReadable (.symbol name)
  | list {items : List Datum} (h : ∀ d ∈ items, IsReadable d) : IsReadable (.list items)

theorem depth_list (items : List Datum) : depth (.list items) = depths items + 1 := by
  unfold depth
  rfl

theorem depths_le_iff {ds : List Datum} {room : Nat} :
    depths ds ≤ room ↔ ∀ d ∈ ds, d.depth ≤ room := by
  induction ds with
  | nil => simp [depths]
  | cons d ds ih => simp [depths, ih]

theorem texts_eq (ds : List Datum) : texts ds = ds.map text := by
  induction ds with
  | nil => rfl
  | cons d ds ih => rw [texts, ih, List.map_cons]

mutual

/-- Values with the shape and the atoms of a datum, whatever objects their lists are. -/
inductive IsShapeOf : Datum → Value → Prop where
  | symbol (name : String) : IsShapeOf (.symbol name) (.symbol name)
  | int (n : Int) : IsShapeOf (.int n) (.int n)
  | float (x : Float) : IsShapeOf (.float x) (.float x)
  | string (s : String) : IsShapeOf (.string s) (.string s)
  | bool (b : Bool) : IsShapeOf (.bool b) (.bool b)
  | list {ds : List Datum} {vs : List Value} (object : Nat) (h : AreShapesOf ds vs) :
      IsShapeOf (.list ds) (.list object vs)

inductive AreShapesOf : List Datum → List Value → Prop where
  | nil : AreShapesOf [] []
  | cons {d : Datum} {v : Value} {ds : List Datum} {vs : List Value} (first : IsShapeOf d v)
      (rest : AreShapesOf ds vs) : AreShapesOf (d :: ds) (v :: vs)

end

mutual

theorem isShapeOf_ofDatum (d : Datum) (next : Nat) : d.IsShapeOf (Value.ofDatum d next).1 := by
  cases d with
  | symbol name => exact .symbol name
  | int n => exact .int n
  | float x => exact .float x
  | string s => exact .string s
  | bool b => exact .bool b
  | list items => exact .list next (areShapesOf_ofData items (next + 1))

theorem areShapesOf_ofData (ds : List Datum) (next : Nat) :
    AreShapesOf ds (Value.ofData ds next).1 := by
  cases ds with
  | nil => exact .nil
  | cons d ds => exact .cons (isShapeOf_ofDatum d next) (areShapesOf_ofData ds _)

end

mutual

/-- A value with the shape of a datum has its text. -/
theorem IsShapeOf.text_eq (live : Nat → Bool) {d : Datum} {v : Value} (h : d.IsShapeOf v) :
    v.text live .source = d.text := by
  cases h with
  | list object h =>
    have inside := h.texts_eq live
    simp only [Value.text, text, inside]
  | _ => rfl

theorem AreShapesOf.texts_eq (live : Nat → Bool) {ds : List Datum} {vs : List Value}
    (h : AreShapesOf ds vs) : Value.texts live .source vs = texts ds := by
  cases h with
  | nil => rfl
  | cons first rest =>
    have one := first.text_eq live
    have others := rest.texts_eq live
    simp only [Value.texts, texts, one, others]

end

mutual

/-- With room for its lists a datum is not too deep for a text. -/
theorem IsShapeOf.isDeeperThan {d : Datum} {v : Value} (h : d.IsShapeOf v) {room : Nat}
    (fits : d.depth ≤ room) : v.isDeeperThan room = false := by
  cases h with
  | list object h =>
    rw [depth_list] at fits
    obtain ⟨room, rfl⟩ : ∃ r, room = r + 1 := ⟨room - 1, by omega⟩
    exact h.any_isDeeperThan (Nat.le_of_succ_le_succ fits)
  | _ => cases room <;> rfl

theorem AreShapesOf.any_isDeeperThan {ds : List Datum} {vs : List Value} (h : AreShapesOf ds vs)
    {room : Nat} (fits : depths ds ≤ room) : vs.any (Value.isDeeperThan room) = false := by
  cases h with
  | nil => rfl
  | cons first rest =>
    unfold depths at fits
    have one := first.isDeeperThan (Nat.max_le.mp fits).1
    have others := rest.any_isDeeperThan (Nat.max_le.mp fits).2
    simp only [List.any_cons, one, others, Bool.or_self]

end

theorem isLongInteger_eq_false_iff {n : Int} :
    isLongInteger n = false ↔ (natDigits n.natAbs).length ≤ digitLimit := by
  have limit : 0 < digitLimit := by decide
  unfold isLongInteger natDigits longInteger
  rw [Nat.length_toDigits_le_iff (by norm_num) limit, tenTo_eq, decide_eq_false_iff_not, Nat.not_le]

theorem AreShapesOf.anyLongInteger {ds : List Datum} {vs : List Value} (h : AreShapesOf ds vs)
    (short : ∀ d ∈ ds, ∀ v, d.IsShapeOf v → v.hasLongInteger = false) :
    Value.anyLongInteger vs = false := by
  induction ds generalizing vs with
  | nil =>
    cases h
    rfl
  | cons d ds ih =>
    cases h with
    | @cons _ v _ vs first rest =>
      have one := short d (by simp) v first
      have others := ih rest fun e mem => short e (List.mem_cons_of_mem d mem)
      simp only [Value.anyLongInteger, one, others, Bool.or_self]

namespace IsReadable

variable {d : Datum} {v : Value}

theorem hasLongInteger (h : d.IsReadable) (shape : d.IsShapeOf v) : v.hasLongInteger = false := by
  induction h generalizing v with
  | int short =>
    cases shape
    exact isLongInteger_eq_false_iff.mpr short
  | list _ ih =>
    cases shape with
    | list _ shapes => exact shapes.anyLongInteger fun d mem v shape => ih d mem shape
  | _ =>
    cases shape
    rfl

/-- A readable datum has a text where there is room for its lists. -/
theorem text? (h : d.IsReadable) (shape : d.IsShapeOf v) (live : Nat → Bool) {room : Nat}
    (fits : d.depth ≤ room) : v.text? live room .source = .ok d.text := by
  unfold Value.text?
  rw [shape.isDeeperThan fits, h.hasLongInteger shape, shape.text_eq live]
  rfl

end IsReadable

/-- What one token stands for. -/
structure IsAtom (d : Datum) : Prop where
  token : ∀ rest, Ends rest → LineStart.ofLine (d.text.toList ++ rest) = .token d.text.toList rest
  notOpen : d.text ≠ "("
  notClose : d.text ≠ ")"
  notQuote : quoteKeyword? d.text = none
  noBreak : '\n' ∉ d.text.toList
  same : atom d.text = .ok d

/-- What begins otherwise than a parenthesis or a quote marker is none of these. -/
theorem not_mark (token : String) (h : ∀ c ∈ token.toList.head?, isPunctuation c = false) :
    token ≠ "(" ∧ token ≠ ")" ∧ quoteKeyword? token = none := by
  have other (mark : String) (c : Char) (cs : List Char) (chars : mark.toList = c :: cs)
      (bad : isPunctuation c = true) : token ≠ mark := by
    rintro rfl
    have no := h c (by rw [chars]; rfl)
    rw [bad] at no
    cases no
  refine ⟨other "(" _ _ rfl rfl, other ")" _ _ rfl rfl, ?_⟩
  unfold quoteKeyword?
  rw [if_neg (other "'" _ _ rfl rfl), if_neg (other "`" _ _ rfl rfl), if_neg (other "," _ _ rfl rfl),
    if_neg (other ",@" _ _ rfl rfl)]

/-- A token that is one atom, and stands for the datum with that text. -/
theorem IsAtom.of_atomToken {d : Datum} (token : IsAtomToken d.text.toList)
    (same : atom d.text = .ok d) : d.IsAtom := by
  obtain ⟨notOpen, notClose, notQuote⟩ := not_mark d.text fun c mem =>
    isPunctuation_of_isAtomChar (token.2 c (List.mem_of_mem_head? mem))
  exact ⟨fun rest next => LineStart.ofLine_atom token next, notOpen, notClose, notQuote,
    newline_not_mem token.2, same⟩

theorem isAtomChar_of_isDigit {c : Char} (h : c.isDigit = true) : isAtomChar c = true := by
  have range : 48 ≤ c.toNat ∧ c.toNat ≤ 57 := Char.isDigit_iff_toNat.mp h
  have blank : Text.isBlank c = false := by
    unfold Text.isBlank
    dsimp only
    simp only [Bool.or_eq_false_iff, Bool.and_eq_false_iff, decide_eq_false_iff_not, beq_eq_false_iff_ne]
    omega
  have other (d : Char) (no : d.isDigit = false) : c ≠ d := by
    rintro rfl
    rw [no] at h
    cases h
  refine isAtomChar_of blank ?_ (other _ rfl) (other _ rfl)
  unfold isPunctuation
  simp [other '(' rfl, other ')' rfl, other '\'' rfl, other '`' rfl, other ',' rfl]

theorem isAtomToken_of_isNumeral {cs : List Char} (h : IsNumeral cs) : IsAtomToken cs := by
  refine ⟨h.1, fun c mem => ?_⟩
  rcases h.2 c mem with digit | sign
  · exact isAtomChar_of_isDigit digit
  · have all : ∀ d ∈ ['.', 'e', '+', '-'], isAtomChar d = true :=
      List.all_eq_true.mp (by decide)
    exact all c sign

/-- A numeral is neither a truth value nor a string. -/
theorem not_word {token : String} (h : IsNumeral token.toList) :
    token ≠ "#t" ∧ token ≠ "#f" ∧ token.toList.head? ≠ some '"' := by
  have other (c : Char) (bad : ¬(c.isDigit = true ∨ c ∈ ['.', 'e', '+', '-'])) :
      token.toList.head? ≠ some c := fun first => bad (h.2 c (List.mem_of_mem_head? first))
  refine ⟨?_, ?_, other '"' (by decide)⟩
  · rintro rfl
    exact other '#' (by decide) rfl
  · rintro rfl
    exact other '#' (by decide) rfl

theorem atom_integer {token : String} {negative : Bool} {digits : List Char}
    (numeral : IsNumeral token.toList)
    (literal : integerLiteral? token.toList = some (negative, digits)) :
    atom token = integerAtom negative digits := by
  obtain ⟨notTrue, notFalse, notString⟩ := not_word numeral
  unfold atom
  dsimp only
  rw [if_neg notTrue, if_neg notFalse, if_neg notString, literal]

theorem atom_decimal {token : String} {d : DecimalLiteral} (numeral : IsNumeral token.toList)
    (notInteger : integerLiteral? token.toList = none)
    (literal : decimalLiteral? token.toList = some d) : atom token = .ok (.float d.toFloat) := by
  obtain ⟨notTrue, notFalse, notString⟩ := not_word numeral
  unfold atom
  dsimp only
  rw [if_neg notTrue, if_neg notFalse, if_neg notString, notInteger, literal]

theorem isAtom_bool (b : Bool) : (bool b).IsAtom := by
  cases b with
  | true => exact .of_atomToken (.of_all nofun rfl) rfl
  | false => exact .of_atomToken (.of_all nofun rfl) rfl

theorem isAtom_int {n : Int} (short : (natDigits n.natAbs).length ≤ digitLimit) :
    (int n).IsAtom := by
  have text : (int n).text.toList = signed (n < 0) (natDigits n.natAbs) := String.toList_ofList
  have numeral : IsNumeral (int n).text.toList := by
    rw [text]
    exact isNumeral_signed _ ((allDigits_natDigits _).isNumeral (natDigits_ne_nil _))
  have literal := integerLiteral?_intText n
  rw [← text] at literal
  refine .of_atomToken (isAtomToken_of_isNumeral numeral) ?_
  rw [atom_integer numeral literal]
  unfold integerAtom
  rw [if_neg (Nat.not_lt.mpr short), intOfDigits_natAbs n (natOfDigits_natDigits _)]

theorem isAtom_float {x : Float} (number : x.isNaN = false) : (float x).IsAtom := by
  obtain ⟨numeral, notInteger, d, literal, same⟩ := isTextOf_float number
  refine .of_atomToken (isAtomToken_of_isNumeral numeral) ?_
  have read : atom (float x).text = _ := atom_decimal numeral notInteger literal
  rwa [same] at read

/-- A token between quotes stands for what is between them. -/
theorem atom_string {token : String} {cs : List Char} (h : token.toList = '"' :: (cs ++ ['"'])) :
    atom token = .ok (.string (String.ofList cs)) := by
  have other (word : String) (no : word.toList.head? ≠ some '"') : token ≠ word := by
    rintro rfl
    rw [h] at no
    exact no rfl
  unfold atom
  dsimp only
  rw [if_neg (other "#t" (by decide)), if_neg (other "#f" (by decide)), h, if_pos List.head?_cons]
  simp

theorem isAtom_string {s : String} (token : IsStringToken s.toList) : (string s).IsAtom := by
  have text : (string s).text.toList = '"' :: (s.toList ++ ['"']) := by
    unfold Datum.text
    rw [String.toList_append, String.toList_append]
    rfl
  obtain ⟨notOpen, notClose, notQuote⟩ := not_mark (string s).text (by
    rw [text]
    rintro c ⟨⟩
    rfl)
  refine ⟨fun rest _ => ?_, notOpen, notClose, notQuote, ?_, ?_⟩
  · rw [text]
    exact token.ofLine rest
  · rw [text]
    simpa using token.newline_not_mem
  · rw [atom_string text, String.ofList_toList]

/-- A readable datum is a list or what one token stands for. -/
theorem IsReadable.isAtom {d : Datum} (h : d.IsReadable) (notList : ∀ items, d ≠ .list items) :
    d.IsAtom := by
  cases h with
  | bool b => exact isAtom_bool b
  | int short => exact isAtom_int short
  | float number => exact isAtom_float number
  | string noBreak token => exact isAtom_string token
  | symbol token same => exact .of_atomToken token same
  | list => exact absurd rfl (notList _)

theorem IsAtom.length_pos {d : Datum} (h : d.IsAtom) : 0 < d.text.toList.length := by
  have token := h.token [] ends_nil
  rw [List.length_pos_iff]
  intro none
  rw [none] at token
  cases token

theorem toList_text_list (items : List Datum) :
    (Datum.list items).text.toList =
      '(' :: ([' '].intercalate (items.map fun d => d.text.toList) ++ [')']) := by
  rw [text, texts_eq, String.toList_append, String.toList_append, String.toList_intercalate,
    List.map_map]
  rfl

theorem IsReadable.length_pos {d : Datum} (h : d.IsReadable) : 0 < d.text.toList.length := by
  cases d with
  | list items =>
    rw [toList_text_list]
    exact Nat.succ_pos _
  | _ => exact (h.isAtom nofun).length_pos

theorem mem_intercalate {α : Type} {x sep : α} {ls : List (List α)} (h : x ∈ [sep].intercalate ls) :
    x = sep ∨ ∃ l ∈ ls, x ∈ l := by
  induction ls with
  | nil => cases h
  | cons l ls ih =>
    cases ls with
    | nil => exact Or.inr ⟨l, by simp, by simpa using h⟩
    | cons k ks =>
      rw [List.intercalate_cons_cons, List.append_assoc, List.mem_append, List.mem_append,
        List.mem_singleton] at h
      rcases h with h | rfl | h
      · exact Or.inr ⟨l, by simp, h⟩
      · exact Or.inl rfl
      · rcases ih h with same | ⟨m, mem, inside⟩
        · exact Or.inl same
        · exact Or.inr ⟨m, List.mem_cons_of_mem l mem, inside⟩

theorem IsReadable.newline_not_mem {d : Datum} (h : d.IsReadable) : '\n' ∉ d.text.toList := by
  induction h with
  | list _ ih =>
    rw [toList_text_list]
    intro mem
    rcases List.mem_cons.mp mem with same | mem
    · cases same
    · rcases List.mem_append.mp mem with mem | mem
      · rcases mem_intercalate mem with same | ⟨l, mem, held⟩
        · cases same
        · obtain ⟨d, item, rfl⟩ := List.mem_map.mp mem
          exact ih d item held
      · have same := List.mem_singleton.mp mem
        cases same
  | bool b => exact (isAtom_bool b).noBreak
  | int short => exact (isAtom_int short).noBreak
  | float number => exact (isAtom_float number).noBreak
  | string _ token => exact (isAtom_string token).noBreak
  | symbol token _ => exact Reader.newline_not_mem token.2

theorem natOfDigits_lt {ds : List Char} (h : AllDigits ds) : natOfDigits ds < 10 ^ ds.length := by
  induction ds with
  | nil => exact Nat.one_pos
  | cons c ds ih =>
    have rest := ih fun d mem => h d (List.mem_cons_of_mem c mem)
    have range : 48 ≤ c.toNat ∧ c.toNat ≤ 57 := Char.isDigit_iff_toNat.mp (h c (by simp))
    have first : natOfDigits [c] ≤ 9 := by
      change 0 * 10 + (c.toNat - 48) ≤ 9
      omega
    calc natOfDigits (c :: ds) = natOfDigits [c] * 10 ^ ds.length + natOfDigits ds :=
          natOfDigits_append [c] ds
      _ < natOfDigits [c] * 10 ^ ds.length + 10 ^ ds.length := by omega
      _ = (natOfDigits [c] + 1) * 10 ^ ds.length := by ring
      _ ≤ 10 * 10 ^ ds.length := Nat.mul_le_mul_right _ (by omega)
      _ = 10 ^ (ds.length + 1) := (Nat.pow_succ').symm

theorem natAbs_intOfDigits (negative : Bool) (ds : List Char) :
    (intOfDigits negative ds).natAbs = natOfDigits ds := by
  unfold intOfDigits
  split
  · omega
  · omega

/-- An integer has no more digits than its literal. -/
theorem isReadable_of_integerAtom {negative : Bool} {ds : List Char} {d : Datum}
    (digits : AllDigits ds) (h : integerAtom negative ds = .ok d) : d.IsReadable ∧ d.depth = 0 := by
  unfold integerAtom at h
  split at h
  · cases h
  · rename_i short
    cases h
    have limit : 0 < digitLimit := by decide
    refine ⟨.int ?_, rfl⟩
    rw [natAbs_intOfDigits, natDigits, Nat.length_toDigits_le_iff (by norm_num) limit]
    exact (natOfDigits_lt digits).trans_le (Nat.pow_le_pow_right (by norm_num) (Nat.not_lt.mp short))

theorem allDigits_of_integerLiteral? {cs ds : List Char} {negative : Bool}
    (h : integerLiteral? cs = some (negative, ds)) : AllDigits ds := by
  unfold integerLiteral? at h
  dsimp only at h
  split at h
  · rename_i digits
    cases h
    exact List.all_eq_true.mp digits.2
  · cases h

theorem isReadable_of_atom {token : String} {d : Datum} (whole : IsAtomToken token.toList)
    (h : atom token = .ok d) : d.IsReadable ∧ d.depth = 0 := by
  have notString : token.toList.head? ≠ some '"' := by
    intro first
    have atom := whole.2 _ (List.mem_of_mem_head? first)
    cases atom
  have same := h
  unfold atom at h
  dsimp only at h
  split at h
  · cases h
    exact ⟨.bool true, rfl⟩
  · split at h
    · cases h
      exact ⟨.bool false, rfl⟩
    · split at h
      · rename_i literal
        exact isReadable_of_integerAtom (allDigits_of_integerLiteral? literal) h
      · split at h
        · cases h
          exact ⟨.float (isNaN_toFloat _), rfl⟩
        · cases h
          exact ⟨.symbol whole same, rfl⟩

theorem isReadable_of_string {token : String} {cs : List Char} {d : Datum}
    (string : IsStringToken cs) (text : token.toList = '"' :: (cs ++ ['"']))
    (h : atom token = .ok d) : d.IsReadable ∧ d.depth = 0 := by
  rw [atom_string text] at h
  cases h
  refine ⟨.string ?_ ?_, rfl⟩
  · rw [String.toList_ofList]
    exact string.newline_not_mem
  · rw [String.toList_ofList]
    exact string

end Datum

end SmallLisp
