/-!
Code points. A surrogate, half of a pair, is no character, yet a JSON string or a name may hold one alone.
In a text it is spelled by the unassigned character of plane 13 with the same last digits, U+DD800 to
U+DDFFF. Those characters themselves, and the mark U+DD7FF, are spelled with the mark before them, so that
no two sequences of code points are spelled alike. None of these characters is blank, printable or a
delimiter, so a text is divided nowhere inside the spelling of a point.
-/
namespace SmallLisp.Text

def isHighSurrogate (unit : Nat) : Bool :=
  0xd800 ≤ unit && unit ≤ 0xdbff

def isLowSurrogate (unit : Nat) : Bool :=
  0xdc00 ≤ unit && unit ≤ 0xdfff

def joinSurrogates (high low : Nat) : Char :=
  Char.ofNat (0x10000 + (high - 0xd800) * 0x400 + (low - 0xdc00))

/-- A character, or a surrogate by its place among them. -/
inductive CodePoint where
  | char (c : Char)
  | surrogate (n : Fin 0x800)
  deriving DecidableEq, Repr

def surrogateMark : Char :=
  Char.ofNat 0xdd7ff

/-- Characters that are spelled with the mark before them. -/
def needsMark (c : Char) : Bool :=
  0xdd7ff ≤ c.toNat && c.toNat ≤ 0xddfff

namespace CodePoint

/-- The surrogate or the character with the code of a UTF-16 unit. -/
def ofUnit (unit : Nat) : CodePoint :=
  if isHighSurrogate unit || isLowSurrogate unit then .surrogate (Fin.ofNat 0x800 (unit - 0xd800))
  else .char (Char.ofNat unit)

def code : CodePoint → Nat
  | char c => c.toNat
  | surrogate n => 0xd800 + n

/-- The UTF-16 units of a point; those of a surrogate are the surrogate. -/
def units (p : CodePoint) : List Nat :=
  if p.code < 0x10000 then [p.code]
  else [0xd800 + (p.code - 0x10000) / 0x400, 0xdc00 + (p.code - 0x10000) % 0x400]

def spelling : CodePoint → List Char
  | char c => if needsMark c then [surrogateMark, c] else [c]
  | surrogate n => [Char.ofNat (0xdd800 + n)]

/-- The point that a character without a mark before it spells. -/
def ofChar (c : Char) : CodePoint :=
  if 0xdd800 ≤ c.toNat ∧ c.toNat ≤ 0xddfff then .surrogate (Fin.ofNat 0x800 (c.toNat - 0xdd800))
  else .char c

end CodePoint

/-- The text that spells code points. -/
def ofPoints (ps : List CodePoint) : String :=
  String.ofList (ps.flatMap CodePoint.spelling)

def pointsFrom : List Char → List CodePoint
  | [] => []
  | [c] => [.ofChar c]
  | c :: d :: cs =>
    if c = surrogateMark ∧ needsMark d then .char d :: pointsFrom cs else .ofChar c :: pointsFrom (d :: cs)

/-- The code points of a text. -/
def points (s : String) : List CodePoint :=
  pointsFrom s.toList

theorem pointsFrom_cons_of_ne {c : Char} (h : c ≠ surrogateMark) (cs : List Char) :
    pointsFrom (c :: cs) = .ofChar c :: pointsFrom cs := by
  cases cs with
  | nil => rfl
  | cons d cs => rw [pointsFrom, if_neg fun both => h both.1]

theorem toNat_surrogateSpelling (n : Fin 0x800) : (Char.ofNat (0xdd800 + n)).toNat = 0xdd800 + n := by
  have small := n.isLt
  have valid : (0xdd800 + n.val).isValidChar := .inr ⟨by omega, by omega⟩
  rw [Char.ofNat, dif_pos valid]
  rfl

/-- Every point is read from its spelling, whatever follows. -/
theorem pointsFrom_spelling (p : CodePoint) (cs : List Char) :
    pointsFrom (p.spelling ++ cs) = p :: pointsFrom cs := by
  cases p with
  | char c =>
    by_cases marked : needsMark c = true
    · rw [CodePoint.spelling, if_pos marked]
      exact if_pos ⟨rfl, marked⟩
    · have notMark : c ≠ surrogateMark := by
        rintro rfl
        exact marked (by decide)
      have plain : ¬(0xdd800 ≤ c.toNat ∧ c.toNat ≤ 0xddfff) := by
        simp only [needsMark, Bool.and_eq_true, decide_eq_true_eq] at marked
        omega
      rw [CodePoint.spelling, if_neg marked, List.singleton_append, pointsFrom_cons_of_ne notMark,
        CodePoint.ofChar, if_neg plain]
  | surrogate n =>
    have small := n.isLt
    have code := toNat_surrogateSpelling n
    have notMark : Char.ofNat (0xdd800 + n) ≠ surrogateMark := by
      intro same
      have same : 0xdd800 + n.val = 0xdd7ff := code.symm.trans (congrArg Char.toNat same)
      omega
    rw [CodePoint.spelling, List.singleton_append, pointsFrom_cons_of_ne notMark, CodePoint.ofChar, code,
      if_pos (by omega), Nat.add_sub_cancel_left, Fin.ofNat_val_eq_self]

/-- A text that spells code points has them: no two sequences are spelled alike. -/
theorem points_ofPoints (ps : List CodePoint) : points (ofPoints ps) = ps := by
  rw [points, ofPoints, String.toList_ofList]
  induction ps with
  | nil => rfl
  | cons p ps ih => rw [List.flatMap_cons, pointsFrom_spelling, ih]

end SmallLisp.Text
