import SmallLisp.Reader.Port
/-!
# Tokens on a line

A line begins with the text of a token just when that token is read first: an atom when no character
follows that would make it longer, a string and a parenthesis whatever follows. A string that is read is
closed by its last quote and by no other, and it holds no newline.
-/
namespace SmallLisp.Reader

/-- Characters that make one atom when nothing is added. -/
def IsAtomToken (cs : List Char) : Prop :=
  cs ≠ [] ∧ ∀ c ∈ cs, isAtomChar c = true

theorem IsAtomToken.of_all {cs : List Char} (nonempty : cs ≠ []) (all : cs.all isAtomChar = true) :
    IsAtomToken cs :=
  ⟨nonempty, List.all_eq_true.mp all⟩

/-- Characters that make one string when they stand between quotes. -/
def IsStringToken (cs : List Char) : Prop :=
  LineStart.ofLine ('"' :: (cs ++ ['"'])) = .token ('"' :: (cs ++ ['"'])) []

/-- An atom is ended before these characters. -/
def Ends (rest : List Char) : Prop :=
  ∀ c ∈ rest.head?, isAtomChar c = false

theorem ends_nil : Ends [] := nofun

theorem ends_cons {c : Char} (h : isAtomChar c = false) (rest : List Char) : Ends (c :: rest) := by
  rintro d ⟨⟩
  exact h

theorem isBlank_of_isAtomChar {c : Char} (h : isAtomChar c = true) : Text.isBlank c = false := by
  unfold isAtomChar at h
  rw [Bool.and_eq_true, Bool.not_eq_true'] at h
  exact h.1

theorem isDelimiter_of_isAtomChar {c : Char} (h : isAtomChar c = true) : isDelimiter c = false := by
  unfold isAtomChar at h
  rw [Bool.and_eq_true, Bool.not_eq_true', Bool.not_eq_true'] at h
  exact h.2

theorem isPunctuation_of_isAtomChar {c : Char} (h : isAtomChar c = true) :
    isPunctuation c = false := by
  have no := isDelimiter_of_isAtomChar h
  unfold isDelimiter at no
  rw [Bool.or_eq_false_iff, Bool.or_eq_false_iff] at no
  exact no.1.1

theorem newline_not_mem {cs : List Char} (h : ∀ c ∈ cs, isAtomChar c = true) : '\n' ∉ cs := by
  intro mem
  have atom : isAtomChar '\n' = true := h _ mem
  cases atom

namespace LineStart

theorem ofLine_blank {c : Char} (blank : Text.isBlank c = true) (line : List Char) :
    ofLine (c :: line) = ofLine line := by
  unfold ofLine
  rw [List.dropWhile_cons_of_pos blank]

theorem ofLine_open (rest : List Char) : ofLine ('(' :: rest) = .token ['('] rest := rfl

theorem ofLine_quote (rest : List Char) :
    ofLine ('"' :: rest) = match closeString? rest with
      | some (inside, rest) => .token ('"' :: inside) rest
      | none => .openString (Text.trim ('"' :: rest)) := rfl

/-- An atom goes on as far as it can. -/
theorem ofLine_atomChar {c : Char} (h : isAtomChar c = true) (rest : List Char) :
    ofLine (c :: rest) = .token (c :: rest.takeWhile isAtomChar) (rest.dropWhile isAtomChar) := by
  have noBlank := isBlank_of_isAtomChar h
  unfold ofLine
  rw [List.dropWhile_cons_of_neg (by rw [noBlank]; exact Bool.false_ne_true)]
  split
  · rename_i same
    cases same
  · rename_i same
    cases same
    cases h
  · rename_i same
    cases same
    cases h
  · rename_i same
    cases same
    cases h
  · rename_i same
    cases same
    rw [isPunctuation_of_isAtomChar h]
    rfl

theorem ofLine_atom {cs rest : List Char} (h : IsAtomToken cs) (next : Ends rest) :
    ofLine (cs ++ rest) = .token cs rest := by
  obtain ⟨nonempty, atoms⟩ := h
  obtain ⟨c, cs, rfl⟩ := List.exists_cons_of_ne_nil nonempty
  have more : ∀ d ∈ cs, isAtomChar d = true := fun d mem => atoms d (List.mem_cons_of_mem c mem)
  have ended : rest.takeWhile isAtomChar = [] ∧ rest.dropWhile isAtomChar = rest := by
    cases rest with
    | nil => exact ⟨rfl, rfl⟩
    | cons d rest =>
      have no : isAtomChar d = false := next d rfl
      constructor
      · simp [no]
      · simp [no]
  rw [List.cons_append, ofLine_atomChar (atoms c (by simp)), List.takeWhile_append_of_pos more,
    List.dropWhile_append_of_pos more, ended.1, ended.2, List.append_nil]

end LineStart

theorem closeString?_protected {c : Char} {cs inside rest : List Char} (plain : c ≠ '\n')
    (h : closeString? cs = some (inside, rest)) :
    closeString? ('\\' :: c :: cs) = some ('\\' :: c :: inside, rest) := by
  simp only [closeString?, if_neg plain, h, Option.map_some]

theorem closeString?_plain {c : Char} {cs inside rest : List Char} (noQuote : c ≠ '"')
    (plain : ¬(c = '\n' ∨ c = '\\')) (h : closeString? cs = some (inside, rest)) :
    closeString? (c :: cs) = some (c :: inside, rest) := by
  have noSlash : c ≠ '\\' := fun same => plain (Or.inr same)
  unfold closeString?
  split
  · rename_i same
    cases same
  · rename_i same
    cases same
    exact absurd rfl noQuote
  · rename_i same
    cases same
    exact absurd rfl noSlash
  · rename_i same
    cases same
    rw [if_neg (by simpa using plain), h]
    rfl

/-- A string that is closed is closed by its last quote, whatever follows. -/
theorem closeString?_some {cs inside rest : List Char} (h : closeString? cs = some (inside, rest)) :
    (∀ left, closeString? (inside ++ left) = some (inside, left)) ∧
      ∃ body, inside = body ++ ['"'] ∧ '\n' ∉ body := by
  fun_induction closeString? cs generalizing inside rest with
  | case1 => cases h
  | case2 cs =>
    cases h
    exact ⟨fun _ => rfl, [], rfl, List.not_mem_nil⟩
  | case3 => cases h
  | case4 c cs plain ih =>
    rw [Option.map_eq_some_iff] at h
    obtain ⟨⟨inside, rest⟩, closed, same⟩ := h
    cases same
    obtain ⟨alone, body, rfl, noBreak⟩ := ih closed
    refine ⟨fun left => closeString?_protected plain (alone left), '\\' :: c :: body, rfl, ?_⟩
    intro mem
    rcases List.mem_cons.mp mem with slash | mem
    · cases slash
    · rcases List.mem_cons.mp mem with rfl | mem
      · exact plain rfl
      · exact noBreak mem
  | case5 => cases h
  | case6 c cs noQuote noEscape plain ih =>
    rw [Option.map_eq_some_iff] at h
    obtain ⟨⟨inside, rest⟩, closed, same⟩ := h
    cases same
    obtain ⟨alone, body, rfl, noBreak⟩ := ih closed
    have plain : ¬(c = '\n' ∨ c = '\\') := by simpa using plain
    refine ⟨fun left => closeString?_plain noQuote plain (alone left), c :: body, rfl, ?_⟩
    intro mem
    rcases List.mem_cons.mp mem with rfl | mem
    · exact plain (Or.inl rfl)
    · exact noBreak mem

namespace IsStringToken

variable {cs : List Char}

theorem iff_closeString? :
    IsStringToken cs ↔ closeString? (cs ++ ['"']) = some (cs ++ ['"'], []) := by
  unfold IsStringToken
  rw [LineStart.ofLine_quote]
  constructor
  · intro h
    cases closed : closeString? (cs ++ ['"']) with
    | none =>
      rw [closed] at h
      cases h
    | some parts =>
      obtain ⟨inside, rest⟩ := parts
      rw [closed] at h
      injection h with same ended
      rw [(List.cons.inj same).2, ended]
  · intro h
    rw [h]

theorem ofLine (h : IsStringToken cs) (rest : List Char) :
    LineStart.ofLine ('"' :: (cs ++ ['"']) ++ rest) = .token ('"' :: (cs ++ ['"'])) rest := by
  obtain ⟨alone, _⟩ := closeString?_some (iff_closeString?.mp h)
  rw [List.cons_append, LineStart.ofLine_quote, alone rest]

theorem newline_not_mem (h : IsStringToken cs) : '\n' ∉ cs := by
  obtain ⟨_, body, same, noBreak⟩ := closeString?_some (iff_closeString?.mp h)
  rw [List.append_cancel_right same]
  exact noBreak

end IsStringToken

/-- The texts that are read as one token. -/
inductive IsToken : List Char → Prop where
  | punctuation {c : Char} (h : isPunctuation c = true) : IsToken [c]
  | splice : IsToken [',', '@']
  | string {cs : List Char} (h : IsStringToken cs) : IsToken ('"' :: (cs ++ ['"']))
  | atom {cs : List Char} (h : IsAtomToken cs) : IsToken cs

theorem isAtomChar_of {c : Char} (noBlank : Text.isBlank c = false)
    (noPunctuation : isPunctuation c = false) (noQuote : c ≠ '"') (noComment : c ≠ ';') :
    isAtomChar c = true := by
  unfold isPunctuation at noPunctuation
  unfold isAtomChar isDelimiter
  rw [noBlank, noPunctuation]
  simp [noQuote, noComment]

/-- Every token that a line begins with is one of these. -/
theorem isToken_of_ofLine {line text rest : List Char}
    (h : LineStart.ofLine line = .token text rest) : IsToken text := by
  induction line with
  | nil => cases h
  | cons c line ih =>
    cases blank : Text.isBlank c with
    | true =>
      rw [LineStart.ofLine_blank blank] at h
      exact ih h
    | false =>
      unfold LineStart.ofLine at h
      rw [List.dropWhile_cons_of_neg (by rw [blank]; exact Bool.false_ne_true)] at h
      split at h
      · cases h
      · cases h
      · cases h
        exact .splice
      · split at h
        · rename_i closed
          cases h
          obtain ⟨alone, body, rfl, _⟩ := closeString?_some closed
          have whole := alone []
          rw [List.append_nil] at whole
          exact .string (IsStringToken.iff_closeString?.mpr whole)
        · cases h
      · rename_i noComment _ noQuote same
        cases same
        split at h
        · rename_i punctuation
          cases h
          exact .punctuation punctuation
        · rename_i noPunctuation
          cases h
          have first : isAtomChar c = true := by
            refine isAtomChar_of blank (Bool.eq_false_iff.mpr noPunctuation) ?_ ?_
            · rintro rfl
              exact noQuote rfl
            · rintro rfl
              exact noComment rfl
          refine .atom ⟨nofun, fun d mem => ?_⟩
          rcases List.mem_cons.mp mem with rfl | mem
          · exact first
          · exact List.all_eq_true.mp List.all_takeWhile d mem

end SmallLisp.Reader
