import SmallLisp.Number.Layout
import SmallLisp.Number.Literal
import SmallLisp.Proofs.ShortestDecimal
/-!
# The text of numbers read back

The text of an integer is an integer literal with its value. The text of a float is a decimal literal and
no integer literal, and the value of the literal is the float, the sign of zero included.
-/
namespace SmallLisp.Number

/-- Digits only. -/
def AllDigits (cs : List Char) : Prop :=
  ∀ c ∈ cs, c.isDigit = true

/-- No digit comes next. -/
def NoDigitNext (cs : List Char) : Prop :=
  ∀ c ∈ cs.head?, c.isDigit = false

theorem natOfDigits_eq (cs : List Char) : natOfDigits cs = Nat.ofDigitChars 10 cs 0 := by
  unfold natOfDigits Nat.ofDigitChars
  congr 1
  funext n c
  rw [Nat.mul_comm]
  rfl

theorem natOfDigits_append (cs ds : List Char) :
    natOfDigits (cs ++ ds) = natOfDigits cs * 10 ^ ds.length + natOfDigits ds := by
  rw [natOfDigits_eq, natOfDigits_eq, natOfDigits_eq, Nat.ofDigitChars_append,
    Nat.ofDigitChars_eq_ofDigitChars_zero, Nat.mul_comm]

theorem natOfDigits_zeros (n : Nat) : natOfDigits (zeros n) = 0 := by
  rw [natOfDigits_eq, zeros, Nat.ofDigitChars_replicate_zero, Nat.mul_zero]

@[simp] theorem natOfDigits_natDigits (n : Nat) : natOfDigits (natDigits n) = n := by
  rw [natOfDigits_eq, natDigits, Nat.ofDigitChars_ten_toDigits]

theorem allDigits_natDigits (n : Nat) : AllDigits (natDigits n) :=
  fun _ h => Nat.isDigit_of_mem_toDigits (by norm_num) (by norm_num) h

theorem natDigits_ne_nil (n : Nat) : natDigits n ≠ [] :=
  Nat.toDigits_ne_nil

theorem allDigits_zeros (n : Nat) : AllDigits (zeros n) := by
  intro c h
  rw [(List.mem_replicate.mp h).2]
  rfl

theorem AllDigits.append {cs ds : List Char} (hcs : AllDigits cs) (hds : AllDigits ds) :
    AllDigits (cs ++ ds) := by
  intro c h
  rcases List.mem_append.mp h with h | h
  · exact hcs c h
  · exact hds c h

/-- Where a run of digits ends. -/
theorem digits_append {ds rest : List Char} (hds : AllDigits ds) (next : NoDigitNext rest) :
    (ds ++ rest).takeWhile Char.isDigit = ds ∧ (ds ++ rest).dropWhile Char.isDigit = rest := by
  rw [List.takeWhile_append_of_pos hds, List.dropWhile_append_of_pos hds]
  cases rest with
  | nil => simp
  | cons c rest =>
    have no : c.isDigit = false := next c rfl
    simp [no]

/-- Digits, a point, and digits. -/
theorem pointParts_point {ws fs rest : List Char} (hws : AllDigits ws) (hfs : AllDigits fs)
    (next : NoDigitNext rest) : pointParts (ws ++ '.' :: (fs ++ rest)) = (ws, fs, rest) := by
  have point : NoDigitNext ('.' :: (fs ++ rest)) := by
    rintro c ⟨⟩
    rfl
  obtain ⟨whole, after⟩ := digits_append hws point
  obtain ⟨fraction, left⟩ := digits_append hfs next
  unfold pointParts
  dsimp only
  rw [whole, after]
  change (ws, (fs ++ rest).takeWhile Char.isDigit, (fs ++ rest).dropWhile Char.isDigit) = _
  rw [fraction, left]

/-- Digits without a point. -/
theorem pointParts_whole {ws rest : List Char} (hws : AllDigits ws) (next : NoDigitNext rest)
    (noPoint : ∀ c ∈ rest.head?, c ≠ '.') : pointParts (ws ++ rest) = (ws, [], rest) := by
  obtain ⟨whole, after⟩ := digits_append hws next
  unfold pointParts
  dsimp only
  rw [whole, after]
  split
  · exact absurd rfl (noPoint '.' rfl)
  · rfl

theorem splitSign_signed (negative : Bool) {c : Char} (digit : c.isDigit = true) (cs : List Char) :
    splitSign (signed negative (c :: cs)) = (negative, c :: cs) := by
  cases negative with
  | true => rfl
  | false =>
    unfold signed splitSign
    split
    · rename_i same
      cases same
      cases digit
    · rename_i same
      cases same
      cases digit
    · rfl

/-- A signed run of digits. -/
theorem integerLiteral?_signed (negative : Bool) {ds : List Char} (hds : AllDigits ds)
    (nonempty : ds ≠ []) : integerLiteral? (signed negative ds) = some (negative, ds) := by
  obtain ⟨c, cs, rfl⟩ := List.exists_cons_of_ne_nil nonempty
  unfold integerLiteral?
  rw [splitSign_signed negative (hds c (by simp))]
  dsimp only
  rw [if_pos ⟨nonempty, List.all_eq_true.mpr hds⟩]

theorem intOfDigits_natAbs (n : Int) {ds : List Char} (same : natOfDigits ds = n.natAbs) :
    intOfDigits (n < 0) ds = n := by
  unfold intOfDigits
  rw [same]
  split
  · rename_i negative
    rw [decide_eq_true_eq] at negative
    omega
  · rename_i positive
    rw [decide_eq_true_eq] at positive
    omega

/-- The text of an integer is its literal. -/
theorem integerLiteral?_intText (n : Int) :
    integerLiteral? (signed (n < 0) (natDigits n.natAbs)) = some (decide (n < 0), natDigits n.natAbs) :=
  integerLiteral?_signed _ (allDigits_natDigits _) (natDigits_ne_nil _)

theorem exponentPart?_text (layout : Layout) (e : Int) :
    exponentPart? ('e' :: exponentText layout e) = some e := by
  have digits := (allDigits_zeros (layout.exponentDigits - (natDigits e.natAbs).length)).append
    (allDigits_natDigits e.natAbs)
  have split : splitSign (exponentText layout e) = (decide (e < 0),
      zeros (layout.exponentDigits - (natDigits e.natAbs).length) ++ natDigits e.natAbs) := by
    unfold exponentText
    by_cases negative : e < 0
    · simp [negative, splitSign]
    · simp [negative, splitSign]
  have value : natOfDigits (zeros (layout.exponentDigits - (natDigits e.natAbs).length) ++
      natDigits e.natAbs) = e.natAbs := by
    rw [natOfDigits_append, natOfDigits_zeros, natOfDigits_natDigits, Nat.zero_mul, Nat.zero_add]
  have literal : integerLiteral? (exponentText layout e) = some (decide (e < 0),
      zeros (layout.exponentDigits - (natDigits e.natAbs).length) ++ natDigits e.natAbs) := by
    unfold integerLiteral?
    rw [split]
    dsimp only
    rw [if_pos ⟨by simp [natDigits_ne_nil], List.all_eq_true.mpr digits⟩]
  change (integerLiteral? (exponentText layout e)).map _ = _
  rw [literal]
  exact congrArg some (intOfDigits_natAbs e value)

/-- An unsigned text that is a decimal literal with the value of a decimal, and no integer literal. -/
structure Writes (cs : List Char) (d : Decimal) : Prop where
  literal : ∃ ws fs rest e, pointParts cs = (ws, fs, rest) ∧ ws ≠ [] ∧ exponentPart? rest = some e ∧
    Decimal.value ⟨natOfDigits (ws ++ fs), e - fs.length⟩ = d.value
  start : ∃ c rest, cs = c :: rest ∧ c.isDigit = true
  mark : ∃ c ∈ cs, c.isDigit = false
  chars : ∀ c ∈ cs, c.isDigit = true ∨ c ∈ ['.', 'e', '+', '-']

theorem value_shift (c : Nat) (k : Int) (j : Nat) :
    Decimal.value ⟨c * 10 ^ j, k - j⟩ = Decimal.value ⟨c, k⟩ := by
  unfold Decimal.value
  dsimp only
  rw [zpow_sub₀ (by norm_num), zpow_natCast]
  push_cast
  field_simp

theorem noDigitNext_nil : NoDigitNext [] := nofun

/-- A text with a point. -/
theorem Writes.point {ws fs rest : List Char} {e : Int} {d : Decimal} (hws : AllDigits ws)
    (nonempty : ws ≠ []) (hfs : AllDigits fs) (next : NoDigitNext rest)
    (exponent : exponentPart? rest = some e)
    (value : Decimal.value ⟨natOfDigits (ws ++ fs), e - fs.length⟩ = d.value)
    (chars : ∀ c ∈ rest, c.isDigit = true ∨ c ∈ ['.', 'e', '+', '-']) :
    Writes (ws ++ '.' :: (fs ++ rest)) d where
  literal := ⟨ws, fs, rest, e, pointParts_point hws hfs next, nonempty, exponent, value⟩
  start := by
    obtain ⟨c, cs, rfl⟩ := List.exists_cons_of_ne_nil nonempty
    exact ⟨c, _, rfl, hws c (by simp)⟩
  mark := ⟨'.', by simp, rfl⟩
  chars := by
    intro c h
    rcases List.mem_append.mp h with h | h
    · exact Or.inl (hws c h)
    · rcases List.mem_cons.mp h with rfl | h
      · simp
      · rcases List.mem_append.mp h with h | h
        · exact Or.inl (hfs c h)
        · exact chars c h

theorem writes_positional {ds : List Char} {lead : Int} {d : Decimal} (hds : AllDigits ds)
    (nonempty : ds ≠ []) (coefficient : natOfDigits ds = d.coefficient)
    (exponent : lead = d.exponent + ds.length - 1) : Writes (positionalText ds lead) d := by
  unfold positionalText
  split
  · rename_i small
    have text : '0' :: '.' :: (zeros (-lead - 1).toNat ++ ds) =
        ['0'] ++ '.' :: ((zeros (-lead - 1).toNat ++ ds) ++ []) := by simp
    rw [text]
    refine .point (e := 0) (allDigits_zeros 1) nofun ((allDigits_zeros _).append hds)
      noDigitNext_nil rfl ?_ nofun
    have zero : natOfDigits ['0'] = 0 := rfl
    have places : (0 : Int) - ((zeros (-lead - 1).toNat ++ ds).length : Nat) = d.exponent := by
      rw [List.length_append, zeros, List.length_replicate]
      omega
    rw [natOfDigits_append, natOfDigits_append, natOfDigits_zeros, coefficient, zero, places]
    simp [Decimal.value]
  · rename_i large
    dsimp only
    split
    · rename_i short
      have text : ds ++ zeros (lead.toNat + 1 - ds.length) ++ ['.', '0'] =
          (ds ++ zeros (lead.toNat + 1 - ds.length)) ++ '.' :: (['0'] ++ []) := by simp
      rw [text]
      refine .point (e := 0) (hds.append (allDigits_zeros _)) (by simp [nonempty])
        (allDigits_zeros 1) noDigitNext_nil rfl ?_ nofun
      have zero : natOfDigits ['0'] = 0 := rfl
      have places : (0 : Int) - (['0'].length : Nat) =
          d.exponent - ((lead.toNat + 1 - ds.length + 1 : Nat) : Int) := by
        rw [List.length_singleton]
        omega
      rw [natOfDigits_append, natOfDigits_append, natOfDigits_zeros, coefficient, zero, places]
      have shift := value_shift d.coefficient d.exponent (lead.toNat + 1 - ds.length + 1)
      rw [pow_succ, ← mul_assoc] at shift
      simpa [zeros] using shift
    · rename_i long
      have text : ds.take (lead.toNat + 1) ++ '.' :: ds.drop (lead.toNat + 1) =
          ds.take (lead.toNat + 1) ++ '.' :: (ds.drop (lead.toNat + 1) ++ []) := by simp
      rw [text]
      refine .point (e := 0) (fun c h => hds c (List.mem_of_mem_take h)) (by simp [nonempty])
        (fun c h => hds c (List.mem_of_mem_drop h)) noDigitNext_nil rfl ?_ nofun
      have places : (0 : Int) - ((ds.drop (lead.toNat + 1)).length : Nat) = d.exponent := by
        rw [List.length_drop]
        omega
      rw [List.take_append_drop, coefficient, places]

theorem writes_scientific {ds : List Char} {lead : Int} {d : Decimal} (hds : AllDigits ds)
    (nonempty : ds ≠ []) (coefficient : natOfDigits ds = d.coefficient)
    (exponent : lead = d.exponent + ds.length - 1) (layout : Layout) :
    Writes (scientificText layout ds lead) d := by
  have next : NoDigitNext ('e' :: exponentText layout lead) := by
    rintro c ⟨⟩
    rfl
  have chars : ∀ c ∈ 'e' :: exponentText layout lead,
      c.isDigit = true ∨ c ∈ ['.', 'e', '+', '-'] := by
    intro c h
    rcases List.mem_cons.mp h with rfl | h
    · simp
    · unfold exponentText at h
      rcases List.mem_cons.mp h with rfl | h
      · split
        · simp
        · simp
      · exact Or.inl ((allDigits_zeros _).append (allDigits_natDigits _) c h)
  have read := exponentPart?_text layout lead
  match ds, nonempty with
  | [x], _ =>
    have digit := hds x (by simp)
    have places : lead - (([] : List Char).length : Nat) = d.exponent := by
      rw [List.length_nil]
      rw [List.length_singleton] at exponent
      omega
    refine ⟨⟨[x], [], _, lead, pointParts_whole hds next (by rintro c ⟨⟩; decide), nofun, read, ?_⟩,
      ⟨x, _, rfl, digit⟩, ⟨'e', by simp [scientificText], rfl⟩, ?_⟩
    · rw [List.append_nil, coefficient, places]
    · intro c h
      rcases List.mem_cons.mp h with rfl | h
      · exact Or.inl digit
      · exact chars c h
  | x :: y :: rest, _ =>
    have places : lead - ((y :: rest).length : Nat) = d.exponent := by
      rw [List.length_cons] at exponent
      omega
    have text : scientificText layout (x :: y :: rest) lead =
        [x] ++ '.' :: ((y :: rest) ++ 'e' :: exponentText layout lead) := rfl
    rw [text]
    refine .point (fun c h => hds c ?_) nofun (fun c h => hds c ?_) next read ?_ chars
    · rw [List.mem_singleton.mp h]
      simp
    · exact List.mem_cons_of_mem x h
    · rw [List.singleton_append, coefficient, places]

/-- The text of a positive decimal. -/
theorem writes_decimalText (layout : Layout) (d : Decimal) : Writes (decimalText layout d) d := by
  have digits := allDigits_natDigits d.coefficient
  have nonempty := natDigits_ne_nil d.coefficient
  have same := natOfDigits_natDigits d.coefficient
  unfold decimalText
  dsimp only
  split
  · exact writes_positional digits nonempty same rfl
  · exact writes_scientific digits nonempty same rfl layout

namespace Writes

variable {cs : List Char} {d : Decimal} (negative : Bool)
include negative

theorem integerLiteral? (h : Writes cs d) : integerLiteral? (signed negative cs) = none := by
  obtain ⟨c, rest, rfl, digit⟩ := h.start
  obtain ⟨mark, mem, other⟩ := h.mark
  unfold Number.integerLiteral?
  rw [splitSign_signed negative digit]
  dsimp only
  rw [if_neg]
  rintro ⟨_, all⟩
  have isDigit := List.all_eq_true.mp all mark mem
  rw [other] at isDigit
  cases isDigit

theorem decimalLiteral? (h : Writes cs d) : ∃ magnitude,
    decimalLiteral? (signed negative cs) = some ⟨negative, magnitude⟩ ∧ magnitude.value = d.value := by
  obtain ⟨c, rest, rfl, digit⟩ := h.start
  obtain ⟨ws, fs, left, e, parts, nonempty, exponent, value⟩ := h.literal
  refine ⟨_, ?_, value⟩
  unfold Number.decimalLiteral?
  rw [splitSign_signed negative digit]
  dsimp only
  rw [parts]
  dsimp only
  rw [if_neg (fun both => nonempty both.1), exponent]
  rfl

end Writes

/-- A positive decimal lies between the powers of ten beside its first digit. -/
theorem value_bounds {d : Decimal} (positive : 0 < d.coefficient) :
    (10 : ℚ) ^ ((Decimal.digitCount d.coefficient : Int) + d.exponent - 1) ≤ d.value ∧
      d.value < 10 ^ ((Decimal.digitCount d.coefficient : Int) + d.exponent) := by
  obtain ⟨low, high⟩ := Decimal.digitCount_rat positive
  have ten : (0 : ℚ) < 10 ^ d.exponent := by positivity
  unfold Decimal.value
  constructor
  · rw [show (Decimal.digitCount d.coefficient : Int) + d.exponent - 1 =
      ((Decimal.digitCount d.coefficient : Int) - 1) + d.exponent by ring, zpow_add₀ (by norm_num)]
    gcongr
  · rw [zpow_add₀ (by norm_num)]
    gcongr

theorem two_pow_lt_ten_pow : (2 : ℚ) ^ 1024 < 10 ^ 310 ∧ (2 : ℚ) ^ 1075 < 10 ^ 331 := by
  have block : (2 : ℚ) ^ 93 ≤ 10 ^ 28 := by norm_num
  have blocks : ((2 : ℚ) ^ 93) ^ 11 ≤ (10 ^ 28) ^ 11 := pow_le_pow_left₀ (by positivity) block 11
  rw [← pow_mul, ← pow_mul] at blocks
  constructor
  · calc (2 : ℚ) ^ 1024 = 2 ^ (93 * 11) * 2 ^ 1 := by rw [← pow_add]
      _ ≤ 10 ^ (28 * 11) * 2 ^ 1 := by gcongr
      _ < 10 ^ (28 * 11) * 10 ^ 2 := by gcongr; norm_num
      _ = 10 ^ 310 := by rw [← pow_add]
  · calc (2 : ℚ) ^ 1075 = 2 ^ (93 * 11) * 2 ^ 52 := by rw [← pow_add]
      _ ≤ 10 ^ (28 * 11) * 2 ^ 52 := by gcongr
      _ < 10 ^ (28 * 11) * 10 ^ 23 := by gcongr; norm_num
      _ = 10 ^ 331 := by rw [← pow_add]

/-- The neighbourhoods of doubles are within the range of exponents that reading looks at. -/
theorem holds_bounds {m : Nat} {e : Int} {x : ℚ} (double : IsDouble m e) (positive : 0 < m)
    (h : (Neighbourhood.ofFinite m e).Holds x) : (10 : ℚ) ^ (-331 : Int) < x ∧ x < 10 ^ 310 := by
  obtain ⟨nearest, _⟩ := h.nearest positive
  have back := scaled_back x e
  have one : (1 : ℚ) ≤ m := by exact_mod_cast positive
  have limit : (m : ℚ) + 1 ≤ 2 ^ 53 := by exact_mod_cast double.mantissa_lt
  have half : 1 / 2 ≤ x * 2 ^ (-e) := by linarith only [nearest.above, one]
  have top : x * 2 ^ (-e) ≤ 2 ^ 53 := by linarith only [nearest.below, limit]
  have least : (2 : ℚ) ^ (-1074 : Int) ≤ 2 ^ e := zpow_le_zpow_right₀ (by norm_num) double.least
  have most : (2 : ℚ) ^ e ≤ 2 ^ (971 : Int) := zpow_le_zpow_right₀ (by norm_num) double.most
  generalize x * 2 ^ (-e) = y at *
  subst back
  constructor
  · calc (10 : ℚ) ^ (-331 : Int) = (10 ^ 331)⁻¹ := by rw [zpow_neg]; rfl
      _ < (2 ^ 1075)⁻¹ := by
        rw [inv_lt_inv₀ (by positivity) (by positivity)]
        exact two_pow_lt_ten_pow.2
      _ = 1 / 2 * 2 ^ (-1074 : Int) := by
        rw [zpow_neg, pow_succ, mul_inv, one_div, mul_comm]
        rfl
      _ ≤ y * 2 ^ e := mul_le_mul half least (by positivity) (by linarith only [half])
  · calc y * 2 ^ e ≤ 2 ^ 53 * 2 ^ (971 : Int) :=
          mul_le_mul top most (by positivity) (by positivity)
      _ = 2 ^ 1024 := by
        rw [show (971 : Int) = ((971 : Nat) : Int) from rfl, zpow_natCast, ← pow_add]
      _ < 10 ^ 310 := two_pow_lt_ten_pow.1

theorem toFloat_of_holds {m : Nat} {e : Int} {d : Decimal} (negative : Bool) (double : IsDouble m e)
    (positive : 0 < m) (h : (Neighbourhood.ofFinite m e).Holds d.value) :
    DecimalLiteral.toFloat ⟨negative, d⟩ =
      Float.ofBits (.ofNat (signedBits negative (magnitudeBits m e))) := by
  have some := Decimal.coefficient_pos positive h
  obtain ⟨low, high⟩ := holds_bounds double positive h
  obtain ⟨first, after⟩ := value_bounds some
  have lead : -331 < (Decimal.digitCount d.coefficient : Int) + d.exponent :=
    (zpow_lt_zpow_iff_right₀ (by norm_num : (1 : ℚ) < 10)).mp (low.trans after)
  have lead' : (Decimal.digitCount d.coefficient : Int) + d.exponent - 1 < 310 :=
    (zpow_lt_zpow_iff_right₀ (by norm_num : (1 : ℚ) < 10)).mp
      (first.trans_lt (high.trans_eq (zpow_natCast 10 310).symm))
  have num : (Ratio.ofDecimal d.coefficient d.exponent).num ≠ 0 := by
    unfold Ratio.ofDecimal
    split
    · exact (Nat.mul_pos some (tenTo_pos _)).ne'
    · exact some.ne'
  have bits : (Ratio.ofDecimal d.coefficient d.exponent).nearestBits = magnitudeBits m e := by
    refine nearestBits_of_holds double positive (Ratio.den_ofDecimal _ _) num ?_
    rw [Ratio.value_ofDecimal]
    exact h
  unfold DecimalLiteral.toFloat
  dsimp only
  rw [if_neg (by omega), if_neg (by omega)]
  unfold Ratio.toFloat?
  dsimp only
  rw [bits, if_neg (Nat.not_le.mpr (magnitudeBits_lt double))]
  rfl

/-- The characters of numbers. -/
def IsNumeral (cs : List Char) : Prop :=
  cs ≠ [] ∧ ∀ c ∈ cs, c.isDigit = true ∨ c ∈ ['.', 'e', '+', '-']

theorem isNumeral_signed (negative : Bool) {cs : List Char} (h : IsNumeral cs) :
    IsNumeral (signed negative cs) := by
  cases negative with
  | true =>
    refine ⟨nofun, fun c mem => ?_⟩
    rcases List.mem_cons.mp mem with rfl | mem
    · simp
    · exact h.2 c mem
  | false => exact h

theorem AllDigits.isNumeral {ds : List Char} (h : AllDigits ds) (nonempty : ds ≠ []) :
    IsNumeral ds :=
  ⟨nonempty, fun c mem => Or.inl (h c mem)⟩

theorem Writes.isNumeral {cs : List Char} {d : Decimal} (h : Writes cs d) : IsNumeral cs := by
  obtain ⟨c, rest, rfl, _⟩ := h.start
  exact ⟨nofun, h.chars⟩

/-- What the text of a float is for the reader: a decimal literal with the float for its value. -/
structure IsTextOf (cs : List Char) (x : Float) : Prop where
  numeral : IsNumeral cs
  notInteger : integerLiteral? cs = none
  literal : ∃ d, decimalLiteral? cs = some d ∧ d.toFloat = x

theorem isTextOf_infinity (negative : Bool) :
    IsTextOf (signed negative Layout.source.infinity.toList) (infinity negative) := by
  have word : Layout.source.infinity.toList = ['1', 'e', '9', '9', '9'] := rfl
  rw [word]
  refine ⟨isNumeral_signed _ ⟨nofun, by simp⟩, ?_, ⟨negative, ⟨1, 999⟩⟩, ?_, ?_⟩
  · cases negative with
    | true => decide
    | false => decide
  · cases negative with
    | true => rfl
    | false => rfl
  · have count : Decimal.digitCount 1 = 1 := rfl
    unfold DecimalLiteral.toFloat
    dsimp only
    rw [count, if_neg (by omega), if_pos (by omega)]

theorem isTextOf_zero (negative : Bool) : IsTextOf (signed negative ['0', '.', '0']) (zero negative) := by
  refine ⟨isNumeral_signed _ ⟨nofun, by simp⟩, ?_, ⟨negative, ⟨0, -1⟩⟩, ?_, ?_⟩
  · cases negative with
    | true => decide
    | false => decide
  · cases negative with
    | true => rfl
    | false => rfl
  · unfold DecimalLiteral.toFloat
    dsimp only
    rw [if_pos (Or.inl rfl)]

/-- The source text of a float reads back as the float. -/
theorem isTextOf_float {x : Float} (number : x.isNaN = false) :
    IsTextOf (floatText .source x).toList x := by
  unfold floatText
  rw [String.toList_ofList]
  cases parts : Binary64.ofFloat x with
  | nan =>
    rw [isNaN_iff.mpr parts] at number
    cases number
  | infinite negative =>
    rw [eq_of_infinite parts]
    exact isTextOf_infinity negative
  | finite negative m e =>
    obtain ⟨double, bits⟩ := eq_of_finite parts
    unfold binary64Text
    dsimp only
    split
    · rename_i none
      have least : e = -1074 := double.normal.resolve_left (by omega)
      have same : x = zero negative := by
        rw [bits, none, least]
        cases negative with
        | true => rfl
        | false => rfl
      rw [same]
      exact isTextOf_zero negative
    · rename_i some
      have holds := Decimal.shortest_holds double (Nat.pos_of_ne_zero some)
      have writes := writes_decimalText .source (Decimal.shortest m e)
      obtain ⟨magnitude, literal, value⟩ := writes.decimalLiteral? negative
      refine ⟨isNumeral_signed _ writes.isNumeral, writes.integerLiteral? negative, _, literal, ?_⟩
      rw [bits]
      refine toFloat_of_holds negative double (Nat.pos_of_ne_zero some) ?_
      rw [value]
      exact holds

/-- What a literal stands for is a number. -/
theorem isNaN_toFloat (d : DecimalLiteral) : d.toFloat.isNaN = false := by
  have noNaN (bits : Nat) (h : bits ≤ Ratio.infinityBits) := isNaN_ofBits d.negative h
  have whole : (infinity d.negative).isNaN = false := noNaN Ratio.infinityBits le_rfl
  have none : (zero d.negative).isNaN = false := by
    have bits := noNaN 0 (Nat.zero_le _)
    rwa [signedBits, Nat.zero_add] at bits
  unfold DecimalLiteral.toFloat
  dsimp only
  split
  · exact none
  · split
    · exact whole
    · unfold Ratio.toFloat?
      dsimp only
      split
      · exact whole
      · rename_i inside
        exact noNaN _ (Nat.le_of_not_le inside)

end SmallLisp.Number
