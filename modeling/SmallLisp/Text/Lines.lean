/-!
Two divisions of a text into lines. The reader ends a line at a newline only; the editor's cursor
counts rows, which also end at the other line breaks of Unicode and keep their break.
-/
namespace SmallLisp.Text

variable {α : Type} [DecidableEq α]

/-- Puts an element in front of the first part. -/
def extendFirst (x : α) : List (List α) → List (List α)
  | [] => [[x]]
  | part :: parts => (x :: part) :: parts

/-- The parts between the separators: one more than there are separators, so never none. -/
def splitAt (sep : α) (xs : List α) : List (List α) :=
  xs.foldr (fun x parts => if x = sep then [] :: parts else extendFirst x parts) [[]]

theorem splitAt_nil (sep : α) : splitAt sep [] = [[]] := rfl

theorem splitAt_cons (sep x : α) (xs : List α) :
    splitAt sep (x :: xs) =
      if x = sep then [] :: splitAt sep xs else extendFirst x (splitAt sep xs) := rfl

theorem splitAt_ne_nil (sep : α) (xs : List α) : splitAt sep xs ≠ [] := by
  cases xs with
  | nil => simp [splitAt_nil]
  | cons x xs =>
    rw [splitAt_cons]
    split
    · simp
    · unfold extendFirst; split <;> simp

/-- After a separator a new division begins. -/
theorem splitAt_append_sep (sep : α) (xs ys : List α) (h : sep ∉ xs) :
    splitAt sep (xs ++ sep :: ys) = xs :: splitAt sep ys := by
  induction xs with
  | nil => simp [splitAt_cons]
  | cons x xs ih =>
    have hx : x ≠ sep := fun e => h (by simp [e])
    have hxs : sep ∉ xs := fun m => h (List.mem_cons_of_mem x m)
    rw [List.cons_append, splitAt_cons, if_neg hx, ih hxs]
    rfl

theorem splitAt_of_not_mem (sep : α) (xs : List α) (h : sep ∉ xs) : splitAt sep xs = [xs] := by
  induction xs with
  | nil => rfl
  | cons x xs ih =>
    have hx : x ≠ sep := fun e => h (by simp [e])
    have hxs : sep ∉ xs := fun m => h (List.mem_cons_of_mem x m)
    rw [splitAt_cons, if_neg hx, ih hxs]
    rfl

/-- A separator ends one division and begins another. -/
theorem splitAt_append_cons (sep : α) (xs ys : List α) :
    splitAt sep (xs ++ sep :: ys) = splitAt sep xs ++ splitAt sep ys := by
  induction xs with
  | nil => simp [splitAt_cons, splitAt_nil]
  | cons x xs ih =>
    rw [List.cons_append, splitAt_cons, splitAt_cons, ih]
    split
    · rfl
    · obtain ⟨first, parts, split⟩ := List.exists_cons_of_ne_nil (splitAt_ne_nil sep xs)
      rw [split]
      rfl

/-- What comes after a text can only change its last part. -/
theorem splitAt_append_getLastD (sep : α) (xs ys : List α) :
    splitAt sep (xs ++ ys) =
      (splitAt sep xs).dropLast ++ splitAt sep ((splitAt sep xs).getLastD [] ++ ys) := by
  induction xs with
  | nil => rfl
  | cons x xs ih =>
    obtain ⟨first, parts, split⟩ := List.exists_cons_of_ne_nil (splitAt_ne_nil sep xs)
    rw [List.cons_append, splitAt_cons, splitAt_cons, ih, split]
    by_cases same : x = sep
    · rw [if_pos same, if_pos same]
      rfl
    · rw [if_neg same, if_neg same]
      cases parts with
      | nil =>
        change extendFirst x (splitAt sep (first ++ ys)) = splitAt sep (x :: first ++ ys)
        rw [List.cons_append, splitAt_cons, if_neg same]
      | cons second parts => rfl

/-- No part of a division holds the separator. -/
theorem not_mem_of_mem_splitAt (sep : α) (xs part : List α) (h : part ∈ splitAt sep xs) :
    sep ∉ part := by
  induction xs generalizing part with
  | nil =>
    rw [splitAt_nil, List.mem_singleton] at h
    subst h
    exact List.not_mem_nil
  | cons x xs ih =>
    rw [splitAt_cons] at h
    split at h
    · rcases List.mem_cons.mp h with rfl | h
      · exact List.not_mem_nil
      · exact ih part h
    · next hx =>
      cases hs : splitAt sep xs with
      | nil => exact absurd hs (splitAt_ne_nil sep xs)
      | cons first rest =>
        rw [hs, extendFirst] at h
        rcases List.mem_cons.mp h with rfl | h
        · intro m
          rcases List.mem_cons.mp m with e | m
          · exact hx e.symm
          · exact ih first (by simp [hs]) m
        · exact ih part (by simp [hs, h])

def lines (cs : List Char) : List (List Char) :=
  splitAt '\n' cs

/-- Every carriage return, alone or with a newline after it, becomes a newline. -/
def unifyBreaks : List Char → List Char
  | [] => []
  | '\r' :: '\n' :: cs => '\n' :: unifyBreaks cs
  | c :: cs => (if c = '\r' then '\n' else c) :: unifyBreaks cs

def isRowBreak (c : Char) : Bool :=
  let n := c.toNat
  (0x0a ≤ n && n ≤ 0x0d) || (0x1c ≤ n && n ≤ 0x1e) || n == 0x85 || n == 0x2028 || n == 0x2029

/-- Puts a character in front of the rows that follow it: a break ends its row, and a carriage
return joins a newline after it. -/
def consRow (c : Char) (rest : List (List Char)) : List (List Char) :=
  if c = '\r' then
    match rest with
    | ['\n'] :: below => ['\r', '\n'] :: below
    | _ => ['\r'] :: rest
  else if isRowBreak c then [c] :: rest
  else extendFirst c rest

/-- The rows of a text, each with its break. A text that ends in a break has no empty row after
it. -/
def rows (cs : List Char) : List (List Char) :=
  cs.foldr consRow []

theorem rows_cons (c : Char) (cs : List Char) : rows (c :: cs) = consRow c (rows cs) := rfl

theorem flatten_extendFirst (c : Char) (rest : List (List Char)) :
    (extendFirst c rest).flatten = c :: rest.flatten := by
  cases rest <;> simp [extendFirst]

theorem flatten_consRow (c : Char) (rest : List (List Char)) :
    (consRow c rest).flatten = c :: rest.flatten := by
  unfold consRow
  split
  · next h =>
    subst h
    split <;> simp
  · split
    · simp
    · exact flatten_extendFirst c rest

/-- The rows are the text, nothing lost. -/
theorem flatten_rows (cs : List Char) : (rows cs).flatten = cs := by
  induction cs with
  | nil => rfl
  | cons c cs ih => rw [rows_cons, flatten_consRow, ih]

end SmallLisp.Text
