import Mathlib.Combinatorics.Enumerative.DyckWord
import SmallLisp.Proofs.ErrorPlaces
/-!
# The parentheses without a partner

Matching pairs can be cancelled from the parentheses of a text, one after another and in any order, and what is
left in the end is always the same: closing parentheses, and opening ones behind them. These are the parentheses
that the index reports; all others make a balanced word.
-/
namespace SmallLisp.Editor

open Relation

def Lexeme.isParenthesis (t : Lexeme) : Bool :=
  t.isOpen || t.isClose

/-- The parentheses among lexemes. -/
def parentheses (ts : List Lexeme) : List Lexeme :=
  ts.filter Lexeme.isParenthesis

/-- An opening parenthesis and a closing one right behind it are taken out. -/
inductive Cancels : List Lexeme → List Lexeme → Prop where
  | pair {opening closing : Lexeme} (before after : List Lexeme) (isOpen : opening.isOpen = true)
      (isClose : closing.isClose = true) : Cancels (before ++ opening :: closing :: after) (before ++ after)

/-- What is left of some parentheses when pairs are cancelled until there is none. -/
def Leaves (ps rest : List Lexeme) : Prop :=
  ReflTransGen Cancels ps rest ∧ ∀ less, ¬ Cancels rest less

/-- A parenthesis as a step of a word. -/
def Lexeme.dyckStep (t : Lexeme) : DyckStep :=
  if t.isOpen then .U else .D

variable {t opening closing : Lexeme} {ts ps qs rest : List Lexeme}

/-! ## Cancelling -/

theorem not_isOpen_of_isClose (isClose : t.isClose = true) : t.isOpen = false := by
  have text : t.text = [')'] := beq_iff_eq.mp isClose
  simp [Lexeme.isOpen, text]

theorem Cancels.append (h : Cancels ps qs) (more : List Lexeme) : Cancels (ps ++ more) (qs ++ more) := by
  cases h with
  | pair before after isOpen isClose =>
    simpa using Cancels.pair before (after ++ more) isOpen isClose

theorem Cancels.sublist (h : Cancels ps qs) : qs.Sublist ps := by
  cases h with
  | pair before after _ _ =>
    exact (List.Sublist.refl before).append (List.sublist_append_right [_, _] after)

theorem sublist_of_cancels (h : ReflTransGen Cancels ps rest) : rest.Sublist ps := by
  induction h with
  | refl => exact List.Sublist.refl ps
  | tail _ step ih => exact step.sublist.trans ih

/-- A pair that is cancelled counts for nothing. -/
theorem Cancels.count (h : Cancels ps qs) :
    (ps.countP Lexeme.isOpen : Int) - ps.countP Lexeme.isClose =
      qs.countP Lexeme.isOpen - qs.countP Lexeme.isClose := by
  cases h with
  | @pair opening closing before after isOpen isClose =>
    have notClose : opening.isClose = false := by
      by_contra close
      rw [not_isOpen_of_isClose (by simpa using close)] at isOpen
      cases isOpen
    have notOpen := not_isOpen_of_isClose isClose
    simp only [List.countP_append, List.countP_cons, isOpen, isClose, notClose, notOpen, if_true,
      Bool.false_eq_true, if_false]
    omega

theorem count_of_cancels (h : ReflTransGen Cancels ps rest) :
    (ps.countP Lexeme.isOpen : Int) - ps.countP Lexeme.isClose =
      rest.countP Lexeme.isOpen - rest.countP Lexeme.isClose := by
  induction h with
  | refl => rfl
  | tail _ step ih => exact ih.trans step.count

/-! ## The scan -/

/-- Parentheses without a partner so far: closing ones, and opening ones that may still get one. -/
structure Unpaired where
  closes : List Lexeme
  opens : List Lexeme

namespace Unpaired

def none : Unpaired := ⟨[], []⟩

def all (u : Unpaired) : List Lexeme :=
  u.closes ++ u.opens

/-- A closing parenthesis is the partner of the last opening one. -/
def next (u : Unpaired) (t : Lexeme) : Unpaired :=
  if t.isOpen then { u with opens := u.opens ++ [t] }
  else if t.isClose then
    if u.opens = [] then { u with closes := u.closes ++ [t] } else { u with opens := u.opens.dropLast }
  else u

def after (u : Unpaired) (ts : List Lexeme) : Unpaired :=
  ts.foldl next u

/-- Each parenthesis is of its kind. -/
structure Sorted (u : Unpaired) : Prop where
  closes : ∀ t ∈ u.closes, t.isClose = true
  opens : ∀ t ∈ u.opens, t.isOpen = true

variable {u : Unpaired}

theorem next_open (u : Unpaired) (isOpen : t.isOpen = true) : u.next t = { u with opens := u.opens ++ [t] } := by
  rw [next, if_pos isOpen]

theorem next_close_stray (isClose : t.isClose = true) (empty : u.opens = []) :
    u.next t = { u with closes := u.closes ++ [t] } := by
  simp [next, not_isOpen_of_isClose isClose, isClose, empty]

theorem next_close_last (isClose : t.isClose = true) (split : u.opens = qs ++ [opening]) :
    u.next t = { u with opens := qs } := by
  simp [next, not_isOpen_of_isClose isClose, isClose, split]

theorem next_other (u : Unpaired) (notOpen : t.isOpen = false) (notClose : t.isClose = false) : u.next t = u := by
  simp [next, notOpen, notClose]

theorem Sorted.next (h : u.Sorted) (t : Lexeme) : (u.next t).Sorted := by
  cases isOpen : t.isOpen with
  | true =>
    rw [next_open u isOpen]
    refine ⟨h.closes, fun s mem => ?_⟩
    rcases List.mem_append.mp mem with mem | mem
    · exact h.opens s mem
    · exact List.mem_singleton.mp mem ▸ isOpen
  | false =>
    cases isClose : t.isClose with
    | false => rwa [next_other u isOpen isClose]
    | true =>
      rcases List.eq_nil_or_concat' u.opens with empty | ⟨qs, opening, split⟩
      · rw [next_close_stray isClose empty]
        refine ⟨fun s mem => ?_, h.opens⟩
        rcases List.mem_append.mp mem with mem | mem
        · exact h.closes s mem
        · exact List.mem_singleton.mp mem ▸ isClose
      · rw [next_close_last isClose split]
        exact ⟨h.closes, fun s mem => h.opens s (by rw [split]; exact List.mem_append_left _ mem)⟩

theorem Sorted.after (h : u.Sorted) (ts : List Lexeme) : (u.after ts).Sorted := by
  induction ts generalizing u with
  | nil => exact h
  | cons t ts ih => exact ih (h.next t)

/-- A step of the scan adds the parenthesis or cancels it with the last opening one. -/
theorem cancels_next (h : u.Sorted) (paren : t.isOpen = true ∨ t.isClose = true) :
    ReflTransGen Cancels (u.all ++ [t]) (u.next t).all := by
  by_cases isOpen : t.isOpen = true
  · rw [next_open u isOpen, all, all, List.append_assoc]
  · have isClose : t.isClose = true := paren.resolve_left isOpen
    rcases List.eq_nil_or_concat' u.opens with empty | ⟨qs, opening, split⟩
    · rw [next_close_stray isClose empty, all, all, empty, List.append_nil, List.append_nil]
    · have last : opening.isOpen = true := h.opens opening (by rw [split]; simp)
      have pair := Cancels.pair (u.closes ++ qs) [] last isClose
      rw [next_close_last isClose split, all, all, split]
      refine ReflTransGen.single ?_
      simpa using pair

/-- Pairs can be cancelled until those are left that the scan finds. -/
theorem cancels_after (h : u.Sorted) (parens : ∀ t ∈ ps, t.isOpen = true ∨ t.isClose = true) :
    ReflTransGen Cancels (u.all ++ ps) (u.after ps).all := by
  induction ps generalizing u with
  | nil =>
    rw [List.append_nil]
    exact ReflTransGen.refl
  | cons t ps ih =>
    have first : ReflTransGen Cancels (u.all ++ [t] ++ ps) ((u.next t).all ++ ps) :=
      ReflTransGen.lift (· ++ ps) (fun _ _ step => step.append ps) _ _ (cancels_next h (parens t (by simp)))
    have others := ih (h.next t) fun s mem => parens s (List.mem_cons_of_mem t mem)
    rw [List.append_assoc, List.singleton_append] at first
    exact first.trans others

/-- A pair leaves the scan where it was. -/
theorem after_of_cancels (u : Unpaired) (h : Cancels ps qs) : u.after ps = u.after qs := by
  cases h with
  | @pair opening closing before after isOpen isClose =>
    have pair : ((u.after before).next opening).next closing = u.after before := by
      rw [next_open _ isOpen, next_close_last isClose rfl]
    unfold Unpaired.after at pair ⊢
    rw [List.foldl_append, List.foldl_append, List.foldl_cons, List.foldl_cons, pair]

/-- A closing parenthesis behind no opening one, and an opening one before no closing one, have no partner. -/
theorem Sorted.not_cancels (h : u.Sorted) : ¬ Cancels u.all qs := by
  have apart : u.all.Pairwise fun s t => ¬ (s.isOpen = true ∧ t.isClose = true) := by
    refine List.pairwise_append.mpr ⟨?_, ?_, ?_⟩
    · refine List.pairwise_of_forall_mem_list fun s mem t _ both => ?_
      rw [not_isOpen_of_isClose (h.closes s mem)] at both
      exact absurd both.1 Bool.false_ne_true
    · refine List.pairwise_of_forall_mem_list fun s _ t mem both => ?_
      have no := not_isOpen_of_isClose both.2
      rw [h.opens t mem] at no
      cases no
    · intro s mem t _ both
      rw [not_isOpen_of_isClose (h.closes s mem)] at both
      exact absurd both.1 Bool.false_ne_true
  intro cancels
  generalize u.all = ps at apart cancels
  cases cancels with
  | pair before after isOpen isClose =>
    have ends := (List.pairwise_append.mp apart).2.1
    exact (List.pairwise_cons.mp ends).1 _ List.mem_cons_self ⟨isOpen, isClose⟩

theorem none_sorted : none.Sorted :=
  ⟨nofun, nofun⟩

end Unpaired

/-- However pairs are cancelled, the same parentheses are left. -/
theorem leaves_iff (parens : ∀ t ∈ ps, t.isOpen = true ∨ t.isClose = true) :
    Leaves ps rest ↔ rest = (Unpaired.none.after ps).all := by
  have sorted := Unpaired.none_sorted.after ps
  constructor
  · rintro ⟨cancels, stuck⟩
    have same : Unpaired.none.after ps = Unpaired.none.after rest := by
      clear stuck sorted parens
      induction cancels with
      | refl => rfl
      | tail _ step ih => exact ih.trans (Unpaired.none.after_of_cancels step)
    have within (t : Lexeme) (mem : t ∈ rest) := parens t ((sublist_of_cancels cancels).subset mem)
    have last : ReflTransGen Cancels rest (Unpaired.none.after rest).all :=
      Unpaired.cancels_after Unpaired.none_sorted within
    rw [same]
    rcases ReflTransGen.cases_head last with done | ⟨less, step, _⟩
    · exact done
    · exact absurd step (stuck less)
  · rintro rfl
    exact ⟨Unpaired.cancels_after Unpaired.none_sorted parens, fun _ => sorted.not_cancels⟩

/-! ## The others -/

/-- A pair may be put anywhere into a balanced word. -/
theorem exists_dyckWord_insert {us vs : List DyckStep} (w : DyckWord) (split : w.toList = us ++ vs) :
    ∃ w' : DyckWord, w'.toList = us ++ .U :: .D :: vs := by
  have total := w.count_U_eq_count_D
  have partial' := w.count_D_le_count_U
  rw [split] at total partial'
  refine ⟨⟨us ++ .U :: .D :: vs, ?_, fun i => ?_⟩, rfl⟩
  · simp only [List.count_append] at total
    simp only [List.count_append, List.count_cons_self, List.count_cons_of_ne (show DyckStep.U ≠ .D by decide),
      List.count_cons_of_ne (show DyckStep.D ≠ .U by decide)]
    omega
  · by_cases early : i ≤ us.length
    · have prefix' := partial' i
      rwa [List.take_append_of_le_length early] at prefix' ⊢
    · obtain ⟨j, rfl⟩ : ∃ j, i = us.length + (j + 1) := ⟨i - us.length - 1, by omega⟩
      have prefix' := partial' (us.length + (j - 1))
      rw [List.take_length_add_append] at prefix' ⊢
      simp only [List.count_append] at prefix' ⊢
      cases j with
      | zero => simp at prefix' ⊢; omega
      | succ j => simp at prefix' ⊢; omega

/-- The parentheses that are cancelled make a balanced word. -/
theorem exists_dyckWord_cancelled (h : ReflTransGen Cancels ps rest) (distinct : ps.Nodup) :
    ∃ w : DyckWord, w.toList = (ps.filter fun t => t ∉ rest).map Lexeme.dyckStep := by
  induction h using ReflTransGen.head_induction_on with
  | refl =>
    have nothing : (rest.filter fun t => t ∉ rest) = [] := by simp
    exact ⟨⟨[], rfl, by simp⟩, by rw [nothing, List.map_nil]⟩
  | head step more ih =>
    obtain ⟨w, word⟩ := ih (step.sublist.nodup distinct)
    have kept := (sublist_of_cancels more).subset
    cases step with
    | @pair opening closing before after isOpen isClose =>
      have notOpen := not_isOpen_of_isClose isClose
      have apart : opening ∉ before ++ after ∧ closing ∉ before ++ after := by
        have moved : (opening :: closing :: (before ++ after)).Nodup :=
          (List.perm_middle.trans (List.Perm.cons _ List.perm_middle)).nodup_iff.mp distinct
        rw [List.nodup_cons, List.nodup_cons, List.mem_cons, not_or] at moved
        exact ⟨moved.1.2, moved.2.1⟩
      have firstKept : opening ∉ rest := fun mem => apart.1 (kept mem)
      have secondKept : closing ∉ rest := fun mem => apart.2 (kept mem)
      rw [List.filter_append, List.map_append] at word
      obtain ⟨w', word'⟩ := exists_dyckWord_insert w word
      refine ⟨w', ?_⟩
      simp only [word', List.filter_append, List.filter_cons, firstKept, secondKept, not_false_iff, decide_true,
        if_true, List.map_append, List.map_cons, Lexeme.dyckStep, isOpen, notOpen, Bool.false_eq_true, if_false]

/-! ## The index -/

/-- The scan of the index has found the parentheses without a partner. -/
structure Progress.Tracks (progress : Progress) (u : Unpaired) : Prop where
  closes : progress.strayCloses = u.closes.map Lexeme.place
  opens : progress.opens.reverse = u.opens.map Lexeme.place

namespace Progress.Tracks

variable {progress : Progress} {u : Unpaired}

theorem step (h : progress.Tracks u) (noParen : t.isOpenString = true → t.isOpen = false ∧ t.isClose = false)
    (rest : List Lexeme) : (progress.step t rest).Tracks (u.next t) := by
  unfold Progress.step
  cases openString : t.isOpenString with
  | true =>
    obtain ⟨notOpen, notClose⟩ := noParen openString
    rw [u.next_other notOpen notClose]
    exact ⟨h.closes, h.opens⟩
  | false =>
    cases isOpen : t.isOpen with
    | true =>
      rw [u.next_open isOpen]
      exact ⟨h.closes, by simp [h.opens]⟩
    | false =>
      cases isClose : t.isClose with
      | false =>
        rw [u.next_other isOpen isClose]
        exact ⟨h.closes, h.opens⟩
      | true =>
        have places := congrArg List.reverse h.opens
        rw [List.reverse_reverse] at places
        rcases List.eq_nil_or_concat' u.opens with empty | ⟨qs, opening, split⟩
        · rw [empty, List.map_nil, List.reverse_nil] at places
          rw [Unpaired.next_close_stray isClose empty]
          simp only [places]
          exact ⟨by simp [h.closes], by simp [empty]⟩
        · rw [split, List.map_append, List.reverse_append] at places
          rw [Unpaired.next_close_last isClose split]
          simp only [places]
          exact ⟨h.closes, by simp⟩

theorem run (h : progress.Tracks u)
    (noParen : ∀ t ∈ ts, t.isOpenString = true → t.isOpen = false ∧ t.isClose = false) :
    (progress.run ts).Tracks (u.after ts) := by
  induction ts generalizing progress u with
  | nil => exact h
  | cons t ts ih =>
    have first := h.step (noParen t List.mem_cons_self) ts
    exact ih first fun s mem => noParen s (List.mem_cons_of_mem t mem)

end Progress.Tracks

/-- What is no parenthesis does not matter. -/
theorem Unpaired.after_parentheses (u : Unpaired) (ts : List Lexeme) : u.after (parentheses ts) = u.after ts := by
  induction ts generalizing u with
  | nil => rfl
  | cons t ts ih =>
    by_cases paren : t.isParenthesis = true
    · rw [parentheses, List.filter_cons_of_pos paren]
      exact ih (u.next t)
    · rw [parentheses, List.filter_cons_of_neg paren]
      rw [Lexeme.isParenthesis, Bool.or_eq_true, not_or, Bool.not_eq_true, Bool.not_eq_true] at paren
      have same : u.after (t :: ts) = u.after ts := congrArg (·.after ts) (u.next_other paren.1 paren.2)
      rw [same]
      exact ih u

theorem Lexed.noParen {place : Position} {cs : List Char} (h : Lexed place cs ts) :
    ∀ t ∈ ts, t.isOpenString = true → t.isOpen = false ∧ t.isClose = false := by
  intro t mem openString
  have quote := h.isString t mem openString
  constructor
  · by_contra isOpen
    rw [Bool.not_eq_false] at isOpen
    have text : t.text = ['('] := beq_iff_eq.mp isOpen
    simp [Lexeme.isString, text] at quote
  · by_contra isClose
    rw [Bool.not_eq_false] at isClose
    have text : t.text = [')'] := beq_iff_eq.mp isClose
    simp [Lexeme.isString, text] at quote

/-- The parentheses without a partner in a text. -/
def unpairedIn (text : String) : Unpaired :=
  Unpaired.none.after (parentheses (scan text.toList))

/-- The index has the places of the parentheses without a partner. -/
theorem index_unpaired (text : String) :
    (Index.ofText text).strayCloses = (unpairedIn text).closes.map Lexeme.place ∧
      (Index.ofText text).unclosed = (unpairedIn text).opens.map Lexeme.place := by
  have start : Progress.start.Tracks Unpaired.none := ⟨rfl, rfl⟩
  have found := start.run (lexed_scan text.toList).noParen
  unfold unpairedIn
  rw [Unpaired.after_parentheses]
  exact ⟨found.closes, found.opens⟩

theorem mem_parentheses {t : Lexeme} : t ∈ parentheses ts ↔ t ∈ ts ∧ (t.isOpen = true ∨ t.isClose = true) := by
  rw [parentheses, List.mem_filter, Lexeme.isParenthesis, Bool.or_eq_true]

theorem unpairedIn_sorted (text : String) : (unpairedIn text).Sorted :=
  Unpaired.none_sorted.after _

theorem cancels_unpairedIn (text : String) :
    ReflTransGen Cancels (parentheses (scan text.toList)) (unpairedIn text).all :=
  Unpaired.cancels_after Unpaired.none_sorted fun _ mem => (mem_parentheses.mp mem).2

/-- The parentheses of a text without a partner stand in text order. -/
theorem unpairedIn_sublist (text : String) : (unpairedIn text).all.Sublist (scan text.toList) :=
  (sublist_of_cancels (cancels_unpairedIn text)).trans List.filter_sublist

theorem Unpaired.Sorted.count {u : Unpaired} (h : u.Sorted) :
    (u.all.countP Lexeme.isOpen : Int) - u.all.countP Lexeme.isClose = u.opens.length - u.closes.length := by
  have closes : u.closes.countP Lexeme.isOpen = 0 :=
    List.countP_eq_zero.mpr fun t mem => by simp [not_isOpen_of_isClose (h.closes t mem)]
  have opens : u.opens.countP Lexeme.isClose = 0 := by
    refine List.countP_eq_zero.mpr fun t mem isClose => ?_
    have no := not_isOpen_of_isClose isClose
    rw [h.opens t mem] at no
    cases no
  rw [Unpaired.all, List.countP_append, List.countP_append, closes, opens, List.countP_eq_length.mpr h.opens,
    List.countP_eq_length.mpr h.closes]
  omega

/-- For every text, the index reports the closing and the opening parentheses that are left of its parentheses when
matching pairs are cancelled until there is none, in text order and the closing ones first. All others make a
balanced word, and the balance of the index is the difference of the two counts. -/
theorem index_reports_unpaired (text : String) :
    ∃ closes opens : List Lexeme,
      (Index.ofText text).strayCloses = closes.map Lexeme.place ∧
      (Index.ofText text).unclosed = opens.map Lexeme.place ∧
      (∀ t ∈ closes, t.isClose = true) ∧ (∀ t ∈ opens, t.isOpen = true) ∧
      (closes ++ opens).Sublist (parentheses (scan text.toList)) ∧
      ((closes ++ opens).Pairwise fun t u => t.place.order < u.place.order) ∧
      (∀ rest, Leaves (parentheses (scan text.toList)) rest ↔ rest = closes ++ opens) ∧
      (∃ w : DyckWord, w.toList =
        ((parentheses (scan text.toList)).filter fun t => t ∉ closes ++ opens).map Lexeme.dyckStep) ∧
      (Index.ofText text).balance = (parentheses (scan text.toList)).countP Lexeme.isOpen -
        (parentheses (scan text.toList)).countP Lexeme.isClose := by
  have ordered := (lexed_scan text.toList).ordered.2
  have sorted := unpairedIn_sorted text
  have cancels := cancels_unpairedIn text
  obtain ⟨strays, unclosed⟩ := index_unpaired text
  refine ⟨(unpairedIn text).closes, (unpairedIn text).opens, strays, unclosed, sorted.closes, sorted.opens,
    sublist_of_cancels cancels, ordered.sublist (unpairedIn_sublist text), ?_, ?_, ?_⟩
  · exact fun rest => leaves_iff fun _ mem => (mem_parentheses.mp mem).2
  · have distinct : (scan text.toList).Nodup := ordered.imp fun before same => (same ▸ before).false
    exact exists_dyckWord_cancelled cancels (distinct.filter _)
  · rw [count_of_cancels cancels, sorted.count, Index.balance, strays, unclosed, List.length_map, List.length_map]

end SmallLisp.Editor
