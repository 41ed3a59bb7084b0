/-!
Symbols and the tables that intern them. A table makes one symbol per name and keeps it; the core
symbols belong to no table and are shared by all. Two symbols are equal when their names are, and the
same object when they also have the same home.
-/
namespace SmallLisp

/-- The names that expansion and evaluation know. -/
def coreNames : List String :=
  ["quote", "if", "set!", "define", "lambda", "begin", "define-macro", "quasiquote", "unquote",
    "unquote-splicing", "append", "cons", "let"]

/-- A symbol object; `home` is the table that made it, none for a core symbol. -/
structure Symbol where
  name : String
  home : Option Nat
  deriving DecidableEq, Repr

/-- The names interned so far besides the core names, the newest first. -/
structure SymbolTable where
  id : Nat
  added : List String := []
  deriving Repr

namespace SymbolTable

def contains (t : SymbolTable) (name : String) : Bool :=
  coreNames.contains name || t.added.contains name

def size (t : SymbolTable) : Nat :=
  coreNames.length + t.added.length

def intern (t : SymbolTable) (name : String) : Symbol × SymbolTable :=
  if coreNames.contains name then (⟨name, none⟩, t)
  else (⟨name, some t.id⟩, if t.added.contains name then t else { t with added := name :: t.added })

theorem intern_name (t : SymbolTable) (name : String) : (t.intern name).1.name = name := by
  unfold intern; split <;> rfl

theorem contains_intern (t : SymbolTable) (name other : String) :
    (t.intern name).2.contains other = (other == name || t.contains other) := by
  by_cases core : coreNames.contains name = true
  · rw [show (t.intern name).2 = t by simp only [intern, core, if_true]]
    by_cases h : other = name
    · subst h; simp only [contains, core, Bool.true_or, Bool.or_true]
    · rw [beq_false_of_ne h, Bool.false_or]
  · rw [Bool.not_eq_true] at core
    by_cases added : t.added.contains name = true
    · rw [show (t.intern name).2 = t by simp only [intern, core, added, if_true]; rfl]
      by_cases h : other = name
      · subst h; simp only [contains, added, Bool.or_true]
      · rw [beq_false_of_ne h, Bool.false_or]
    · rw [Bool.not_eq_true] at added
      rw [show (t.intern name).2 = { t with added := name :: t.added } by
        simp only [intern, core, added]; rfl]
      simp only [contains, List.contains_cons]
      rw [Bool.or_left_comm]

/-- A table grows by one with each new name. -/
theorem size_intern (t : SymbolTable) (name : String) :
    (t.intern name).2.size = if t.contains name then t.size else t.size + 1 := by
  by_cases core : coreNames.contains name = true
  · rw [show (t.intern name).2 = t by simp only [intern, core, if_true],
      show t.contains name = true by simp only [contains, core, Bool.true_or]]
    rfl
  · rw [Bool.not_eq_true] at core
    by_cases added : t.added.contains name = true
    · rw [show (t.intern name).2 = t by simp only [intern, core, added, if_true]; rfl,
        show t.contains name = true by simp only [contains, added, Bool.or_true]]
      rfl
    · rw [Bool.not_eq_true] at added
      rw [show (t.intern name).2 = { t with added := name :: t.added } by
          simp only [intern, core, added]; rfl,
        show t.contains name = false by simp only [contains, core, added, Bool.or_false]]
      rfl

end SymbolTable

end SmallLisp
