import Mathlib.Data.List.DropRight
import SmallLisp.Proofs.Outcome
import SmallLisp.Session
/-!
# Where the prelude is looked for

A setting may name several directories, parted by colons and with blanks around them; sessions take their prelude from
the first. A text of colons and blanks alone names none, and yet it counts as a setting, so no session starts with it.
Every other start goes on, with the prelude that is found or without one, unless the host refuses an answer about a file.
-/
namespace SmallLisp

open Run

namespace Settings

open Text

/-- Nothing is named in a list of directories. -/
def IsVacant (cs : List Char) : Prop :=
  ∀ c ∈ cs, c = ':' ∨ isBlank c = true

/-- The first name of a list of directories. Before it stand colons and blanks only; blanks may follow it, and then a
colon or the end of the list. -/
structure IsFirstNamed (cs name : List Char) : Prop where
  nonempty : name ≠ []
  unparted : ':' ∉ name
  begins : ∀ c ∈ name.head?, isBlank c = false
  ends : ∀ c ∈ name.getLast?, isBlank c = false
  stands : ∃ before gap after, cs = before ++ (name ++ gap ++ after) ∧ IsVacant before ∧
    (∀ c ∈ gap, isBlank c = true) ∧ (after = [] ∨ ∃ rest, after = ':' :: rest)

/-- The names of a list of directories. -/
def named (cs : List Char) : List (List Char) :=
  ((splitAt ':' cs).map trim).filter (· ≠ [])

variable {cs before gap name : List Char}

theorem trim_eq (cs : List Char) : trim cs = (cs.dropWhile isBlank).rdropWhile isBlank := rfl

theorem trim_cons_of_isBlank {c : Char} (h : isBlank c = true) (cs : List Char) : trim (c :: cs) = trim cs := by
  rw [trim_eq, trim_eq, List.dropWhile_cons_of_pos h]

theorem rdropWhile_append_of_all {p : Char → Bool} (all : ∀ c ∈ gap, p c = true) (cs : List Char) :
    (cs ++ gap).rdropWhile p = cs.rdropWhile p := by
  induction gap using List.reverseRecOn with
  | nil => rw [List.append_nil]
  | append_singleton gap c ih =>
    have first : ∀ c ∈ gap, p c = true := fun d mem => all d (List.mem_append_left _ mem)
    rw [← List.append_assoc, List.rdropWhile_concat_pos _ _ _ (all c (by simp)), ih first]

/-- The blanks behind a name are dropped. -/
theorem trim_append (begins : ∀ c ∈ name.head?, isBlank c = false)
    (ends : ∀ c ∈ name.getLast?, isBlank c = false) (blank : ∀ c ∈ gap, isBlank c = true) (h : name ≠ []) :
    trim (name ++ gap) = name := by
  obtain ⟨c, rest, rfl⟩ := List.exists_cons_of_ne_nil h
  have first : ¬ isBlank c = true := by
    simp [begins c rfl]
  rw [trim_eq, List.cons_append, List.dropWhile_cons_of_neg first, ← List.cons_append,
    rdropWhile_append_of_all blank, List.rdropWhile_eq_self_iff]
  intro nonempty last
  have unblank := ends _ (List.getLast?_eq_some_getLast nonempty)
  rw [last] at unblank
  cases unblank

/-- Colons and blanks before a list name nothing. -/
theorem named_cons_of_vacant {c : Char} (h : c = ':' ∨ isBlank c = true) (cs : List Char) :
    named (c :: cs) = named cs := by
  unfold named
  rw [splitAt_cons]
  by_cases parts : c = ':'
  · rw [if_pos parts]
    rfl
  · have blank : isBlank c = true := h.resolve_left parts
    obtain ⟨first, rest, split⟩ := List.exists_cons_of_ne_nil (splitAt_ne_nil ':' cs)
    rw [if_neg parts, split]
    change (((c :: first) :: rest).map trim).filter _ = _
    rw [List.map_cons, List.map_cons, trim_cons_of_isBlank blank]

theorem named_append_of_vacant (h : IsVacant before) (cs : List Char) : named (before ++ cs) = named cs := by
  induction before with
  | nil => rfl
  | cons c before ih =>
    have later : IsVacant before := fun d mem => h d (List.mem_cons_of_mem c mem)
    rw [List.cons_append, named_cons_of_vacant (h c List.mem_cons_self), ih later]

theorem named_of_vacant (h : IsVacant cs) : named cs = [] := by
  have all := named_append_of_vacant h []
  rwa [List.append_nil] at all

theorem colon_not_mem_of_blank (h : ∀ c ∈ gap, isBlank c = true) : ':' ∉ gap := by
  intro mem
  have blank := h ':' mem
  revert blank
  decide

theorem IsFirstNamed.named_eq (h : IsFirstNamed cs name) : ∃ rest, named cs = name :: rest := by
  obtain ⟨before, gap, after, rfl, vacant, blank, ended⟩ := h.stands
  have unparted : ':' ∉ name ++ gap := by
    intro mem
    exact (List.mem_append.mp mem).elim h.unparted (colon_not_mem_of_blank blank)
  have kept : trim (name ++ gap) = name := trim_append h.begins h.ends blank h.nonempty
  rw [named_append_of_vacant vacant]
  rcases ended with rfl | ⟨rest, rfl⟩
  · refine ⟨[], ?_⟩
    rw [List.append_nil, named, splitAt_of_not_mem ':' _ unparted, List.map_singleton, kept]
    simp [h.nonempty]
  · refine ⟨named rest, ?_⟩
    rw [named, splitAt_append_sep ':' _ _ unparted, List.map_cons, kept]
    simp [h.nonempty, named]

/-- What begins with no blank is a name with blanks behind it. -/
theorem exists_name_gap {c : Char} (h : isBlank c = false) (rest : List Char) :
    ∃ name gap, c :: rest = name ++ gap ∧ name.head? = some c ∧ (∀ d ∈ name.getLast?, isBlank d = false) ∧
      ∀ d ∈ gap, isBlank d = true := by
  have nonempty : (c :: rest).rdropWhile isBlank ≠ [] := by
    rw [Ne, List.rdropWhile_eq_nil_iff]
    intro blank
    rw [blank c List.mem_cons_self] at h
    cases h
  obtain ⟨d, name, begins⟩ := List.exists_cons_of_ne_nil nonempty
  have whole : (c :: rest).rdropWhile isBlank ++ (c :: rest).rtakeWhile isBlank = c :: rest :=
    List.rdropWhile_append_rtakeWhile
  refine ⟨(c :: rest).rdropWhile isBlank, (c :: rest).rtakeWhile isBlank, whole.symm, ?_, ?_, ?_⟩
  · rw [begins, List.cons_append] at whole
    rw [begins, (List.cons.inj whole).1, List.head?_cons]
  · intro d last
    rw [List.getLast?_eq_some_getLast nonempty] at last
    cases last
    exact Bool.eq_false_iff.mpr (List.rdropWhile_last_not isBlank _ nonempty)
  · intro d mem
    exact List.mem_rtakeWhile_imp mem

/-- A list in which not all is vacant has a first name: it begins with the first character that is neither colon nor
blank. -/
theorem exists_isFirstNamed (h : ¬ IsVacant cs) : ∃ name, IsFirstNamed cs name := by
  induction cs with
  | nil => exact absurd (fun _ mem => absurd mem List.not_mem_nil) h
  | cons c cs ih =>
    by_cases vacant : c = ':' ∨ isBlank c = true
    · have later : ¬ IsVacant cs := fun all => h (List.forall_mem_cons.mpr ⟨vacant, all⟩)
      obtain ⟨name, first⟩ := ih later
      obtain ⟨before, gap, after, same, vacantBefore, stands⟩ := first.stands
      exact ⟨name, { first with
        stands := ⟨c :: before, gap, after, congrArg (c :: ·) same,
          List.forall_mem_cons.mpr ⟨vacant, vacantBefore⟩, stands⟩ }⟩
    · obtain ⟨noColon, noBlank⟩ := not_or.mp vacant
      obtain ⟨name, gap, part, begins, ends, blank⟩ :=
        exists_name_gap (Bool.eq_false_iff.mpr noBlank) (cs.takeWhile (· ≠ ':'))
      have whole : c :: cs = name ++ gap ++ cs.dropWhile (· ≠ ':') := by
        rw [← part, List.cons_append, List.takeWhile_append_dropWhile]
      have unparted : ':' ∉ c :: cs.takeWhile (· ≠ ':') := by
        intro mem
        rcases List.mem_cons.mp mem with same | later
        · exact noColon same.symm
        · have other := List.mem_takeWhile_imp later
          simp at other
      refine ⟨name, ?_, ?_, ?_, ends, [], gap, _, whole, nofun, blank, ?_⟩
      · rintro rfl
        cases begins
      · intro mem
        exact unparted (part ▸ List.mem_append_left gap mem)
      · intro d head
        rw [begins] at head
        cases head
        exact Bool.eq_false_iff.mpr noBlank
      · cases after : cs.dropWhile (· ≠ ':') with
        | nil => exact Or.inl rfl
        | cons d rest =>
          have head := List.head?_dropWhile_not (· ≠ ':') cs
          rw [after] at head
          refine Or.inr ⟨rest, ?_⟩
          rw [show d = ':' by simpa using head]

/-- The setting has a text, and names no directory by it. -/
def NamesNothing (vars : Variables) : Prop :=
  ∃ text, vars.lookup preludeVariable = some text ∧ text ≠ "" ∧ IsVacant text.toList

/-- The path that the setting names first. Without a text it stands for the library's own directory. -/
inductive NamesFirst (vars : Variables) : Path → Prop
  | unset (h : ∀ text ∈ vars.lookup preludeVariable, text = "") : NamesFirst vars bundledDirectory
  | listed {text : String} {name : List Char} (set : vars.lookup preludeVariable = some text)
      (first : IsFirstNamed text.toList name) : NamesFirst vars (.ofText (String.ofList name))

/-- The directory that a path stands for, if the host can tell: what is no directory stands for its parent. -/
def Files.directory (files : Files) (path : Path) : Except FileFault Path := do
  return if ← files.isDirectory path then path else path.parent

/-- The prelude in the directory that a path stands for. -/
def Files.preludeAt (files : Files) (path : Path) : Except FileFault String := do
  files.prelude (← files.directory path)

variable {vars : Variables} {path : Path}

theorem value?_eq_none (h : ∀ text ∈ vars.lookup preludeVariable, text = "") :
    value? vars preludeVariable = none := by
  rw [value?, nonEmpty?, Option.filter_eq_none_iff]
  intro text set
  simp [h text set]

theorem value?_eq_some {text : String} (set : vars.lookup preludeVariable = some text) (h : text ≠ "") :
    value? vars preludeVariable = some text := by
  rw [value?, set, nonEmpty?, Option.filter_some_pos]
  simpa using h

theorem paths_eq_named {text : String} (set : vars.lookup preludeVariable = some text) (h : text ≠ "")
    (defaults : List Path) :
    paths vars preludeVariable defaults = (named text.toList).map fun name => Path.ofText (String.ofList name) := by
  rw [paths, value?_eq_some set h]
  rfl

theorem preludeRoot_of_namesNothing (h : NamesNothing vars) (isDirectory : Path → Except FileFault Bool) :
    preludeRoot vars isDirectory = .error .listIndex := by
  obtain ⟨text, set, nonempty, vacant⟩ := h
  rw [preludeRoot, paths_eq_named set nonempty, named_of_vacant vacant]
  rfl

theorem paths_of_namesFirst (h : NamesFirst vars path) :
    ∃ rest, paths vars preludeVariable [bundledDirectory] = path :: rest := by
  cases h with
  | unset h =>
    rw [paths, value?_eq_none h]
    exact ⟨[], rfl⟩
  | @listed text name set first =>
    have nonempty : text ≠ "" := by
      rintro rfl
      obtain ⟨before, gap, after, whole, _⟩ := first.stands
      have := first.nonempty
      simp at whole
      exact this whole.2.1
    obtain ⟨rest, eq⟩ := first.named_eq
    rw [paths_eq_named set nonempty, eq]
    exact ⟨_, rfl⟩

theorem preludeRoot_of_namesFirst (h : NamesFirst vars path) (files : Files) :
    preludeRoot vars files.isDirectory = (files.directory path).mapError .file := by
  obtain ⟨rest, eq⟩ := paths_of_namesFirst h
  rw [preludeRoot, eq]
  unfold Files.directory
  dsimp only
  cases files.isDirectory path with
  | error fault => rfl
  | ok found => rfl

/-- The text that a first path leads to. Of what the host raises, only that there is no file is no failure. -/
theorem prelude?_of_namesFirst (h : NamesFirst vars path) (files : Files) :
    prelude? vars files =
      match files.preludeAt path with
      | .ok text => .ok (some text)
      | .error (.notFound _) => .ok none
      | .error (.refused kind message) => .error (.file (.refused kind message)) := by
  have found : (preludeRoot vars files.isDirectory >>= fun root => (files.prelude root).mapError Failure.file) =
      (files.preludeAt path).mapError .file := by
    rw [preludeRoot_of_namesFirst h]
    unfold Files.preludeAt
    cases files.directory path <;> rfl
  rw [prelude?, found]
  rcases files.preludeAt path with (_ | _) | _ <;> rfl

theorem namesNothing_or_namesFirst (vars : Variables) : NamesNothing vars ∨ ∃ path, NamesFirst vars path := by
  by_cases unset : ∀ text ∈ vars.lookup preludeVariable, text = ""
  · exact Or.inr ⟨_, .unset unset⟩
  · push Not at unset
    obtain ⟨text, set, nonempty⟩ := unset
    by_cases vacant : IsVacant text.toList
    · exact Or.inl ⟨text, set, nonempty, vacant⟩
    · obtain ⟨name, first⟩ := exists_isFirstNamed vacant
      exact Or.inr ⟨_, .listed set first⟩

/-- No directory can be told where the setting names none, and where the host does not say whether the path named
first is one. -/
theorem preludeRoot_eq_error {f : Failure} {files : Files} :
    preludeRoot vars files.isDirectory = .error f ↔ f = .listIndex ∧ NamesNothing vars ∨
      ∃ path fault, NamesFirst vars path ∧ files.isDirectory path = .error fault ∧ f = .file fault := by
  have refused {path : Path} (first : NamesFirst vars path) :
      preludeRoot vars files.isDirectory = .error f ↔
        ∃ fault, files.isDirectory path = .error fault ∧ f = .file fault := by
    rw [preludeRoot_of_namesFirst first, Files.directory]
    cases files.isDirectory path with
    | error fault => exact ⟨by rintro ⟨⟩; exact ⟨fault, rfl, rfl⟩, by rintro ⟨_, ⟨⟩, rfl⟩; rfl⟩
    | ok found => exact ⟨by rintro ⟨⟩, by rintro ⟨_, ⟨⟩, _⟩⟩
  constructor
  · intro failed
    rcases namesNothing_or_namesFirst vars with nothing | ⟨path, first⟩
    · rw [preludeRoot_of_namesNothing nothing] at failed
      exact Or.inl ⟨(Except.error.inj failed).symm, nothing⟩
    · obtain ⟨fault, why⟩ := (refused first).mp failed
      exact Or.inr ⟨path, fault, first, why⟩
  · rintro (⟨rfl, nothing⟩ | ⟨path, fault, first, why⟩)
    · exact preludeRoot_of_namesNothing nothing _
    · exact (refused first).mpr ⟨fault, why⟩

end Settings

namespace Session

open Settings

/-- A start without a prelude leaves the session as it is. -/
theorem outcome_start_none (engine : Engine) (vars : Variables) (files : Files) (s : Session) :
    outcome (start engine .none vars files) s = (.ok (), s) :=
  rfl

theorem preludeText_of_namesNothing {vars : Variables} (h : NamesNothing vars) (files : Files) :
    preludeText .configured vars files = .error .listIndex := by
  rw [preludeText, prelude?, preludeRoot_of_namesNothing h]
  rfl

theorem preludeText_of_namesFirst {vars : Variables} {path : Settings.Path} (h : NamesFirst vars path)
    (files : Files) :
    preludeText .configured vars files =
      match files.preludeAt path with
      | .ok text => .ok text
      | .error (.notFound _) => .ok ""
      | .error (.refused kind message) => .error (.file (.refused kind message)) := by
  rw [preludeText, prelude?_of_namesFirst h]
  rcases files.preludeAt path with (_ | _) | _ <;> rfl

/-- There is no text to start with where the setting names no directory, and where the host refuses an answer on the
way to the prelude. -/
theorem preludeText_eq_error {vars : Variables} {files : Files} {f : Failure} :
    preludeText .configured vars files = .error f ↔ f = .listIndex ∧ NamesNothing vars ∨
      ∃ path kind message, NamesFirst vars path ∧ files.preludeAt path = .error (.refused kind message) ∧
        f = .file (.refused kind message) := by
  constructor
  · intro failed
    rcases namesNothing_or_namesFirst vars with nothing | ⟨path, first⟩
    · rw [preludeText_of_namesNothing nothing] at failed
      exact Or.inl ⟨(Except.error.inj failed).symm, nothing⟩
    · rw [preludeText_of_namesFirst first] at failed
      rcases found : files.preludeAt path with (_ | ⟨kind, message⟩) | _
      · rw [found] at failed
        cases failed
      · rw [found] at failed
        exact Or.inr ⟨path, kind, message, first, found, (Except.error.inj failed).symm⟩
      · rw [found] at failed
        cases failed
  · rintro (⟨rfl, nothing⟩ | ⟨path, kind, message, first, found, rfl⟩)
    · exact preludeText_of_namesNothing nothing files
    · rw [preludeText_of_namesFirst first, found]

/-- A session with a configured prelude. A directory cannot be told just where a setting of colons and blanks alone
names none, or where the host does not say whether the path named first is one; and a start fails before anything is
evaluated just there and where the host refuses an answer about the prelude in it, but not because there is none. Every
other setting has a first path, and the session starts with the prelude in that directory, or in its parent when it is
no directory, or without a prelude when none is found. -/
theorem configured_start (engine : Engine) (vars : Variables) (files : Files) (s : Session) :
    (∀ f, preludeRoot vars files.isDirectory = .error f ↔ f = .listIndex ∧ NamesNothing vars ∨
      ∃ path fault, NamesFirst vars path ∧ files.isDirectory path = .error fault ∧ f = .file fault) ∧
      (∀ f, preludeText .configured vars files = .error f ↔ f = .listIndex ∧ NamesNothing vars ∨
        ∃ path kind message, NamesFirst vars path ∧ files.preludeAt path = .error (.refused kind message) ∧
          f = .file (.refused kind message)) ∧
      (NamesNothing vars → outcome (start engine .configured vars files) s = (.error (.failed .listIndex), s)) ∧
      (¬ NamesNothing vars → ∃ path, NamesFirst vars path) ∧
      ∀ path, NamesFirst vars path →
        outcome (start engine .configured vars files) s =
          match files.preludeAt path with
          | .ok text => outcome (start engine (.text text) vars files) s
          | .error (.notFound _) => (.ok (), s)
          | .error (.refused kind message) => (.error (.failed (.file (.refused kind message))), s) := by
  refine ⟨fun f => preludeRoot_eq_error, fun f => preludeText_eq_error, fun nothing => ?_,
    (namesNothing_or_namesFirst vars).resolve_left, fun path first => ?_⟩
  · rw [start, preludeText_of_namesNothing nothing]
    rfl
  · rw [start, preludeText_of_namesFirst first]
    rcases files.preludeAt path with (_ | _) | text
    · exact outcome_start_none engine vars files s
    · rfl
    · rfl

end Session

end SmallLisp
