import SmallLisp.Editor.Workspace
import SmallLisp.Proofs.DefinitionIndex
import SmallLisp.Proofs.Parentheses
/-!
# Places that point at their lexemes

Every place that the index of a text records is the place of a lexeme, and at that place, in the lines of the
text, stand the characters of the lexeme. A definition is recorded at the last lexeme that is taken for its
target, so different definitions stand apart.
-/
namespace SmallLisp.Editor

open Reader

variable {whole cs rest text : List Char} {place p : Position} {c : Char} {ts : List Lexeme} {t u : Lexeme}

/-! ## What stands at a place -/

/-- The character at a place, found by its line and its column. -/
def charAt? (cs : List Char) (p : Position) : Option Char :=
  (Text.lines cs)[p.line]?.bind (·[p.column]?)

/-- A range within one line of a text covers these characters. -/
structure Range.Covers (r : Range) (cs covered : List Char) : Prop where
  inLine : r.start.line = r.stop.line
  covers : ∃ line, (Text.lines cs)[r.start.line]? = some line ∧ r.stop.column ≤ line.length ∧
    (line.take r.stop.column).drop r.start.column = covered

/-- A place within a range, which ends before its last place. -/
def Range.Holds (r : Range) (p : Position) : Prop :=
  r.start.order ≤ p.order ∧ p.order < r.stop.order

/-- At a place a text goes on with these characters: the line has what stands before the column, and then the first
line of them. -/
def GoesOn (whole : List Char) (p : Position) (rest : List Char) : Prop :=
  ∃ above front first below, Text.lines whole = above ++ (front ++ first) :: below ∧
    above.length = p.line ∧ front.length = p.column ∧ Text.lines rest = first :: below

namespace GoesOn

theorem start (whole : List Char) : GoesOn whole ⟨0, 0⟩ whole := by
  obtain ⟨first, below, split⟩ := lines_ne_nil whole
  exact ⟨[], [], first, below, split, rfl, rfl, split⟩

theorem after (h : GoesOn whole p (c :: rest)) : GoesOn whole (p.after c) rest := by
  obtain ⟨above, front, first, below, split, line, column, here⟩ := h
  obtain ⟨next, later, more⟩ := lines_ne_nil rest
  rw [Text.lines, Text.splitAt_cons] at here
  by_cases newline : c = '\n'
  · rw [if_pos newline] at here
    obtain ⟨rfl, rfl⟩ := List.cons.inj here
    refine ⟨above ++ [front ++ []], [], next, later, ?_, ?_, ?_, more⟩
    · rw [split, ← Text.lines, more]
      simp
    · simp [Position.after, newline, line]
    · simp [Position.after, newline]
  · rw [if_neg newline, ← Text.lines, more] at here
    obtain ⟨rfl, rfl⟩ := List.cons.inj here
    refine ⟨above, front ++ [c], next, later, ?_, ?_, ?_, more⟩
    · rw [split]
      simp
    · simp [Position.after, newline, Position.right, line]
    · simp [Position.after, newline, Position.right, column]

theorem skip (h : GoesOn whole p (cs ++ rest)) : GoesOn whole (cs.foldl Position.after p) rest := by
  induction cs generalizing p with
  | nil => exact h
  | cons c cs ih => exact ih h.after

/-- What stands at a place is covered by the range of its length. -/
theorem covers (h : GoesOn whole p (text ++ rest)) (inLine : '\n' ∉ text) :
    (Range.ofWidth p text.length).Covers whole text := by
  obtain ⟨above, front, first, below, split, line, column, here⟩ := h
  obtain ⟨next, later, more⟩ := lines_ne_nil rest
  rw [Text.lines, Text.splitAt_append inLine more] at here
  obtain ⟨rfl, rfl⟩ := List.cons.inj here
  refine ⟨rfl, front ++ (text ++ next), ?_, ?_, ?_⟩
  · change (Text.lines whole)[p.line]? = _
    rw [split, ← line]
    simp
  · change p.column + text.length ≤ _
    simp only [List.length_append]
    omega
  · change ((front ++ (text ++ next)).take (p.column + text.length)).drop p.column = text
    rw [← column, List.take_length_add_append, List.drop_left, List.take_left]

theorem charAt? (h : GoesOn whole p (c :: rest)) (inLine : c ≠ '\n') : charAt? whole p = some c := by
  obtain ⟨above, front, first, below, split, line, column, here⟩ := h
  rw [Text.lines, Text.splitAt_cons, if_neg inLine] at here
  obtain ⟨next, later, more⟩ := lines_ne_nil rest
  rw [← Text.lines, more] at here
  obtain ⟨rfl, rfl⟩ := List.cons.inj here
  rw [Editor.charAt?, split, ← line, ← column]
  simp

end GoesOn

/-- The lexeme stands in one line between these parts of a text, and its place is counted through the first part. -/
structure Lexeme.Parts (t : Lexeme) (place : Position) (cs before after : List Char) : Prop where
  split : cs = before ++ t.text ++ after
  place : t.place = before.foldl Position.after place
  inLine : '\n' ∉ t.text

theorem Lexeme.Parts.skip {front before after : List Char}
    (parts : t.Parts (front.foldl Position.after place) cs before after) :
    t.Parts place (front ++ cs) (front ++ before) after where
  split := by simp only [parts.split, List.append_assoc]
  place := by rw [parts.place, List.foldl_append]
  inLine := parts.inLine

theorem Lexeme.Parts.skip_inLine {before after : List Char} (front : List Char)
    (parts : t.Parts (place.right front.length) cs before after) (inLine : '\n' ∉ front) :
    t.Parts place (front ++ cs) (front ++ before) after := by
  rw [← Position.foldl_after inLine] at parts
  exact parts.skip

theorem Lexed.parts (h : Lexed place cs ts) : ∀ t ∈ ts, ∃ before after, t.Parts place cs before after := by
  induction h with
  | done => exact nofun
  | @blank place c rest ts _ _ ih =>
    intro t mem
    obtain ⟨before, after, parts⟩ := ih t mem
    have behind : t.Parts ([c].foldl Position.after place) rest before after := parts
    exact ⟨_, after, behind.skip⟩
  | @comment place body rest ts inLine _ _ ih =>
    intro t mem
    obtain ⟨before, after, parts⟩ := ih t mem
    have noBreak : '\n' ∉ ';' :: body := by simpa using inLine
    exact ⟨_, after, parts.skip_inLine (';' :: body) noBreak⟩
  | @lexeme place text rest ts stands _ ih =>
    refine List.forall_mem_cons.mpr ⟨⟨[], rest, rfl, rfl, stands.newline_not_mem⟩, ?_⟩
    intro t mem
    obtain ⟨before, after, parts⟩ := ih t mem
    exact ⟨_, after, parts.skip_inLine text stands.newline_not_mem⟩
  | @openString place body rest ts inLine _ _ _ ih =>
    have noBreak : '\n' ∉ '"' :: body := by simpa using inLine
    refine List.forall_mem_cons.mpr ⟨⟨[], rest, rfl, rfl, noBreak⟩, ?_⟩
    intro t mem
    obtain ⟨before, after, parts⟩ := ih t mem
    exact ⟨_, after, parts.skip_inLine ('"' :: body) noBreak⟩

/-- A text goes on at the place of a lexeme with its text. -/
theorem Lexeme.Parts.goesOn {before after : List Char} (parts : t.Parts ⟨0, 0⟩ cs before after) :
    GoesOn cs t.place (t.text ++ after) := by
  have start := GoesOn.start cs
  nth_rewrite 2 [parts.split] at start
  rw [List.append_assoc] at start
  rw [parts.place]
  exact start.skip

/-- A lexeme ends before the next one begins. -/
theorem Lexed.apart (h : Lexed place cs ts) :
    ts.Pairwise fun t u => (t.place.right t.text.length).order ≤ u.place.order := by
  induction h with
  | done => exact List.Pairwise.nil
  | blank _ _ ih => exact ih
  | comment _ _ _ ih => exact ih
  | lexeme _ more ih => exact List.Pairwise.cons more.ordered.1 ih
  | openString _ _ _ more ih => exact List.Pairwise.cons more.ordered.1 ih

/-! ## Strings left open -/

theorem Progress.run_openStrings (progress : Progress) (ts : List Lexeme) :
    (progress.run ts).openStrings =
      progress.openStrings ++ (ts.filter fun t => t.isOpenString).map Lexeme.place := by
  induction ts generalizing progress with
  | nil => simp [run]
  | cons t ts ih =>
    rw [run, ih]
    cases openString : t.isOpenString with
    | true => simp [step, openString]
    | false => rw [progress.step_openStrings openString, List.filter_cons_of_neg (by simp [openString])]

theorem index_openStrings (text : String) :
    (Index.ofText text).openStrings = ((scan text.toList).filter fun t => t.isOpenString).map Lexeme.place :=
  Progress.start.run_openStrings _

/-! ## Targets of definitions -/

/-- The lexeme begins a definition behind an opening parenthesis. -/
def Lexeme.isDefinitionHead (t : Lexeme) : Prop :=
  t.token = "define" ∨ t.token = "define-macro"

/-- A parenthesis or a string is no name. -/
structure Lexeme.IsName (t : Lexeme) : Prop where
  notOpen : t.isOpen = false
  notClose : t.isClose = false
  notString : t.isString = false

/-- The lexemes begin with what makes this lexeme the target of a definition: an opening parenthesis and a head, and
then the lexeme, or a list of which it is the first. -/
inductive AimsAt (t : Lexeme) : List Lexeme → Prop where
  | direct {opening head : Lexeme} {after : List Lexeme} (isOpen : opening.isOpen = true)
      (isHead : head.isDefinitionHead) (isName : t.IsName) : AimsAt t (opening :: head :: t :: after)
  | first {opening head inner : Lexeme} {after : List Lexeme} (isOpen : opening.isOpen = true)
      (isHead : head.isDefinitionHead) (inList : inner.isOpen = true) (isName : t.IsName) :
      AimsAt t (opening :: head :: inner :: t :: after)

/-- Somewhere among the lexemes this one is the target of a definition. -/
def IsTarget (ts : List Lexeme) (t : Lexeme) : Prop :=
  ∃ before after, ts = before ++ after ∧ AimsAt t after

/-- A definition is recorded with the text and the place of a lexeme. -/
structure Definition.Records (d : Definition) (t : Lexeme) : Prop where
  name : d.name = t.token
  place : d.place = t.place

variable {d e : Definition} {opening : Lexeme}

theorem definitionHead?_cases (t : Lexeme) :
    (t.isDefinitionHead ∧ ∃ kind, definitionHead? t = some kind) ∨
      ¬ t.isDefinitionHead ∧ definitionHead? t = none := by
  have word (name : String) : t.token = name ↔ t.text = name.toList := by
    rw [Lexeme.token, ← String.toList_inj, String.toList_ofList]
  rw [definitionHead?, Lexeme.isDefinitionHead, word, word]
  by_cases variable' : t.text = "define".toList
  · rw [if_pos variable']
    exact Or.inl ⟨Or.inl variable', _, rfl⟩
  · rw [if_neg variable']
    by_cases transformer : t.text = "define-macro".toList
    · rw [if_pos transformer]
      exact Or.inl ⟨Or.inr transformer, _, rfl⟩
    · rw [if_neg transformer]
      exact Or.inr ⟨not_or.mpr ⟨variable', transformer⟩, rfl⟩

theorem named?_eq_some {kind : DefinitionKind} (named : named? kind t = some d) : t.IsName ∧ d.Records t := by
  unfold named? at named
  split at named
  · cases named
  · rename_i plain
    cases named
    simp only [Bool.or_eq_true, not_or, Bool.not_eq_true] at plain
    exact ⟨⟨plain.1.1, plain.1.2, plain.2⟩, rfl, rfl⟩

theorem Lexeme.IsName.named? (h : t.IsName) (kind : DefinitionKind) :
    Editor.named? kind t = some ⟨t.token, kind, t.place⟩ := by
  rw [Editor.named?, h.notOpen, h.notClose, h.notString]
  rfl

/-- What is defined behind an opening parenthesis is recorded at the lexeme that the parenthesis aims at. -/
theorem aimsAt_of_definition? (isOpen : opening.isOpen = true) (found : definition? ts = some d) :
    ∃ t, AimsAt t (opening :: ts) ∧ d.Records t := by
  cases ts with
  | nil => cases found
  | cons head ts =>
    rcases definitionHead?_cases head with ⟨isHead, kind, same⟩ | ⟨_, noHead⟩
    · rw [definition?, same] at found
      rcases ts with _ | ⟨t, ts⟩
      · cases found
      · change (if t.isOpen then _ else named? kind t) = some d at found
        cases inList : t.isOpen with
        | false =>
          rw [inList, if_neg Bool.false_ne_true] at found
          obtain ⟨isName, records⟩ := named?_eq_some found
          exact ⟨t, .direct isOpen isHead isName, records⟩
        | true =>
          rw [inList, if_pos rfl] at found
          rcases ts with _ | ⟨u, ts⟩
          · cases found
          · obtain ⟨isName, records⟩ := named?_eq_some found
            exact ⟨u, .first isOpen isHead inList isName, records⟩
    · rw [definition?, noHead] at found
      cases found

theorem AimsAt.definition? (h : AimsAt t (opening :: ts)) :
    opening.isOpen = true ∧ ∃ d, Editor.definition? ts = some d ∧ d.Records t := by
  cases h with
  | @direct _ head after isOpen isHead isName =>
    rcases definitionHead?_cases head with ⟨_, kind, same⟩ | ⟨notHead, _⟩
    · refine ⟨isOpen, ⟨t.token, kind, t.place⟩, ?_, rfl, rfl⟩
      rw [Editor.definition?, same]
      change (if t.isOpen then _ else Editor.named? kind t) = _
      rw [isName.notOpen, if_neg Bool.false_ne_true]
      exact isName.named? kind
    · exact absurd isHead notHead
  | @first _ head inner after isOpen isHead inList isName =>
    rcases definitionHead?_cases head with ⟨_, kind, same⟩ | ⟨notHead, _⟩
    · refine ⟨isOpen, ⟨t.token, if kind = .var then .function else kind, t.place⟩, ?_, rfl, rfl⟩
      rw [Editor.definition?, same]
      change (if inner.isOpen then _ else Editor.named? kind inner) = _
      rw [inList, if_pos rfl]
      exact isName.named? _
    · exact absurd isHead notHead

theorem isTarget_cons : IsTarget (u :: ts) t ↔ AimsAt t (u :: ts) ∨ IsTarget ts t := by
  constructor
  · rintro ⟨before, after, split, aims⟩
    cases before with
    | nil => exact Or.inl (split ▸ aims)
    | cons v before => exact Or.inr ⟨before, after, (List.cons.inj split).2, aims⟩
  · rintro (aims | ⟨before, after, rfl, aims⟩)
    · exact ⟨[], u :: ts, rfl, aims⟩
    · exact ⟨u :: before, after, rfl, aims⟩

theorem AimsAt.mem (h : AimsAt t ts) : t ∈ ts := by
  cases h with
  | direct => simp
  | first => simp

theorem IsTarget.mem (h : IsTarget ts t) : t ∈ ts := by
  obtain ⟨before, after, rfl, aims⟩ := h
  exact List.mem_append_right before aims.mem

/-- The definitions that a scan meets are recorded at the targets. -/
theorem isTarget_of_mem (mem : d ∈ definitionsIn ts) : ∃ t, IsTarget ts t ∧ d.Records t := by
  induction ts with
  | nil => cases mem
  | cons u ts ih =>
    rcases List.mem_append.mp mem with here | later
    · cases isOpen : u.isOpen with
      | false =>
        rw [isOpen, if_neg Bool.false_ne_true] at here
        cases here
      | true =>
        rw [isOpen, if_pos rfl, Option.mem_toList] at here
        obtain ⟨t, aims, records⟩ := aimsAt_of_definition? isOpen here
        exact ⟨t, isTarget_cons.mpr (Or.inl aims), records⟩
    · obtain ⟨t, target, records⟩ := ih later
      exact ⟨t, isTarget_cons.mpr (Or.inr target), records⟩

theorem IsTarget.exists_definition (h : IsTarget ts t) : ∃ d ∈ definitionsIn ts, d.Records t := by
  obtain ⟨before, after, rfl, aims⟩ := h
  induction before with
  | nil =>
    cases after with
    | nil => cases aims
    | cons u ts =>
      obtain ⟨isOpen, d, found, records⟩ := aims.definition?
      refine ⟨d, List.mem_append_left _ ?_, records⟩
      rw [isOpen, if_pos rfl, found]
      exact Option.mem_toList.mpr rfl
  | cons u before ih =>
    obtain ⟨d, mem, records⟩ := ih
    exact ⟨d, List.mem_append_right _ mem, records⟩

/-! ## Targets in the order of the text -/

theorem AimsAt.isOpen (h : AimsAt t (opening :: ts)) : opening.isOpen = true := by
  cases h with
  | direct isOpen => exact isOpen
  | first isOpen => exact isOpen

/-- Only an opening parenthesis aims at a target. -/
theorem IsTarget.tail (h : IsTarget (u :: ts) t) (notOpen : u.isOpen = false) : IsTarget ts t := by
  rcases isTarget_cons.mp h with aims | later
  · rw [aims.isOpen] at notOpen
    cases notOpen
  · exact later

theorem Lexeme.isDefinitionHead.notOpen (h : t.isDefinitionHead) : t.isOpen = false := by
  have word : t.token ≠ "(" := by
    rcases h with same | same
    · rw [same]
      decide
    · rw [same]
      decide
  exact Bool.eq_false_iff.mpr fun isOpen => word ((token_eq_open t).mpr isOpen)

/-- A later parenthesis aims at a later target. The list of a target begins with it, so this parenthesis cannot aim
at the target again. -/
theorem AimsAt.before (h : AimsAt t (opening :: ts)) (other : IsTarget ts u)
    (ordered : (opening :: ts).Pairwise fun t u => t.place.order < u.place.order) :
    t.place.order < u.place.order := by
  cases h with
  | @direct _ head after isOpen isHead isName =>
    have later : u ∈ after := ((other.tail isHead.notOpen).tail isName.notOpen).mem
    have behind := (List.pairwise_cons.mp (List.pairwise_cons.mp ordered).2).2
    exact (List.pairwise_cons.mp behind).1 u later
  | @first _ head inner after isOpen isHead inList isName =>
    have behind := (List.pairwise_cons.mp (List.pairwise_cons.mp (List.pairwise_cons.mp ordered).2).2).2
    have later : u ∈ after := by
      rcases isTarget_cons.mp (other.tail isHead.notOpen) with aims | target
      · cases aims with
        | direct => simp
        | first => simp
      · exact (target.tail isName.notOpen).mem
    exact (List.pairwise_cons.mp behind).1 u later

/-- The definitions are met in the order of their targets. -/
theorem definitionsIn_ordered (ordered : ts.Pairwise fun t u => t.place.order < u.place.order) :
    (definitionsIn ts).Pairwise fun d e => d.place.order < e.place.order := by
  induction ts with
  | nil => exact List.Pairwise.nil
  | cons opening ts ih =>
    refine List.pairwise_append.mpr ⟨?_, ih (List.pairwise_cons.mp ordered).2, ?_⟩
    · split
      · cases definition? ts with
        | none => exact List.Pairwise.nil
        | some d => exact List.pairwise_singleton _ d
      · exact List.Pairwise.nil
    · intro d here e later
      split at here
      · rename_i isOpen
        obtain ⟨t, aims, records⟩ := aimsAt_of_definition? isOpen (Option.mem_toList.mp here)
        obtain ⟨u, target, records'⟩ := isTarget_of_mem later
        rw [records.place, records'.place]
        exact aims.before target ordered
      · cases here

/-! ## The entries of the index -/

theorem putDefinition_distinct {ds : List Definition} (distinct : ds.Pairwise fun d e => d.name ≠ e.name)
    (d : Definition) : (putDefinition ds d).Pairwise fun d e => d.name ≠ e.name := by
  induction ds with
  | nil => exact List.pairwise_singleton _ d
  | cons other ds ih =>
    obtain ⟨first, others⟩ := List.pairwise_cons.mp distinct
    rw [putDefinition]
    by_cases again : other.name = d.name
    · rw [if_pos again]
      exact List.Pairwise.cons (again ▸ first) others
    · rw [if_neg again]
      refine List.Pairwise.cons (fun e mem => ?_) (ih others)
      rcases mem_putDefinition mem with rfl | mem
      · exact again
      · exact first e mem

theorem putAll_distinct {ds : List Definition} (distinct : ds.Pairwise fun d e => d.name ≠ e.name)
    (new : List Definition) : (new.foldl putDefinition ds).Pairwise fun d e => d.name ≠ e.name := by
  induction new generalizing ds with
  | nil => exact distinct
  | cons d new ih => exact ih (putDefinition_distinct distinct d)

theorem index_entries (text : String) :
    (Index.ofText text).definitions = (definitionsIn (scan text.toList)).foldl putDefinition [] :=
  Progress.start.run_definitions fun t mem openString => ((lexed_scan text.toList).noParen t mem openString).1

theorem index_distinct (text : String) :
    (Index.ofText text).definitions.Pairwise fun d e => d.name ≠ e.name := by
  rw [index_entries]
  exact putAll_distinct List.Pairwise.nil _

/-- The index has each entry under its name. -/
theorem find?_of_mem_definitions (text : String) (mem : d ∈ (Index.ofText text).definitions) :
    (Index.ofText text).find? d.name = some d := by
  have distinct := index_distinct text
  obtain ⟨before, after, split⟩ := List.append_of_mem mem
  rw [Index.find?, split]
  rw [split] at distinct
  refine List.find?_eq_some_iff_append.mpr ⟨beq_self_eq_true _, before, after, rfl, fun e earlier => ?_⟩
  have other := (List.pairwise_append.mp distinct).2.2 e earlier d List.mem_cons_self
  simpa using other

/-- An entry of the index is the last definition of its name that the scan has met. -/
theorem index_last (text : String) (mem : d ∈ (Index.ofText text).definitions) :
    d ∈ definitionsIn (scan text.toList) ∧
      ∀ e ∈ definitionsIn (scan text.toList), e.name = d.name → e = d ∨ e.place.order < d.place.order := by
  have ordered := definitionsIn_ordered (lexed_scan text.toList).ordered.2
  have found := find?_of_mem_definitions text mem
  rw [Index.find?, index_entries, find?_putAll, List.find?_nil, Option.or_none] at found
  obtain ⟨_, later, earlier, split, others⟩ := List.find?_eq_some_iff_append.mp found
  have order : definitionsIn (scan text.toList) = earlier.reverse ++ d :: later.reverse := by
    rw [← List.reverse_reverse (definitionsIn _), split]
    simp
  rw [order] at ordered ⊢
  refine ⟨by simp, fun e mem same => ?_⟩
  rcases List.mem_append.mp mem with mem | mem
  · exact Or.inr ((List.pairwise_append.mp ordered).2.2 e mem d List.mem_cons_self)
  · rcases List.mem_cons.mp mem with rfl | mem
    · exact Or.inl rfl
    · have other := others e (List.mem_reverse.mp mem)
      simp [same] at other

/-! ## Places and ranges -/

variable {source : String}

theorem charAt?_place (mem : t ∈ scan source.toList) (first : t.text.head? = some c) :
    charAt? source.toList t.place = some c := by
  obtain ⟨before, after, parts⟩ := (lexed_scan source.toList).parts t mem
  have inLine := parts.inLine
  have here := parts.goesOn
  cases text : t.text with
  | nil => simp [text] at first
  | cons d more =>
    rw [text] at first inLine here
    obtain rfl : d = c := Option.some.inj first
    exact here.charAt? fun newline => inLine (newline ▸ List.mem_cons_self)

theorem covers_place (mem : t ∈ scan source.toList) :
    (Range.ofWidth t.place t.text.length).Covers source.toList t.text := by
  obtain ⟨before, after, parts⟩ := (lexed_scan source.toList).parts t mem
  exact parts.goesOn.covers parts.inLine

/-- One of two lexemes ends before the other begins. -/
def Lexeme.Apart (t u : Lexeme) : Prop :=
  (t.place.right t.text.length).order ≤ u.place.order ∨ (u.place.right u.text.length).order ≤ t.place.order

theorem scan_apart (memt : t ∈ scan source.toList) (memu : u ∈ scan source.toList) (other : t ≠ u) : t.Apart u := by
  have symmetric : Std.Symm Lexeme.Apart := ⟨fun _ _ => Or.symm⟩
  have apart : (scan source.toList).Pairwise Lexeme.Apart := (lexed_scan source.toList).apart.imp Or.inl
  exact apart.forall memt memu other

theorem Definition.Records.nameRange (h : d.Records t) :
    Workspace.nameRange d = Range.ofWidth t.place t.text.length := by
  rw [Workspace.nameRange, h.place, h.name, Lexeme.token, String.length_ofList]

/-- Of two ranges one after another none has a place of the other. -/
theorem Range.not_holds_both {r s : Range} (apart : r.stop.order ≤ s.start.order ∨ s.stop.order ≤ r.start.order) :
    ¬ (r.Holds p ∧ s.Holds p) := by
  rintro ⟨⟨startr, stopr⟩, starts, stops⟩
  rcases apart with before | behind
  · exact absurd (stopr.trans_le before) starts.not_gt
  · exact absurd (stops.trans_le behind) startr.not_gt

/-- Lexemes that are recorded one after another. -/
theorem ordered_places {us : List Lexeme} (some : us.Sublist (scan source.toList)) :
    (us.map Lexeme.place).Pairwise fun p q => p.order < q.order :=
  List.pairwise_map.mpr ((lexed_scan source.toList).ordered.2.sublist some)

/-- For every text, with its lines: the index reports parentheses and strings at places where there is one, each
once and in text order. The range of an entry lies within one line and covers just the name there, and it is that of
the last target with this name. Two entries have different names and ranges without a common place. -/
theorem index_places (text : String) :
    let index := Index.ofText text
    (∀ p ∈ index.unclosed, charAt? text.toList p = some '(') ∧
    (∀ p ∈ index.strayCloses, charAt? text.toList p = some ')') ∧
    (∀ p ∈ index.openStrings, charAt? text.toList p = some '"') ∧
    (index.unclosed.Pairwise fun p q => p.order < q.order) ∧
    (index.strayCloses.Pairwise fun p q => p.order < q.order) ∧
    (index.openStrings.Pairwise fun p q => p.order < q.order) ∧
    (∀ d ∈ index.definitions, (Workspace.nameRange d).Covers text.toList d.name.toList ∧
      ∃ t, IsTarget (scan text.toList) t ∧ d.Records t ∧
        ∀ u, IsTarget (scan text.toList) u → u.token = d.name → u.place.order ≤ t.place.order) ∧
    (index.definitions.Pairwise fun d e => d.name ≠ e.name ∧
      ∀ p, ¬ ((Workspace.nameRange d).Holds p ∧ (Workspace.nameRange e).Holds p)) := by
  intro index
  obtain ⟨strays, unclosed⟩ := index_unpaired text
  have openStrings := index_openStrings text
  have sorted := unpairedIn_sorted text
  have unpaired := unpairedIn_sublist text
  have closes := (List.sublist_append_left _ _).trans unpaired
  have opens := (List.sublist_append_right _ _).trans unpaired
  have recorded (d : Definition) (mem : d ∈ index.definitions) :
      ∃ t, IsTarget (scan text.toList) t ∧ d.Records t := isTarget_of_mem (index_last text mem).1
  refine ⟨?_, ?_, ?_, unclosed ▸ ordered_places opens, strays ▸ ordered_places closes,
    openStrings ▸ ordered_places List.filter_sublist, ?_, ?_⟩
  · intro p mem
    obtain ⟨t, among, rfl⟩ := List.mem_map.mp (unclosed ▸ mem)
    have symbol : t.text = ['('] := beq_iff_eq.mp (sorted.opens t among)
    exact charAt?_place (opens.subset among) (by rw [symbol]; rfl)
  · intro p mem
    obtain ⟨t, among, rfl⟩ := List.mem_map.mp (strays ▸ mem)
    have symbol : t.text = [')'] := beq_iff_eq.mp (sorted.closes t among)
    exact charAt?_place (closes.subset among) (by rw [symbol]; rfl)
  · intro p mem
    obtain ⟨t, among, rfl⟩ := List.mem_map.mp (openStrings ▸ mem)
    obtain ⟨inText, openString⟩ := List.mem_filter.mp among
    have quote := (lexed_scan text.toList).isString t inText openString
    exact charAt?_place inText (beq_iff_eq.mp quote)
  · intro d mem
    obtain ⟨t, target, records⟩ := recorded d mem
    refine ⟨?_, t, target, records, fun u target' same => ?_⟩
    · rw [records.nameRange, records.name, Lexeme.token, String.toList_ofList]
      exact covers_place target.mem
    · obtain ⟨e, met, records'⟩ := target'.exists_definition
      have later := (index_last text mem).2 e met (records'.name.trans same)
      rw [← records.place, ← records'.place]
      rcases later with rfl | before
      · exact le_rfl
      · exact before.le
  · have distinct : index.definitions.Pairwise fun d e => d.name ≠ e.name := index_distinct text
    refine distinct.imp_of_mem fun {d e} memd meme other => ⟨other, fun p => Range.not_holds_both ?_⟩
    obtain ⟨t, target, records⟩ := recorded d memd
    obtain ⟨u, target', records'⟩ := recorded e meme
    rw [records.nameRange, records'.nameRange]
    refine scan_apart target.mem target'.mem fun same => other ?_
    rw [records.name, records'.name, same]

end SmallLisp.Editor
