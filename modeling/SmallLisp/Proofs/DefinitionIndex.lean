import SmallLisp.Proofs.Expansion
import SmallLisp.Proofs.WrittenForms
/-!
# The definitions in the index

The index takes the lexemes behind an opening parenthesis for a definition. In a text that the reader accepts
these are the head, the target and the name of a list, so the index has one entry for each name in the lists
that define one by their shape, at whatever depth, the last of them counting.
-/
namespace SmallLisp.Editor

open Reader

/-! ## Putting definitions into an index -/

/-- The last definition of a name is the one that is found. -/
theorem find?_putDefinition (ds : List Definition) (d : Definition) (name : String) :
    (putDefinition ds d).find? (fun e => e.name == name) =
      if d.name = name then some d else ds.find? fun e => e.name == name := by
  induction ds with
  | nil => by_cases same : d.name = name <;> simp [putDefinition, same]
  | cons other ds ih =>
    simp only [putDefinition]
    by_cases again : other.name = d.name
    · by_cases same : d.name = name <;> simp [again, same]
    · rw [if_neg again, List.find?_cons, List.find?_cons, ih]
      by_cases same : d.name = name
      · have other' : (other.name == name) = false := beq_eq_false_iff_ne.mpr (same ▸ again)
        simp [same, other']
      · simp [same]

theorem find?_putAll (ds new : List Definition) (name : String) :
    (new.foldl putDefinition ds).find? (fun e => e.name == name) =
      (new.reverse.find? fun e => e.name == name).or (ds.find? fun e => e.name == name) := by
  induction new generalizing ds with
  | nil => rfl
  | cons d new ih =>
    rw [List.foldl_cons, ih, find?_putDefinition, List.reverse_cons, List.find?_append, Option.or_assoc]
    by_cases same : d.name = name <;> simp [same]

theorem mem_putDefinition {ds : List Definition} {d e : Definition} (mem : e ∈ putDefinition ds d) :
    e = d ∨ e ∈ ds := by
  induction ds with
  | nil => exact Or.inl (List.mem_singleton.mp mem)
  | cons other ds ih =>
    simp only [putDefinition] at mem
    split at mem
    · rcases List.mem_cons.mp mem with rfl | mem
      · exact Or.inl rfl
      · exact Or.inr (List.mem_cons_of_mem _ mem)
    · rcases List.mem_cons.mp mem with rfl | mem
      · exact Or.inr List.mem_cons_self
      · exact (ih mem).imp id (List.mem_cons_of_mem _)

theorem mem_putAll {ds new : List Definition} {e : Definition} (mem : e ∈ new.foldl putDefinition ds) :
    e ∈ new ∨ e ∈ ds := by
  induction new generalizing ds with
  | nil => exact Or.inr mem
  | cons d new ih =>
    rcases ih mem with mem | mem
    · exact Or.inl (List.mem_cons_of_mem d mem)
    · rcases mem_putDefinition mem with rfl | mem
      · exact Or.inl List.mem_cons_self
      · exact Or.inr mem

/-! ## The definitions among lexemes -/

/-- The definitions that a scan of lexemes meets. -/
def definitionsIn : List Lexeme → List Definition
  | [] => []
  | t :: rest => (if t.isOpen then (definition? rest).toList else []) ++ definitionsIn rest

/-- The scan puts in the definitions that it meets. A string left open is no opening parenthesis. -/
theorem Progress.run_definitions (progress : Progress) {ts : List Lexeme}
    (noParen : ∀ t ∈ ts, t.isOpenString = true → t.isOpen = false) :
    (progress.run ts).definitions = (definitionsIn ts).foldl putDefinition progress.definitions := by
  induction ts generalizing progress with
  | nil => rfl
  | cons t ts ih =>
    rw [Progress.run, ih _ fun u mem => noParen u (List.mem_cons_of_mem t mem), definitionsIn, List.foldl_append]
    congr 1
    unfold Progress.step
    cases openString : t.isOpenString with
    | true =>
      rw [noParen t List.mem_cons_self openString]
      rfl
    | false =>
      cases t.isOpen with
      | true =>
        cases definition? ts with
        | none => rfl
        | some d => rfl
      | false =>
        cases t.isClose with
        | true => cases progress.opens <;> rfl
        | false => rfl

section Closing

variable {t : Lexeme} (closes : t.isClose = true)
include closes

theorem text_of_isClose : t.text = [')'] :=
  beq_iff_eq.mp closes

theorem isOpen_of_isClose : t.isOpen = false := by
  unfold Lexeme.isOpen
  rw [text_of_isClose closes]
  rfl

/-- A closing parenthesis is nothing that a definition has. -/
theorem named?_close (kind : DefinitionKind) : named? kind t = none := by
  unfold named?
  rw [closes, Bool.or_true, Bool.true_or]
  rfl

theorem target?_close (kind : DefinitionKind) (rest : List Lexeme) : target? kind (t :: rest) = none := by
  change (if t.isOpen then _ else named? kind t) = none
  rw [isOpen_of_isClose closes, if_neg Bool.false_ne_true]
  exact named?_close closes kind

theorem definition?_close (rest : List Lexeme) : definition? (t :: rest) = none := by
  have noHead : definitionHead? t = none := by
    unfold definitionHead?
    rw [text_of_isClose closes]
    rfl
  rw [definition?, noHead]
  rfl

/-- Closing parentheses at the end add nothing. -/
theorem definitionsIn_replicate (missing : Nat) (ts : List Lexeme) :
    definitionsIn (ts ++ List.replicate missing t) = definitionsIn ts := by
  have target (kind : DefinitionKind) (ts : List Lexeme) :
      target? kind (ts ++ List.replicate missing t) = target? kind ts := by
    rcases ts with _ | ⟨u, _ | ⟨v, ts⟩⟩
    · cases missing with
      | zero => rfl
      | succ missing => exact target?_close closes kind _
    · cases missing with
      | zero => rfl
      | succ missing =>
        simp only [List.replicate_succ, List.cons_append, List.nil_append, target?, named?_close closes]
    · rfl
  have definition (ts : List Lexeme) :
      definition? (ts ++ List.replicate missing t) = definition? ts := by
    cases ts with
    | nil =>
      cases missing with
      | zero => rfl
      | succ missing => exact definition?_close closes _
    | cons u ts => simp only [List.cons_append, definition?, target]
  induction ts with
  | nil =>
    clear target definition
    induction missing with
    | zero => rfl
    | succ missing ih =>
      simpa only [List.nil_append, List.replicate_succ, definitionsIn, isOpen_of_isClose closes,
        Bool.false_eq_true, if_false] using ih
  | cons u ts ih => rw [List.cons_append, definitionsIn, definition, ih, definitionsIn]

end Closing

/-! ## The definitions among forms -/

/-- The keyword at the head of a definition of a kind. -/
def DefinitionKind.keyword : DefinitionKind → String
  | transformer => "define-macro"
  | _ => "define"

theorem definitionKeyword_of_head {t : Lexeme} {kind : DefinitionKind}
    (head : definitionHead? t = some kind) : t.token = kind.keyword := by
  unfold definitionHead? at head
  split at head
  · rename_i same
    cases head
    exact congrArg String.ofList same
  · split at head
    · rename_i same
      cases head
      exact congrArg String.ofList same
    · cases head

namespace Written

/-- The kind of definition that a list is by its head, and its target. -/
def defining? : Written → Option (DefinitionKind × Written)
  | list _ (atom head :: target :: _) _ => (definitionHead? head).map fun kind => (kind, target)
  | _ => none

/-- What stands where a target has the name: the target, or the first item of a list. -/
def inNamePlace? : Written → Option Written
  | list _ items _ => items.head?
  | form => some form

/-- The kind of definition with a target: a list target makes a function of a variable. -/
def kindFor (kind : DefinitionKind) : Written → DefinitionKind
  | list .. => if kind = .var then .function else kind
  | _ => kind

/-- What the index has for a form. -/
def indexed? (w : Written) : Option Definition :=
  w.defining?.bind fun (kind, target) =>
    target.inNamePlace?.bind fun name => named? (target.kindFor kind) name.first

variable {t mark opening closing : Lexeme} {w form : Written} {ws items : List Written} {d : Datum}
  {ds : List Datum}

theorem isOpen_of_mark {keyword : String} (quote : quoteKeyword? mark.token = some keyword) :
    mark.isOpen = false :=
  Bool.eq_false_iff.mpr fun isOpen => (not_mark_of_quote quote).1 ((token_eq_open mark).mpr isOpen)

/-- A list or a marked form is no keyword. -/
theorem definitionHead?_first (read : w.datum? = some d) (notAtom : ∀ t, w ≠ atom t) :
    definitionHead? w.first = none := by
  cases found : definitionHead? w.first with
  | none => rfl
  | some kind =>
    exfalso
    have keyword := definitionKeyword_of_head found
    cases w with
    | atom t => exact notAtom t rfl
    | list opening items closing =>
      have isOpen : opening.token = "(" := (token_eq_open opening).mpr (datum?_list.mp read).1
      rw [first, isOpen] at keyword
      exact absurd keyword (by cases kind <;> decide)
    | marked mark form =>
      obtain ⟨_, _, quote, _, _⟩ := datum?_marked.mp read
      rw [first] at keyword
      rw [keyword] at quote
      cases kind <;> cases quote

/-- The target of a definition in the lexemes. -/
theorem target?_lexemes (kind : DefinitionKind) (read : w.datum? = some d) (rest : List Lexeme) :
    Editor.target? kind (w.lexemes ++ rest) =
      w.inNamePlace?.bind fun name => named? (w.kindFor kind) name.first := by
  cases w with
  | atom t =>
    change (if t.isOpen then _ else named? kind t) = _
    rw [(datum?_atom.mp read).1]
    rfl
  | marked mark form =>
    obtain ⟨_, _, quote, _, _⟩ := datum?_marked.mp read
    change (if mark.isOpen then _ else named? kind mark) = _
    rw [isOpen_of_mark quote]
    rfl
  | list opening items closing =>
    obtain ⟨isOpen, isClose, _⟩ := datum?_list.mp read
    change (if opening.isOpen then _ else named? kind opening) = _
    rw [if_pos isOpen]
    cases items with
    | nil => exact named?_close isClose _
    | cons name items =>
      obtain ⟨more, same⟩ := name.lexemes_eq_cons
      simp only [allLexemes, same, List.cons_append]
      rfl

/-- What the lexemes behind the opening parenthesis of a list define. -/
theorem definition?_lexemes (read : (list opening items closing).datum? = some d) (rest : List Lexeme) :
    Editor.definition? (allLexemes items ++ closing :: rest) = (list opening items closing).indexed? := by
  obtain ⟨_, isClose, ds, inside, _⟩ := datum?_list.mp read
  cases items with
  | nil => exact definition?_close isClose rest
  | cons head items =>
    obtain ⟨_, _, readHead, readItems, _⟩ := data?_cons.mp inside
    by_cases atomHead : ∃ t, head = atom t
    · obtain ⟨head, rfl⟩ := atomHead
      change ((definitionHead? head).bind fun kind =>
        Editor.target? kind (allLexemes items ++ closing :: rest)) = _
      cases items with
      | nil =>
        cases definitionHead? head with
        | none => rfl
        | some kind => exact target?_close isClose kind rest
      | cons target items =>
        obtain ⟨_, _, readTarget, _, _⟩ := data?_cons.mp readItems
        simp only [allLexemes, List.append_assoc, target?_lexemes _ readTarget, indexed?, defining?]
        cases definitionHead? head <;> rfl
    · have noHead := definitionHead?_first readHead fun t same => atomHead ⟨t, same⟩
      obtain ⟨more, same⟩ := head.lexemes_eq_cons
      have noEntry : (list opening (head :: items) closing).defining? = none := by
        cases head with
        | atom t => exact absurd ⟨t, rfl⟩ atomHead
        | marked | list => rfl
      simp only [allLexemes, same, List.cons_append, Editor.definition?, noHead, indexed?, noEntry]
      rfl

mutual

/-- The definitions among the lexemes of a form are those of its lists. -/
theorem definitionsIn_lexemes (w : Written) {d : Datum} (read : w.datum? = some d) (rest : List Lexeme) :
    definitionsIn (w.lexemes ++ rest) = w.lists.filterMap indexed? ++ definitionsIn rest := by
  cases w with
  | atom t =>
    change (if t.isOpen then _ else []) ++ definitionsIn rest = _
    rw [(datum?_atom.mp read).1]
    rfl
  | marked mark form =>
    obtain ⟨_, _, quote, inside, _⟩ := datum?_marked.mp read
    change (if mark.isOpen then _ else []) ++ definitionsIn (form.lexemes ++ rest) = _
    rw [isOpen_of_mark quote]
    exact definitionsIn_lexemes form inside rest
  | list opening items closing =>
    obtain ⟨isOpen, isClose, ds, inside, _⟩ := datum?_list.mp read
    have lexemes : (list opening items closing).lexemes ++ rest =
        opening :: (allLexemes items ++ closing :: rest) := by simp [Written.lexemes]
    have closes : definitionsIn (closing :: rest) = definitionsIn rest := by
      rw [definitionsIn, isOpen_of_isClose isClose]
      rfl
    rw [lexemes, definitionsIn, if_pos isOpen, definition?_lexemes read, definitionsIn_allLexemes items inside,
      closes, lists, List.filterMap_cons]
    cases (list opening items closing).indexed? <;> rfl

theorem definitionsIn_allLexemes (ws : List Written) {ds : List Datum} (read : data? ws = some ds)
    (rest : List Lexeme) : definitionsIn (allLexemes ws ++ rest) =
      (allLists ws).filterMap indexed? ++ definitionsIn rest := by
  cases ws with
  | nil => rfl
  | cons w ws =>
    obtain ⟨_, _, first, others, _⟩ := data?_cons.mp read
    rw [allLexemes, List.append_assoc, definitionsIn_lexemes w first, definitionsIn_allLexemes ws others,
      allLists, List.filterMap_append, List.append_assoc]

end

end Written

open Written (allLists indexed?)

variable {text : String} {ws : List Written} {ds : List Datum}

/-- The index has the definitions of the lists in a text, put in one after another. -/
theorem index_definitions (closed : AllClosed (scan text.toList)) (writes : Writes text ws ds) :
    (Index.ofText text).definitions = ((allLists ws).filterMap indexed?).foldl putDefinition [] := by
  obtain ⟨missing, lexemes⟩ := writes.lexemes
  have all := Written.definitionsIn_allLexemes ws writes.data []
  rw [List.append_nil, lexemes, definitionsIn_replicate rfl] at all
  have noParen (t : Lexeme) (mem : t ∈ scan text.toList) (openString : t.isOpenString = true) : t.isOpen = false := by
    rw [closed t mem] at openString
    cases openString
  refine (Progress.start.run_definitions noParen).trans ?_
  rw [all, definitionsIn, List.append_nil]
  rfl

/-- The entry for a name is that of the last list with the name. -/
theorem index_find? (closed : AllClosed (scan text.toList)) (writes : Writes text ws ds) (name : String) :
    (Index.ofText text).find? name =
      ((allLists ws).filterMap indexed?).reverse.find? fun e => e.name == name := by
  unfold Index.find?
  rw [index_definitions closed writes, find?_putAll]
  exact Option.or_none

/-! ## The names in the index -/

/-- What a token is read as: a string when it begins with a double quote, else a boolean, a number or the
symbol that it is. -/
theorem atom_cases {token : String} {d : Datum} (read : Reader.atom token = .ok d) :
    token.toList.head? = some '"' ∧ (∃ s, d = .string s) ∨
      token.toList.head? ≠ some '"' ∧
        ((∃ b, d = .bool b) ∨ (∃ n, d = .int n) ∨ (∃ x, d = .float x) ∨ d = .symbol token) := by
  unfold Reader.atom integerAtom at read
  dsimp only at read
  split at read
  · rename_i same
    cases read
    exact Or.inr ⟨by rw [same]; decide, Or.inl ⟨_, rfl⟩⟩
  split at read
  · rename_i same
    cases read
    exact Or.inr ⟨by rw [same]; decide, Or.inl ⟨_, rfl⟩⟩
  split at read
  · rename_i quoted
    cases read
    exact Or.inl ⟨quoted, _, rfl⟩
  refine Or.inr ⟨‹_›, Or.inr ?_⟩
  split at read
  · split at read
    · cases read
    · cases read
      exact Or.inl ⟨_, rfl⟩
  · split at read
    · cases read
      exact Or.inr (Or.inl ⟨_, rfl⟩)
    · cases read
      exact Or.inr (Or.inr rfl)

theorem isString_iff (t : Lexeme) : t.isString = true ↔ t.token.toList.head? = some '"' := by
  rw [Lexeme.isString, Lexeme.token, String.toList_ofList, beq_iff_eq]

theorem unquoted_of_mark {token keyword : String} (quote : quoteKeyword? token = some keyword) :
    token.toList.head? ≠ some '"' := by
  unfold quoteKeyword? at quote
  repeat' split at quote
  all_goals first
    | rename_i same
      rw [same]
      decide
    | cases quote

namespace Written

/-- Written as a symbol. -/
def isName : Written → Bool
  | atom t => match Reader.atom t.token with
    | .ok (.symbol _) => true
    | _ => false
  | _ => false

/-- Written as a number, as a boolean or with a quote marker. -/
def isMistaken : Written → Bool
  | atom t => match Reader.atom t.token with
    | .ok (.int _) | .ok (.float _) | .ok (.bool _) => true
    | _ => false
  | marked .. => true
  | list .. => false

/-- What stands in the place of the name that a list defines. -/
def namePlace? (w : Written) : Option Written :=
  w.defining?.bind fun (_, target) => target.inNamePlace?

variable {x : Written} {d : Datum}

/-- The index takes for a name what is written as one, and what it mistakes for one. -/
theorem named?_first (read : x.datum? = some d) (kind : DefinitionKind) :
    named? kind x.first =
      if x.isName || x.isMistaken then some ⟨x.first.token, kind, x.first.place⟩ else none := by
  cases x with
  | list opening items closing =>
    have isOpen := (datum?_list.mp read).1
    change named? kind opening = none
    unfold named?
    rw [isOpen]
    rfl
  | marked mark form =>
    obtain ⟨keyword, _, quote, _, _⟩ := datum?_marked.mp read
    have notClose : mark.isClose = false :=
      Bool.eq_false_iff.mpr fun isClose => (not_mark_of_quote quote).2 ((token_eq_close mark).mpr isClose)
    have notString : mark.isString = false :=
      Bool.eq_false_iff.mpr fun isString => unquoted_of_mark quote ((isString_iff mark).mp isString)
    change named? kind mark = some _
    unfold named?
    rw [isOpen_of_mark quote, notClose, notString]
    rfl
  | atom t =>
    obtain ⟨isOpen, isClose, _, read⟩ := datum?_atom.mp read
    change named? kind t = _
    unfold named?
    rw [isOpen, isClose]
    simp only [isName, isMistaken, read]
    obtain ⟨quoted, s, rfl⟩ | ⟨unquoted, other⟩ := atom_cases read
    · rw [(isString_iff t).mpr quoted]
      rfl
    · rw [Bool.eq_false_iff.mpr fun isString => unquoted ((isString_iff t).mp isString)]
      obtain ⟨b, rfl⟩ | ⟨n, rfl⟩ | ⟨x, rfl⟩ | rfl := other <;> rfl

end Written

open Written (namePlace? isName isMistaken)

variable {w x : Written} {d : Datum} {e : Definition} {symbols : SymbolTable} {room : Nat}

theorem defining?_eq_some {kind : DefinitionKind} {target : Written} :
    w.defining? = some (kind, target) ↔ ∃ opening head more closing,
      w = .list opening (.atom head :: target :: more) closing ∧ definitionHead? head = some kind := by
  constructor
  · intro defining
    unfold Written.defining? at defining
    split at defining
    · obtain ⟨kind, head, same⟩ := Option.map_eq_some_iff.mp defining
      cases same
      exact ⟨_, _, _, _, rfl, head⟩
    · cases defining
  · rintro ⟨opening, head, more, closing, rfl, isHead⟩
    simp only [Written.defining?, isHead, Option.map_some]

theorem namePlace?_eq_some : w.namePlace? = some x ↔
    ∃ kind target, w.defining? = some (kind, target) ∧ target.inNamePlace? = some x := by
  simp only [namePlace?, Option.bind_eq_some_iff, Prod.exists]

/-- The target of a definition that can be read can be read, and so can what stands for its name. -/
theorem datum?_namePlace {kind : DefinitionKind} {target : Written} (read : w.datum?.isSome = true)
    (defining : w.defining? = some (kind, target)) (place : target.inNamePlace? = some x) :
    (∃ d, target.datum? = some d) ∧ ∃ d, x.datum? = some d := by
  obtain ⟨opening, head, more, closing, rfl, _⟩ := defining?_eq_some.mp defining
  obtain ⟨d, read⟩ := Option.isSome_iff_exists.mp read
  obtain ⟨_, _, ds, inside, _⟩ := Written.datum?_list.mp read
  obtain ⟨_, _, _, rest, _⟩ := Written.data?_cons.mp inside
  obtain ⟨d', _, readTarget, _, _⟩ := Written.data?_cons.mp rest
  refine ⟨⟨d', readTarget⟩, ?_⟩
  cases target with
  | atom t =>
    cases place
    exact ⟨d', readTarget⟩
  | marked mark form =>
    cases place
    exact ⟨d', readTarget⟩
  | list opening items closing =>
    obtain ⟨_, _, ds, inside, _⟩ := Written.datum?_list.mp readTarget
    obtain ⟨d, _, readName⟩ := Written.datum?_of_mem inside (List.mem_of_mem_head? place)
    exact ⟨d, readName⟩

/-- The entry of a form that can be read. -/
theorem indexed?_eq_some (read : w.datum?.isSome = true) : w.indexed? = some e ↔
    ∃ kind target x, w.defining? = some (kind, target) ∧ target.inNamePlace? = some x ∧
      (x.isName || x.isMistaken) = true ∧ e = ⟨x.first.token, target.kindFor kind, x.first.place⟩ := by
  simp only [indexed?, Option.bind_eq_some_iff, Prod.exists]
  constructor
  · rintro ⟨kind, target, defining, x, place, named⟩
    obtain ⟨_, d, readName⟩ := datum?_namePlace read defining place
    rw [Written.named?_first readName] at named
    split at named
    · rename_i taken
      exact ⟨kind, target, x, defining, place, taken, (Option.some.inj named).symm⟩
    · cases named
  · rintro ⟨kind, target, x, defining, place, taken, rfl⟩
    obtain ⟨_, d, readName⟩ := datum?_namePlace read defining place
    exact ⟨kind, target, defining, x, place, by rw [Written.named?_first readName, if_pos taken]⟩

/-- One token is a symbol when it is no parenthesis and no quote marker and is read as the symbol. -/
theorem isForm_symbol {token name : String} (symbol : IsForm [token] (.symbol name)) :
    quoteKeyword? token = none ∧ Reader.atom token = .ok (.symbol name) := by
  generalize same : [token] = us at symbol
  cases symbol with
  | atom notOpen notClose notQuote read =>
    obtain rfl := List.singleton_inj.mp same
    exact ⟨notQuote, read⟩

/-- A symbol is written by its name, what is mistaken for one by no name. -/
theorem isForm_symbol_iff (read : x.datum? = some d) (taken : (x.isName || x.isMistaken) = true) :
    IsForm [x.first.token] (.symbol x.first.token) ↔ x.isMistaken = false := by
  cases x with
  | list opening items closing => cases taken
  | marked mark form =>
    obtain ⟨keyword, _, quote, _, _⟩ := Written.datum?_marked.mp read
    constructor
    · intro symbol
      have notQuote : quoteKeyword? mark.token = none := (isForm_symbol symbol).1
      rw [quote] at notQuote
      cases notQuote
    · exact nofun
  | atom t =>
    obtain ⟨isOpen, isClose, notQuote, read⟩ := Written.datum?_atom.mp read
    have notOpen : t.token ≠ "(" := fun same => by
      rw [(token_eq_open t).mp same] at isOpen
      cases isOpen
    have notClose : t.token ≠ ")" := fun same => by
      rw [(token_eq_close t).mp same] at isClose
      cases isClose
    constructor
    · intro symbol
      have readSymbol : Reader.atom t.token = .ok (.symbol t.token) := (isForm_symbol symbol).2
      simp only [isMistaken, readSymbol]
    · intro notMistaken
      rw [notMistaken, Bool.or_false] at taken
      obtain ⟨_, s, rfl⟩ | ⟨_, ⟨b, rfl⟩ | ⟨n, rfl⟩ | ⟨f, rfl⟩ | rfl⟩ := atom_cases read
      · simp [isName, read] at taken
      · simp [isName, read] at taken
      · simp [isName, read] at taken
      · simp [isName, read] at taken
      · exact .atom notOpen notClose notQuote read

theorem first_mem_lexemes_of_namePlace {kind : DefinitionKind} {target : Written}
    (defining : w.defining? = some (kind, target)) (place : target.inNamePlace? = some x) :
    x.first ∈ w.lexemes := by
  obtain ⟨opening, head, more, closing, rfl, _⟩ := defining?_eq_some.mp defining
  have inTarget : x.first ∈ target.lexemes := by
    cases target with
    | atom | marked =>
      cases place
      exact Written.first_mem_lexemes _
    | list opening items closing =>
      have among := Written.mem_allLexemes (List.mem_of_mem_head? place) x.first_mem_lexemes
      exact List.mem_cons_of_mem _ (List.mem_append_left _ among)
  have among : x.first ∈ Written.allLexemes (.atom head :: target :: more) :=
    Written.mem_allLexemes (List.mem_cons_of_mem _ List.mem_cons_self) inTarget
  exact List.mem_cons_of_mem _ (List.mem_append_left _ among)

theorem isClose_of_taken (read : x.datum? = some d) (taken : (x.isName || x.isMistaken) = true) :
    x.first.isClose = false := by
  cases closes : x.first.isClose with
  | false => rfl
  | true =>
    have named := Written.named?_first read .var
    rw [if_pos taken, named?_close closes] at named
    cases named

/-- What is no closing parenthesis stands in the text itself. -/
theorem first_mem_scan {t : Lexeme} (writes : Writes text ws ds) (mem : w ∈ allLists ws) (among : t ∈ w.lexemes)
    (notClose : t.isClose = false) : t ∈ scan text.toList := by
  obtain ⟨missing, lexemes⟩ := writes.lexemes
  have all := Written.mem_lexemes_of_allLists ws mem among
  rw [lexemes] at all
  rcases List.mem_append.mp all with inside | added
  · exact inside
  · obtain rfl := List.eq_of_mem_replicate added
    cases notClose

/-- Every key of the index of a text that the reader accepts is the text of a lexeme of it, in the place of the
name that a list of the text defines. It is a symbol, a number, a boolean or a quote marker. So the keys
are all symbols just when no list, quoted or not, that is headed by `define` or `define-macro` has a number,
a boolean or a marked form where the name should be. -/
theorem index_names (text : String) (symbols : SymbolTable) (room : Nat) (ds : List Datum)
    (accepted : (Port.ofText text symbols).forms room = (ds, none)) :
    (∃ ws, Writes text ws ds) ∧ ∀ ws, Writes text ws ds →
      (∀ e ∈ (Index.ofText text).definitions, ∃ w ∈ allLists ws, ∃ x, w.namePlace? = some x ∧
        (x.isName = true ∨ x.isMistaken = true) ∧ x.first ∈ scan text.toList ∧
        e.name = x.first.token ∧ e.place = x.first.place) ∧
      ((∀ e ∈ (Index.ofText text).definitions, IsForm [e.name] (.symbol e.name)) ↔
        ∀ w ∈ allLists ws, ∀ x, w.namePlace? = some x → x.isMistaken = false) := by
  obtain ⟨closed, written⟩ := writes_of_accepted accepted
  refine ⟨written, fun ws writes => ?_⟩
  have readable (w : Written) (mem : w ∈ allLists ws) : w.datum?.isSome = true :=
    Written.datum?_allLists ws writes.data w mem
  have entries (e : Definition) (mem : e ∈ (Index.ofText text).definitions) :
      ∃ w ∈ allLists ws, w.indexed? = some e := by
    rw [index_definitions closed writes] at mem
    exact List.mem_filterMap.mp ((mem_putAll mem).resolve_right List.not_mem_nil)
  constructor
  · intro e mem
    obtain ⟨w, among, entry⟩ := entries e mem
    obtain ⟨kind, target, x, defining, place, taken, rfl⟩ := (indexed?_eq_some (readable w among)).mp entry
    refine ⟨w, among, x, namePlace?_eq_some.mpr ⟨kind, target, defining, place⟩, ?_, ?_, rfl, rfl⟩
    · exact (Bool.or_eq_true _ _).mp taken
    · obtain ⟨_, d, readName⟩ := datum?_namePlace (readable w among) defining place
      exact first_mem_scan writes among (first_mem_lexemes_of_namePlace defining place)
        (isClose_of_taken readName taken)
  · constructor
    · intro symbols w mem x place
      obtain ⟨kind, target, defining, place⟩ := namePlace?_eq_some.mp place
      obtain ⟨_, d, readName⟩ := datum?_namePlace (readable w mem) defining place
      by_contra mistaken
      have taken : (x.isName || x.isMistaken) = true := by simp_all
      have entry := (indexed?_eq_some (readable w mem)).mpr ⟨kind, target, x, defining, place, taken, rfl⟩
      have found := index_find? closed writes x.first.token
      have some : ((Index.ofText text).find? x.first.token).isSome = true := by
        rw [found, List.find?_isSome]
        exact ⟨_, List.mem_reverse.mpr (List.mem_filterMap.mpr ⟨w, mem, entry⟩), beq_self_eq_true _⟩
      obtain ⟨e, found⟩ := Option.isSome_iff_exists.mp some
      have named : e.name = x.first.token := beq_iff_eq.mp (List.find?_some (p := fun e : Definition =>
        e.name == x.first.token) found)
      have symbol := symbols e (List.mem_of_find?_eq_some found)
      rw [named] at symbol
      exact mistaken ((isForm_symbol_iff readName taken).mp symbol)
    · intro names e mem
      obtain ⟨w, among, entry⟩ := entries e mem
      obtain ⟨kind, target, x, defining, place, taken, rfl⟩ := (indexed?_eq_some (readable w among)).mp entry
      obtain ⟨_, d, readName⟩ := datum?_namePlace (readable w among) defining place
      have notMistaken := names w among x (namePlace?_eq_some.mpr ⟨kind, target, defining, place⟩)
      exact (isForm_symbol_iff readName taken).mpr notMistaken

/-- A number where the name of a variable should be, and a transformer. -/
theorem index_names_number :
    let text := "(define 5 1) (define-macro (m x) x)"
    ∃ ds ws, (Port.ofText text ⟨0, []⟩).forms 40 = (ds, none) ∧ Writes text ws ds ∧
      (Index.ofText text).definitions.map (·.name) = ["5", "m"] ∧
      ∃ w ∈ allLists ws, ∃ x, w.namePlace? = some x ∧ x.isMistaken = true := by
  intro text
  have accepted : ((Port.ofText text ⟨0, []⟩).forms 40).2 = none := by decide +kernel
  have keys : (Index.ofText text).definitions.map (·.name) = ["5", "m"] := by decide +kernel
  obtain ⟨⟨ws, writes⟩, all⟩ := index_names text ⟨0, []⟩ 40 _ (Prod.ext rfl accepted)
  refine ⟨_, ws, Prod.ext rfl accepted, writes, keys, ?_⟩
  by_contra nowhere
  have symbols := (all ws writes).2.mpr fun w mem x place => by
    by_contra mistaken
    exact nowhere ⟨w, mem, x, place, by simpa using mistaken⟩
  obtain ⟨e, mem, name⟩ :=
    List.mem_map.mp (keys ▸ List.mem_cons_self : "5" ∈ (Index.ofText text).definitions.map (·.name))
  have symbol := symbols e mem
  rw [name] at symbol
  have read : Reader.atom "5" = .ok (.symbol "5") := (isForm_symbol symbol).2
  cases read

end SmallLisp.Editor

namespace SmallLisp

open Run

/-! ## What a definition defines -/

/-- The name in a target, however deep in lists. -/
def Form.targetName? : Value → Option String
  | .symbol name => some name
  | .list _ (target :: _) => targetName? target
  | _ => none

/-- What the expansion of a definition comes to: a core form that defines the name, or the registration of a
transformer under it. -/
inductive Introduces (name : String) : (keyword : String) → (core : Value) → Machine → Prop
  | value {i e n} : Introduces name "define" (.list i [.symbol "define", .symbol name, e]) n
  | registration {t : Value} {l : Machine} : Introduces name "define-macro" .unspecified
      { l with transformers := l.transformers.put (.ofName name t) }

/-- A definition whose expansion succeeds introduces the name in its target. -/
theorem introduces_of_ends {keyword : String} (hkeyword : keyword = "define" ∨ keyword = "define-macro")
    (fuel : Nat) {room i : Nat} {target core : Value} {rest : List Value} {m n : Machine}
    (ends : (expand fuel room (.list i (.symbol keyword :: target :: rest)) true).Ends m core n) :
    ∃ name, Form.targetName? target = some name ∧ Introduces name keyword core n := by
  induction fuel generalizing room i target rest m core n with
  | zero => cases ends
  | succ fuel ih =>
    have defined : ((calls fuel).definition room (.list i (.symbol keyword :: target :: rest))
        (.symbol keyword) (target :: rest) true).Ends m core n := by
      rcases hkeyword with rfl | rfl
      · exact ends
      · exact ends
    generalize same : target :: rest = parts at defined
    unfold Calls.definition at defined
    dsimp only at defined
    split at defined
    · exact absurd defined not_ends_refuse
    · rename_i j name ps _
      cases same
      obtain ⟨_, defined⟩ := ends_require.mp defined
      have run : ((calls fuel).expandPart room true
          (Form.plainDefinition m.nextObject (.symbol keyword) name ps rest)).Ends (m.made 3) core n :=
        defined
      obtain ⟨r, rfl, run⟩ := ends_deeper.mp run
      obtain ⟨f, named, introduces⟩ := ih run
      exact ⟨f, named, introduces⟩
    · rename_i name e
      cases same
      obtain ⟨core', l, run, defined⟩ := outcome_bind_ok.mp defined
      refine ⟨name, rfl, ?_⟩
      rcases hkeyword with rfl | rfl
      · obtain ⟨rfl, rfl⟩ := ends_newList.mp defined
        exact .value
      · obtain ⟨_, rest⟩ := ends_require.mp defined
        obtain ⟨t, l', _, rest⟩ := outcome_bind_ok.mp rest
        obtain ⟨_, rest⟩ := ends_require.mp rest
        cases rest
        exact .registration
    · exact absurd defined not_ends_refuse
    · exact absurd defined not_ends_refuse

namespace Editor

open Reader Written

variable {text : String} {ws : List Written} {ds : List Datum} {d : Datum} {w : Written}

namespace Written

/-- The name in a target as it is written. A quotation is a list that begins with its keyword. -/
def targetName? : Written → Option String
  | atom t => match Reader.atom t.token with
    | .ok (.symbol name) => some name
    | _ => none
  | marked mark _ => quoteKeyword? mark.token
  | list _ (target :: _) _ => target.targetName?
  | list _ [] _ => none

/-- The name that a list defines by its shape. -/
def definedName? (w : Written) : Option String :=
  w.defining?.bind fun (_, target) => target.targetName?

/-- The name in a target is that in the value that is made of it. -/
theorem targetName?_ofDatum (w : Written) {d : Datum} (read : w.datum? = some d) (next : Nat) :
    Form.targetName? (Value.ofDatum d next).1 = w.targetName? := by
  cases w with
  | atom t =>
    obtain ⟨_, _, _, read⟩ := datum?_atom.mp read
    simp only [targetName?, read]
    obtain ⟨_, s, rfl⟩ | ⟨_, ⟨b, rfl⟩ | ⟨n, rfl⟩ | ⟨x, rfl⟩ | rfl⟩ := atom_cases read <;> rfl
  | marked mark form =>
    obtain ⟨keyword, _, quote, _, rfl⟩ := datum?_marked.mp read
    exact quote.symm
  | list opening items closing =>
    obtain ⟨_, _, ds, inside, rfl⟩ := datum?_list.mp read
    cases items with
    | nil =>
      cases inside
      rfl
    | cons target items =>
      obtain ⟨d, ds, readTarget, _, rfl⟩ := data?_cons.mp inside
      exact targetName?_ofDatum target readTarget (next + 1)

/-- The name in a target is that in what stands for the name. -/
theorem targetName?_inNamePlace {target x : Written} (place : target.inNamePlace? = some x) :
    target.targetName? = x.targetName? := by
  cases target with
  | atom | marked =>
    cases place
    rfl
  | list opening items closing =>
    cases items with
    | nil => cases place
    | cons _ _ =>
      cases place
      rfl

theorem atom_of_targetName {t : Lexeme} {name : String} (named : (atom t).targetName? = some name) :
    Reader.atom t.token = .ok (.symbol t.token) ∧ name = t.token := by
  unfold targetName? at named
  split at named
  · rename_i name' read
    cases named
    obtain ⟨_, s, same⟩ | ⟨_, ⟨b, same⟩ | ⟨n, same⟩ | ⟨x, same⟩ | same⟩ := atom_cases read <;> cases same
    exact ⟨read, rfl⟩
  · cases named

/-- A form that the index takes a symbol from defines this name. -/
theorem definedName?_of_indexed {e : Definition} (read : w.datum?.isSome = true) (indexed : w.indexed? = some e)
    (symbol : IsForm [e.name] (.symbol e.name)) : w.definedName? = some e.name := by
  obtain ⟨kind, target, x, defining, place, taken, rfl⟩ := (indexed?_eq_some read).mp indexed
  obtain ⟨_, d, readName⟩ := datum?_namePlace read defining place
  have notMistaken := (isForm_symbol_iff readName taken).mp symbol
  have named : x.targetName? = some x.first.token := by
    cases x with
    | list => cases taken
    | marked => cases notMistaken
    | atom t =>
      have read : Reader.atom t.token = .ok (.symbol t.token) := (isForm_symbol symbol).2
      change (match Reader.atom t.token with
        | .ok (.symbol name) => some name
        | _ => none) = some t.token
      rw [read]
  rw [definedName?, defining]
  exact (targetName?_inNamePlace place).trans named

end Written

/-- The expansion of a definition of a text, if it succeeds, introduces the name that the form has by its
shape. -/
theorem introduces_definedName {kind : DefinitionKind} {target : Written} (read : w.datum? = some d)
    (defining : w.defining? = some (kind, target)) {fuel room next : Nat} {core : Value} {m n : Machine}
    (ends : (expand fuel room (Value.ofDatum d next).1 true).Ends m core n) :
    ∃ name, w.definedName? = some name ∧ Introduces name kind.keyword core n := by
  obtain ⟨opening, head, more, closing, rfl, isHead⟩ := defining?_eq_some.mp defining
  obtain ⟨_, _, ds, inside, rfl⟩ := datum?_list.mp read
  obtain ⟨d, _, readHead, readRest, rfl⟩ := data?_cons.mp inside
  obtain ⟨d', ds, readTarget, _, rfl⟩ := data?_cons.mp readRest
  have keyword := definitionKeyword_of_head isHead
  have known : kind.keyword = "define" ∨ kind.keyword = "define-macro" := by cases kind <;> simp [DefinitionKind.keyword]
  obtain rfl : d = .symbol kind.keyword := by
    have readKeyword := (datum?_atom.mp readHead).2.2.2
    have symbol : Reader.atom kind.keyword = .ok (.symbol kind.keyword) := by cases kind <;> rfl
    rw [keyword, symbol] at readKeyword
    exact (Except.ok.inj readKeyword).symm
  obtain ⟨name, named, introduces⟩ := introduces_of_ends known fuel ends
  rw [targetName?_ofDatum target readTarget] at named
  exact ⟨name, by rw [definedName?, defining]; exact named, introduces⟩

/-- The index misses no definition of an accepted text whose target is an atom or a list, written with its
parentheses, that begins with an atom. When a form at the top level is expanded without a failure, by whatever
session, it introduces the name that this atom is, and the index has an entry for the name. If no other list in
the text defines the name by its shape, nested and quoted lists and lists with deeper targets included, the entry
has the kind that the form has and the place of its name. -/
theorem index_has_definitions (text : String) (symbols : SymbolTable) (room : Nat) (ds : List Datum)
    (accepted : (Port.ofText text symbols).forms room = (ds, none)) :
    (∃ ws, Writes text ws ds) ∧ ∀ ws, Writes text ws ds → ∀ w ∈ ws, ∀ d kind target t,
      w.datum? = some d → w.defining? = some (kind, target) → target.inNamePlace? = some (.atom t) →
      ∀ (fuel room next : Nat) (m n : Machine) (core : Value),
        (expand fuel room (Value.ofDatum d next).1 true).Ends m core n →
        Introduces t.token kind.keyword core n ∧ ((Index.ofText text).find? t.token).isSome = true ∧
        ∀ before after, allLists ws = before ++ w :: after →
          (∀ u ∈ before ++ after, u.definedName? ≠ some t.token) →
          (Index.ofText text).find? t.token = some ⟨t.token, target.kindFor kind, t.place⟩ := by
  obtain ⟨closed, written⟩ := writes_of_accepted accepted
  refine ⟨written, ?_⟩
  intro ws writes w mem d kind target t read defining place fuel room next m n core ends
  have readable (u : Written) (among : u ∈ allLists ws) : u.datum?.isSome = true :=
    datum?_allLists ws writes.data u among
  obtain ⟨name, defined, introduces⟩ := introduces_definedName read defining ends
  have defined : (Written.atom t).targetName? = some name := by
    rw [definedName?, defining] at defined
    exact (targetName?_inNamePlace place).symm.trans defined
  obtain ⟨isSymbol, rfl⟩ := atom_of_targetName defined
  have inside : w ∈ allLists ws := by
    obtain ⟨opening, head, more, closing, rfl, _⟩ := defining?_eq_some.mp defining
    exact mem_allLists mem
  have isForm : IsForm [t.token] (.symbol t.token) := by
    obtain ⟨_, d', readName⟩ := datum?_namePlace (readable w inside) defining place
    exact (isForm_symbol_iff readName (by simp [isName, isSymbol])).mpr (by simp [isMistaken, isSymbol])
  have indexed : w.indexed? = some ⟨t.token, target.kindFor kind, t.place⟩ := by
    refine (indexed?_eq_some (readable w inside)).mpr ⟨kind, target, .atom t, defining, place, ?_, rfl⟩
    simp [isName, isSymbol]
  refine ⟨introduces, ?_, fun before after split others => ?_⟩
  · rw [index_find? closed writes, List.find?_isSome]
    exact ⟨_, List.mem_reverse.mpr (List.mem_filterMap.mpr ⟨w, inside, indexed⟩), beq_self_eq_true _⟩
  · have later : (after.filterMap indexed?).reverse.find? (fun e => e.name == t.token) = none := by
      refine List.find?_eq_none.mpr fun e mem same => ?_
      obtain ⟨u, among, entry⟩ := List.mem_filterMap.mp (List.mem_reverse.mp mem)
      have readU := readable u (split ▸ List.mem_append_right before (List.mem_cons_of_mem w among))
      have named : e.name = t.token := beq_iff_eq.mp same
      have symbol : IsForm [e.name] (.symbol e.name) := named ▸ isForm
      exact others u (List.mem_append_right before among)
        (named ▸ definedName?_of_indexed readU entry symbol)
    rw [index_find? closed writes, split, List.filterMap_append, List.filterMap_cons, indexed]
    simp only [List.reverse_append, List.reverse_cons, List.append_assoc, List.find?_append, later]
    simp

/-- A letter on its own or the keyword of a definition is written as a symbol. -/
theorem datum?_letter {token : String} (known : token ∈ ["define", "a", "b", "f", "g"]) (place : Position) :
    (Written.atom ⟨token.toList, place, false⟩).datum? = some (.symbol token) := by
  have same : (⟨token.toList, place, false⟩ : Lexeme).token = token := String.ofList_toList
  simp only [List.mem_cons, List.not_mem_nil, or_false] at known
  refine datum?_atom.mpr ⟨?_, ?_, ?_, ?_⟩
  · obtain rfl | rfl | rfl | rfl | rfl := known <;> rfl
  · obtain rfl | rfl | rfl | rfl | rfl := known <;> rfl
  · rw [same]
    obtain rfl | rfl | rfl | rfl | rfl := known <;> rfl
  · rw [same]
    obtain rfl | rfl | rfl | rfl | rfl := known <;> rfl

/-- A function, and the list that is its target. -/
theorem index_has_definitions_function :
    let text := "(define (f) g)"
    let lexeme (column : Nat) (token : String) : Lexeme := ⟨token.toList, ⟨0, column⟩, false⟩
    let target : Written := .list (lexeme 8 "(") [.atom (lexeme 9 "f")] (lexeme 10 ")")
    let w : Written :=
      .list (lexeme 0 "(") [.atom (lexeme 1 "define"), target, .atom (lexeme 12 "g")] (lexeme 13 ")")
    let d : Datum := .list [.symbol "define", .list [.symbol "f"], .symbol "g"]
    (Port.ofText text ⟨0, []⟩).forms 40 = ([d], none) ∧ Writes text [w] [d] ∧
      ∃ core n, (expand 40 40 (Value.ofDatum d 0).1 true).Ends (Machine.start .zeros) core n ∧
        Introduces "f" "define" core n ∧
        (Index.ofText text).find? "f" = some ⟨"f", .function, ⟨0, 9⟩⟩ := by
  intro text lexeme target w d
  have lexemes : Written.allLexemes [w] = scan text.toList := by decide +kernel
  have readTarget : target.datum? = some (.list [.symbol "f"]) :=
    datum?_list.mpr ⟨rfl, rfl, _, data?_cons.mpr ⟨_, _, datum?_letter (by simp) _, rfl, rfl⟩, rfl⟩
  have readBody : data? [.atom (lexeme 12 "g")] = some [.symbol "g"] :=
    data?_cons.mpr ⟨_, _, datum?_letter (by simp) _, rfl, rfl⟩
  have read : w.datum? = some d :=
    datum?_list.mpr ⟨rfl, rfl, _, data?_cons.mpr ⟨_, _, datum?_letter (by simp) _,
      data?_cons.mpr ⟨_, _, readTarget, readBody, rfl⟩, rfl⟩, rfl⟩
  have data : data? [w] = some [d] := data?_cons.mpr ⟨d, [], read, rfl, rfl⟩
  have accepted : (Port.ofText text ⟨0, []⟩).forms 40 = ([d], none) :=
    accepted_of_written lexemes (by unfold AllClosed; decide +kernel) data (by decide +kernel) _
  have writes : Writes text [w] [d] := ⟨⟨0, lexemes.trans (List.append_nil _).symm⟩, data⟩
  refine ⟨accepted, writes, ?_⟩
  have succeeds : (outcome (expand 40 40 (Value.ofDatum d 0).1 true) (Machine.start .zeros)).1.isOk = true := by
    decide +kernel
  rcases ended : outcome (expand 40 40 (Value.ofDatum d 0).1 true) (Machine.start .zeros) with ⟨h | core, n⟩
  · rw [ended] at succeeds
    cases succeeds
  obtain ⟨_, all⟩ := index_has_definitions text ⟨0, []⟩ 40 [d] accepted
  obtain ⟨introduces, _, only⟩ := all [w] writes w List.mem_cons_self d .var target (lexeme 9 "f") read rfl rfl
    40 40 0 (Machine.start .zeros) n core ended
  exact ⟨core, n, ended, introduces, only [] [target] rfl (by simp [target, definedName?, defining?])⟩

/-- The index has no definition whose target begins with a list, which defines the innermost name. -/
theorem index_misses_nested_target :
    let text := "(define ((f a) b) a)"
    let d : Datum :=
      .list [.symbol "define", .list [.list [.symbol "f", .symbol "a"], .symbol "b"], .symbol "a"]
    (Port.ofText text ⟨0, []⟩).forms 40 = ([d], none) ∧
      (∃ core n, (expand 40 40 (Value.ofDatum d 0).1 true).Ends (Machine.start .zeros) core n ∧
        Introduces "f" "define" core n) ∧
      (Index.ofText text).find? "f" = none := by
  intro text d
  let lexeme (column : Nat) (token : String) : Lexeme := ⟨token.toList, ⟨0, column⟩, false⟩
  let target : Written := .list (lexeme 8 "(")
    [.list (lexeme 9 "(") [.atom (lexeme 10 "f"), .atom (lexeme 12 "a")] (lexeme 13 ")"),
      .atom (lexeme 15 "b")] (lexeme 16 ")")
  let w : Written :=
    .list (lexeme 0 "(") [.atom (lexeme 1 "define"), target, .atom (lexeme 18 "a")] (lexeme 19 ")")
  have lexemes : Written.allLexemes [w] = scan text.toList := by decide +kernel
  have succeeds : (outcome (expand 40 40 (Value.ofDatum d 0).1 true) (Machine.start .zeros)).1.isOk = true := by
    decide +kernel
  have readInner : (Written.list (lexeme 9 "(") [.atom (lexeme 10 "f"), .atom (lexeme 12 "a")]
      (lexeme 13 ")")).datum? = some (.list [.symbol "f", .symbol "a"]) :=
    datum?_list.mpr ⟨rfl, rfl, _, data?_cons.mpr ⟨_, _, datum?_letter (by simp) _,
      data?_cons.mpr ⟨_, _, datum?_letter (by simp) _, rfl, rfl⟩, rfl⟩, rfl⟩
  have readTarget : target.datum? = some (.list [.list [.symbol "f", .symbol "a"], .symbol "b"]) :=
    datum?_list.mpr ⟨rfl, rfl, _, data?_cons.mpr ⟨_, _, readInner,
      data?_cons.mpr ⟨_, _, datum?_letter (by simp) _, rfl, rfl⟩, rfl⟩, rfl⟩
  have read : w.datum? = some d :=
    datum?_list.mpr ⟨rfl, rfl, _, data?_cons.mpr ⟨_, _, datum?_letter (by simp) _,
      data?_cons.mpr ⟨_, _, readTarget, data?_cons.mpr ⟨_, _, datum?_letter (by simp) _, rfl, rfl⟩, rfl⟩,
      rfl⟩, rfl⟩
  have data : data? [w] = some [d] := data?_cons.mpr ⟨d, [], read, rfl, rfl⟩
  refine ⟨?_, ?_, by decide +kernel⟩
  · exact accepted_of_written lexemes (by unfold AllClosed; decide +kernel) data (by decide +kernel) _
  · rcases ended : outcome (expand 40 40 (Value.ofDatum d 0).1 true) (Machine.start .zeros) with ⟨h | core, n⟩
    · rw [ended] at succeeds
      cases succeeds
    obtain ⟨name, named, introduces⟩ := introduces_of_ends (Or.inl rfl) 40 ended
    cases named
    exact ⟨core, n, ended, introduces⟩

end Editor

end SmallLisp
