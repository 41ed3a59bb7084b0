import SmallLisp.Proofs.Ports
import SmallLisp.Proofs.Readable
/-!
# Reading what was printed

The text of a readable datum, on a line of its own or among others, is read as that datum. Whatever a
text is, the data read from it are readable, so their texts are read as the same data again.
-/
namespace SmallLisp.Reader

open Run

variable {p q r s : Port} {fuel room : Nat} {line : List Char} {below : List (List Char)}
  {symbols : SymbolTable}

theorem readFrom_atom {d : Datum} (h : d.IsAtom) (fuel room : Nat) (p : Port) :
    ∃ after, outcome (readFrom (fuel + 1) room d.text) p = (.ok d, { p with symbols := after }) := by
  unfold readFrom
  rw [if_neg h.notOpen, if_neg h.notClose, h.notQuote]
  dsimp only
  unfold readAtom
  rw [h.same]
  cases d with
  | symbol name => exact ⟨_, rfl⟩
  | _ => exact ⟨_, rfl⟩

/-- Reading from a line that begins as a text does gives the datum, and leaves what follows the text. -/
def Reads (fuel room : Nat) (cs : List Char) (d : Datum) : Prop :=
  ∀ (line rest : List Char) (below : List (List Char)) (symbols : SymbolTable), Ends rest →
    LineStart.ofLine line = LineStart.ofLine (cs ++ rest) →
    ∃ token next after, outcome nextToken ⟨line, below, symbols⟩ = (.ok (some token), next) ∧
      token ≠ ")" ∧ outcome (readFrom fuel room token) next = (.ok d, ⟨rest, below, after⟩)

theorem reads_atom {d : Datum} (h : d.IsAtom) (positive : 0 < fuel) :
    Reads fuel room d.text.toList d := by
  obtain ⟨fuel, rfl⟩ : ∃ n, fuel = n + 1 := ⟨fuel - 1, by omega⟩
  intro line rest below symbols ends begin
  have first : outcome nextToken ⟨line, below, symbols⟩ = _ :=
    nextToken_of_token (begin.trans (h.token rest ends))
  rw [String.ofList_toList] at first
  obtain ⟨after, read⟩ := readFrom_atom h fuel room ⟨rest, below, symbols⟩
  exact ⟨d.text, _, after, first, h.notClose, read⟩

/-- The texts of the items of a list. -/
def inside (ds : List Datum) : List Char :=
  [' '].intercalate (ds.map fun d => d.text.toList)

/-- What follows an item begins as the items after it do, and the item is over before it. -/
theorem inside_cons (d : Datum) (ds : List Datum) (rest : List Char) :
    ∃ tail, inside (d :: ds) ++ ')' :: rest = d.text.toList ++ tail ∧ Ends tail ∧
      LineStart.ofLine tail = LineStart.ofLine (inside ds ++ ')' :: rest) := by
  cases ds with
  | nil => exact ⟨')' :: rest, by simp [inside], ends_cons rfl rest, rfl⟩
  | cons e es =>
    refine ⟨' ' :: (inside (e :: es) ++ ')' :: rest), ?_, ends_cons rfl _,
      LineStart.ofLine_blank rfl _⟩
    unfold inside
    rw [List.map_cons, List.map_cons, List.intercalate_cons_cons]
    simp

theorem length_inside_cons {d : Datum} (nonempty : 0 < d.text.toList.length) (ds : List Datum) :
    d.text.toList.length ≤ (inside (d :: ds)).length ∧
      (inside ds).length < (inside (d :: ds)).length := by
  cases ds with
  | nil =>
    have whole : inside [d] = d.text.toList := by simp [inside]
    rw [whole]
    exact ⟨le_rfl, nonempty⟩
  | cons e es =>
    have whole : inside (d :: e :: es) = d.text.toList ++ ' ' :: inside (e :: es) := by
      unfold inside
      rw [List.map_cons, List.map_cons, List.intercalate_cons_cons]
      simp
    rw [whole, List.length_append, List.length_cons]
    omega

/-- The text of a datum is read as the datum wherever there is room for its lists. -/
def IsReadBack (d : Datum) : Prop :=
  ∀ fuel room, 2 * d.text.toList.length ≤ fuel → d.depth ≤ room → Reads fuel room d.text.toList d

/-- The texts of items, and the parenthesis after them. -/
theorem readItems_inside {ds : List Datum} (readable : ∀ d ∈ ds, d.IsReadable)
    (back : ∀ d ∈ ds, IsReadBack d) (fuel : Nat) (enough : 2 * (inside ds).length + 1 ≤ fuel)
    (fits : Datum.depths ds ≤ room) (rest : List Char) (below : List (List Char))
    (symbols : SymbolTable) {line : List Char}
    (begin : LineStart.ofLine line = LineStart.ofLine (inside ds ++ ')' :: rest)) :
    ∃ after, outcome (readItems fuel room) ⟨line, below, symbols⟩ =
      (.ok ds, ⟨rest, below, after⟩) := by
  induction ds generalizing fuel line symbols with
  | nil =>
    obtain ⟨fuel, rfl⟩ : ∃ n, fuel = n + 1 := ⟨fuel - 1, by omega⟩
    exact ⟨symbols, readItems_close (nextToken_of_token begin)⟩
  | cons d ds ih =>
    obtain ⟨fuel, rfl⟩ : ∃ n, fuel = n + 1 := ⟨fuel - 1, by omega⟩
    obtain ⟨whole, shorter⟩ := length_inside_cons (readable d (by simp)).length_pos ds
    obtain ⟨tail, split, ends, same⟩ := inside_cons d ds rest
    unfold Datum.depths at fits
    rw [split] at begin
    obtain ⟨token, next, after, first, notClose, item⟩ :=
      back d (by simp) fuel room (by omega) (by omega) line tail below symbols ends begin
    obtain ⟨last, more⟩ := ih (fun e mem => readable e (List.mem_cons_of_mem d mem))
      (fun e mem => back e (List.mem_cons_of_mem d mem)) fuel (by omega) (by omega) after same
    exact ⟨last, readItems_item first notClose item more⟩

theorem isReadBack_of_isAtom {d : Datum} (h : d.IsAtom) : IsReadBack d := by
  intro fuel room enough _
  have nonempty := h.length_pos
  exact reads_atom h (by omega)

theorem isReadBack {d : Datum} (h : d.IsReadable) : IsReadBack d := by
  induction h with
  | @list items readable ih =>
    intro fuel room enough fits line rest below symbols ends begin
    rw [Datum.toList_text_list, List.length_cons, List.length_append, List.length_singleton] at enough
    rw [Datum.depth_list] at fits
    obtain ⟨fuel, rfl⟩ : ∃ n, fuel = n + 1 := ⟨fuel - 1, by omega⟩
    obtain ⟨room, rfl⟩ : ∃ n, room = n + 1 := ⟨room - 1, by omega⟩
    have start : LineStart.ofLine line = .token ['('] (inside items ++ ')' :: rest) := by
      rw [begin, Datum.toList_text_list, List.cons_append, LineStart.ofLine_open, List.append_assoc]
      rfl
    have enough : 2 * (inside items).length + 1 ≤ fuel := by
      unfold inside
      omega
    obtain ⟨after, items⟩ :=
      readItems_inside readable ih fuel enough (Nat.le_of_succ_le_succ fits) rest below symbols rfl
    exact ⟨"(", _, after, nextToken_of_token start, by decide, readFrom_open items⟩
  | bool b => exact isReadBack_of_isAtom (Datum.isAtom_bool b)
  | int short => exact isReadBack_of_isAtom (Datum.isAtom_int short)
  | float number => exact isReadBack_of_isAtom (Datum.isAtom_float number)
  | string _ token => exact isReadBack_of_isAtom (Datum.isAtom_string token)
  | symbol token same => exact isReadBack_of_isAtom (.of_atomToken token same)

/-- A line that is the text of a datum. -/
theorem read_line {d : Datum} (readable : d.IsReadable) (fits : d.depth ≤ room)
    (below : List (List Char)) (symbols : SymbolTable) :
    ∃ after, outcome (read room) ⟨[], d.text.toList :: below, symbols⟩ =
      (.ok (some d), ⟨[], below, after⟩) := by
  have unread := unread_eq ⟨[], d.text.toList :: below, symbols⟩
  rw [List.map_cons, List.sum_cons] at unread
  obtain ⟨token, next, after, first, _, form⟩ := isReadBack readable
    (2 * Port.unread ⟨[], d.text.toList :: below, symbols⟩ + 2) room (by omega) fits
    d.text.toList [] below symbols ends_nil (by rw [List.append_nil])
  have start : outcome nextToken ⟨[], d.text.toList :: below, symbols⟩ =
      outcome nextToken ⟨d.text.toList, below, symbols⟩ := rfl
  exact ⟨after, read_form (start.trans first) form⟩

/-- Lines that are the texts of data. -/
theorem collect_texts {ds : List Datum} (readable : ∀ d ∈ ds, d.IsReadable)
    (fits : ∀ d ∈ ds, d.depth ≤ room) (fuel : Nat) (enough : ds.length < fuel)
    (symbols : SymbolTable) :
    collect (read room) fuel ⟨[], ds.map fun d => d.text.toList, symbols⟩ = (ds, none) := by
  induction ds generalizing fuel symbols with
  | nil =>
    obtain ⟨fuel, rfl⟩ : ∃ n, fuel = n + 1 := ⟨fuel - 1, by omega⟩
    exact collect_none (read_end rfl)
  | cons d ds ih =>
    obtain ⟨fuel, rfl⟩ : ∃ n, fuel = n + 1 := ⟨fuel - 1, by omega⟩
    obtain ⟨after, first⟩ := read_line (readable d (by simp)) (fits d (by simp))
      (ds.map fun d => d.text.toList) symbols
    have rest := ih (fun e mem => readable e (List.mem_cons_of_mem d mem))
      (fun e mem => fits e (List.mem_cons_of_mem d mem)) fuel (Nat.lt_of_succ_lt_succ enough) after
    rw [List.map_cons, collect_some first, rest]

theorem lines_intercalate {ls : List (List Char)} (h : ∀ l ∈ ls, '\n' ∉ l) (nonempty : ls ≠ []) :
    Text.lines (['\n'].intercalate ls) = ls := by
  induction ls with
  | nil => exact absurd rfl nonempty
  | cons l ls ih =>
    cases ls with
    | nil =>
      rw [List.intercalate_singleton]
      exact Text.splitAt_of_not_mem _ _ (h l (by simp))
    | cons k ks =>
      rw [List.intercalate_cons_cons, List.append_assoc, List.singleton_append]
      exact (Text.splitAt_append_sep _ _ _ (h l (by simp))).trans
        (congrArg _ (ih (fun m mem => h m (List.mem_cons_of_mem l mem)) nofun))

/-- The texts of readable data, one on each line, are read as these data and nothing else. -/
theorem forms_texts {ds : List Datum} (readable : ∀ d ∈ ds, d.IsReadable)
    (fits : ∀ d ∈ ds, d.depth ≤ room) (symbols : SymbolTable) :
    (Port.ofText (String.intercalate "\n" (ds.map Datum.text)) symbols).forms room = (ds, none) := by
  have newline : "\n".toList = ['\n'] := rfl
  cases ds with
  | nil => rfl
  | cons d ds =>
    have lines : Text.lines (String.intercalate "\n" ((d :: ds).map Datum.text)).toList =
        (d :: ds).map fun d => d.text.toList := by
      rw [String.toList_intercalate, List.map_map, newline]
      refine lines_intercalate (fun l mem => ?_) nofun
      obtain ⟨e, item, rfl⟩ := List.mem_map.mp mem
      exact (readable e item).newline_not_mem
    have enough := length_below_le_unread ⟨[], (d :: ds).map fun d => d.text.toList, symbols⟩
    rw [List.length_map] at enough
    unfold Port.forms Port.ofText
    rw [lines]
    exact collect_texts readable fits _ (Nat.lt_succ_of_le enough) symbols

theorem isToken_of_nextTokenFrom {token : String}
    (h : nextTokenFrom symbols below line = (.ok (some token), q)) : IsToken token.toList := by
  induction below generalizing line with
  | nil =>
    unfold nextTokenFrom at h
    cases start : LineStart.ofLine line with
    | token text rest =>
      rw [start] at h
      cases h
      rw [String.toList_ofList]
      exact isToken_of_ofLine start
    | openString text =>
      rw [start] at h
      cases h
    | nothing =>
      rw [start] at h
      cases h
  | cons next below ih =>
    unfold nextTokenFrom at h
    cases start : LineStart.ofLine line with
    | token text rest =>
      rw [start] at h
      cases h
      rw [String.toList_ofList]
      exact isToken_of_ofLine start
    | openString text =>
      rw [start] at h
      cases h
    | nothing =>
      rw [start] at h
      exact ih h

/-- A token that is neither a parenthesis nor a quote marker stands for a readable datum. -/
theorem isReadable_of_token {token : String} {d : Datum} (h : IsToken token.toList)
    (notOpen : token ≠ "(") (notClose : token ≠ ")") (notQuote : quoteKeyword? token = none)
    (read : atom token = .ok d) : d.IsReadable ∧ d.depth = 0 := by
  generalize text : token.toList = cs at h
  have word (w : String) (same : w.toList = cs) : token = w :=
    String.toList_inj.mp (text.trans same.symm)
  cases h with
  | @punctuation c mark =>
    unfold isPunctuation at mark
    simp only [Bool.or_eq_true, beq_iff_eq] at mark
    rcases mark with (((rfl | rfl) | rfl) | rfl) | rfl
    · exact absurd (word "(" rfl) notOpen
    · exact absurd (word ")" rfl) notClose
    · rw [word "'" rfl] at notQuote
      cases notQuote
    · rw [word "`" rfl] at notQuote
      cases notQuote
    · rw [word "," rfl] at notQuote
      cases notQuote
  | splice =>
    rw [word ",@" rfl] at notQuote
    cases notQuote
  | string body => exact Datum.isReadable_of_string body text read
  | atom whole =>
    subst text
    exact Datum.isReadable_of_atom whole read

theorem isReadable_keyword {token keyword : String} (h : quoteKeyword? token = some keyword) :
    (Datum.symbol keyword).IsReadable := by
  unfold quoteKeyword? at h
  split at h
  · cases h
    exact .symbol (.of_all nofun rfl) rfl
  · split at h
    · cases h
      exact .symbol (.of_all nofun rfl) rfl
    · split at h
      · cases h
        exact .symbol (.of_all nofun rfl) rfl
      · split at h
        · cases h
          exact .symbol (.of_all nofun rfl) rfl
        · cases h

/-- A datum that is read back wherever there is this much room. -/
def IsReadableIn (room : Nat) (d : Datum) : Prop :=
  d.IsReadable ∧ d.depth ≤ room

theorem isReadableIn_list {ds : List Datum} (h : ∀ d ∈ ds, IsReadableIn room d) :
    IsReadableIn (room + 1) (.list ds) := by
  refine ⟨.list fun d mem => (h d mem).1, ?_⟩
  rw [Datum.depth_list]
  exact Nat.succ_le_succ (Datum.depths_le_iff.mpr fun d mem => (h d mem).2)

/-- What is read is readable. -/
theorem isReadableIn_of_read (fuel : Nat) :
    (∀ {room token p d q}, IsToken token.toList →
      outcome (readFrom fuel room token) p = (.ok d, q) → IsReadableIn room d) ∧
    (∀ {room p ds q}, outcome (readItems fuel room) p = (.ok ds, q) →
      ∀ d ∈ ds, IsReadableIn room d) := by
  induction fuel with
  | zero =>
    refine ⟨fun _ h => ?_, fun h => ?_⟩
    · cases h
    · cases h
  | succ fuel ih =>
    obtain ⟨form, items⟩ := ih
    constructor
    · intro room token p d q kind h
      unfold readFrom at h
      split at h
      · obtain ⟨room, rfl, h⟩ := outcome_deeper_ok h
        obtain ⟨ds, r, inside, h⟩ := outcome_bind_ok.mp h
        cases h
        exact isReadableIn_list (items inside)
      · rename_i notOpen
        split at h
        · cases h
        · rename_i notClose
          split at h
          · rename_i keyword mark
            obtain ⟨room, rfl, h⟩ := outcome_deeper_ok h
            obtain ⟨next, r, read, h⟩ := outcome_bind_ok.mp h
            cases next with
            | none => cases h
            | some next =>
              obtain ⟨quoted, r', first, h⟩ := outcome_bind_ok.mp h
              obtain ⟨_, r'', _, h⟩ := outcome_bind_ok.mp h
              cases h
              refine isReadableIn_list fun e mem => ?_
              rcases List.mem_cons.mp mem with rfl | mem
              · exact ⟨isReadable_keyword mark, Nat.zero_le _⟩
              · rw [List.mem_singleton.mp mem]
                exact form (isToken_of_nextTokenFrom read) first
          · rename_i notQuote
            obtain ⟨readable, flat⟩ :=
              isReadable_of_token kind notOpen notClose notQuote (readAtom_ok h)
            exact ⟨readable, by omega⟩
    · intro room p ds q h
      unfold readItems at h
      obtain ⟨next, r, read, h⟩ := outcome_bind_ok.mp h
      cases next with
      | none =>
        cases h
        exact fun _ mem => absurd mem List.not_mem_nil
      | some token =>
        dsimp only at h
        split at h
        · cases h
          exact fun _ mem => absurd mem List.not_mem_nil
        · obtain ⟨d, r', first, h⟩ := outcome_bind_ok.mp h
          obtain ⟨ds, r'', rest, h⟩ := outcome_bind_ok.mp h
          cases h
          intro e mem
          rcases List.mem_cons.mp mem with rfl | mem
          · exact form (isToken_of_nextTokenFrom read) first
          · exact items rest e mem

theorem isReadableIn_of_form {d : Datum} (h : outcome (read room) p = (.ok (some d), q)) :
    IsReadableIn room d := by
  unfold read at h
  obtain ⟨_, _, get, h⟩ := outcome_bind_ok.mp h
  cases get
  obtain ⟨next, r, first, h⟩ := outcome_bind_ok.mp h
  cases next with
  | none => cases h
  | some token =>
    obtain ⟨e, r', form, h⟩ := outcome_bind_ok.mp h
    cases h
    exact (isReadableIn_of_read _).1 (isToken_of_nextTokenFrom first) form

theorem isReadableIn_of_collect (fuel : Nat) (p : Port) :
    ∀ d ∈ (collect (read room) fuel p).1, IsReadableIn room d := by
  induction fuel generalizing p with
  | zero => exact nofun
  | succ fuel ih =>
    intro d mem
    rcases h : outcome (read room) p with ⟨f | form, q⟩
    · rw [collect_error h] at mem
      cases mem
    · cases form with
      | none =>
        rw [collect_none h] at mem
        cases mem
      | some e =>
        rw [collect_some h] at mem
        rcases List.mem_cons.mp mem with rfl | mem
        · exact isReadableIn_of_form h
        · exact ih q d mem

/-- The forms that a port gives are readable, also those before a failure. -/
theorem isReadableIn_of_forms (room : Nat) (p : Port) : ∀ d ∈ (p.forms room).1, IsReadableIn room d :=
  isReadableIn_of_collect _ p

theorem mapM_text? (live : Nat → Bool) {ds : List Datum} {vs : List Value}
    (h : ∀ d ∈ ds, IsReadableIn room d) (shapes : Datum.AreShapesOf ds vs) :
    vs.mapM (Value.text? live room .source) = .ok (ds.map Datum.text) := by
  induction ds generalizing vs with
  | nil =>
    cases shapes
    rfl
  | cons d ds ih =>
    cases shapes with
    | cons shape shapes =>
      obtain ⟨readable, fits⟩ := h d (by simp)
      have first := readable.text? shape live fits
      have rest := ih (fun e mem => h e (List.mem_cons_of_mem d mem)) shapes
      rw [List.mapM_cons, first, rest]
      rfl

/-- Every readable datum has a text, which is read as that datum and nothing else. Every form read from
any text is readable; and the texts of all forms read, one on each line, are read as the same forms. -/
theorem printed_data_read_back (live : Nat → Bool) (symbols : SymbolTable) :
    (∀ d : Datum, d.IsReadable → ∀ v, d.IsShapeOf v → ∀ room, d.depth ≤ room →
      ∃ text, v.text? live room .source = .ok text ∧
        (Port.ofText text symbols).forms room = ([d], none)) ∧
    ∀ text table room next, ∃ ds failure, (Port.ofText text table).forms room = (ds, failure) ∧
      (∀ d ∈ ds, d.IsReadable) ∧
      ∃ texts, (Value.ofData ds next).1.mapM (Value.text? live room .source) = .ok texts ∧
        (Port.ofText (String.intercalate "\n" texts) symbols).forms room = (ds, none) := by
  constructor
  · intro d readable v shape room fits
    refine ⟨d.text, readable.text? shape live fits, ?_⟩
    have alone : (Port.ofText (String.intercalate "\n" ([d].map Datum.text)) symbols).forms room = _ :=
      forms_texts (by simpa using readable) (by simpa using fits) symbols
    rwa [List.map_singleton, String.intercalate_singleton] at alone
  · intro text table room next
    have readable := isReadableIn_of_forms room (Port.ofText text table)
    have shapes := Datum.areShapesOf_ofData ((Port.ofText text table).forms room).1 next
    refine ⟨_, _, rfl, fun d mem => (readable d mem).1, _, mapM_text? live readable shapes, ?_⟩
    exact forms_texts (fun d mem => (readable d mem).1) (fun d mem => (readable d mem).2) symbols

/-- The law for a list that holds a string with quotes and backslashes, a negative zero and a quotation. -/
theorem printed_data_read_back_nested : ∃ text,
    (Value.list 4 [.string "say \\\"hi\\\\", .float (Number.DecimalLiteral.toFloat ⟨true, ⟨0, -1⟩⟩),
      .list 2 [.symbol "quote", .int (-7)]]).text? (fun _ => true) 2 .source = .ok text ∧
    (Port.ofText text ⟨0, []⟩).forms 2 =
      ([.list [.string "say \\\"hi\\\\", .float (Number.DecimalLiteral.toFloat ⟨true, ⟨0, -1⟩⟩),
        .list [.symbol "quote", .int (-7)]]], none) := by
  have string : (Datum.string "say \\\"hi\\\\").IsReadable := .string (by decide) rfl
  have keyword : (Datum.symbol "quote").IsReadable := .symbol (.of_all nofun rfl) rfl
  have number : (Datum.int (-7)).IsReadable := .int (by decide)
  have quotation : (Datum.list [.symbol "quote", .int (-7)]).IsReadable :=
    .list (by simpa using ⟨keyword, number⟩)
  refine (printed_data_read_back (fun _ => true) ⟨0, []⟩).1 _ (.list ?_) _
    (.list 4 (.cons (.string _) (.cons (.float _) (.cons (.list 2 (.cons (.symbol _)
      (.cons (.int _) .nil))) .nil)))) 2 (by decide)
  simpa using ⟨string, .float (Number.isNaN_toFloat _), quotation⟩

end SmallLisp.Reader
