import SmallLisp.Proofs.Upholding
/-!
# What loading reports

Loading a text does what evaluating it does. Both go through its forms in the same way; loading keeps the core
form of the last one as well, writes a failure as a line, and gives a text for the value. The text it gives
after a failure is that of no value: only symbols could have it, and the symbols of a session are such
as a text can write. What fails in loading, on the other hand, is the printing of the value.
-/
namespace SmallLisp

open Run

/-! ## Values whose symbols can be written -/

/-- All symbols in a value are such as a text can write. -/
inductive Value.IsLegible : Value → Prop where
  | symbol {name : String} (h : Reader.IsAtomToken name.toList) : IsLegible (.symbol name)
  | of_parts {v : Value} (unnamed : v.name? = none) (h : ∀ u ∈ v.parts, IsLegible u) : IsLegible v

theorem Value.IsLegible.part {u v : Value} (h : v.IsLegible) (mem : u ∈ v.parts) : u.IsLegible := by
  cases h with
  | symbol => cases mem
  | of_parts _ h => exact h u mem

theorem Value.inherited_isLegible : Inherited Value.IsLegible where
  symbol h := .symbol h
  parts unnamed := ⟨fun h _ mem => h.part mem, .of_parts unnamed⟩

theorem not_star_of_isNumeral {cs : List Char} (h : Number.IsNumeral cs) : cs.head? ≠ some '*' := by
  intro star
  rcases h.2 _ (List.mem_of_mem_head? star) with digit | mem
  · cases digit
  · simp at mem

theorem head?_toList_append {c : Char} {text : String} (first : text.toList.head? = some c)
    (rest : String) : (text ++ rest).toList.head? = some c := by
  rw [String.toList_append, List.head?_append, first]
  rfl

/-- What is no symbol is printed with another character first than the text after a failure. -/
theorem Value.head?_text (live : Nat → Bool) {v : Value} (unnamed : v.name? = none) :
    (v.text live .source).toList.head? ≠ some '*' := by
  have other {c : Char} {t : String} (first : t.toList.head? = some c) (notStar : c ≠ '*') :
      t.toList.head? ≠ some '*' := fun star => notStar (Option.some.inj (first.symm.trans star))
  have begins {c : Char} {t : String} (first : t.toList.head? = some c) := head?_toList_append first
  cases v with
  | symbol name => cases unnamed
  | endOfText => cases unnamed
  | int n =>
    have numeral := (Number.allDigits_natDigits n.natAbs).isNumeral (Number.natDigits_ne_nil _)
    have text : ((Value.int n).text live .source).toList =
        Number.signed (n < 0) (Number.natDigits n.natAbs) := String.toList_ofList
    rw [text]
    exact not_star_of_isNumeral (Number.isNumeral_signed _ numeral)
  | float x =>
    change (Number.floatText .source x).toList.head? ≠ _
    cases number : x.isNaN with
    | false => exact not_star_of_isNumeral (Number.isTextOf_float number).numeral
    | true =>
      unfold Number.floatText
      rw [Number.isNaN_iff.mp number]
      decide
  | nan i => exact other (t := "nan") rfl (by decide)
  | bool b =>
    cases b with
    | true => exact other (t := "#t") rfl (by decide)
    | false => exact other (t := "#f") rfl (by decide)
  | unspecified => exact other (t := "#<unspecified>") rfl (by decide)
  | string s => exact other (begins (begins rfl s) _) (by decide)
  | list i items => exact other (begins (begins rfl _) _) (by decide)
  | continuation k => exact other (begins (begins rfl _) _) (by decide)
  | primitive p => exact other (begins (begins rfl p.printName) _) (by decide)
  | control c => exact other (begins (begins rfl c.printName) _) (by decide)
  | closure i parameters body home =>
    exact other (begins (begins (begins (begins rfl _) _) _) _) (by decide)
  | escape k w => exact other (begins (begins (begins (begins rfl _) _) _) _) (by decide)

theorem Value.IsLegible.text_ne_failureText {v : Value} (h : v.IsLegible) (live : Nat → Bool) :
    v.text live .source ≠ Session.failureText := by
  intro same
  cases h with
  | symbol token =>
    obtain rfl : _ = Session.failureText := same
    exact absurd (token.2 ' ' (by decide)) (by decide)
  | of_parts unnamed =>
    have other := v.head?_text live unnamed
    rw [same] at other
    exact other rfl

namespace Session

variable {α β : Type} {engine : Engine}

/-! ## The two ways through a text -/

/-- The core form and the value of the last form of a text. -/
def lastForm (engine : Engine) (code : String) : Act (Value × Value) :=
  foldForms engine (fun _ => loadForm (evaluate engine) engine) (.unspecified, .unspecified) code

/-- The session with one more line written. -/
def wrote (s : Session) (line : String) : Session :=
  { s with machine := { s.machine with output := s.machine.output.push line } }

/-- A value that is shown: it is one, and not that of a definition. -/
def IsShown (core v : Value) : Prop :=
  v ≠ .unspecified ∧ Form.isHeadedBy "define" core = false

/-- Folding a step that keeps only a part of what another step does. -/
theorem foldForms_map (f : α → β) {step : α → Value → Act α} {step' : β → Value → Act β}
    (h : ∀ a form, step' (f a) form = step a form >>= fun x => pure (f x)) (init : α) (code : String) :
    foldForms engine step' (f init) code = foldForms engine step init code >>= fun x => pure (f x) := by
  have port (fuel : Nat) (port : Reader.Port) (a : α) :
      foldPort engine step' fuel port (f a) = foldPort engine step fuel port a >>= fun x => pure (f x) := by
    induction fuel generalizing port a with
    | zero => rfl
    | succ fuel ih =>
      unfold foldPort
      rw [bind_assoc]
      refine congrArg (readForm engine port >>= ·) (funext fun read => ?_)
      obtain ⟨form, port⟩ := read
      cases form with
      | none => rfl
      | some form =>
        dsimp only
        rw [h, bind_assoc, bind_assoc]
        exact congrArg (step a form >>= ·) (funext fun x => ih port x)
  unfold foldForms
  rw [bind_assoc]
  exact congrArg (get >>= ·) (funext fun s => port _ _ init)

/-- Evaluating a text gives the value of its last form. -/
theorem outcome_eval (engine : Engine) (code : String) (s : Session) :
    outcome (eval engine code) s = match outcome (lastForm engine code) s with
      | (.ok last, t) => (.ok last.2, t)
      | (.error h, t) => (.error h, t) := by
  have step (last : Value × Value) (form : Value) : evalForm (evaluate engine) engine form =
      loadForm (evaluate engine) engine form >>= fun x => pure x.2 := by
    unfold evalForm loadForm
    simp only [bind_assoc, pure_bind, bind_pure]
  have same : foldForms engine (fun _ => evalForm (evaluate engine) engine)
      (Prod.snd (Value.unspecified, Value.unspecified)) code = lastForm engine code >>= fun x => pure x.2 :=
    foldForms_map Prod.snd step _ code
  change outcome (foldForms engine (fun _ => evalForm (evaluate engine) engine) .unspecified code) s = _
  rw [same, outcome_bind]
  rcases outcome (lastForm engine code) s with ⟨h | last, t⟩ <;> rfl

theorem outcome_printed (engine : Engine) (v : Value) (s : Session) :
    outcome (printed engine v) s = match v.text? s.machine.isLive engine.nesting .source with
      | .ok shown => (.ok shown, s)
      | .error f => (.error (.failed f), s) := by
  have source : outcome (source engine.nesting v) s.machine =
      outcome (ofExcept (v.text? s.machine.isLive engine.nesting .source) : Run String) s.machine := rfl
  unfold printed
  rw [outcome_run, source]
  cases v.text? s.machine.isLive engine.nesting .source <;> rfl

/-- Loading a text: a failure becomes a line and a fixed text, and a value is shown if it is to be. -/
theorem outcome_load (engine : Engine) (code : String) (s : Session) :
    outcome (load engine code) s = match outcome (lastForm engine code) s with
      | (.ok last, t) => outcome (loadedText engine (some last)) t
      | (.error (.failed f), t) => (.ok failureText, t.wrote f.report)
      | (.error .outOfSteps, t) => (.error .outOfSteps, t) := by
  have same : load engine code = reporting (lastForm engine code) >>= loadedText engine := rfl
  rw [same, outcome_bind, outcome_reporting]
  rcases outcome (lastForm engine code) s with ⟨(f | _) | last, t⟩ <;> rfl

theorem loadedText_shown {core v : Value} (h : IsShown core v) :
    loadedText engine (some (core, v)) = printed engine v := by
  obtain ⟨value, notDefinition⟩ := h
  unfold loadedText
  split
  · rename_i absent
    cases absent
  · rename_i same
    cases same
    exact absurd rfl value
  · rename_i same
    cases same
    rw [if_neg (by rw [notDefinition]; exact Bool.false_ne_true)]

theorem loadedText_not_shown {core v : Value} (h : ¬ IsShown core v) :
    loadedText engine (some (core, v)) = pure noValue := by
  unfold loadedText
  split
  · rename_i absent
    cases absent
  · rfl
  · rename_i other same
    cases same
    split
    · rfl
    · rename_i notDefinition
      exact absurd ⟨fun same => other same, Bool.eq_false_iff.mpr notDefinition⟩ h

/-- A value has no text when it is nested too deep, or else when it holds an integer that is too long. -/
theorem text?_eq_error {live : Nat → Bool} {room : Nat} {style : Style} {v : Value} {f : Failure} :
    v.text? live room style = .error f ↔ v.isDeeperThan room = true ∧ f = .tooDeep ∨
      v.isDeeperThan room = false ∧ v.hasLongInteger = true ∧ f = .longInteger none := by
  unfold Value.text?
  cases v.isDeeperThan room with
  | true =>
    refine ⟨fun h => .inl ⟨rfl, (Except.error.inj h).symm⟩, ?_⟩
    rintro (⟨_, rfl⟩ | ⟨⟨⟩, _⟩)
    rfl
  | false =>
    cases v.hasLongInteger with
    | true =>
      refine ⟨fun h => .inr ⟨rfl, rfl, (Except.error.inj h).symm⟩, ?_⟩
      rintro (⟨⟨⟩, _⟩ | ⟨_, _, rfl⟩)
      rfl
    | false =>
      refine ⟨nofun, ?_⟩
      rintro (⟨⟨⟩, _⟩ | ⟨_, ⟨⟩, _⟩)

theorem text?_eq_ok {live : Nat → Bool} {room : Nat} {style : Style} {v : Value} {text : String}
    (h : v.text? live room style = .ok text) : v.text live style = text := by
  unfold Value.text? at h
  split at h
  · cases h
  · split at h
    · cases h
    · exact Except.ok.inj h

/-- Giving the text of the last value fails just when it is to be shown and has no text. -/
theorem loadedText_fails_iff {core v : Value} {s t : Session} {f : Failure} :
    outcome (loadedText engine (some (core, v))) s = (.error (.failed f), t) ↔ s = t ∧ IsShown core v ∧
      (v.isDeeperThan engine.nesting = true ∧ f = .tooDeep ∨
        v.isDeeperThan engine.nesting = false ∧ v.hasLongInteger = true ∧ f = .longInteger none) := by
  by_cases shown : IsShown core v
  · have why : v.text? s.machine.isLive engine.nesting .source = .error f ↔ _ := text?_eq_error
    rw [loadedText_shown shown, outcome_printed, ← why]
    cases v.text? s.machine.isLive engine.nesting .source with
    | error g =>
      constructor
      · rintro ⟨⟩
        exact ⟨rfl, shown, rfl⟩
      · rintro ⟨rfl, _, ⟨⟩⟩
        rfl
    | ok text => exact ⟨nofun, fun h => nomatch h.2.2⟩
  · rw [loadedText_not_shown shown]
    exact ⟨nofun, fun h => absurd h.2.1 shown⟩

theorem loadedText_terminates (core v : Value) (s t : Session) :
    outcome (loadedText engine (some (core, v))) s ≠ (.error .outOfSteps, t) := by
  by_cases shown : IsShown core v
  · rw [loadedText_shown shown, outcome_printed]
    cases v.text? s.machine.isLive engine.nesting .source with
    | error g => exact nofun
    | ok text => exact nofun
  · rw [loadedText_not_shown shown]
    exact nofun

/-- Loading fails just when the last value is to be shown and has no text, being nested too deep or
holding an integer that is too long. It runs out of steps just when evaluating does, and gives a text in
every other case. -/
theorem load_fails_iff (engine : Engine) (code : String) (s : Session) :
    (∀ f t, outcome (load engine code) s = (.error (.failed f), t) ↔ ∃ core v,
      outcome (lastForm engine code) s = (.ok (core, v), t) ∧ IsShown core v ∧
        (v.isDeeperThan engine.nesting = true ∧ f = .tooDeep ∨
          v.isDeeperThan engine.nesting = false ∧ v.hasLongInteger = true ∧ f = .longInteger none)) ∧
    (∀ t, outcome (load engine code) s = (.error .outOfSteps, t) ↔
      outcome (eval engine code) s = (.error .outOfSteps, t)) := by
  rw [outcome_load, outcome_eval]
  rcases outcome (lastForm engine code) s with ⟨(f | _) | ⟨core, v⟩, t⟩
  · refine ⟨fun g u => ⟨nofun, ?_⟩, fun u => ⟨nofun, nofun⟩⟩
    rintro ⟨_, _, ⟨⟩, _⟩
  · refine ⟨fun g u => ⟨nofun, ?_⟩, fun u => ⟨by rintro ⟨⟩; rfl, by rintro ⟨⟩; rfl⟩⟩
    rintro ⟨_, _, ⟨⟩, _⟩
  · refine ⟨fun f u => loadedText_fails_iff.trans ⟨?_, ?_⟩,
      fun u => ⟨fun h => absurd h (loadedText_terminates core v t u), nofun⟩⟩
    · rintro ⟨rfl, why⟩
      exact ⟨core, v, rfl, why⟩
    · rintro ⟨_, _, ⟨⟩, why⟩
      exact ⟨rfl, why⟩

/-- An integer of 5001 digits is evaluated, and then it cannot be printed. -/
example :
    let engine : Engine := (⟨9, 9⟩ : Limits)
    (match (outcome (eval engine "(pow 10 5000)") (fresh 0 .zeros)).1 with
      | .ok (.int n) => n == 10 ^ 5000
      | _ => false) = true ∧
      (match (outcome (load engine "(pow 10 5000)") (fresh 0 .zeros)).1 with
      | .error (.failed (.longInteger none)) => true
      | _ => false) = true := by
  decide +kernel

/-- The values that a session holds or gives, and everything in them. -/
inductive Reaches (engine : Engine) (s : Session) : Value → Prop where
  | bound {f : FrameId} {b : Binding} (mem : b ∈ s.machine.frames.bindingsOf f) : Reaches engine s b.value
  | registered {b : Binding} (mem : b ∈ s.machine.transformers) : Reaches engine s b.value
  | evaluated {code : String} {v : Value} {t : Session} (h : outcome (eval engine code) s = (.ok v, t)) :
      Reaches engine s v
  | parsed {code : String} {cores : List Value} {core : Value} {t : Session}
      (h : outcome (parse engine code) s = (.ok cores, t)) (mem : core ∈ cores) : Reaches engine s core
  | part {v u : Value} (whole : Reaches engine s v) (mem : u ∈ v.parts) : Reaches engine s u

theorem isLegible_of_reaches {limits : Limits} {s : Session} (h : s.machine.Stores Value.IsLegible)
    {v : Value} (reached : Reaches limits s v) : v.IsLegible := by
  have inherited := Value.inherited_isLegible
  induction reached with
  | bound mem => exact h.frames _ _ mem
  | registered mem => exact h.transformers _ mem
  | evaluated given =>
    obtain ⟨_, _, _, _, good⟩ := eval_keeps (w := ()) (inherited.serves limits) _ s h
    exact good _ (congrArg Prod.fst given)
  | parsed given mem =>
    obtain ⟨_, _, _, _, good⟩ := parse_keeps (w := ()) (inherited.serves limits) _ s h
    exact good _ (congrArg Prod.fst given) _ mem
  | part _ mem ih => exact ih.part mem

/-- What loading does when evaluating fails, does not end, or gives a value. -/
theorem load_after_eval (engine : Engine) (s : Session) (code : String) :
    match outcome (eval engine code) s with
    | (.error (.failed f), t) => outcome (load engine code) s = (.ok failureText, t.wrote f.report)
    | (.error .outOfSteps, t) => outcome (load engine code) s = (.error .outOfSteps, t)
    | (.ok v, t) => ∃ core, outcome (lastForm engine code) s = (.ok (core, v), t) ∧
        outcome (load engine code) s = outcome (loadedText engine (some (core, v))) t := by
  rw [outcome_eval, outcome_load]
  rcases outcome (lastForm engine code) s with ⟨(f | _) | ⟨core, v⟩, t⟩
  · rfl
  · rfl
  · exact ⟨core, rfl, rfl⟩

/-- Unless the value has the text that is given after a failure, loading gives this text just when
evaluating fails. -/
theorem load_failureText_iff {engine : Engine} {s : Session} {code : String}
    (other : ∀ v t, outcome (eval engine code) s = (.ok v, t) →
      ∀ live, v.text live .source ≠ failureText) :
    (∃ t, outcome (load engine code) s = (.ok failureText, t)) ↔
      ∃ f t, outcome (eval engine code) s = (.error (.failed f), t) := by
  have loaded := load_after_eval engine s code
  rcases given : outcome (eval engine code) s with ⟨(f | _) | v, t⟩
  · rw [given] at loaded
    exact ⟨fun _ => ⟨f, t, rfl⟩, fun _ => ⟨_, loaded⟩⟩
  · rw [given] at loaded
    dsimp only at loaded
    rw [loaded]
    exact ⟨fun ⟨_, same⟩ => (nomatch same), fun ⟨_, _, same⟩ => (nomatch same)⟩
  · rw [given] at loaded
    obtain ⟨core, _, loaded⟩ := loaded
    rw [loaded]
    refine ⟨fun ⟨u, text⟩ => ?_, fun ⟨_, _, same⟩ => (nomatch same)⟩
    by_cases shown : IsShown core v
    · rw [loadedText_shown shown, outcome_printed] at text
      split at text
      · rename_i printed
        cases text
        exact absurd (text?_eq_ok printed) (other v t given _)
      · cases text
    · rw [loadedText_not_shown shown] at text
      have same : (Except.ok noValue : Except Halt String) = .ok failureText := (Prod.mk.inj text).1
      exact absurd (Except.ok.inj same) (by decide)

/-- Loading a text does what evaluating it does. After a failure it leaves the same session with one more
line, the report of the failure, and gives a fixed text. Otherwise it leaves the same session and gives
the text of the value, if it is to be shown and has one. And in a session that has been brought about by
commands no value has the text that is given after a failure, so this text is given after failures only. -/
theorem load_reports_eval (limits : Limits) :
    (∀ s code, match outcome (eval limits code) s with
      | (.error (.failed f), t) => outcome (load limits code) s = (.ok failureText, t.wrote f.report) ∧
          f.report = f.kind ++ ": " ++ f.message
      | (.error .outOfSteps, t) => outcome (load limits code) s = (.error .outOfSteps, t)
      | (.ok v, t) => ∃ core, outcome (lastForm limits code) s = (.ok (core, v), t) ∧
          (v = .unspecified ∨ Form.isHeadedBy "define" core = true →
            outcome (load limits code) s = (.ok noValue, t)) ∧
          (IsShown core v → ∀ text, v.text? t.machine.isLive limits.nesting .source = .ok text →
            outcome (load limits code) s = (.ok text, t))) ∧
    (∀ table draws commands, let s := performed limits (fresh table draws) commands
      (∀ v, Reaches limits s v → ∀ live, v.text live .source ≠ failureText) ∧
      ∀ code, (∃ t, outcome (load limits code) s = (.ok failureText, t)) ↔
        ∃ f t, outcome (eval limits code) s = (.error (.failed f), t)) := by
  constructor
  · intro s code
    have loaded := load_after_eval limits s code
    generalize outcome (eval limits code) s = o at loaded
    rcases o with ⟨(f | _) | v, t⟩
    · exact ⟨loaded, rfl⟩
    · exact loaded
    · obtain ⟨core, last, loaded⟩ := loaded
      refine ⟨core, last, fun hidden => ?_, fun shown text printed => ?_⟩
      · have notShown : ¬ IsShown core v := fun shown =>
          hidden.elim shown.1 fun definition => Bool.noConfusion (shown.2.symm.trans definition)
        rw [loaded, loadedText_not_shown notShown]
        rfl
      · have printed' : v.text? t.machine.isLive (limits : Engine).nesting .source = .ok text := printed
        rw [loaded, loadedText_shown shown, outcome_printed, printed']
  · intro table draws commands s
    have legible : s.machine.Stores Value.IsLegible :=
      performed_stores Value.inherited_isLegible limits
        (fresh_stores Value.inherited_isLegible table draws) commands
    have other : ∀ v, Reaches limits s v → ∀ live, v.text live .source ≠ failureText :=
      fun v reached live => (isLegible_of_reaches legible reached).text_ne_failureText live
    exact ⟨other, fun code => load_failureText_iff fun v t given => other v (.evaluated given)⟩

end Session

end SmallLisp
