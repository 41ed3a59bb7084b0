import SmallLisp.Proofs.Framing
import SmallLisp.Proofs.JsonText
import SmallLisp.Proofs.Upholding
/-!
# Exchanges with a client

A stream is a sequence of exchanges, one for each complete line that is not blank: a refusal, after which the
session is what it was, or the outcome of an evaluation with the lines that it wrote. What one exchange
needs of the session passes to the next, so by induction on the lines the answers come one for one and
in order; they end early only where an evaluation does not end. A refused line stands between two such
sequences that fit without it.
-/
namespace SmallLisp.Repl

open Run

/-! ## Lines that ask for something -/

def isBlank (line : List UInt8) : Bool :=
  line.all isSpaceByte

theorem stripBytes_eq_nil_iff {line : List UInt8} : stripBytes line = [] ↔ isBlank line = true := by
  unfold stripBytes isBlank
  rw [List.reverse_eq_nil_iff, List.dropWhile_eq_nil_iff, List.all_eq_true]
  constructor
  · intro spaces
    refine List.dropWhile_eq_nil_iff.mp (List.eq_nil_iff_forall_not_mem.mpr fun b mem => ?_)
    have nonempty : line.dropWhile isSpaceByte ≠ [] := List.ne_nil_of_mem mem
    have first := List.head_dropWhile_not isSpaceByte nonempty
    rw [spaces _ (List.mem_reverse.mpr (List.head_mem nonempty))] at first
    cases first
  · intro spaces b mem
    exact spaces b (List.dropWhile_sublist _ |>.mem (List.mem_reverse.mp mem))

/-- The lines of a stream that a newline ends. -/
def completeLines (bytes : List UInt8) : List (List UInt8) :=
  (Text.splitAt newline bytes).dropLast

/-- The complete lines that are not blank. -/
def requests (bytes : List UInt8) : List (List UInt8) :=
  (completeLines bytes).filter fun line => !isBlank line

/-- No line is left open at the end. -/
def EndsLine (bytes : List UInt8) : Prop :=
  bytes = [] ∨ bytes.getLast? = some newline

theorem completeLines_append {whole : List UInt8} (h : EndsLine whole) (bytes : List UInt8) :
    completeLines (whole ++ bytes) = completeLines whole ++ completeLines bytes := by
  have last : (Text.splitAt newline whole).getLastD [] = [] := by
    rcases h with rfl | ends
    · rfl
    · obtain ⟨before, rfl⟩ := List.getLast?_eq_some_iff.mp ends
      rw [Text.splitAt_append_cons, Text.splitAt_nil, List.getLastD_concat]
  rw [completeLines, Text.dropLast_splitAt_append_getLastD, last, List.nil_append]
  rfl

theorem completeLines_cons {line : List UInt8} (h : newline ∉ line) (bytes : List UInt8) :
    completeLines (line ++ newline :: bytes) = line :: completeLines bytes := by
  rw [completeLines, Text.splitAt_append_sep newline line bytes h,
    List.dropLast_cons_of_ne_nil (Text.splitAt_ne_nil _ _)]
  rfl

/-- A line that asks for an evaluation. -/
def Asks (room : Nat) (line : List UInt8) (request : Json) : Prop :=
  ∃ cs members, Text.Utf8.decode line = .ok cs ∧ Json.read room cs = .ok request ∧
    request = .object members ∧ members.lookup "cmd" = some (.string "eval")

/-- A line that is refused: it is no text, no JSON, no object, or its command is another one. -/
inductive IsRefused (room : Nat) (line : List UInt8) : Prop where
  | notText {fault : Text.Utf8.Fault} (h : Text.Utf8.decode line = .error fault)
  | notJson {cs : List Char} {fault : Json.Fault} (text : Text.Utf8.decode line = .ok cs)
      (h : Json.read room cs = .error fault) (shallow : fault ≠ .nesting)
  | notObject {cs : List Char} {request : Json} (text : Text.Utf8.decode line = .ok cs)
      (json : Json.read room cs = .ok request) (h : ∀ members, request ≠ .object members)
  | otherCommand {cs : List Char} {members : List (String × Json)} (text : Text.Utf8.decode line = .ok cs)
      (json : Json.read room cs = .ok (.object members))
      (h : members.lookup "cmd" ≠ some (.string "eval"))

/-- What a line holds nests less deep than there is room. -/
def IsShallow (room : Nat) (line : List UInt8) : Prop :=
  ∀ cs, Text.Utf8.decode line = .ok cs → Json.read room cs ≠ .error .nesting

theorem isEval_iff {command : Option Json} : isEval command = true ↔ command = some (.string "eval") := by
  unfold isEval
  split
  · rename_i s
    rw [beq_iff_eq, Option.some.injEq, Json.string.injEq]
  · rename_i other
    exact ⟨nofun, fun same => absurd same (other _)⟩

/-- A line that is shallow is refused or asks for an evaluation. -/
theorem refused_or_asks {room : Nat} {line : List UInt8} (shallow : IsShallow room line) :
    IsRefused room line ∨ ∃ request, Asks room line request := by
  cases text : Text.Utf8.decode line with
  | error fault => exact .inl (.notText text)
  | ok cs =>
    cases json : Json.read room cs with
    | error fault => exact .inl (.notJson text json fun deep => shallow cs text (deep ▸ json))
    | ok request =>
      by_cases object : ∃ members, request = .object members
      · obtain ⟨members, rfl⟩ := object
        by_cases command : members.lookup "cmd" = some (.string "eval")
        · exact .inr ⟨_, cs, members, text, json, rfl, command⟩
        · exact .inl (.otherCommand text json command)
      · exact .inl (.notObject text json fun members same => object ⟨members, same⟩)

theorem IsRefused.respondToLine {engine : Engine} {line : List UInt8} (h : IsRefused engine.nesting line) :
    ∃ message, respondToLine engine line = pure (.refused message) := by
  unfold Repl.respondToLine requestOf
  cases h with
  | notText h => exact ⟨_, by rw [h]⟩
  | @notJson cs fault text h shallow =>
    simp only [text, h]
    cases fault with
    | nesting => exact absurd rfl shallow
    | «at» kind position => exact ⟨_, rfl⟩
    | longInteger digits => exact ⟨_, rfl⟩
  | @notObject cs request text json h =>
    simp only [text, json]
    cases request with
    | object members => exact absurd rfl (h members)
    | _ => exact ⟨_, rfl⟩
  | @otherCommand cs members text json h =>
    have other : isEval ((Json.object members).member? "cmd") = false :=
      Bool.eq_false_iff.mpr fun eval => h (isEval_iff.mp eval)
    simp only [text, json, respond, other]
    exact ⟨_, rfl⟩

theorem Asks.respondToLine (engine : Engine) {line : List UInt8} {request : Json}
    (h : Asks engine.nesting line request) : respondToLine engine line = evaluated engine request := by
  obtain ⟨cs, members, text, json, rfl, command⟩ := h
  have eval : isEval ((Json.object members).member? "cmd") = true := isEval_iff.mpr command
  unfold Repl.respondToLine requestOf
  simp only [text, json, respond, eval, if_true]

/-! ## One exchange -/

/-- An exchange: a line, the response to it, and the session before and after. -/
inductive Exchange (limits : Limits) (s : Session) (line : List UInt8) : Response → Session → Prop where
  | refused (message : String) (h : IsRefused limits.nesting (stripBytes line)) :
      Exchange limits s line (.refused message) s
  | answered {request : Json} {text : String} {lines : List String} {t : Session}
      (asks : Asks limits.nesting (stripBytes line) request)
      (evaluated : Run.outcome (evalPrinted limits request) s = (.ok text, t))
      (written : t.machine.output.toList = s.machine.output.toList ++ lines) :
      Exchange limits s line ⟨.ok text, lines⟩ t.silent
  | failed {request : Json} {f : Failure} {lines : List String} {t : Session}
      (asks : Asks limits.nesting (stripBytes line) request)
      (evaluated : Run.outcome (evalPrinted limits request) s = (.error (.failed f), t))
      (written : t.machine.output.toList = s.machine.output.toList ++ lines) :
      Exchange limits s line ⟨.error f.report, lines⟩ t.silent

/-- A line that asks for an evaluation that runs out of steps. -/
def Unending (limits : Limits) (s : Session) (line : List UInt8) : Prop :=
  ∃ request, Asks limits.nesting (stripBytes line) request ∧
    (Run.outcome (evalPrinted limits request) s).1 = .error .outOfSteps

/-- What is evaluated does not look at the lines that are there, and writes its own after them. -/
theorem outcome_evalPrinted (limits : Limits) (request : Json) (s : Session) :
    Run.outcome (evalPrinted limits request) s = ((Run.outcome (evalPrinted limits request) s.silent).1,
      (Run.outcome (evalPrinted limits request) s.silent).2.behind s.machine.output) := by
  have any : Inherited fun _ => True :=
    ⟨fun _ => trivial, fun _ => ⟨fun _ _ _ => trivial, fun _ => trivial⟩⟩
  have stores : s.silent.machine.Stores fun _ => True := ⟨fun _ _ _ => trivial, fun _ _ => trivial⟩
  obtain ⟨same, _⟩ := Session.evalPrinted_keeps (w := ()) (any.serves limits) request s.silent stores
  have whole : s.silent.behind s.machine.output = s := by
    simp [Session.behind, Machine.behind, Session.silent]
  have behind := same s.machine.output
  change Run.outcome _ (s.silent.behind s.machine.output) = _ at behind
  rwa [whole] at behind

/-- The line that a response is sent as. -/
def Response.line (r : Response) : String :=
  r.toJson.text ++ "\n"

theorem sendLine_blank {engine : Engine} {line : List UInt8} (blank : isBlank line = true) :
    sendLine engine line = pure () := by
  have nothing : answerLine engine line = pure "" := by
    unfold answerLine
    rw [stripBytes_eq_nil_iff.mpr blank]
    rfl
  refine Run.ext fun c => ?_
  unfold sendLine
  rw [nothing]
  exact congrArg (fun sent => (Except.ok (), (⟨c.session, sent⟩ : Connection))) String.append_empty

section NotBlank

variable {engine : Engine} {line : List UInt8} (notBlank : isBlank line = false)
include notBlank

theorem answerLine_eq : answerLine engine line =
    respondToLine engine (stripBytes line) >>= fun r => pure r.line := by
  have something : (stripBytes line).isEmpty = false := by
    rw [List.isEmpty_eq_false_iff, ne_eq, stripBytes_eq_nil_iff, notBlank]
    exact Bool.false_ne_true
  unfold answerLine
  dsimp only
  rw [something, if_neg Bool.false_ne_true]
  rfl

theorem outcome_sendLine_ok {s t : Session} {r : Response}
    (h : Run.outcome (respondToLine engine (stripBytes line)) s = (.ok r, t)) (sent : String) :
    Run.outcome (sendLine engine line) ⟨s, sent⟩ = (.ok (), ⟨t, sent ++ r.line⟩) := by
  have given : Run.outcome (answerLine engine line) s = (.ok r.line, t) := by
    rw [answerLine_eq notBlank, outcome_bind_of_ok h]
    rfl
  simp only [Run.outcome, sendLine] at given ⊢
  rw [given]

theorem outcome_sendLine_error {s t : Session} {halt : Halt}
    (h : Run.outcome (respondToLine engine (stripBytes line)) s = (.error halt, t)) (sent : String) :
    Run.outcome (sendLine engine line) ⟨s, sent⟩ = (.error halt, ⟨t, sent⟩) := by
  have given : Run.outcome (answerLine engine line) s = (.error halt, t) := by
    rw [answerLine_eq notBlank, outcome_bind_of_error h]
  simp only [Run.outcome, sendLine] at given ⊢
  rw [given]

end NotBlank

/-- A refused line is answered by its refusal and leaves the session as it is. -/
theorem outcome_sendLine_refused (engine : Engine) {line : List UInt8} (notBlank : isBlank line = false)
    (h : IsRefused engine.nesting (stripBytes line)) : ∃ message, ∀ s sent,
      Run.outcome (sendLine engine line) ⟨s, sent⟩ =
        (.ok (), ⟨s, sent ++ (Response.refused message).line⟩) := by
  obtain ⟨message, refused⟩ := h.respondToLine
  refine ⟨message, fun s sent => outcome_sendLine_ok notBlank ?_ sent⟩
  rw [refused]
  rfl

/-- A line that is not blank is one exchange, or its evaluation does not end. -/
theorem outcome_sendLine_exchange {limits : Limits} {line : List UInt8} (notBlank : isBlank line = false)
    (shallow : IsShallow limits.nesting (stripBytes line)) (s : Session) :
    (∃ r t, Exchange limits s line r t ∧ ∀ sent,
      Run.outcome (sendLine limits line) ⟨s, sent⟩ = (.ok (), ⟨t, sent ++ r.line⟩)) ∨
    Unending limits s line ∧ ∃ t, ∀ sent,
      Run.outcome (sendLine limits line) ⟨s, sent⟩ = (.error .outOfSteps, ⟨t, sent⟩) := by
  rcases refused_or_asks shallow with refused | ⟨request, asks⟩
  · obtain ⟨message, sends⟩ := outcome_sendLine_refused limits notBlank refused
    exact .inl ⟨_, s, .refused message refused, sends s⟩
  · have evaluated := outcome_evalPrinted limits request s
    have responds := Session.outcome_evaluated limits request s
    rw [← asks.respondToLine limits] at responds
    generalize Run.outcome (evalPrinted limits request) s.silent = o at responds evaluated
    rcases o with ⟨(f | _) | text, t⟩
    · exact .inl ⟨_, _, .failed asks evaluated Array.toList_append, outcome_sendLine_ok notBlank responds⟩
    · exact .inr ⟨⟨request, asks, congrArg Prod.fst evaluated⟩, t, outcome_sendLine_error notBlank responds⟩
    · exact .inl ⟨_, _, .answered asks evaluated Array.toList_append, outcome_sendLine_ok notBlank responds⟩

/-! ## Streams -/

/-- The responses to the requests of a stream, one for each in order, up to a request whose evaluation
does not end. -/
inductive Exchanges (limits : Limits) :
    Session → List (List UInt8) → List Response → Except Halt Unit → Session → Prop where
  | none {s : Session} : Exchanges limits s [] [] (.ok ()) s
  | next {s t u : Session} {line : List UInt8} {lines : List (List UInt8)} {r : Response}
      {rs : List Response} {result : Except Halt Unit} (first : Exchange limits s line r t)
      (rest : Exchanges limits t lines rs result u) :
      Exchanges limits s (line :: lines) (r :: rs) result u
  | unending {s t : Session} {line : List UInt8} {lines : List (List UInt8)}
      (h : Unending limits s line) : Exchanges limits s (line :: lines) [] (.error .outOfSteps) t

/-- A stream that does not break off has one response for each request. -/
theorem Exchanges.length_eq {limits : Limits} {s t : Session} {lines : List (List UInt8)}
    {rs : List Response} {result : Except Halt Unit} (h : Exchanges limits s lines rs result t)
    (ended : result = .ok ()) : rs.length = lines.length := by
  induction h with
  | none => rfl
  | next _ _ ih => rw [List.length_cons, List.length_cons, ih ended]
  | unending => cases ended

/-- The lines that responses are sent as. -/
def Response.lines (rs : List Response) : String :=
  String.join (rs.map Response.line)

theorem Response.lines_nil : Response.lines [] = "" := String.join_nil

theorem Response.lines_cons (r : Response) (rs : List Response) :
    Response.lines (r :: rs) = r.line ++ Response.lines rs := String.join_cons

theorem Response.lines_append (rs rs' : List Response) :
    Response.lines (rs ++ rs') = Response.lines rs ++ Response.lines rs' := by
  rw [Response.lines, List.map_append, String.join_append]
  rfl

/-- The responses to any lines, which are sent one after another. -/
theorem outcome_sendLines_exchanges {limits : Limits} (lines : List (List UInt8))
    (shallow : ∀ line ∈ lines, IsShallow limits.nesting (stripBytes line)) (s : Session) :
    ∃ rs result t, Exchanges limits s (lines.filter fun line => !isBlank line) rs result t ∧ ∀ sent,
      Run.outcome (sendLines limits lines) ⟨s, sent⟩ = (result, ⟨t, sent ++ Response.lines rs⟩) := by
  induction lines generalizing s with
  | nil =>
    refine ⟨[], .ok (), s, .none, fun sent => ?_⟩
    rw [Response.lines_nil, String.append_empty]
    rfl
  | cons line lines ih =>
    obtain ⟨first, later⟩ := List.forall_mem_cons.mp shallow
    cases blank : isBlank line with
    | true =>
      have skipped : sendLines (limits : Engine) (line :: lines) = sendLines limits lines := by
        rw [sendLines, sendLine_blank blank, pure_bind]
      rw [skipped, List.filter_cons_of_neg (by rw [blank]; exact Bool.false_ne_true)]
      exact ih later s
    | false =>
      rw [List.filter_cons_of_pos (by rw [blank]; rfl)]
      rcases outcome_sendLine_exchange blank first s with ⟨r, t, exchange, sends⟩ | ⟨unending, t, sends⟩
      · obtain ⟨rs, result, u, rest, sends'⟩ := ih later t
        refine ⟨r :: rs, result, u, .next exchange rest, fun sent => ?_⟩
        rw [sendLines, outcome_bind_of_ok (sends sent), sends', Response.lines_cons, String.append_assoc]
      · refine ⟨[], .error .outOfSteps, t, .unending unending, fun sent => ?_⟩
        rw [sendLines, outcome_bind_of_error (sends sent), Response.lines_nil, String.append_empty]

/-- The client of a stream is sent the responses to its requests, each a line that is read as the response
with its split surrogate pairs joined, and one that is refused stands between those before it and those after
it as if it were not there. -/
theorem each_request_answered (limits : Limits) (c : Connection) {bytes : List UInt8}
    {pieces : List (List UInt8)} (cuts : Cuts pieces bytes)
    (shallow : ∀ line ∈ completeLines bytes, IsShallow limits.nesting (stripBytes line)) :
    (∃ rs result t, Exchanges limits c.session (requests bytes) rs result t ∧
      (result = .ok () → rs.length = (requests bytes).length) ∧
      Run.outcome (converse limits [] pieces) c = (result, ⟨t, c.sent ++ Response.lines rs⟩)) ∧
    (∀ r : Response, '\n' ∉ r.toJson.text.toList ∧ ∀ room,
      Json.read (room + 2) r.toJson.text.toList = .ok (match r.result with
        | .ok text => .object [("ok", .bool true), ("result", .string (Text.joined text)),
          ("output", .array (r.output.map fun line => .string (Text.joined line)))]
        | .error text => .object [("ok", .bool false), ("error", .string (Text.joined text)),
          ("output", .array (r.output.map fun line => .string (Text.joined line)))])) ∧
    (∀ ps, Text.NoSplitPair ps → Text.joined (Text.ofPoints ps) = Text.ofPoints ps) ∧
    ∀ before line after kept, bytes = before ++ line ++ newline :: after → EndsLine before →
      newline ∉ line → isBlank line = false → IsRefused limits.nesting (stripBytes line) →
      Cuts kept (before ++ after) →
      ∃ rs result u, Exchanges limits c.session (requests before) rs result u ∧
        (result = .ok () → ∃ message rs' result' t, Exchanges limits u (requests after) rs' result' t ∧
          Run.outcome (converse limits [] kept) c =
            (result', ⟨t, c.sent ++ Response.lines (rs ++ rs')⟩) ∧
          Run.outcome (converse limits [] pieces) c =
            (result', ⟨t, c.sent ++ Response.lines (rs ++ .refused message :: rs')⟩)) ∧
        (result ≠ .ok () →
          Run.outcome (converse limits [] kept) c = Run.outcome (converse limits [] pieces) c) := by
  have answers {pieces bytes} (h : Cuts pieces bytes) :
      converse limits [] pieces = sendLines limits (completeLines bytes) :=
    converse_eq_sendLines limits h List.not_mem_nil
  refine ⟨?_, fun r => ⟨Json.newline_notMem_response r, fun room => ?_⟩,
    fun ps => Text.joined_ofPoints, ?_⟩
  · obtain ⟨rs, result, t, exchanges, sends⟩ := outcome_sendLines_exchanges _ shallow c.session
    refine ⟨rs, result, t, exchanges, exchanges.length_eq, ?_⟩
    rw [answers cuts]
    exact sends c.sent
  · rw [Json.read_response]
    obtain ⟨text | text, lines⟩ := r <;>
      simp [Response.joined, Response.toJson]
  · intro before line after kept split ends whole notBlank refused cuts'
    have lines : completeLines bytes = completeLines before ++ line :: completeLines after := by
      rw [split, List.append_assoc, completeLines_append ends, completeLines_cons whole]
    have lines' := completeLines_append ends after
    rw [lines] at shallow
    obtain ⟨first, _, later⟩ := List.forall_mem_append.mp shallow |>.imp_right List.forall_mem_cons.mp
    obtain ⟨rs, result, u, exchanges, sends⟩ := outcome_sendLines_exchanges _ first c.session
    obtain ⟨rs', result', t, exchanges', sends'⟩ := outcome_sendLines_exchanges _ later u
    obtain ⟨message, refusal⟩ := outcome_sendLine_refused limits notBlank refused
    refine ⟨rs, result, u, exchanges, ?_, ?_⟩
    · rintro rfl
      refine ⟨message, rs', result', t, exchanges', ?_, ?_⟩
      · rw [answers cuts', lines', sendLines_append, outcome_bind_of_ok (sends c.sent), sends',
          Response.lines_append, String.append_assoc]
      · rw [answers cuts, lines, sendLines_append, outcome_bind_of_ok (sends c.sent), sendLines,
          outcome_bind_of_ok (refusal u _), sends', Response.lines_append, Response.lines_cons,
          String.append_assoc, String.append_assoc]
    · intro broken
      rw [answers cuts, answers cuts', lines, lines', sendLines_append, sendLines_append]
      cases result with
      | ok done => exact absurd rfl broken
      | error halt =>
        rw [outcome_bind_of_error (sends c.sent), outcome_bind_of_error (sends c.sent)]

/-- A request after a line that holds no object: the answer to the request is the same without it. -/
theorem each_request_answered_after_number :
    let limits : Limits := ⟨40, 40⟩
    let start : Connection := ⟨.fresh 0 .zeros, ""⟩
    let request := "\x7b\"cmd\": \"eval\", \"code\": \"(display 1) 2\"\x7d\n".toUTF8.toList
    let reply := "\x7b\"ok\": true, \"result\": \"2\", \"output\": [\"1\"]\x7d\n"
    (Run.outcome (converse limits [] [request]) start).2.sent = reply ∧
      ∃ message, (Run.outcome (converse limits [] [[53, 10] ++ request]) start).2.sent =
        (Response.refused message).line ++ reply := by
  intro limits start request reply
  have sent : (Run.outcome (converse limits [] [request]) start).2.sent = reply := by decide +kernel
  have whole : newline ∉ ([53] : List UInt8) ∧ isBlank [53] = false := by decide
  have checked : ((completeLines ([53, 10] ++ request)).all fun line =>
      (Text.Utf8.decode (stripBytes line)).toOption.all fun cs => (Json.read 40 cs).isOk) = true := by
    decide +kernel
  have shallow : ∀ line ∈ completeLines ([53, 10] ++ request), IsShallow 40 (stripBytes line) := by
    intro line mem cs text deep
    have found := List.all_eq_true.mp checked line mem
    rw [text] at found
    have found : (Json.read 40 cs).isOk = true := found
    rw [deep] at found
    cases found
  have text : Text.Utf8.decode (stripBytes [53]) = .ok ['5'] := rfl
  have refused : IsRefused 40 (stripBytes [53]) := .notObject text rfl fun _ => Json.noConfusion
  have cuts {bytes : List UInt8} (h : bytes ≠ []) : Cuts [bytes] bytes :=
    ⟨List.append_nil bytes, List.forall_mem_singleton.mpr h⟩
  have asked : request ≠ [] := by decide +kernel
  obtain ⟨_, _, _, deletion⟩ := each_request_answered limits start
    (cuts (List.cons_ne_nil 53 (10 :: request))) shallow
  obtain ⟨rs, result, u, exchanges, both, _⟩ := deletion [] [53] request [request] rfl (.inl rfl)
    whole.1 whole.2 refused (cuts asked)
  cases exchanges
  obtain ⟨message, rs, result, t, _, kept, given⟩ := both rfl
  refine ⟨sent, message, ?_⟩
  have same : "" ++ Response.lines rs = reply := (congrArg (fun o => o.2.sent) kept).symm.trans sent
  rw [String.empty_append] at same
  calc (Run.outcome (converse limits [] [[53, 10] ++ request]) start).2.sent
      = "" ++ Response.lines (.refused message :: rs) := congrArg (fun o => o.2.sent) given
    _ = (Response.refused message).line ++ reply := by
      rw [String.empty_append, Response.lines_cons, same]

end SmallLisp.Repl
