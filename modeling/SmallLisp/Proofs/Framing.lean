import SmallLisp.Repl.Stream
import SmallLisp.Proofs.Outcome
/-!
# Framing of a request stream

What a client is sent, and what becomes of its session, depends on the bytes that arrive and not on the
pieces they arrive in. The invariant is that the waiting bytes are those after the last newline: the lines
before it are answered, in order, whatever piece completed them. An answer is sent as soon as it is there,
so the invariant is stated with the text sent so far, which a line that ends the stream does not take back.
-/
namespace SmallLisp

namespace Text

variable {α : Type} [DecidableEq α]

theorem not_mem_getLastD_splitAt (sep : α) (xs : List α) : sep ∉ (splitAt sep xs).getLastD [] := by
  intro mem
  rw [List.getLastD_eq_getLast?, List.getLast?_eq_some_getLast (splitAt_ne_nil sep xs)] at mem
  exact not_mem_of_mem_splitAt sep xs _ (List.getLast_mem _) mem

/-- The parts that a separator ends are the same however the text goes on up to the next one. -/
theorem dropLast_splitAt_append {sep : α} (xs : List α) {tail : List α} (h : sep ∉ tail) :
    (splitAt sep (xs ++ tail)).dropLast = (splitAt sep xs).dropLast := by
  have last : sep ∉ (splitAt sep xs).getLastD [] ++ tail :=
    fun mem => (List.mem_append.mp mem).elim (not_mem_getLastD_splitAt sep xs) h
  rw [splitAt_append_getLastD, splitAt_of_not_mem sep _ last, List.dropLast_concat]

/-- The parts that end in a text are those that end in its beginning and those that end after it. -/
theorem dropLast_splitAt_append_getLastD (sep : α) (xs ys : List α) :
    (splitAt sep (xs ++ ys)).dropLast =
      (splitAt sep xs).dropLast ++
        (splitAt sep ((splitAt sep xs).getLastD [] ++ ys)).dropLast := by
  rw [splitAt_append_getLastD, List.dropLast_append_of_ne_nil (splitAt_ne_nil sep _)]

end Text

namespace Repl

open Run

/-- The first computation gives the text that the second one sends, as long as nothing ends the
stream. -/
def Sends (a : Session.Act String) (b : Stateful Halt Connection Unit) : Prop :=
  ∀ s sent, ∃ result text t,
    Run.outcome b ⟨s, sent⟩ = (result, ⟨t, sent ++ text⟩) ∧ Run.outcome a s = (result.map fun _ => text, t)

section Sending

variable (engine : Engine)

theorem Sends.nothing : Sends (pure "") (pure ()) := by
  intro s sent
  exact ⟨.ok (), "", s, by rw [outcome_pure, String.append_empty], rfl⟩

/-- One text is sent after another. -/
theorem Sends.append {a a' : Session.Act String} {b b' : Stateful Halt Connection Unit}
    (first : Sends a b) (second : Sends a' b') :
    Sends (do return (← a) ++ (← a')) (do b; b') := by
  intro s sent
  obtain ⟨result, text, t, sends, gives⟩ := first s sent
  cases result with
  | error halt =>
    refine ⟨.error halt, text, t, ?_, ?_⟩
    · rw [outcome_bind_of_error sends]
    · rw [outcome_bind_of_error gives]
      rfl
  | ok done =>
    obtain ⟨result, text', t', sends', gives'⟩ := second t (sent ++ text)
    refine ⟨result, text ++ text', t', ?_, ?_⟩
    · rw [outcome_bind_of_ok sends, sends', String.append_assoc]
    · rw [outcome_bind_of_ok gives, outcome_bind, gives']
      cases result <;> rfl

theorem sends_answerLine (line : List UInt8) :
    Sends (answerLine engine line) (sendLine engine line) := by
  intro s sent
  rcases answered : Run.outcome (answerLine engine line) s with ⟨halt | text, t⟩
  · refine ⟨.error halt, "", t, ?_, rfl⟩
    rw [String.append_empty]
    simp only [Run.outcome, sendLine] at answered ⊢
    rw [answered]
  · refine ⟨.ok (), text, t, ?_, rfl⟩
    simp only [Run.outcome, sendLine] at answered ⊢
    rw [answered]

theorem sends_answerLines (lines : List (List UInt8)) :
    Sends (do return String.join (← lines.mapM (answerLine engine))) (sendLines engine lines) := by
  induction lines with
  | nil => exact Sends.nothing
  | cons line lines ih =>
    have both := (sends_answerLine engine line).append ih
    simp only [List.mapM_cons, bind_assoc, pure_bind, sendLines] at both ⊢
    simpa [String.join_cons] using both

/-- The text that a stream is answered with is the text its client is sent. -/
theorem sends_serve (waiting : List UInt8) (pieces : List (List UInt8)) :
    Sends (serve engine waiting pieces) (converse engine waiting pieces) := by
  induction pieces generalizing waiting with
  | nil => exact Sends.nothing
  | cons piece pieces ih =>
    rw [serve, converse]
    split
    · exact Sends.nothing
    · have both := (sends_answerLines engine (Text.splitAt newline (waiting ++ piece)).dropLast).append
        (ih ((Text.splitAt newline (waiting ++ piece)).getLastD []))
      simpa only [feed, bind_assoc, pure_bind] using both

end Sending

theorem sendLines_append (engine : Engine) (lines more : List (List UInt8)) :
    sendLines engine (lines ++ more) = (do sendLines engine lines; sendLines engine more) := by
  induction lines with
  | nil => simp only [sendLines, List.nil_append, pure_bind]
  | cons line lines ih => simp only [sendLines, List.cons_append, ih, bind_assoc]

/-- A byte string arrives in these pieces. An empty piece would end the stream. -/
structure Cuts (pieces : List (List UInt8)) (bytes : List UInt8) : Prop where
  flatten_eq : pieces.flatten = bytes
  nonempty : ∀ piece ∈ pieces, piece ≠ []

/-- The lines that the waiting bytes and the pieces complete are answered, each once and in order. -/
theorem converse_eq_sendLines (engine : Engine) {waiting bytes : List UInt8}
    {pieces : List (List UInt8)} (cuts : Cuts pieces bytes) (h : newline ∉ waiting) :
    converse engine waiting pieces =
      sendLines engine (Text.splitAt newline (waiting ++ bytes)).dropLast := by
  obtain ⟨rfl, nonempty⟩ := cuts
  induction pieces generalizing waiting with
  | nil =>
    rw [List.flatten_nil, List.append_nil, Text.splitAt_of_not_mem newline waiting h]
    rfl
  | cons piece pieces ih =>
    have arrives : piece.isEmpty ≠ true := by simpa using nonempty piece (by simp)
    have rest := ih (Text.not_mem_getLastD_splitAt newline (waiting ++ piece))
      fun p mem => nonempty p (List.mem_cons_of_mem piece mem)
    rw [converse, if_neg arrives]
    calc (do
          sendLines engine (Text.splitAt newline (waiting ++ piece)).dropLast
          converse engine ((Text.splitAt newline (waiting ++ piece)).getLastD []) pieces)
        = (do
          sendLines engine (Text.splitAt newline (waiting ++ piece)).dropLast
          sendLines engine (Text.splitAt newline
            ((Text.splitAt newline (waiting ++ piece)).getLastD [] ++ pieces.flatten)).dropLast) := by
          rw [rest]
      _ = sendLines engine (Text.splitAt newline ((waiting ++ piece) ++ pieces.flatten)).dropLast := by
          rw [← sendLines_append, ← Text.dropLast_splitAt_append_getLastD]
      _ = sendLines engine (Text.splitAt newline (waiting ++ (piece :: pieces).flatten)).dropLast := by
          rw [List.flatten_cons, List.append_assoc]

/-- The text of a stream and the session it leaves are determined by the conversation. -/
theorem serve_congr {engine : Engine} {waiting : List UInt8} {pieces others : List (List UInt8)}
    (h : converse engine waiting pieces = converse engine waiting others) :
    serve engine waiting pieces = serve engine waiting others := by
  refine Run.ext fun s => ?_
  obtain ⟨result, text, t, sends, gives⟩ := sends_serve engine waiting pieces s ""
  obtain ⟨result', text', t', sends', gives'⟩ := sends_serve engine waiting others s ""
  rw [h, sends'] at sends
  obtain ⟨rfl, rfl, same⟩ : result' = result ∧ t' = t ∧ "" ++ text' = "" ++ text := by
    simpa using sends
  rw [String.empty_append, String.empty_append] at same
  rw [gives, gives', same]

/-- However the same bytes are cut into pieces, the client is sent the same text and its session ends the
same, also where a line ends the stream; and bytes after the last newline change neither. -/
theorem framing_independent_of_cuts (engine : Engine) (c : Connection) {bytes : List UInt8}
    {pieces others : List (List UInt8)} (h : Cuts pieces bytes) (h' : Cuts others bytes) :
    Run.outcome (converse engine [] pieces) c = Run.outcome (converse engine [] others) c ∧
      Run.outcome (serve engine [] pieces) c.session =
        Run.outcome (serve engine [] others) c.session ∧
      ∀ whole tail kept, bytes = whole ++ tail → newline ∉ tail → Cuts kept whole →
        Run.outcome (converse engine [] pieces) c = Run.outcome (converse engine [] kept) c := by
  have answers {pieces bytes} (h : Cuts pieces bytes) :=
    converse_eq_sendLines engine h (List.not_mem_nil (a := newline))
  have same : converse engine [] pieces = converse engine [] others := by
    rw [answers h, answers h']
  refine ⟨by rw [same], by rw [serve_congr same], ?_⟩
  intro whole tail kept split incomplete cuts
  rw [answers h, answers cuts, split, List.nil_append, List.nil_append,
    Text.dropLast_splitAt_append whole incomplete]

/-- A cut inside a character of two bytes, and a last line that never ends. -/
theorem framing_independent_of_cuts_inside_character :
    let engine : Engine := (⟨50, 50⟩ : Limits)
    let start : Connection := ⟨.fresh 0 .zeros, ""⟩
    let reply := "\x7b\"ok\": false, \"error\": \"Invalid request: expected a JSON object\", " ++
      "\"output\": []\x7d\n"
    (Run.outcome (converse engine [] [[34, 195], [169, 34, 10, 52]]) start).2.sent = reply ∧
      (Run.outcome (converse engine [] [[34], [195, 169], [34, 10], [52]]) start).2.sent = reply ∧
      (Run.outcome (converse engine [] [[34, 195, 169, 34, 10]]) start).2.sent = reply := by
  intro engine start reply
  have same := framing_independent_of_cuts engine start
    (⟨rfl, by decide⟩ : Cuts [[34, 195], [169, 34, 10, 52]] [34, 195, 169, 34, 10, 52])
    (⟨rfl, by decide⟩ : Cuts [[34], [195, 169], [34, 10], [52]] [34, 195, 169, 34, 10, 52])
  have fewer := same.2.2 [34, 195, 169, 34, 10] [52] [[34, 195, 169, 34, 10]] rfl (by decide)
    ⟨rfl, by decide⟩
  have first : (Run.outcome (converse engine [] [[34, 195], [169, 34, 10, 52]]) start).2.sent =
      reply := rfl
  exact ⟨first, by rw [← same.1, first], by rw [← fewer, first]⟩

end Repl
end SmallLisp
