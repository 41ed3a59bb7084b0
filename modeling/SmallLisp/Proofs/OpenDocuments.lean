import Mathlib.Data.List.Induction
import SmallLisp.Editor.Workspace
/-!
# The documents of a workspace

An editor tells a server which documents are opened, changed and closed. In whatever order it does, the server
holds the index of each open document's present text, and what it last published for a document are the
diagnostics of that text. What it answers about a document depends on that text alone.
-/
namespace SmallLisp.Editor

/-- The last notification about a document. -/
def lastAbout? (ns : List Notification) (uri : String) : Option Notification :=
  ns.reverse.find? fun n => n.uri == uri

/-- The text that a document has after some notifications, if it is open then. -/
def currentText? (ns : List Notification) (uri : String) : Option String :=
  (lastAbout? ns uri).bind (·.text?)

/-- A text on which the reader fails, if at all, because it is malformed. -/
def Readable (room : Nat) (text : String) : Prop :=
  ∀ f, readerFailure? room text = some f → ∃ form fault, f = .malformed form fault

namespace Server

/-- The diagnostics last published for a document. -/
def shown? (s : Server) (uri : String) : Option (List Diagnostic) :=
  (s.published.reverse.find? fun p => p.uri == uri).map (·.diagnostics)

end Server

/-! ## The last notification -/

theorem lastAbout?_snoc (ns : List Notification) (n : Notification) (uri : String) :
    lastAbout? (ns ++ [n]) uri = if n.uri = uri then some n else lastAbout? ns uri := by
  unfold lastAbout?
  rw [List.reverse_append, List.reverse_singleton, List.singleton_append, List.find?_cons]
  by_cases here : n.uri = uri
  · rw [if_pos here, beq_iff_eq.mpr here]
  · rw [if_neg here, beq_eq_false_iff_ne.mpr here]

theorem currentText?_snoc (ns : List Notification) (n : Notification) (uri : String) :
    currentText? (ns ++ [n]) uri = if n.uri = uri then n.text? else currentText? ns uri := by
  unfold currentText?
  rw [lastAbout?_snoc]
  split <;> rfl

/-! ## One notification -/

namespace Workspace

variable (w : Workspace) (uri other : String)

theorem document?_without :
    (w.without uri).document? other = if uri = other then none else w.document? other := by
  unfold document? without
  dsimp only
  induction w.documents with
  | nil => simp
  | cons entry entries ih =>
    obtain ⟨key, document⟩ := entry
    by_cases kept : key = uri
    · subst kept
      rw [List.filter_cons_of_neg (by simp), ih]
      by_cases here : key = other
      · rw [if_pos here, if_pos here]
      · rw [if_neg here, if_neg here, List.lookup_cons, beq_eq_false_iff_ne.mpr (Ne.symm here)]
    · rw [List.filter_cons_of_pos (by simpa using kept), List.lookup_cons, List.lookup_cons, ih]
      cases same : other == key with
      | true =>
        obtain rfl := beq_iff_eq.mp same
        rw [if_neg (Ne.symm kept), if_neg (Ne.symm kept)]
      | false => rfl

theorem document?_update (room : Nat) (text : String) :
    (w.update room uri text).2.document? other =
      if uri = other then some ⟨text, Index.ofText text⟩ else w.document? other := by
  change ((uri, (⟨text, Index.ofText text⟩ : Document)) :: (w.without uri).documents).lookup other = _
  rw [List.lookup_cons]
  by_cases here : uri = other
  · rw [if_pos here, beq_iff_eq.mpr here.symm]
  · rw [if_neg here, beq_eq_false_iff_ne.mpr (Ne.symm here)]
    exact (w.document?_without uri other).trans (if_neg here)

/-- Each document has one entry. -/
def Tidy : Prop :=
  (w.documents.map (·.1)).Nodup

variable {w}

theorem Tidy.without (h : w.Tidy) : (w.without uri).Tidy :=
  h.sublist (List.filter_sublist.map _)

theorem Tidy.update (h : w.Tidy) (room : Nat) (text : String) : (w.update room uri text).2.Tidy := by
  refine List.nodup_cons.mpr ⟨fun mem => ?_, h.without uri⟩
  obtain ⟨entry, kept, same⟩ := List.mem_map.mp mem
  exact absurd same (by simpa using (List.mem_filter.mp kept).2)

end Workspace

namespace Server

variable (room : Nat) (s : Server) (uri other text : String) (n : Notification)

theorem shown?_snoc (w : Workspace) (ps : List Publication) (p : Publication) :
    shown? ⟨w, ps ++ [p]⟩ uri = if p.uri = uri then some p.diagnostics else shown? ⟨w, ps⟩ uri := by
  unfold shown?
  rw [List.reverse_append, List.reverse_singleton, List.singleton_append, List.find?_cons]
  by_cases here : p.uri = uri
  · rw [if_pos here, beq_iff_eq.mpr here]
    rfl
  · rw [if_neg here, beq_eq_false_iff_ne.mpr here]

theorem refresh_eq : s.refresh room uri text = ⟨(s.workspace.update room uri text).2,
    match diagnose room text (Index.ofText text) with
    | .ok ds => s.published ++ [⟨uri, ds⟩]
    | .error _ => s.published⟩ := by
  unfold refresh Workspace.update
  dsimp only
  cases diagnose room text (Index.ofText text) <;> rfl

/-- A document's entry is that of its new text, the others are as they were. -/
theorem document?_receive : (s.receive room n).workspace.document? other =
    if n.uri = other then n.text?.map fun text => ⟨text, Index.ofText text⟩
    else s.workspace.document? other := by
  cases n with
  | opened uri text | changed uri text =>
    change (s.refresh room uri text).workspace.document? other = _
    rw [refresh_eq]
    exact s.workspace.document?_update uri other room text
  | closed uri => exact s.workspace.document?_without uri other

theorem tidy_receive (h : s.workspace.Tidy) : (s.receive room n).workspace.Tidy := by
  cases n with
  | opened uri text | changed uri text =>
    change (s.refresh room uri text).workspace.Tidy
    rw [refresh_eq]
    exact h.update uri room text
  | closed uri => exact h.without uri

/-- What is shown for the other documents is as it was, even if a diagnosis fails. -/
theorem shown?_receive_of_ne (h : n.uri ≠ other) : (s.receive room n).shown? other = s.shown? other := by
  have kept (w : Workspace) (ds : List Diagnostic) :
      shown? ⟨w, s.published ++ [⟨n.uri, ds⟩]⟩ other = s.shown? other :=
    (shown?_snoc other w s.published _).trans (if_neg h)
  cases n with
  | opened uri text | changed uri text =>
    change (s.refresh room uri text).shown? other = _
    rw [refresh_eq]
    cases diagnose room text (Index.ofText text) with
    | ok ds => exact kept _ ds
    | error f => rfl
  | closed uri => exact kept _ []

/-- What is shown for a document are the diagnostics of its text, or that there are none. -/
theorem shown?_receive_self {ds : List Diagnostic}
    (diagnosed : (n.text?.elim (.ok []) fun text => diagnose room text (Index.ofText text)) = .ok ds) :
    (s.receive room n).shown? n.uri = some ds := by
  have put (w : Workspace) : shown? ⟨w, s.published ++ [⟨n.uri, ds⟩]⟩ n.uri = some ds :=
    (shown?_snoc n.uri w s.published _).trans (if_pos rfl)
  cases n with
  | opened uri text | changed uri text =>
    have diagnosed : diagnose room text (Index.ofText text) = .ok ds := diagnosed
    change (s.refresh room uri text).shown? uri = _
    rw [refresh_eq, diagnosed]
    exact put _
  | closed uri =>
    obtain rfl := Except.ok.inj diagnosed
    exact put _

end Server

/-- A readable text has diagnostics. -/
theorem Readable.diagnosed {room : Nat} {text : String} (h : Readable room text) :
    ∃ ds, diagnose room text (Index.ofText text) = .ok ds := by
  unfold diagnose
  cases failed : readerFailure? room text with
  | none => exact ⟨_, rfl⟩
  | some f =>
    obtain ⟨form, fault, rfl⟩ := h f failed
    exact ⟨_, rfl⟩

/-! ## Any notifications -/

namespace Server

variable (room : Nat) (ns : List Notification) (uri : String)

theorem receiveAll_snoc (n : Notification) :
    receiveAll room (ns ++ [n]) = (receiveAll room ns).receive room n :=
  List.foldl_append.trans rfl

theorem document?_receiveAll : (receiveAll room ns).workspace.document? uri =
    (currentText? ns uri).map fun text => ⟨text, Index.ofText text⟩ := by
  induction ns using List.reverseRecOn with
  | nil => rfl
  | append_singleton ns n ih =>
    rw [receiveAll_snoc, document?_receive, currentText?_snoc, ih]
    split <;> rfl

theorem tidy_receiveAll : (receiveAll room ns).workspace.Tidy := by
  induction ns using List.reverseRecOn with
  | nil => exact List.nodup_nil
  | append_singleton ns n ih =>
    rw [receiveAll_snoc]
    exact tidy_receive room _ n ih

/-- What is shown for a document are the diagnostics of its present text, or that there are none. -/
theorem shown?_receiveAll (readable : ∀ text, currentText? ns uri = some text → Readable room text) :
    ((receiveAll room ns).shown? uri).map .ok = (lastAbout? ns uri).map fun n =>
      n.text?.elim (.ok []) fun text => diagnose room text (Index.ofText text) := by
  induction ns using List.reverseRecOn with
  | nil => rfl
  | append_singleton ns n ih =>
    rw [receiveAll_snoc, lastAbout?_snoc]
    by_cases here : n.uri = uri
    · subst here
      rw [currentText?_snoc, if_pos rfl] at readable
      obtain ⟨ds, diagnosed⟩ : ∃ ds,
          (n.text?.elim (.ok []) fun text => diagnose room text (Index.ofText text)) = .ok ds := by
        cases text : n.text? with
        | none => exact ⟨_, rfl⟩
        | some text => exact (readable _ text).diagnosed
      rw [if_pos rfl, shown?_receive_self room _ n diagnosed]
      exact congrArg some diagnosed.symm
    · rw [currentText?_snoc, if_neg here] at readable
      rw [if_neg here, shown?_receive_of_ne room _ uri n here]
      exact ih readable

theorem shown?_unmentioned (h : lastAbout? ns uri = none) : (receiveAll room ns).shown? uri = none := by
  have unread : ∀ text, currentText? ns uri = some text → Readable room text := by
    unfold currentText?
    rw [h]
    exact nofun
  have shown := shown?_receiveAll room ns uri unread
  rw [h] at shown
  exact Option.map_eq_none_iff.mp shown

theorem shown?_closed (h : lastAbout? ns uri = some (.closed uri)) :
    (receiveAll room ns).shown? uri = some [] := by
  have unread : ∀ text, currentText? ns uri = some text → Readable room text := by
    unfold currentText?
    rw [h]
    exact nofun
  have shown := shown?_receiveAll room ns uri unread
  rw [h] at shown
  obtain ⟨ds, shown, diagnosed⟩ := Option.map_eq_some_iff.mp shown
  rw [shown, Except.ok.inj diagnosed]

theorem shown?_open {text : String} (h : currentText? ns uri = some text) (readable : Readable room text) :
    ∃ ds, diagnose room text (Index.ofText text) = .ok ds ∧ (receiveAll room ns).shown? uri = some ds := by
  have shown := shown?_receiveAll room ns uri fun other same => by
    obtain rfl := Option.some.inj (h.symm.trans same)
    exact readable
  obtain ⟨n, last, told⟩ := Option.bind_eq_some_iff.mp h
  rw [last] at shown
  obtain ⟨ds, shown, diagnosed⟩ := Option.map_eq_some_iff.mp shown
  dsimp only at diagnosed
  rw [told] at diagnosed
  exact ⟨ds, diagnosed.symm, shown⟩

end Server

/-- After any notifications about any documents, the server has one entry for each document that is open, the
index of its present text. What it last published for the document are the diagnostics of that text; that there
are none, once it is closed. One more notification leaves the entries of the other documents and what is shown for
them as they are. What is answered about a document depends on its present text alone. -/
theorem server_follows_documents (room : Nat) (ns : List Notification) :
    let s := Server.receiveAll room ns
    s.workspace.Tidy ∧
    (∀ uri, s.workspace.document? uri = (currentText? ns uri).map fun text => ⟨text, Index.ofText text⟩) ∧
    (∀ uri, lastAbout? ns uri = none → s.shown? uri = none) ∧
    (∀ uri, lastAbout? ns uri = some (.closed uri) → s.shown? uri = some []) ∧
    (∀ uri text, currentText? ns uri = some text → Readable room text →
      ∃ ds, diagnose room text (Index.ofText text) = .ok ds ∧ s.shown? uri = some ds) ∧
    (∀ n other, n.uri ≠ other →
      (Server.receiveAll room (ns ++ [n])).workspace.document? other = s.workspace.document? other ∧
      (Server.receiveAll room (ns ++ [n])).shown? other = s.shown? other) ∧
    ∀ ns' uri, currentText? ns' uri = currentText? ns uri → let s' := Server.receiveAll room ns'
      (∀ line column, s'.workspace.hover uri line column = s.workspace.hover uri line column) ∧
      s'.workspace.completions uri = s.workspace.completions uri ∧
      s'.workspace.outline? uri = s.workspace.outline? uri := by
  intro s
  refine ⟨Server.tidy_receiveAll room ns, Server.document?_receiveAll room ns, Server.shown?_unmentioned room ns,
    Server.shown?_closed room ns, fun uri text => Server.shown?_open room ns uri, fun n other apart => ?_,
    fun ns' uri same => ?_⟩
  · rw [Server.receiveAll_snoc]
    exact ⟨(Server.document?_receive room _ other n).trans (if_neg apart),
      Server.shown?_receive_of_ne room _ other n apart⟩
  · have entry : (Server.receiveAll room ns').workspace.document? uri = s.workspace.document? uri := by
      rw [Server.document?_receiveAll, same, Server.document?_receiveAll]
    unfold Workspace.hover Workspace.completions Workspace.outline?
    dsimp only
    rw [entry]
    exact ⟨fun _ _ => rfl, rfl, rfl⟩

/-- One document is changed, another is closed. -/
theorem server_follows_documents_two :
    let ns : List Notification :=
      [.opened "a" "(f", .opened "b" "(define x 1)", .changed "a" "(define y 2)", .closed "b"]
    let s := Server.receiveAll 9 ns
    s.workspace.document? "a" = some ⟨"(define y 2)", Index.ofText "(define y 2)"⟩ ∧ s.shown? "a" = some [] ∧
    s.workspace.document? "b" = none ∧ s.shown? "b" = some [] ∧ s.shown? "c" = none ∧
    (Server.receiveAll 9 (ns ++ [.opened "b" ")"])).shown? "a" = some [] ∧
    (Server.receiveAll 9 [.opened "a" "(define y 2)"]).workspace.completions "a" = s.workspace.completions "a" := by
  intro ns s
  obtain ⟨_, entries, unmentioned, closed, shown, apart, answers⟩ := server_follows_documents 9 ns
  have changed : currentText? ns "a" = some "(define y 2)" := by decide
  have gone : currentText? ns "b" = none := by decide
  have readable : Readable 9 "(define y 2)" := by
    have accepted : readerFailure? 9 "(define y 2)" = none := by decide +kernel
    intro f failed
    cases accepted.symm.trans failed
  have nothing : diagnose 9 "(define y 2)" (Index.ofText "(define y 2)") = .ok [] := by decide +kernel
  obtain ⟨ds, diagnosed, shown⟩ := shown "a" "(define y 2)" changed readable
  obtain rfl := Except.ok.inj (nothing.symm.trans diagnosed)
  have other := (apart (.opened "b" ")") "a" (by decide)).2
  have same := (answers [.opened "a" "(define y 2)"] "a" (by decide)).2.1
  refine ⟨?_, shown, ?_, closed "b" (by decide), unmentioned "c" (by decide), other.trans shown, same⟩
  · exact (entries "a").trans (congrArg (Option.map _) changed)
  · exact (entries "b").trans (congrArg (Option.map _) gone)

end SmallLisp.Editor
