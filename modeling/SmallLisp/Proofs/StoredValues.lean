import SmallLisp.Evaluation
/-!
# Values that a state stores

The values in frames and among the transformers have a property as long as those that are put there have it.
-/
namespace SmallLisp

theorem Frames.bindingsOf_new (fs : Frames) (bs : Bindings) (outer : Option FrameId) (g : FrameId) :
    (fs.new bs outer).2.bindingsOf g = if g = fs.all.size then bs else fs.bindingsOf g := by
  unfold bindingsOf get? new
  rw [Array.getElem?_push]
  by_cases here : g = fs.all.size
  · simp [here]
  · simp [here]

namespace Bindings

variable {P : Value → Prop} {bs : Bindings}

theorem forall_put {new : Binding} (h : ∀ b ∈ bs, P b.value) (hnew : P new.value) :
    ∀ b ∈ bs.put new, P b.value := by
  induction bs with
  | nil =>
    intro b mem
    obtain rfl := List.mem_singleton.mp mem
    exact hnew
  | cons c cs ih =>
    unfold put
    split
    · exact List.forall_mem_cons.mpr ⟨hnew, fun b mem => h b (by simp [mem])⟩
    · exact List.forall_mem_cons.mpr ⟨h c (by simp), ih fun b mem => h b (by simp [mem])⟩

theorem of_get? (h : ∀ b ∈ bs, P b.value) {key : Key} {v : Value} (found : bs.get? key = some v) :
    P v := by
  induction bs with
  | nil => cases found
  | cons b bs ih =>
    unfold get? at found
    split at found
    · cases found
      exact h b (by simp)
    · exact ih (fun b mem => h b (by simp [mem])) found

/-- The bindings of targets to values hold the values. -/
theorem forall_ofPairs {pairs : List (Value × Value)} (h : ofPairs pairs = .ok bs)
    (hpairs : ∀ p ∈ pairs, P p.2) : ∀ b ∈ bs, P b.value := by
  have start : ∀ b ∈ ([] : Bindings), P b.value := by simp
  unfold ofPairs at h
  generalize ([] : Bindings) = bound at h start
  induction pairs generalizing bound with
  | nil =>
    cases h
    exact start
  | cons p ps ih =>
    rw [List.foldlM_cons] at h
    cases hb : Binding.ofTarget p.1 p.2 with
    | error f => simp [hb, Bind.bind, Except.bind] at h
    | ok b =>
      simp only [hb, Bind.bind, Except.bind] at h
      refine ih (fun q mem => hpairs q (by simp [mem])) _ h (forall_put start ?_)
      rw [(Binding.ofTarget_eq_ok hb).2.1]
      exact hpairs p (by simp)

end Bindings

/-- All values that the state holds have a property. -/
structure Machine.Stores (Good : Value → Prop) (m : Machine) : Prop where
  frames : ∀ f, ∀ b ∈ m.frames.bindingsOf f, Good b.value
  transformers : ∀ b ∈ m.transformers, Good b.value

namespace Machine.Stores

variable {Good : Value → Prop} {m n : Machine}

theorem congr (h : m.Stores Good) (frames : n.frames = m.frames)
    (transformers : n.transformers = m.transformers) : n.Stores Good where
  frames := frames ▸ h.frames
  transformers := transformers ▸ h.transformers

theorem define (h : m.Stores Good) {b : Binding} (hb : Good b.value) (f : FrameId) :
    Machine.Stores Good { m with frames := m.frames.define f b } where
  frames := by
    intro g
    change ∀ b' ∈ (m.frames.define f b).bindingsOf g, _
    rw [Frames.bindingsOf_define]
    split
    · exact Bindings.forall_put (h.frames g) hb
    · exact h.frames g
  transformers := h.transformers

theorem frame (h : m.Stores Good) {bs : Bindings} (hbs : ∀ b ∈ bs, Good b.value)
    (outer : Option FrameId) : Machine.Stores Good { m with frames := (m.frames.new bs outer).2 } where
  frames := by
    intro g
    change ∀ b' ∈ (m.frames.new bs outer).2.bindingsOf g, _
    rw [Frames.bindingsOf_new]
    split
    · exact hbs
    · exact h.frames g
  transformers := h.transformers

theorem register (h : m.Stores Good) {b : Binding} (hb : Good b.value) :
    Machine.Stores Good { m with transformers := m.transformers.put b } :=
  ⟨h.frames, Bindings.forall_put h.transformers hb⟩

theorem lookup? (h : m.Stores Good) {f : FrameId} {key : Key} {v : Value}
    (found : m.frames.lookup? f key = some v) : Good v := by
  obtain ⟨owner, _, found⟩ := Option.bind_eq_some_iff.mp found
  exact Bindings.of_get? (h.frames owner) found

end Machine.Stores

end SmallLisp
