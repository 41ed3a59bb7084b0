import SmallLisp.Proofs.FrameTree
/-!
# Looking a key up frame by frame

Where each frame is enclosed by an earlier one, a key is looked up in a frame, then in the one around it, and so
on. So what is found from a frame changes with the bindings of the frames around it alone.
-/
namespace SmallLisp

namespace Frames

variable {fs : Frames} {x y home : FrameId} {key : Key}

/-- Each frame is enclosed by an earlier one. -/
def Ordered (fs : Frames) : Prop :=
  ∀ x y, fs.outer? x = some y → y < x

theorem outer?_of_get? {frame : Frame} (found : fs.get? x = some frame) : fs.outer? x = frame.outer := by
  unfold outer?
  rw [found]
  rfl

/-- The owner of a key is no new frame. -/
theorem bindingsOf_new_of_find? {bs : Bindings} {outer : Option FrameId} {owner : FrameId}
    (found : fs.find? x key = some owner) : (fs.new bs outer).2.bindingsOf owner = fs.bindingsOf owner := by
  rw [bindingsOf_new, if_neg]
  rintro rfl
  have binds := binds_of_find? found
  rw [bindingsOf, get?_of_size_le (Nat.le_refl _)] at binds
  cases binds

namespace Ordered

variable (h : fs.Ordered)
include h

theorem exists_climbs (exists_ : x < fs.all.size) : ∃ path, fs.Climbs x path := by
  induction x using Nat.strongRecOn with
  | ind x ih =>
    obtain ⟨frame, found⟩ := exists_get? exists_
    cases outer : frame.outer with
    | none => exact ⟨_, .top found outer⟩
    | some y =>
      have lt : y < x := h x y ((outer?_of_get? found).trans outer)
      obtain ⟨path, climbs⟩ := ih y lt (Nat.lt_trans lt exists_)
      exact ⟨_, .up found outer climbs⟩

/-- A key is found in the frame itself or from the one around it. -/
theorem find?_eq (x : FrameId) (key : Key) :
    fs.find? x key = if (fs.bindingsOf x).binds key then some x
      else (fs.outer? x).bind fun y => fs.find? y key := by
  rcases Nat.lt_or_ge x fs.all.size with inside | beyond
  · obtain ⟨path, climbs⟩ := h.exists_climbs inside
    unfold find?
    rw [climbs.chain_eq]
    cases climbs with
    | top found outer =>
      rw [outer?_of_get? found, outer]
      cases binds : (fs.bindingsOf x).binds key <;> simp [binds]
    | @up _ _ y _ found outer climbs =>
      rw [outer?_of_get? found, outer]
      cases binds : (fs.bindingsOf x).binds key <;> simp [binds, climbs.chain_eq]
  · have missing := get?_of_size_le beyond
    have none : fs.chain x = [] := by
      unfold chain
      cases fs.all.size with
      | zero => rfl
      | succ bound => simp [chainWithin, missing]
    simp [find?, none, bindingsOf, outer?, missing, Bindings.binds]

theorem lookup?_eq (x : FrameId) (key : Key) :
    fs.lookup? x key = if (fs.bindingsOf x).binds key then (fs.bindingsOf x).get? key
      else (fs.outer? x).bind fun y => fs.lookup? y key := by
  unfold lookup?
  rw [h.find?_eq x key]
  cases (fs.bindingsOf x).binds key with
  | true => simp
  | false => cases fs.outer? x <;> simp

theorem define (x : FrameId) (b : Binding) : (fs.define x b).Ordered :=
  fun y z outer => h y z (by simpa using outer)

theorem new (bs : Bindings) (exists_ : home < fs.all.size) : (fs.new bs (some home)).2.Ordered := by
  intro x y outer
  rw [outer?_new] at outer
  split at outer
  · rename_i last
    cases outer
    exact last ▸ exists_
  · exact h x y outer

/-- From a frame that was there before, a new frame is not seen. -/
theorem find?_new_of_lt (bs : Bindings) (exists_ : home < fs.all.size) (earlier : x < fs.all.size) (key : Key) :
    (fs.new bs (some home)).2.find? x key = fs.find? x key := by
  induction x using Nat.strongRecOn with
  | ind x ih =>
    have old : x ≠ fs.all.size := Nat.ne_of_lt earlier
    rw [(h.new bs exists_).find?_eq, h.find?_eq, bindingsOf_new, if_neg old, outer?_new, if_neg old]
    split
    · rfl
    · cases outer : fs.outer? x with
      | none => rfl
      | some y =>
        have lt := h x y outer
        exact ih y lt (Nat.lt_trans lt earlier)

/-- In a new frame a key is looked up among its own bindings first. -/
theorem find?_new (bs : Bindings) (exists_ : home < fs.all.size) (key : Key) :
    (fs.new bs (some home)).2.find? fs.all.size key =
      if bs.binds key then some fs.all.size else fs.find? home key := by
  rw [(h.new bs exists_).find?_eq, bindingsOf_new, if_pos rfl, outer?_new, if_pos rfl, Option.bind_some,
    h.find?_new_of_lt bs exists_ exists_]

theorem lookup?_new_of_lt (bs : Bindings) (exists_ : home < fs.all.size) (earlier : x < fs.all.size)
    (key : Key) : (fs.new bs (some home)).2.lookup? x key = fs.lookup? x key := by
  unfold lookup?
  rw [h.find?_new_of_lt bs exists_ earlier]
  exact Option.bind_congr fun owner found => by rw [bindingsOf_new_of_find? found]

theorem lookup?_new (bs : Bindings) (exists_ : home < fs.all.size) (key : Key) :
    (fs.new bs (some home)).2.lookup? fs.all.size key =
      if bs.binds key then bs.get? key else fs.lookup? home key := by
  unfold lookup?
  rw [h.find?_new bs exists_]
  split
  · simp [bindingsOf_new]
  · exact Option.bind_congr fun owner found => by rw [bindingsOf_new_of_find? found]

end Ordered

end Frames

theorem Machine.Rooted.ordered {m : Machine} (h : m.Rooted) : m.frames.Ordered := by
  intro x y outer
  by_cases isRoot : x = root
  · rw [isRoot, h.top] at outer
    cases outer
  · obtain ⟨y', lt, outer'⟩ := h.outer x (Frames.lt_of_outer? outer) isRoot
    obtain rfl := Option.some.inj (outer.symm.trans outer')
    exact lt

end SmallLisp
