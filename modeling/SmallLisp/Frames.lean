import SmallLisp.Bindings
/-!
Frames: bindings, each frame linked to the one that encloses it. A key is looked up in the first frame of
the chain that binds it.
-/
namespace SmallLisp

structure Frame where
  bindings : Bindings
  outer : Option FrameId

/-- All frames made so far; a frame's number is its place. -/
structure Frames where
  all : Array Frame

namespace Frames

def empty : Frames := ⟨#[]⟩

def new (fs : Frames) (bindings : Bindings) (outer : Option FrameId) : FrameId × Frames :=
  (fs.all.size, ⟨fs.all.push ⟨bindings, outer⟩⟩)

def get? (fs : Frames) (f : FrameId) : Option Frame :=
  fs.all[f]?

/-- The first `bound` frames of the chain that begins at a frame. -/
def chainWithin (fs : Frames) : (bound : Nat) → FrameId → List FrameId
  | 0, _ => []
  | bound + 1, f =>
    match fs.get? f with
    | none => []
    | some frame => f :: match frame.outer with
      | none => []
      | some outer => chainWithin fs bound outer

/-- The frames from a frame outwards. A chain that ends has no more frames than there are. -/
def chain (fs : Frames) (f : FrameId) : List FrameId :=
  fs.chainWithin fs.all.size f

def bindingsOf (fs : Frames) (f : FrameId) : Bindings :=
  match fs.get? f with
  | some frame => frame.bindings
  | none => []

/-- The first frame of the chain that binds the key. -/
def find? (fs : Frames) (f : FrameId) (key : Key) : Option FrameId :=
  (fs.chain f).find? fun g => (fs.bindingsOf g).binds key

def lookup? (fs : Frames) (f : FrameId) (key : Key) : Option Value := do
  let owner ← fs.find? f key
  (fs.bindingsOf owner).get? key

/-- Binds a key in this very frame. -/
def define (fs : Frames) (f : FrameId) (new : Binding) : Frames :=
  ⟨fs.all.modify f fun frame => { frame with bindings := frame.bindings.put new }⟩

theorem get?_define (fs : Frames) (f g : FrameId) (new : Binding) :
    (fs.define f new).get? g =
      if f = g then (fs.get? g).map fun frame => { frame with bindings := frame.bindings.put new }
      else fs.get? g := by
  simp [get?, define, Array.getElem?_modify]

/-- A definition changes the bindings of one frame. -/
theorem bindingsOf_define (fs : Frames) (f g : FrameId) (new : Binding) :
    (fs.define f new).bindingsOf g =
      if f = g ∧ (fs.get? g).isSome then (fs.bindingsOf g).put new else fs.bindingsOf g := by
  unfold bindingsOf
  rw [get?_define]
  by_cases h : f = g
  · cases hg : fs.get? g <;> simp [h]
  · simp [h]

theorem chainWithin_define (fs : Frames) (f : FrameId) (new : Binding) (bound : Nat) (g : FrameId) :
    (fs.define f new).chainWithin bound g = fs.chainWithin bound g := by
  induction bound generalizing g with
  | zero => rfl
  | succ bound ih =>
    simp only [chainWithin, get?_define]
    by_cases h : f = g
    · subst h
      cases fs.get? f with
      | none => simp
      | some frame => simp [ih]
    · simp [h, ih]

/-- A definition changes no chain. -/
theorem chain_define (fs : Frames) (f g : FrameId) (new : Binding) :
    (fs.define f new).chain g = fs.chain g := by
  unfold chain
  rw [show (fs.define f new).all.size = fs.all.size by simp [define], chainWithin_define]

/-- A frame alone, with a mark that more frames enclose it. -/
def text? (fs : Frames) (live : Nat → Bool) (room : Nat) (f : FrameId) : Except Failure String := do
  let own ← (fs.bindingsOf f).text? live room
  return own ++ if ((fs.get? f).bind (·.outer)).isSome then " -> ..." else ""

/-- The root frame binds every primitive, so a large one is shown by its size. -/
def linkText? (fs : Frames) (live : Nat → Bool) (room : Nat) (f : FrameId) :
    Except Failure String :=
  let bindings := fs.bindingsOf f
  if ((fs.get? f).bind (·.outer)).isNone ∧ 8 < bindings.length then
    .ok ("<root: " ++ toString bindings.length ++ " bindings>")
  else bindings.text? live room

def chainText? (fs : Frames) (live : Nat → Bool) (room : Nat) (f : FrameId) :
    Except Failure String := do
  let links ← (fs.chain f).mapM (fs.linkText? live room)
  return "<Environment chain: " ++ String.intercalate " -> " links ++ ">"

end Frames

end SmallLisp
