/-!
UTF-8: bytes to characters. Only shortest sequences of scalar values are accepted. A fault names the
longest run of bytes that could still have begun a character, and why it does not.
-/
namespace SmallLisp.Text.Utf8

inductive Reason where
  | invalidStart
  | invalidContinuation
  | unexpectedEnd
  deriving DecidableEq, Repr

namespace Reason

def message : Reason → String
  | invalidStart => "invalid start byte"
  | invalidContinuation => "invalid continuation byte"
  | unexpectedEnd => "unexpected end of data"

end Reason

/-- `count` bytes from `position` on, the first of them `lead`, are no character. -/
structure Fault where
  lead : Nat
  position : Nat
  count : Nat
  reason : Reason
  deriving DecidableEq, Repr

def hexDigits (width n : Nat) : String :=
  let ds := Nat.toDigits 16 n
  String.ofList (List.replicate (width - ds.length) '0' ++ ds)

namespace Fault

def message (f : Fault) : String :=
  let place :=
    if f.count = 1 then
      "byte 0x" ++ hexDigits 2 f.lead ++ " in position " ++ toString f.position
    else
      "bytes in position " ++ toString f.position ++ "-" ++ toString (f.position + f.count - 1)
  "'utf-8' codec can't decode " ++ place ++ ": " ++ f.reason.message

end Fault

/-- A character begun: what has been read of it, and the bounds of its next byte. -/
structure Pending where
  lead : Nat
  start : Nat
  got : Nat
  value : Nat
  missing : Nat
  low : Nat
  high : Nat

/-- The character that a byte of 128 or more begins, if it can begin one. -/
def Pending.ofLead? (position lead : Nat) : Option Pending :=
  if 0xc2 ≤ lead ∧ lead ≤ 0xdf then some ⟨lead, position, 1, lead % 32, 1, 0x80, 0xbf⟩
  else if lead = 0xe0 then some ⟨lead, position, 1, 0, 2, 0xa0, 0xbf⟩
  else if lead = 0xed then some ⟨lead, position, 1, 13, 2, 0x80, 0x9f⟩
  else if 0xe1 ≤ lead ∧ lead ≤ 0xef then some ⟨lead, position, 1, lead % 16, 2, 0x80, 0xbf⟩
  else if lead = 0xf0 then some ⟨lead, position, 1, 0, 3, 0x90, 0xbf⟩
  else if 0xf1 ≤ lead ∧ lead ≤ 0xf3 then some ⟨lead, position, 1, lead % 8, 3, 0x80, 0xbf⟩
  else if lead = 0xf4 then some ⟨lead, position, 1, 4, 3, 0x80, 0x8f⟩
  else none

def decodeFrom (position : Nat) : Option Pending → List UInt8 → Except Fault (List Char)
  | none, [] => .ok []
  | some p, [] => .error ⟨p.lead, p.start, p.got, .unexpectedEnd⟩
  | none, b :: bs =>
    let n := b.toNat
    if n < 0x80 then return Char.ofNat n :: (← decodeFrom (position + 1) none bs)
    else match Pending.ofLead? position n with
      | some p => decodeFrom (position + 1) (some p) bs
      | none => .error ⟨n, position, 1, .invalidStart⟩
  | some p, b :: bs =>
    let n := b.toNat
    if p.low ≤ n ∧ n ≤ p.high then
      let value := p.value * 64 + n % 64
      if p.missing = 1 then return Char.ofNat value :: (← decodeFrom (position + 1) none bs)
      else
        let p := { p with
          got := p.got + 1, value := value, missing := p.missing - 1, low := 0x80, high := 0xbf }
        decodeFrom (position + 1) (some p) bs
    else .error ⟨p.lead, p.start, p.got, .invalidContinuation⟩

def decode (bytes : List UInt8) : Except Fault (List Char) :=
  decodeFrom 0 none bytes

end SmallLisp.Text.Utf8
