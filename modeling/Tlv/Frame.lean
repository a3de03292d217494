/-
Frames: the bytes of one element, which are its header and its payload,
and the reading of one frame off the front of a buffer.

Both directions follow the policy alone. Writing (`Policy.frame`) keeps
the low bytes of tag and length, so it is only right for those that fit;
reading (`Policy.readFrame`) fails if the buffer ends inside the frame.
-/
import Tlv.Element

namespace Tlv.Policy

/-- The header of an element: tag, then payload length. -/
def header (p : Policy) (tag : UInt32) (length : Nat) : Bytes :=
  BigEndian.ofUInt32 p.typeWidth.bytes tag
    ++ BigEndian.ofUInt32 p.lengthWidth.bytes (UInt32.ofNat length)

/-- The bytes of an element. -/
def frame (p : Policy) (tag : UInt32) (payload : Bytes) : Bytes :=
  p.header tag payload.length ++ payload

@[simp]
theorem length_header (p : Policy) (tag : UInt32) (length : Nat) :
    (p.header tag length).length = p.headerLen := by
  simp [header, headerLen, BigEndian.ofUInt32]

/-- A frame is a header and its payload and nothing else. -/
@[simp]
theorem length_frame (p : Policy) (tag : UInt32) (payload : Bytes) :
    (p.frame tag payload).length = p.headerLen + payload.length := by
  simp [frame]

/-- Reads the frame at the front of `bytes`, which begin at `offset` in
their buffer, and hands back what follows it. -/
def readFrame (p : Policy) (offset : Nat) (bytes : Bytes) :
    Except DecodeError (Element × Bytes) :=
  match bytes.split? p.headerLen with
  | none => .error (.truncatedHeader offset bytes.length p.headerLen)
  | some (header, body) =>
    let tag := BigEndian.readUInt32 (header.take p.typeWidth.bytes)
    let declared := (BigEndian.readUInt32 (header.drop p.typeWidth.bytes)).toNat
    let start := offset + p.headerLen
    match body.split? declared with
    | none => .error (.truncatedPayload start declared body.length)
    | some (payload, rest) => .ok ({ tag, offset := start, payload }, rest)

/-- A frame takes up its header and its payload. -/
theorem length_of_readFrame_eq_ok {p : Policy} {offset : Nat} {bytes rest : Bytes}
    {e : Element} (h : p.readFrame offset bytes = .ok (e, rest)) :
    bytes.length = p.headerLen + e.length + rest.length := by
  unfold readFrame at h
  split at h
  · cases h
  · next header body hs =>
    obtain ⟨rfl, hheader⟩ := Bytes.split?_eq_some_iff.1 hs
    dsimp only at h
    split at h
    · cases h
    · next payload rest' hb =>
      obtain ⟨rfl, hpayload⟩ := Bytes.split?_eq_some_iff.1 hb
      cases h
      simp only [List.length_append, Element.length]
      omega

end Tlv.Policy
