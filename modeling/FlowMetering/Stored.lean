/-!
What paths lead to, and the texts that can be read there.
-/

namespace FlowMetering

/-- What a path leads to. An unreachable path is neither known to lead somewhere nor known to lead nowhere. -/
inductive Stored where
  | absent
  | unreachable (reason : String)
  | directory
  | file (bytes : ByteArray)

/-- Why no text can be read although a path does not lead nowhere. -/
inductive Unreadable where
  | unreachable (reason : String)
  | directory
  | notText
  deriving DecidableEq, Repr

def Unreadable.message : Unreadable → String
  | .unreachable reason => reason
  | .directory => "Is a directory (os error 21)"
  | .notText => "stream did not contain valid UTF-8"

namespace Stored

/-- Whether a path is known to lead somewhere. -/
def isPresent : Stored → Bool
  | .absent | .unreachable _ => false
  | .directory | .file _ => true

/-- The text that a path leads to; none where it leads nowhere. -/
def text? : Stored → Except Unreadable (Option String)
  | .absent => .ok none
  | .unreachable reason => .error (.unreachable reason)
  | .directory => .error .directory
  | .file bytes =>
    match String.fromUTF8? bytes with
    | some text => .ok (some text)
    | none => .error .notText

end Stored

end FlowMetering
