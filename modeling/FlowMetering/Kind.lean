/-!
Kinds of expressions. A catalog entry declares the kind that it gives and the kinds that it takes.
-/

namespace FlowMetering

/-- `matchType` takes over the kind that the context asks for. `ellipsis` closes a list of argument kinds and
repeats the kind in front of it. -/
inductive Kind where
  | constant
  | packetFeature
  | flowFeature
  | selection
  | rawPacket
  | rawFlow
  | control
  | matchType
  | ellipsis
  deriving DecidableEq, Repr

namespace Kind

def name : Kind → String
  | .constant => "Constant"
  | .packetFeature => "PacketFeature"
  | .flowFeature => "FlowFeature"
  | .selection => "Selection"
  | .rawPacket => "RawPacket"
  | .rawFlow => "RawFlow"
  | .control => "Control"
  | .matchType => "MatchType"
  | .ellipsis => "..."

/-- Whether the kind is one of the raw inputs. -/
def isRaw : Kind → Bool
  | .rawPacket | .rawFlow => true
  | _ => false

/-- Whether a constant may stand where the kind is asked for. -/
def acceptsConstant : Kind → Bool
  | .constant | .packetFeature | .flowFeature => true
  | _ => false

/-- Whether a catalog entry may give the kind. -/
def isResult : Kind → Bool
  | .packetFeature | .flowFeature | .selection | .control | .matchType => true
  | _ => false

end Kind

end FlowMetering
