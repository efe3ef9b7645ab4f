/-!
Why a flow record ends.
-/

namespace FlowMetering

inductive EndReason where
  | idleTimeout
  | activeTimeout
  | endOfFlowDetected
  | forcedEnd
  | lackOfResources
  deriving DecidableEq, Repr

namespace EndReason

/-- The code under which a reason is exported. -/
def code : EndReason → UInt8
  | .idleTimeout => 1
  | .activeTimeout => 2
  | .endOfFlowDetected => 3
  | .forcedEnd => 4
  | .lackOfResources => 5

/-- The name under which a reason is counted. -/
def text : EndReason → String
  | .idleTimeout => "idle_timeout"
  | .activeTimeout => "active_timeout"
  | .endOfFlowDetected => "end_of_flow"
  | .forcedEnd => "forced_end"
  | .lackOfResources => "lack_of_resources"

end EndReason

end FlowMetering
