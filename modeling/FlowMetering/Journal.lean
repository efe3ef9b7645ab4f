import FlowMetering.Feature

/-!
The journal of a record: every call that it makes to filters, features and exporters, in order.
-/

namespace FlowMetering

/-- One exported row: the values of the exported registers under the template they fit. -/
structure Row where
  template : Template
  values : List (Option Value)
  time : Int64

/-- What a filter is called for. -/
inductive FilterCall where
  | start
  | ask (accepted : Bool)
  | stop
  deriving DecidableEq, Repr

/-- What an instance is called for. -/
inductive Phase where
  | start
  | event (input : Input)
  | finishEvent
  | stop (reason : EndReason)

/-- One line of a journal. Calls to filters and instances carry their remarks; `segment` and `finish` head the
sweeps over all instances that begin and end a segment. -/
inductive Happening where
  | filter (index : Nat) (call : FilterCall) (remarks : List String)
  | veto
  | segment (now : Int64)
  | call (register : Nat) (phase : Phase) (remarks : List String)
  | controlStop (reason : EndReason)
  | finish (reason : EndReason) (time : Int64)
  | noTemplate (reason : EndReason)
  | row (reason : EndReason) (row : Row)
  | export (exporter : String) (row : Row) (failed : Bool)

abbrev Journal := List Happening

end FlowMetering
