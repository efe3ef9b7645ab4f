import FlowMetering.CompileError
import FlowMetering.Record

/-!
Metrics: what a meter counts about its compilations and records. What a record contributes is read off its
journal.
-/

namespace FlowMetering

inductive Instrument where
  | counter
  | gauge
  | histogram
  deriving DecidableEq, Repr

def Instrument.name : Instrument → String
  | .counter => "counter"
  | .gauge => "gauge"
  | .histogram => "histogram"

structure Metric where
  instrument : Instrument
  name : String
  description : String
  deriving DecidableEq, Repr

namespace Metric

def programs : Metric :=
  ⟨.counter, "flowprobe_compiler_programs_total",
    "Total number of feature specifications compiled successfully"⟩

def errors : Metric :=
  ⟨.counter, "flowprobe_compiler_errors_total", "Total number of failed compilations by error kind"⟩

def duration : Metric :=
  ⟨.histogram, "flowprobe_compiler_duration_seconds", "Feature specification compile time in seconds"⟩

def registers : Metric :=
  ⟨.gauge, "flowprobe_compiler_registers", "Register count of the most recently compiled program"⟩

def created : Metric :=
  ⟨.counter, "flowprobe_record_created_total", "Total number of records created"⟩

def exports : Metric :=
  ⟨.counter, "flowprobe_record_exports_total", "Total number of record exports by flow end reason"⟩

def filtered : Metric :=
  ⟨.counter, "flowprobe_record_events_filtered_total", "Total number of packet events vetoed by filters"⟩

def controlStops : Metric :=
  ⟨.counter, "flowprobe_record_control_stops_total",
    "Total number of records stopped by a control feature"⟩

def exportFailures : Metric :=
  ⟨.counter, "flowprobe_record_export_failures_total",
    "Total number of exporter failures by exporter name"⟩

def all : List Metric :=
  [programs, errors, duration, registers, created, exports, filtered, controlStops, exportFailures]

/-- The instrument, name and meaning of a metric in one line. -/
def line (m : Metric) : String :=
  m.instrument.name ++ " " ++ m.name ++ ": " ++ m.description

/-- The bounds, in seconds, between which compile times are told apart. -/
def durationBuckets : List Float :=
  [0.00001, 0.0001, 0.0005, 0.001, 0.005, 0.01, 0.1, 1.0]

end Metric

/-- One use of a metric. How long something took is not part of the model, only that it was measured. -/
inductive Measurement where
  | increment (metric : Metric) (labels : List (String × String))
  | level (metric : Metric) (value : Nat)
  | sample (metric : Metric)
  deriving DecidableEq, Repr

namespace Measurement

/-- What a compilation measures. -/
def ofCompilation {σ φ : Type} : Except CompileError (Program σ φ) → List Measurement
  | .ok program =>
    [.increment .programs [], .sample .duration, .level .registers program.size]
  | .error error => [.increment .errors [("kind", error.fault.label)]]

/-- What a new record measures. -/
def ofCreation : List Measurement :=
  [.increment .created []]

/-- What one line of a journal measures. -/
def ofHappening : Happening → List Measurement
  | .veto => [.increment .filtered []]
  | .controlStop reason => [.increment .controlStops [("reason", reason.text)]]
  | .row reason _ => [.increment .exports [("reason", reason.text)]]
  | .export exporter _ true => [.increment .exportFailures [("exporter", exporter)]]
  | _ => []

def ofJournal (journal : Journal) : List Measurement :=
  journal.flatMap ofHappening

end Measurement

/-- What measurements add up to: increments by metric and labels, the last level of each gauge, and how many
samples were taken. -/
structure Totals where
  counters : List (String × Nat)
  gauges : List (String × Nat)
  samples : List (String × Nat)
  deriving DecidableEq, Repr

namespace Totals

/-- Changes the number under a key, which is zero at first. -/
def change (key : String) (f : Nat → Nat) : List (String × Nat) → List (String × Nat)
  | [] => [(key, f 0)]
  | (other, n) :: rest => if other = key then (other, f n) :: rest else (other, n) :: change key f rest

/-- Takes up one measurement. Each label is part of the key. -/
def add (totals : Totals) : Measurement → Totals
  | .increment metric labels =>
    let key := metric.name ++ String.join (labels.map fun (label, value) => "," ++ label ++ "=" ++ value)
    { totals with counters := change key (· + 1) totals.counters }
  | .level metric value => { totals with gauges := change metric.name (fun _ => value) totals.gauges }
  | .sample metric => { totals with samples := change metric.name (· + 1) totals.samples }

def ofMeasurements (measurements : List Measurement) : Totals :=
  measurements.foldl add ⟨[], [], []⟩

end Totals

end FlowMetering
