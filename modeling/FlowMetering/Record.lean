import FlowMetering.Journal

/-!
Flow records. A record runs a program over the packets of one flow. It is inactive until a packet starts a
segment; a segment ends in an export, after which the record is inactive again, and `stop` ends the record for
good.

For each packet the filters are asked first, then the controls run, and then the packet is delivered to the
registers that read it. What a register emits goes at once to the registers that read it, and so on before
anything else happens. Signals are collected in the order raised and settled after the delivery.
-/

namespace FlowMetering

/-- A receiver of rows. Whether an export fails changes nothing in the record. -/
structure Exporter where
  name : String
  fails : Row → Bool

/-- What makes records: a program and the receivers of its rows. -/
structure Meter (σ φ : Type) where
  program : Program σ φ
  exporters : List Exporter

structure Record (σ φ : Type) where
  instances : List (Option σ)
  values : List (Option Value)
  filters : List φ
  filtersAlive : Bool
  active : Bool
  alive : Bool
  last : Int64

/-- What became of a packet. -/
inductive Outcome where
  | filtered
  | processed
  | stopped
  | exported
  deriving DecidableEq, Repr

/-- Whether a record can be given up without losing anything. -/
def Record.isReclaimable {σ φ : Type} (r : Record σ φ) : Bool :=
  !r.active && !r.filtersAlive

namespace Signal

/-- The first stop wins. -/
def stopReason? (signals : List Signal) : Option EndReason :=
  signals.findSome? fun
    | .stop reason => some reason
    | _ => none

/-- The last export wins. -/
def export? (signals : List Signal) : Option (EndReason × Int64) :=
  signals.reverse.findSome? fun
    | .export reason time => some (reason, time)
    | _ => none

def restarts (signals : List Signal) : Bool :=
  signals.contains .restart

end Signal

/-- A record in the middle of an operation, with the signals raised and the journal kept so far. -/
structure Turn (σ φ : Type) where
  record : Record σ φ
  signals : List Signal
  journal : Journal

namespace Turn

variable {σ φ : Type}

def ofRecord (r : Record σ φ) : Turn σ φ := ⟨r, [], []⟩

def log (t : Turn σ φ) (h : Happening) : Turn σ φ :=
  { t with journal := t.journal ++ [h] }

def setInstance (t : Turn σ φ) (r : Nat) (s : σ) : Turn σ φ :=
  { t with record := { t.record with instances := t.record.instances.set r (some s) } }

def setValue (t : Turn σ φ) (r : Nat) (v : Option Value) : Turn σ φ :=
  { t with record := { t.record with values := t.record.values.set r v } }

def raise (t : Turn σ φ) (signals : List Signal) : Turn σ φ :=
  { t with signals := t.signals ++ signals }

end Turn

namespace Meter

variable {σ φ : Type}

/-- A fresh record. Constant registers hold their constants, all others nothing. -/
def make (m : Meter σ φ) : Record σ φ where
  instances := m.program.nodes.map fun node => node.build?.map fun build => build node.kind
  values := m.program.nodes.map (·.constant)
  filters := m.program.filters.map (·.2)
  filtersAlive := false
  active := false
  alive := true
  last := 0

/-- The field names, for every receiver of rows. -/
def announcements (m : Meter σ φ) : List (String × List String) :=
  m.exporters.map fun exporter => (exporter.name, m.program.fields)

/-- What the instance of a register sees. -/
def context (m : Meter σ φ) (t : Turn σ φ) (now : Int64) (r : Nat) : Context :=
  ⟨r, m.program.args r, t.record.values, now, t.record.last⟩

/-- Calls the instance of a register, if it has one. -/
def call (m : Meter σ φ) (now : Int64) (r : Nat) (phase : Phase) (answer : Context → σ → σ × Reaction)
    (t : Turn σ φ) : Turn σ φ × Emission :=
  match t.record.instances[r]? with
  | some (some s) =>
    let (s, reaction) := answer (m.context t now r) s
    (((t.setInstance r s).raise reaction.signals).log (.call r phase reaction.remarks), reaction.emission)
  | _ => (t, .nothing)

/-- Hands an emission on to the dependents of a register by way of `next`. A value stays in the register; a
packet can only be handed on while there is one. -/
def propagate (m : Meter σ φ) (next : Nat → Input → Turn σ φ → Turn σ φ) (packet : Option Packet) (r : Nat)
    (t : Turn σ φ) : Emission → Turn σ φ
  | .nothing => t
  | .value none => t.setValue r none
  | .value (some v) =>
    (m.program.dependents r).foldl (fun t d => next d (.value v r) t) (t.setValue r (some v))
  | .forward =>
    match packet with
    | some p => (m.program.dependents r).foldl (fun t d => next d (.packet p (.register r)) t) t
    | none => t

variable [Feature σ]

/-- Gives an input to a register and what it emits to its dependents, and so on. Dependents have greater
numbers, so from register `r` on the calls nest at most `size - r` deep, which is the fuel to give. -/
def deliver (m : Meter σ φ) (now : Int64) (packet : Option Packet) :
    Nat → Nat → Input → Turn σ φ → Turn σ φ
  | 0, _, _, t => t
  | fuel + 1, r, input, t =>
    let (t, emission) := m.call now r (.event input) (Feature.event input) t
    m.propagate (m.deliver now packet fuel) packet r t emission

/-- Gives an input to a register and lets it run its course. -/
def dispatch (m : Meter σ φ) (now : Int64) (packet : Option Packet) (r : Nat) (input : Input)
    (t : Turn σ φ) : Turn σ φ :=
  m.deliver now packet (m.program.size - r) r input t

/-- Starts one instance. A value emitted here stays in the register and goes no further. -/
def startOne (m : Meter σ φ) (now : Int64) (t : Turn σ φ) (r : Nat) : Turn σ φ :=
  match m.call now r .start Feature.start t with
  | (t, .value v) => t.setValue r v
  | (t, _) => t

/-- Begins a segment: the registers are cleared and all instances started. Signals raised here are dropped. -/
def start (m : Meter σ φ) (now : Int64) (t : Turn σ φ) : Turn σ φ :=
  let cleared : Turn σ φ := { t.log (.segment now) with
    record := { t.record with values := m.program.nodes.map (·.constant) } }
  let swept := (List.range m.program.size).foldl (m.startOne now) cleared
  { swept with record := { swept.record with active := true }, signals := t.signals }

/-- Stops one instance and hands on what it emits. There is no packet to forward. -/
def stopOne (m : Meter σ φ) (reason : EndReason) (time : Int64) (t : Turn σ φ) (r : Nat) : Turn σ φ :=
  let (t, emission) := m.call time r (.stop reason) (Feature.stop reason) t
  m.propagate (m.dispatch time none) none r t emission

/-- The variant that a register has chosen. -/
def variant (r : Record σ φ) (register : Nat) : Nat :=
  match r.instances[register]? with
  | some (some s) => Feature.variant s
  | _ => 0

/-- The row that a record exports, if its variants fit a template. -/
def row? (m : Meter σ φ) (r : Record σ φ) (time : Int64) : Option Row :=
  (m.program.template.select (variant r)).map fun template =>
    ⟨template, m.program.exports.map fun e => (r.values[e]?).join, time⟩

/-- Hands the row of a record to every exporter. -/
def exportRow (m : Meter σ φ) (reason : EndReason) (time : Int64) (t : Turn σ φ) : Turn σ φ :=
  match m.row? t.record time with
  | some row =>
    m.exporters.foldl (fun t exporter => t.log (.export exporter.name row (exporter.fails row)))
      (t.log (.row reason row))
  | none => t.log (.noTemplate reason)

/-- Ends a segment: all instances are stopped and the row is exported. Signals raised here are dropped. -/
def finish (m : Meter σ φ) (reason : EndReason) (time : Int64) (t : Turn σ φ) : Turn σ φ :=
  let swept := (List.range m.program.size).foldl (m.stopOne reason time) (t.log (.finish reason time))
  let exported := m.exportRow reason time swept
  { exported with record := { exported.record with active := false }, signals := t.signals }

/-- Runs controls on a packet until one raises a stop. -/
def runControls (m : Meter σ φ) (packet : Packet) : List Nat → Turn σ φ → Turn σ φ
  | [], t => t
  | control :: controls, t =>
    let t := m.dispatch packet.time (some packet) control (.packet packet .flow) t
    if (Signal.stopReason? t.signals).isSome then t else m.runControls packet controls t

/-- Closes the packet for one instance. -/
def finishEventOne (t : Turn σ φ) (r : Nat) : Turn σ φ :=
  match t.record.instances[r]? with
  | some (some s) =>
    let (s, remarks) := Feature.finishEvent s
    (t.setInstance r s).log (.call r .finishEvent remarks)
  | _ => t

/-- Delivers a packet to the registers that read it, then closes the packet for all instances. -/
def deliverPacket (m : Meter σ φ) (packet : Packet) (t : Turn σ φ) : Turn σ φ :=
  let delivered := m.program.events.foldl
    (fun t r => m.dispatch packet.time (some packet) r (.packet packet .flow) t) t
  (List.range m.program.size).foldl finishEventOne delivered

/-- Settles the signals of a delivered packet. A stop ends the segment without a restart; otherwise an export
ends it, and a restart begins another one. -/
def settle (m : Meter σ φ) (now : Int64) (t : Turn σ φ) : Outcome × Turn σ φ :=
  match Signal.stopReason? t.signals with
  | some reason => (.exported, m.finish reason now t)
  | none =>
    let restarted (t : Turn σ φ) := if Signal.restarts t.signals then m.start now t else t
    match Signal.export? t.signals with
    | some (reason, time) => (.exported, restarted (m.finish reason time t))
    | none => (.processed, restarted t)

/-- Sets the time of the last packet. -/
def setLast (now : Int64) (t : Turn σ φ) : Turn σ φ :=
  { t with record := { t.record with last := now } }

/-- Runs an accepted packet. -/
def run (m : Meter σ φ) (packet : Packet) (t : Turn σ φ) : Outcome × Turn σ φ :=
  let now := packet.time
  let t := if t.record.active then t else m.start now t
  let t := m.runControls packet m.program.controls t
  match Signal.stopReason? t.signals with
  | some reason => (.stopped, setLast now (m.finish reason now (t.log (.controlStop reason))))
  | none =>
    let (outcome, t) := m.settle now (m.deliverPacket packet t)
    (outcome, setLast now t)

variable [Filter φ]

/-- Starts filters from a given number on. -/
def startFilters : Nat → List φ → List φ × Journal
  | _, [] => ([], [])
  | i, f :: fs =>
    let (f, remarks) := Filter.start f
    let (fs, journal) := startFilters (i + 1) fs
    (f :: fs, .filter i .start remarks :: journal)

/-- Asks filters about a packet until one refuses it. -/
def askFilters (packet : Packet) : Nat → List φ → Bool × List φ × Journal
  | _, [] => (true, [], [])
  | i, f :: fs =>
    match Filter.accepts packet f with
    | (false, f, remarks) => (false, f :: fs, [.filter i (.ask false) remarks])
    | (true, f, remarks) =>
      let (accepted, fs, journal) := askFilters packet (i + 1) fs
      (accepted, f :: fs, .filter i (.ask true) remarks :: journal)

/-- Stops filters from a given number on. -/
def stopFilters : Nat → List φ → List φ × Journal
  | _, [] => ([], [])
  | i, f :: fs =>
    let (f, remarks) := Filter.stop f
    let (fs, journal) := stopFilters (i + 1) fs
    (f :: fs, .filter i .stop remarks :: journal)

/-- Asks the filters about a packet, starting them before their first one. -/
def screen (packet : Packet) (t : Turn σ φ) : Bool × Turn σ φ :=
  let (filters, started) :=
    if t.record.filtersAlive then (t.record.filters, []) else startFilters 0 t.record.filters
  let (accepted, filters, asked) := askFilters packet 0 filters
  (accepted, { t with
    record := { t.record with filters := filters, filtersAlive := !t.record.filters.isEmpty }
    journal := t.journal ++ started ++ asked })

/-- Gives a packet to a record. -/
def event (m : Meter σ φ) (r : Record σ φ) (packet : Packet) : Outcome × Record σ φ × Journal :=
  if !r.alive then (.stopped, r, [])
  else
    match screen packet (.ofRecord r) with
    | (false, t) => (.filtered, t.record, (t.log .veto).journal)
    | (true, t) =>
      let (outcome, t) := m.run packet t
      (outcome, t.record, t.journal)

/-- Stops a record for good. An open segment is exported first. -/
def stop (m : Meter σ φ) (r : Record σ φ) (reason : EndReason) (now : Int64) : Record σ φ × Journal :=
  if !r.alive then (r, [])
  else
    let t : Turn σ φ := if r.active then m.finish reason now (.ofRecord r) else .ofRecord r
    let (filters, stopped) :=
      if t.record.filtersAlive then stopFilters 0 t.record.filters else (t.record.filters, [])
    ({ t.record with filters := filters, filtersAlive := false, alive := false }, t.journal ++ stopped)

end Meter

end FlowMetering
