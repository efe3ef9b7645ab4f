import FlowMetering.Catalog
import FlowMetering.CommandLine.Request
import FlowMetering.Configuration
import FlowMetering.Element.Text
import FlowMetering.Program

/-!
Reports: what the commands have to say, as text for people and as JSON.
-/

namespace FlowMetering.CommandLine

/-- The two forms of a report. -/
structure Report where
  text : String
  json : Json

/-- A report in the form that was asked for. -/
def Report.render (report : Report) : Form → String
  | .text => report.text
  | .json => report.json.pretty ++ "\n"

/-- Fills a text up with blanks on its right. -/
def padRight (width : Nat) (s : String) : String :=
  s ++ String.ofList (List.replicate (width - s.length) ' ')

/-- Fills a text up with blanks on its left. -/
def padLeft (width : Nat) (s : String) : String :=
  String.ofList (List.replicate (width - s.length) ' ') ++ s

def count (n : Nat) : Json :=
  .number (.natural n.toUInt64)

def texts (items : List String) : Json :=
  .array (items.map .string)

/-- Lines, each with its line break. -/
def lines (items : List String) : String :=
  String.join (items.map (· ++ "\n"))

namespace Report

variable {σ φ : Type}

def argument : Argument → String
  | .raw => "raw"
  | .register r => "r" ++ toString r

/-- What is special about a register. -/
def flags (p : Program σ φ) (register : Nat) (node : Node σ) : List String :=
  (if node.consumesRaw then ["raw"] else []) ++
  (if node.isControl then ["control"] else []) ++
  (if node.constant.isSome then ["constant"] else []) ++
  (if p.variants.contains register then ["variant"] else [])

def registerLine (register signature kind arguments flags : String) : String :=
  padLeft 5 register ++ "  " ++ padRight 40 signature ++ " " ++ padRight 14 kind ++ " "
    ++ padRight 16 arguments ++ " " ++ flags

/-- Registers, exports and templates of a program. -/
def ofProgram (source : String) (p : Program σ φ) : Report :=
  let registers := p.nodes.zipIdx
  let exports := p.exports.zip p.fields
  let templates := p.template.templates
  let filters := p.filters.map (·.1)
  { text := lines <|
      ["Program (source: " ++ source ++ ")",
        "  Registers: " ++ toString registers.length ++ "  Exports: " ++ toString exports.length
          ++ "  Templates: " ++ toString templates.length]
      ++ (if filters.isEmpty then [] else ["  Filters: " ++ ", ".intercalate filters])
      ++ ["", registerLine "REG" "SIGNATURE" "KIND" "ARGS" "FLAGS"]
      ++ (registers.map fun (node, r) =>
        registerLine ("r" ++ toString r) node.signature node.kind.name (",".intercalate (node.args.map argument))
          (",".intercalate (flags p r node)))
      ++ ["", "Exports:"]
      ++ (exports.zipIdx.map fun ((r, name), i) =>
        "  #" ++ padRight 3 (toString (i + 1)) ++ " r" ++ padRight 4 (toString r) ++ " " ++ name)
      ++ ["", "Templates:"]
      ++ (templates.map fun template =>
        "  [" ++ toString template.id ++ "] " ++ ", ".intercalate (template.elements.map (·.display)))
    json := .object
      [("source", .string source),
        ("registers", .array (registers.map fun (node, r) => .object
          [("register", count r), ("signature", .string node.signature), ("kind", .string node.kind.name),
            ("arguments", texts (node.args.map argument)), ("flags", texts (flags p r node))])),
        ("exports", .array (exports.map fun (r, name) => .object
          [("register", count r), ("name", .string name)])),
        ("templates", .array (templates.map fun template => .object
          [("id", count template.id), ("fields", texts (template.elements.map (·.display)))])),
        ("filters", texts filters)] }

def entryLine (name result arguments output : String) : String :=
  "  " ++ padRight 28 name ++ " " ++ padRight 14 result ++ " " ++ padRight 40 arguments ++ " " ++ output

def entryText (e : Entry σ) : String :=
  let arguments := ", ".intercalate (e.arguments.map (·.name)) ++ if e.implicitInput then " +raw" else ""
  entryLine e.name e.result.name arguments (if e.build.isNone then "(lowered)" else e.output.display)

def entryJson (e : Entry σ) : Json :=
  .object
    [("name", .string e.name), ("returns", .string e.result.name),
      ("arguments", texts (e.arguments.map (·.name))), ("output", .string e.output.display),
      ("implicit_input", .boolean e.implicitInput), ("lowered", .boolean e.build.isNone)]

def compositeText (c : Composite) : String :=
  "  " ++ c.name ++ " = " ++ c.definition.compact ++
    match c.declared with
    | some element => " -> " ++ element.display
    | none => ""

def compositeJson (c : Composite) : Json :=
  .object <|
    [("name", .string c.name), ("definition", .string c.definition.compact)] ++
    match c.declared with
    | some element => [("ie", .string element.display)]
    | none => []

/-- What a catalog holds, or what it holds under one name; none where there is nothing. -/
def ofCatalog? (catalog : Catalog σ φ) (name : Option String) : Option Report :=
  let wanted (candidate : String) : Bool := name.all (· == candidate)
  let entries := catalog.entries.filter (wanted ·.name)
  let composites := catalog.composites.filter (wanted ·.name)
  let filters := (catalog.filters.map (·.1)).filter wanted
  if entries.isEmpty && composites.isEmpty && filters.isEmpty then none
  else some
    { text := lines <|
        (if entries.isEmpty then []
          else ["Features:", entryLine "NAME" "RETURNS" "ARGUMENTS" "OUTPUT"] ++ entries.map entryText)
        ++ (if composites.isEmpty then [] else ["", "Composites:"] ++ composites.map compositeText)
        ++ (if filters.isEmpty then [] else ["", "Filters: " ++ ", ".intercalate filters])
      json := .object
        [("features", .array (entries.map entryJson)), ("composites", .array (composites.map compositeJson)),
          ("filters", texts filters)] }

/-- Whether the configuration at a path can be used, and why not. -/
def ofValidation (source : String) (problem : Option String) : Report where
  text := lines <|
    ["Config Validation: " ++ source] ++
    match problem with
    | none => ["  Result: VALID"]
    | some problem => ["  Result: INVALID", "  Error: " ++ problem]
  json := .object
    [("source", .string source), ("valid", .boolean problem.isNone), ("errors", texts problem.toList)]

/-- A configuration, or one part of it; none where it has no such part. -/
def ofConfiguration? (source : String) (c : Configuration) : Option String → Option Report
  | none => some
    { text := "Configuration (source: " ++ source ++ ")\n\n" ++ c.text
      json := .object [("source", .string source)] }
  | some part => (c.sectionText? part).map fun settings =>
    { text := "Configuration [" ++ part ++ "] (source: " ++ source ++ ")\n\n" ++ settings
      json := .object [("source", .string source), ("section", .string part)] }

end Report

end FlowMetering.CommandLine
