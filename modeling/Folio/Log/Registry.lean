import Folio.Log.Rule

/-!
# The log registry

Categories with their thresholds and outputs, the rules that set them, and what was
written. A category is registered when it is first looked up and takes what the last
rule that matches it says. The first category is the default one, which stands in
where none is named and when the table is full. Loading rules sets all categories
anew. The files that rules name lie in one directory and are only ever added to.
-/

set_option autoImplicit false

namespace Folio.Log

structure Category where
  name : Bytes
  level : Int
  output : Output
  deriving DecidableEq

structure Registry where
  categories : List Category := []
  rules : List Rule := []
  openFiles : Nat := 0
  files : List (Bytes × Bytes) := []
  stdout : Bytes := []
  stderr : Bytes := []

namespace Registry

def defaultLevel : Int := Severity.warn.rank

def defaultName : Bytes := utf8 "default"

def categoryUnder (rules : List Rule) (name : Bytes) : Category :=
  match rules.reverse.find? fun rule => rule.appliesTo name with
  | some rule => ⟨name, rule.level, rule.output⟩
  | none => ⟨name, defaultLevel, .stderr⟩

def applyRules (r : Registry) : Registry :=
  { r with categories := r.categories.map fun c => categoryUnder r.rules c.name }

def clearRules (r : Registry) : Registry := { r with rules := [], openFiles := 0 }

/-- The category of a name, registered if it is new and there is room. A name is stored cut to its
size, and compared whole with the stored ones. -/
def find (r : Registry) (name : Bytes) : Registry × Nat :=
  match r.categories.findIdx? fun c => c.name == name with
  | some i => (r, i)
  | none =>
    if maxCategories ≤ r.categories.length then (r, 0)
    else
      ({ r with categories := r.categories ++ [categoryUnder r.rules (name.take (nameSize - 1))] },
        r.categories.length)

def ensureDefault (r : Registry) : Registry :=
  if r.categories.isEmpty then (r.find defaultName).1 else r

/-- The category that a name stands for, the default one without a name. -/
def lookup (r : Registry) (name : Option Bytes) : Registry × Nat :=
  match name with
  | none => (r.ensureDefault, 0)
  | some name => r.ensureDefault.find name.untilNul

def fileText (r : Registry) (name : Bytes) : Option Bytes :=
  (r.files.find? fun f => f.1 == name).map (·.2)

def writeFile (r : Registry) (name text : Bytes) : Registry :=
  { r with files := (name, text) :: r.files.filter fun f => f.1 != name }

def write (r : Registry) (output : Output) (text : Bytes) : Registry :=
  match output with
  | .stdout => { r with stdout := r.stdout ++ text }
  | .stderr | .unset => { r with stderr := r.stderr ++ text }
  | .file name => r.writeFile name ((r.fileText name).getD [] ++ text)

def openTarget (r : Registry) (target : Bytes) : Option (Registry × Output) :=
  if target = utf8 ">stdout" then some (r, .stdout)
  else if target = utf8 ">stderr" then some (r, .stderr)
  else
    match quotedName? target with
    | none => none
    | some name =>
      if maxRules ≤ r.openFiles || !isFileName name then none
      else
        some ({ r.write (.file name) [] with openFiles := r.openFiles + 1 }, .file name)

/-- What became of a rule line: its status, and the line as far as it was read. -/
structure RuleResult where
  registry : Registry
  status : Status
  shown : Bytes

def addRule (r : Registry) (line : Bytes) : RuleResult :=
  let text := RuleText.ofLine line
  match text.selector.cutLast? dot with
  | none | some ([], _) => ⟨r, .wrongFormat, text.selector⟩
  | some (pattern, name) =>
    match Severity.ofName? name with
    | none => ⟨r, .wrongFormat, pattern⟩
    | some severity =>
      if nameSize ≤ pattern.length then ⟨r, .wrongFormat, pattern⟩
      else if maxRules ≤ r.rules.length then ⟨r, .initFail, pattern⟩
      else
        match r.openTarget text.target with
        | none => ⟨r, .writeFail, pattern⟩
        | some (opened, output) =>
          ⟨{ opened with rules := opened.rules ++ [⟨pattern, severity.rank, output⟩] }, .ok,
            pattern⟩

/-- Adds the rules of the lines; a line that is refused is reported and gives the status. -/
def addRules (r : Registry) (status : Status) : List Bytes → Registry × Status
  | [] => (r, status)
  | line :: rest =>
    let result := r.addRule line
    if result.status = .ok then addRules result.registry status rest
    else
      addRules
        (result.registry.write .stderr <|
          utf8 "log: invalid rule '" ++ result.shown ++ utf8 "' (code " ++
            .ofInt result.status.code ++ utf8 ")\n")
        result.status rest

def loadText (r : Registry) (config : Option Bytes) : Registry × Status :=
  match config with
  | none => (r, .ok)
  | some text =>
    let (loaded, status) := r.addRules .ok (ruleLines false (configLines text))
    (loaded.applyRules, status)

def loadFile (r : Registry) (name : Option Bytes) : Registry × Status :=
  match name.bind fun name => r.fileText name.untilNul with
  | none => (r, .initFail)
  | some text => r.loadText (some text)

def start (r : Registry) (config : Option Bytes) : Registry × Status :=
  let fresh := r.clearRules.ensureDefault
  match config with
  | some name =>
    if name.untilNul.isEmpty then (fresh.applyRules, .ok)
    else
      let (loaded, status) := fresh.loadFile (some name)
      (loaded.applyRules, status)
  | none => (fresh.applyRules, .ok)

def stop (r : Registry) : Registry := r.clearRules.applyRules

def category? (r : Registry) (i : Nat) : Option Category := r.categories[i]?

def enabled (r : Registry) (i : Nat) (level : Int) : Bool :=
  (r.category? i).any fun c => c.level ≤ level

def setLevel (r : Registry) (i : Nat) (level : Int) : Registry :=
  { r with categories := r.categories.modify i fun c => { c with level } }

def setOutput (r : Registry) (i : Nat) (output : Output) : Registry :=
  { r with categories := r.categories.modify i fun c => { c with output } }

def emit (r : Registry) (i : Nat) (level : Int) (text : Bytes) : Registry × Status :=
  match r.category? i with
  | none => (r, .tooLow)
  | some c =>
    if c.level ≤ level then (r.write c.output (line level c.name text.untilNul), .ok)
    else (r, .tooLow)

end Registry
end Folio.Log
