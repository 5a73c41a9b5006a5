/-!
# Arguments

The arguments of the program name a command, its files and its options. Options may stand anywhere
behind the command; one that takes a value has it in the next argument, or in the same one behind
`=`. Short options share an argument. Behind `--` everything is a file. What is not understood, or
not complete, is no request.
-/

namespace Crosswalk

namespace CommandLine

/-- What the program is asked to do. -/
inductive Request where
  | version
  | help
  /-- Converts schema files, and writes the documents into a directory. -/
  | convert (schemas : List String) (directory : String) (config : Option String) (pretty : Bool)
  /-- Converts schema files, and checks instances against one of the documents. -/
  | validate (schemas : List String) (schema : String) (instances : List String)
      (config : Option String)
  deriving DecidableEq, Repr

/-- The options that a command has besides the common ones. -/
structure Grammar where
  /-- Those with a value. -/
  valued : List String
  /-- Those of them that may be given several times. -/
  repeatable : List String := []
  /-- Those of them whose value may be empty. -/
  free : List String := []
  flags : List String := []
  /-- Short forms of options with a value. -/
  short : List (Char × String) := []

/-- What was read of the arguments of a command. -/
structure Draft where
  files : List String := []
  values : List (String × String) := []
  flags : List String := []
  deriving DecidableEq, Repr

namespace Draft

/-- Adds a file, which has to have a name. -/
def addFile? (d : Draft) (file : String) : Option Draft :=
  if file = "" then none else some { d with files := d.files ++ [file] }

/-- Adds the value of an option. -/
def addValue? (g : Grammar) (d : Draft) (name value : String) : Option Draft :=
  if value = "" && !g.free.contains name then none
  else if !g.repeatable.contains name && d.values.any (·.1 == name) then none
  else some { d with values := d.values ++ [(name, value)] }

/-- Adds a flag, which may be given once. -/
def addFlag? (d : Draft) (name : String) : Option Draft :=
  if d.flags.contains name then none else some { d with flags := d.flags ++ [name] }

/-- The values of an option. -/
def valuesOf (d : Draft) (name : String) : List String :=
  (d.values.filter (·.1 == name)).map (·.2)

/-- The last value of an option. -/
def value? (d : Draft) (name : String) : Option String := (d.valuesOf name).getLast?

end Draft

/-- What an argument of short options comes to. -/
inductive Cluster where
  /-- Nothing but common ones. -/
  | common
  | help
  | version
  /-- One with a value, and what of the value stands in the same argument. -/
  | valued (name : String) (attached : List Char)
  | unknown
  deriving DecidableEq, Repr

/-- Reads short options. -/
def cluster (short : List (Char × String)) (versioned : Bool) : List Char → Cluster
  | [] => .common
  | c :: rest =>
    if c = 'v' then cluster short versioned rest
    else if c = 'h' then .help
    else if c = 'V' && versioned then .version
    else match short.lookup c with
      | some name => .valued name (if rest.head? = some '=' then rest.drop 1 else rest)
      | none => .unknown

/-- The name of a long option, and its value if that stands in the same argument. -/
def splitLong (argument : List Char) : String × Option String :=
  let name := argument.takeWhile (· != '=')
  let value := match argument.drop name.length with
    | _ :: value => some (String.ofList value)
    | [] => none
  (String.ofList name, value)

/-- Whether an argument can be the value of an option. -/
def isValue (argument : String) : Bool :=
  match argument.toList with
  | '-' :: _ :: _ => false
  | _ => true

/-- What the arguments of a command come to. -/
inductive Reading where
  | draft (d : Draft)
  | help

/-- Reads the arguments of a command. -/
def read? (g : Grammar) (d : Draft) : List String → Option Reading
  | [] => some (.draft d)
  | argument :: rest =>
    match argument.toList with
    | ['-', '-'] => (rest.foldlM Draft.addFile? d).map .draft
    | '-' :: '-' :: long =>
      let (name, value) := splitLong long
      if g.valued.contains name then
        match value, rest with
        | some value, rest => (d.addValue? g name value).bind fun d => read? g d rest
        | none, value :: rest =>
          if isValue value then (d.addValue? g name value).bind fun d => read? g d rest else none
        | none, [] => none
      else if value.isSome then none
      else if name = "help" then some .help
      else if name = "verbose" then read? g d rest
      else if name = "log-json" || g.flags.contains name then
        (d.addFlag? name).bind fun d => read? g d rest
      else none
    | '-' :: c :: short =>
      match cluster g.short false (c :: short), rest with
      | .common, rest => read? g d rest
      | .help, _ => some .help
      | .valued name [], value :: rest =>
        if isValue value then (d.addValue? g name value).bind fun d => read? g d rest else none
      | .valued _ [], [] => none
      | .valued name attached, rest =>
        (d.addValue? g name (String.ofList attached)).bind fun d => read? g d rest
      | _, _ => none
    | _ => (d.addFile? argument).bind fun d => read? g d rest

/-- The options of the command that converts. -/
def convertGrammar : Grammar where
  valued := ["out-dir", "config"]
  flags := ["pretty"]
  short := [('o', "out-dir")]

/-- The options of the command that validates. -/
def validateGrammar : Grammar where
  valued := ["schema", "instance", "config"]
  repeatable := ["instance"]
  free := ["schema"]

/-- The request to convert. -/
def convert? (d : Draft) : Option Request := do
  let directory ← d.value? "out-dir"
  if d.files.isEmpty then none
  else return .convert d.files directory (d.value? "config") (d.flags.contains "pretty")

/-- The request to validate. -/
def validate? (d : Draft) : Option Request := do
  let schema ← d.value? "schema"
  let instances := d.valuesOf "instance"
  if d.files.isEmpty || instances.isEmpty then none
  else return .validate d.files schema instances (d.value? "config")

/-- The request that the arguments of a command make. -/
def command? (g : Grammar) (request? : Draft → Option Request) (arguments : List String) :
    Option Request :=
  match read? g {} arguments with
  | some (.draft d) => request? d
  | some .help => some .help
  | none => none

/-- Reads arguments up to the command; `logged` says whether the form of log lines was chosen. -/
def request? (logged : Bool) : List String → Option Request
  | [] => none
  | argument :: rest =>
    if argument = "convert" then command? convertGrammar convert? rest
    else if argument = "validate" then command? validateGrammar validate? rest
    else if argument = "help" || argument = "--help" then some .help
    else if argument = "--version" then some .version
    else if argument = "--verbose" then request? logged rest
    else if argument = "--log-json" then if logged then none else request? true rest
    else match argument.toList with
      | '-' :: '-' :: _ => none
      | '-' :: c :: short =>
        match cluster [] true (c :: short) with
        | .common => request? logged rest
        | .help => some .help
        | .version => some .version
        | _ => none
      | _ => none

/-- The request that arguments make. -/
def Request.ofArguments? (arguments : List String) : Option Request := request? false arguments

end CommandLine

end Crosswalk
