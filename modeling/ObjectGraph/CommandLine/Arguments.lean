import ObjectGraph.Log.Filter
import ObjectGraph.Representation

/-!
# `CommandLine.Arguments` — what a command line asks for

A command line is a row of flags and options that concern the log, the name of a command, and what the
command takes: operands, flags and options in any order. An option's value follows it, as the next word
or after an equals sign; a word that begins with a dash is never a value, unless it is a single dash.
After two dashes every word is an operand. A flag or option may stand once, unless it may be repeated.

Contents:
* `Grammar`, what a command takes, and `Given`, what it was given;
* `Word`, what a word looks like; `read`, a row of words;
* `Command`, `Request`, `parse`.
-/

namespace ObjectGraph.CommandLine

/-! ## Words -/

/-- What a word looks like. -/
inductive Word where
  | operand (s : String)
  /-- The two dashes that end flags and options. -/
  | separator
  /-- A name after two dashes, and what follows an equals sign. -/
  | long (name : String) (value : Option String)
  /-- What stands after a single dash. -/
  | short (letters : List Char)
  deriving DecidableEq, Repr

/-- The kind of a word, by its dashes. -/
def Word.ofString (s : String) : Word :=
  match s.toList with
  | ['-'] => .operand s
  | ['-', '-'] => .separator
  | '-' :: '-' :: cs =>
      let name := String.ofList (cs.takeWhile (· != '='))
      match cs.dropWhile (· != '=') with
      | _ :: value => .long name (some (String.ofList value))
      | [] => .long name none
  | '-' :: cs => .short cs
  | _ => .operand s

/-! ## Grammars -/

/-- Why reading stops before a request is complete. -/
inductive Stop where
  /-- The words make no sense. -/
  | misuse
  /-- The user asks for help about the program, or about a command. -/
  | help (command : Option String)
  /-- The user asks for the version. -/
  | version
  deriving DecidableEq, Repr

/-- Why reading what a command takes stops: help is then asked for about the command. -/
def Stop.within (command : String) : Stop → Stop
  | .help none => .help (some command)
  | stop => stop

/-- What a command takes. -/
structure Grammar where
  flags : List String
  /-- The options, and which values each of them takes. -/
  options : List (String × (String → Bool))
  /-- The options that may be repeated. -/
  repeatable : List String
  /-- Which operand may come after so many others. -/
  operand : Nat → String → Bool
  /-- How many operands there must be. -/
  least : Nat
  /-- It can be asked for the version. -/
  versioned : Bool
  /-- The first operand is the name of a command, which takes the rest. -/
  commands : Bool

/-- What a command was given, in order. -/
structure Given where
  flags : List String
  options : List (String × String)
  operands : List String

namespace Given

/-- Nothing. -/
def nothing : Given := ⟨[], [], []⟩

/-- The flag stands there. -/
def flag (g : Given) (name : String) : Bool := g.flags.contains name

/-- The value of an option. -/
def option? (g : Given) (name : String) : Option String := g.options.lookup name

/-- The values of an option that may be repeated. -/
def values (g : Given) (name : String) : List String :=
  (g.options.filter (·.1 == name)).map Prod.snd

end Given

namespace Grammar

/-- Takes an operand. -/
def takeOperand (g : Grammar) (given : Given) (s : String) : Except Stop Given :=
  if g.operand given.operands.length s then .ok { given with operands := given.operands ++ [s] }
  else .error .misuse

/-- Takes a flag. -/
def takeFlag (given : Given) (name : String) : Except Stop Given :=
  if given.flag name then .error .misuse else .ok { given with flags := given.flags ++ [name] }

/-- Takes the value of an option. -/
def takeValue (g : Grammar) (given : Given) (name value : String) : Except Stop Given :=
  let admitted := (g.options.lookup name).any fun admits => admits value
  let again := (given.option? name).isSome && !g.repeatable.contains name
  if admitted && !again then .ok { given with options := given.options ++ [(name, value)] }
  else .error .misuse

/-- What a name after two dashes does: it may be an option that waits for its value. -/
def takeLong (g : Grammar) (given : Given) (name : String) :
    Option String → Except Stop (Given × Option String)
  | some value => do return (← g.takeValue given name value, none)
  | none =>
      if (g.options.lookup name).isSome then .ok (given, some name)
      else if g.flags.contains name then do return (← takeFlag given name, none)
      else if name = "help" then .error (.help none)
      else if name = "version" && g.versioned then .error .version
      else .error .misuse

/-- What the letters after a single dash ask for. -/
def stopAt (g : Grammar) : List Char → Stop
  | 'h' :: _ => .help none
  | 'V' :: _ => if g.versioned then .version else .misuse
  | _ => .misuse

/-- Nothing but operands. -/
def readOperands (g : Grammar) (given : Given) : List String → Except Stop Given
  | [] => .ok given
  | s :: rest => do g.readOperands (← g.takeOperand given s) rest

/-- Reads words, the first of which may be the value that an option waits for. Gives what is left from the
name of a command on. -/
def read (g : Grammar) (given : Given) :
    Option String → List String → Except Stop (Given × List String)
  | none, [] => .ok (given, [])
  | some _, [] => .error .misuse
  | waiting, s :: rest =>
      match waiting, Word.ofString s with
      | some name, .operand value => do g.read (← g.takeValue given name value) none rest
      -- a word with dashes is no value, so the option has none
      | some _, _ => .error .misuse
      | none, .operand value =>
          if g.commands then .ok (given, value :: rest)
          else do g.read (← g.takeOperand given value) none rest
      | none, .separator =>
          -- in front of a command there is no operand to separate
          if g.commands then .error .misuse else do return (← g.readOperands given rest, [])
      | none, .long name value => do
          let (given, waiting) ← g.takeLong given name value
          g.read given waiting rest
      | none, .short letters => .error (g.stopAt letters)

/-- Reads everything that a command takes. -/
def readAll (g : Grammar) (words : List String) : Except Stop Given := do
  let (given, _) ← g.read .nothing none words
  if given.operands.length < g.least then .error .misuse else return given

end Grammar

/-! ## Commands -/

/-- What to do. -/
inductive Command where
  /-- Describe URIs. -/
  | uri (texts : List String)
  /-- Show the value at a path of a document. -/
  | get (file path : String) (representation : Option Representation) (strict : Bool)
  /-- Show a document, or a node of it, with mixins and ancestors merged. -/
  | normalize (file : String) (path : Option String)
  /-- Build every name of a document. -/
  | build (file : String) (priority : List String) (traceCycles : Bool)

/-- A command, and which events the user wants to see. -/
structure Request where
  log : Log.Filter.Choice
  command : Command

/-- The name of a file cannot be empty. -/
def admitsFile (s : String) : Bool := s != ""

/-- At most `most` operands, the first of which is the name of a file. -/
def fileFirst (most : Nat) (taken : Nat) (s : String) : Bool :=
  taken < most && (taken != 0 || admitsFile s)

/-- What stands before the name of a command. -/
def logGrammar : Grammar where
  flags := ["trace", "debug"]
  options := [("log-level", fun _ => true), ("log-filter", fun _ => true)]
  repeatable := []
  operand _ _ := false
  least := 0
  versioned := true
  commands := true

/-- What `uri` takes. -/
def uriGrammar : Grammar := ⟨[], [], [], fun _ _ => true, 0, false, false⟩

/-- What `get` takes. -/
def getGrammar : Grammar :=
  ⟨["strict"], [("as", fun s => (Representation.ofName? s).isSome)], [], fileFirst 2, 2, false, false⟩

/-- What `normalize` takes. -/
def normalizeGrammar : Grammar := ⟨[], [], [], fileFirst 2, 1, false, false⟩

/-- What `build` takes. -/
def buildGrammar : Grammar :=
  ⟨["trace-cycles"], [("priority", fun _ => true)], ["priority"], fileFirst 1, 1, false, false⟩

/-- The operand at a position. -/
def operandAt (given : Given) (i : Nat) : String := given.operands.getD i ""

/-- The commands, with what each of them takes and what it makes of that. -/
def commands : List (String × Grammar × (Given → Command)) :=
  [("uri", uriGrammar, fun g => .uri g.operands),
   ("get", getGrammar, fun g =>
      .get (operandAt g 0) (operandAt g 1) ((g.option? "as").bind Representation.ofName?)
        (g.flag "strict")),
   ("normalize", normalizeGrammar, fun g => .normalize (operandAt g 0) g.operands[1]?),
   ("build", buildGrammar, fun g =>
      .build (operandAt g 0) (g.values "priority") (g.flag "trace-cycles"))]

/-- What is asked about the log; `trace` and `debug` exclude everything else. -/
def logChoice (g : Given) : Except Stop Log.Filter.Choice :=
  let choice : Log.Filter.Choice :=
    ⟨g.flag "trace", g.flag "debug", g.option? "log-level", g.option? "log-filter"⟩
  let others := g.flags.length + g.options.length
  if (choice.trace || choice.debug) && 1 < others then .error .misuse else .ok choice

/-- Help about a command, or about help itself. -/
def helpOn : List String → Stop
  | [] => .help none
  | [name] => if name = "help" || (commands.lookup name).isSome then .help (some name) else .misuse
  | _ => .misuse

/-- What a command line asks for. -/
def parse (words : List String) : Except Stop Request := do
  let (given, rest) ← logGrammar.read .nothing none words
  match rest with
  | [] => .error .misuse
  | name :: words =>
      if name = "help" then .error (helpOn words)
      else match commands.lookup name with
        | none => .error .misuse
        | some (grammar, make) => do
            let command := make (← (grammar.readAll words).mapError (Stop.within name))
            return ⟨← logChoice given, command⟩

end ObjectGraph.CommandLine
