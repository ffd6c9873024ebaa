import ObjectGraph.Text.Split

/-!
# `CommandLine.Help` — what is said about the program and its commands

A page says what a command is for, how it is used and, in sections, what it takes. A row of a section has a
form and a remark. The remarks of a section stand in one column, two places behind the longest form; what
does not fit the page goes on below, in the same column.

Contents:
* `fill`, `wrap`, a text in lines; `join_wrap`, no word is lost;
* `Row`, `Section`, `Page` and their lines;
* `programPage`, `pages`, `page`, what is said.
-/

namespace ObjectGraph.CommandLine

/-! ## Lines -/

/-- Puts words behind a line that has begun, as long as they fit; a word that does not begins a line. -/
def fill (width : Nat) (line : List Char) : List (List Char) → List (List Char)
  | [] => [line]
  | word :: words =>
      if line.length + 1 + word.length ≤ width then fill width (line ++ ' ' :: word) words
      else line :: fill width word words

/-- A text in lines of so many places. Only a word that is longer than a line goes beyond. -/
def wrap (width : Nat) (cs : List Char) : List (List Char) :=
  match Text.split ' ' cs with
  | [] => []
  | word :: words => fill width word words

theorem fill_ne_nil (width : Nat) (line : List Char) (words : List (List Char)) :
    fill width line words ≠ [] := by
  induction words generalizing line with
  | nil => exact List.cons_ne_nil line []
  | cons word words ih =>
      rw [fill]
      split
      · exact ih (line ++ ' ' :: word)
      · exact List.cons_ne_nil line (fill width word words)

theorem join_fill (width : Nat) (line : List Char) (words : List (List Char)) :
    Text.join ' ' (fill width line words) = Text.join ' ' (line :: words) := by
  induction words generalizing line with
  | nil => rfl
  | cons word words ih =>
      rw [fill]
      split
      · rw [ih, Text.join_append_cons]
      · rw [Text.join_cons (fill_ne_nil width word words), ih]
        exact (Text.join_cons (List.cons_ne_nil word words)).symm

/-- The lines hold the text, with an end of line for some of the blanks. -/
theorem join_wrap (width : Nat) (cs : List Char) : Text.join ' ' (wrap width cs) = cs := by
  unfold wrap
  split
  · next h => exact absurd h (Text.split_ne_nil ' ' cs)
  · next word words h => rw [join_fill, ← h, Text.join_split]

/-! ## Pages -/

/-- What may be given, and what is said about it. -/
structure Row where
  form : String
  remark : String
  deriving DecidableEq, Repr

/-- Rows under a title. -/
structure Section where
  title : String
  rows : List Row
  deriving DecidableEq, Repr

/-- What is said about a command. -/
structure Page where
  about : String
  /-- What follows the name. -/
  usage : String
  sections : List Section
  deriving DecidableEq, Repr

/-- The places in a line of a page. -/
def pageWidth : Nat := 100

/-- So many blanks. -/
def blanks (n : Nat) : List Char := List.replicate n ' '

/-- The lines of a row whose remark begins in a column. -/
def Row.lines (column : Nat) (row : Row) : List String :=
  let form := blanks 2 ++ row.form.toList
  match wrap (pageWidth - column) row.remark.toList with
  | [] => [String.ofList form]
  | first :: rest =>
      String.ofList (form ++ blanks (column - form.length) ++ first) ::
        rest.map fun line => String.ofList (blanks column ++ line)

/-- The column in which the remarks of a section begin. -/
def Section.column (s : Section) : Nat :=
  (s.rows.map fun row => row.form.length).foldl max 0 + 4

/-- The lines of a section. -/
def Section.lines (s : Section) : List String :=
  (s.title ++ ":") :: s.rows.flatMap (Row.lines s.column)

/-- How a command is used. -/
def Page.usageLine (name : String) (page : Page) : String := "Usage: " ++ name ++ " " ++ page.usage

/-- The lines of the page about a command. -/
def Page.lines (name : String) (page : Page) : List String :=
  [page.about, "", page.usageLine name] ++ page.sections.flatMap fun s => "" :: s.lines

/-! ## What is said -/

/-- An option that is named in full only stands where the name after the letter of others stands. -/
def option (name remark : String) : Row := ⟨"    --" ++ name, remark⟩

/-- The flag that every command has. -/
def helpRow : Row := ⟨"-h, --help", "Print help"⟩

/-- The operand that says which document is meant. -/
def fileRow : Row := ⟨"<FILE>", "Configuration file (.json or .ron)"⟩

/-- The pages about the commands. -/
def pages : List (String × Page) :=
  [("uri", ⟨"Parse compound URIs and print their parts", "[URI]...",
      [⟨"Arguments", [⟨"[URI]...", "One or more compound URIs, e.g. `file:a.json#key+depth=2|data`"⟩]⟩,
       ⟨"Options", [helpRow]⟩]⟩),
   ("get", ⟨"Resolve a single value from a configuration file", "[OPTIONS] <FILE> <KEY_PATH>",
      [⟨"Arguments", [fileRow, ⟨"<KEY_PATH>", "Dotted key path to resolve"⟩]⟩,
       ⟨"Options",
        [option "as <REPR>"
          "Convert the value to this representation (string, number, boolean, date, url, data, ...)",
         option "strict" "Fail instead of falling back to the literal text when a `#` path misses",
         helpRow]⟩]⟩),
   ("normalize", ⟨"Print a configuration with its mixins and inheritance applied", "<FILE> [KEY_PATH]",
      [⟨"Arguments",
        [fileRow, ⟨"[KEY_PATH]", "Normalize only the configuration at this key path"⟩]⟩,
       ⟨"Options", [helpRow]⟩]⟩),
   ("build", ⟨"Build every named value of a configuration and print the result", "[OPTIONS] <FILE>",
      [⟨"Arguments", [fileRow]⟩,
       ⟨"Options",
        [option "priority <NAME>" "Build this name before the others. Repeatable; order is kept",
         option "trace-cycles" "Print the cycle diagnostics recorded while building",
         helpRow]⟩]⟩),
   ("help", ⟨"Print this message or the help of the given subcommand(s)", "[COMMAND]...",
      [⟨"Arguments", [⟨"[COMMAND]...", "Print help for the subcommand(s)"⟩]⟩]⟩)]

/-- The page about the program. -/
def programPage : Page where
  about := "Inspect configurations and build the object graphs they describe"
  usage := "[OPTIONS] <COMMAND>"
  sections :=
    [⟨"Commands", pages.map fun (name, page) => ⟨name, page.about⟩⟩,
     ⟨"Options",
      [option "trace" "Set global log level to trace (our crates only)",
       option "debug" "Set global log level to debug (our crates only)",
       option "log-level <LOG_LEVEL>"
        "Set a single global log level for our crates (error|warn|info|debug|trace)",
       option "log-filter <LOG_FILTER>"
        ("Set an explicit tracing filter directive (overrides other flags) "
          ++ "e.g. \"trellis_graph=trace,config=debug\""),
       helpRow,
       ⟨"-V, --version", "Print version"⟩]⟩]

/-- The name of the program, under which it reports failures. -/
def program : String := "trellis"

/-- What is said about a command, or about the program. -/
def helpText (command : Option String) : String :=
  let lines := match command.bind fun name => (pages.lookup name).map (name, ·) with
    | some (name, page) => page.lines (program ++ " " ++ name)
    | none => programPage.lines program
  String.join (lines.map (· ++ "\n"))

end ObjectGraph.CommandLine
