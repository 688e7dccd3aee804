import RegularLanguages.CommandLine.Options

/-!
# Commands

The commands of the program, and how they are written.
-/

namespace RegularLanguages

inductive Format where
  | nfa
  | dfa
deriving DecidableEq, Inhabited, Repr

/-- What the program is asked to do. Automata are read from files by name, or from standard input
under `-`. -/
inductive Command where
  | compile (regex : String) (format : Format)
  /-- Run an automaton on a word, and show the sets of states on the way if asked to. -/
  | run (file word : String) (trace : Bool)
  | determinize (file : String) (format : Format)
  | minimize (file : String) (format : Format)
  /-- Print the automaton with its states numbered from the start on. -/
  | relabel (file : String)
  /-- Print the automaton without its dead states, or with one that completes it. -/
  | prune (file : String) (restore : Bool)
  | equivalent (left right : String)
  /-- Print a regular expression, with the labels of the states to eliminate first. -/
  | toRegex (file : String) (order : List String)
deriving DecidableEq, Inhabited, Repr

def Command.files : Command → List String
  | compile .. => []
  | run file _ _ | determinize file _ | minimize file _ | relabel file | prune file _
      | toRegex file _ => [file]
  | equivalent left right => [left, right]

namespace CommandLine

/-- The option that asks for a log. No log is kept, so it changes nothing. -/
def verboseOption : OptionSpec := ⟨"verbose", 'v', .flag⟩

def helpOption : OptionSpec := ⟨"help", 'h', .interrupt .help⟩

def programOptions : List OptionSpec :=
  [verboseOption, helpOption, ⟨"version", 'V', .interrupt .version⟩]

def formatOption : OptionSpec := ⟨"format", 'f', .choice ["nfa", "dfa"]⟩

def commandForms : List (String × CommandForm) :=
  [("compile", ⟨[formatOption], [.text]⟩),
   ("run", ⟨[⟨"trace", 't', .flag⟩], [.path, .text]⟩),
   ("determinize", ⟨[formatOption], [.path]⟩),
   ("minimize", ⟨[formatOption], [.path]⟩),
   ("relabel", ⟨[], [.path]⟩),
   ("prune", ⟨[⟨"restore", 'r', .flag⟩], [.path]⟩),
   ("equivalent", ⟨[], [.path, .path]⟩),
   ("to-regex", ⟨[⟨"order", 'o', .values⟩], [.path]⟩)]

def format (w : Words) : Format := if w.valuesOf 'f' = ["dfa"] then .dfa else .nfa

def order (w : Words) : List String := (w.valuesOf 'o').flatMap (·.splitOn ",")

def command? (name : String) (w : Words) : Option Command :=
  match name, w.arguments with
  | "compile", [regex] => some (.compile regex (format w))
  | "run", [file, word] => some (.run file word (w.has 't'))
  | "determinize", [file] => some (.determinize file (format w))
  | "minimize", [file] => some (.minimize file (format w))
  | "relabel", [file] => some (.relabel file)
  | "prune", [file] => some (.prune file (w.has 'r'))
  | "equivalent", [left, right] => some (.equivalent left right)
  | "to-regex", [file] => some (.toRegex file (order w))
  | _, _ => none

def readCommand (name : String) (rest : List String) : Except Interruption Command :=
  match commandForms.lookup name with
  | some form => do
    let options := verboseOption :: helpOption :: form.options
    let w ← readWords { form with options } rest.length .empty rest
    match command? name w with
    | some command => .ok command
    | none => .error .usage
  | none =>
    if name = "help" then
      match rest with
      | [] => .error .help
      | [topic] =>
        if topic = "help" ∨ (commandForms.lookup topic).isSome then .error .help else .error .usage
      | _ => .error .usage
    else .error .usage

def readProgram : Words → List String → Except Interruption Command
  | _, [] => .error .usage
  | w, word :: rest =>
    match word.toList with
    | ['-'] | ['-', '-'] => .error .usage
    | '-' :: '-' :: cs => do readProgram (← readLong programOptions w cs []).1 rest
    | '-' :: cs => do readProgram (← readLetters programOptions w [] cs).1 rest
    | _ => readCommand word rest

end CommandLine

def Command.ofWords (words : List String) : Except CommandLine.Interruption Command :=
  CommandLine.readProgram .empty words

end RegularLanguages
