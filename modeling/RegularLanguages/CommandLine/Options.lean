/-!
# Options and arguments

The words of a command are options and positional arguments in any order. An option is written in
full after two hyphens, or as one letter after one hyphen; letters may stand together. A value
follows as the next word, after an equals sign, or right after the letter. A value or argument that
begins with a hyphen must be attached in this way, or stand after the word of two hyphens that ends
the options; a single hyphen is an ordinary argument.
-/

namespace RegularLanguages.CommandLine

inductive Interruption where
  | usage
  | help
  | version
deriving DecidableEq, Repr

inductive OptionKind where
  /-- No value; it may be given once. -/
  | flag
  /-- One value out of a list, or any value if there is no list; it may be given once. -/
  | choice (allowed : List String)
  /-- Values with commas between them; it may be given repeatedly. -/
  | values
  /-- No value; it ends the reading. -/
  | interrupt (reason : Interruption)
deriving DecidableEq, Repr

inductive ArgumentKind where
  | text
  /-- The path of a file, which must not be empty. -/
  | path
deriving DecidableEq, Repr

structure OptionSpec where
  name : String
  letter : Char
  kind : OptionKind
deriving DecidableEq, Repr

/-- What may stand after the name of a command: options anywhere, and positional arguments in
order. -/
structure CommandForm where
  options : List OptionSpec
  arguments : List ArgumentKind
deriving DecidableEq, Repr

structure Words where
  arguments : List String
  options : List (Char × String)
deriving DecidableEq, Repr

namespace Words

def empty : Words := ⟨[], []⟩

def has (w : Words) (letter : Char) : Bool := w.options.any fun o => o.1 == letter

def valuesOf (w : Words) (letter : Char) : List String :=
  (w.options.filter fun o => o.1 == letter).map (·.2)

/-- Adds a positional argument, which has to be of the kind for its place. -/
def argument (w : Words) (kinds : List ArgumentKind) (word : String) : Except Interruption Words :=
  let given : Words := { w with arguments := w.arguments ++ [word] }
  match kinds[w.arguments.length]? with
  | some .text => .ok given
  | some .path => if word.isEmpty then .error .usage else .ok given
  | none => .error .usage

def give (w : Words) (spec : OptionSpec) : Except Interruption Words :=
  match spec.kind with
  | .interrupt reason => .error reason
  | .flag =>
    if w.has spec.letter then .error .usage
    else .ok { w with options := w.options ++ [(spec.letter, "")] }
  | _ => .error .usage

def giveValue (w : Words) (spec : OptionSpec) (value : String) : Except Interruption Words :=
  let given : Words := { w with options := w.options ++ [(spec.letter, value)] }
  match spec.kind with
  | .choice allowed =>
    if w.has spec.letter || !(allowed.isEmpty || allowed.contains value) then .error .usage
    else .ok given
  | .values => .ok given
  | _ => .error .usage

end Words

def OptionSpec.takesValue (spec : OptionSpec) : Bool :=
  match spec.kind with
  | .choice _ | .values => true
  | _ => false

def giveNext (w : Words) (spec : OptionSpec) :
    List String → Except Interruption (Words × List String)
  | [] => .error .usage
  | next :: rest =>
    if next.toList.head? = some '-' ∧ next ≠ "-" then .error .usage
    else do return (← w.giveValue spec next, rest)

def readLong (specs : List OptionSpec) (w : Words) (word : List Char) (rest : List String) :
    Except Interruption (Words × List String) :=
  let name := String.ofList (word.takeWhile (· != '='))
  match specs.find? (fun spec => spec.name == name), word.dropWhile (· != '=') with
  | none, _ => .error .usage
  | some spec, [] =>
    if spec.takesValue then giveNext w spec rest else do return (← w.give spec, rest)
  | some spec, _ :: value => do return (← w.giveValue spec (String.ofList value), rest)

def readLetters (specs : List OptionSpec) (w : Words) (rest : List String) :
    List Char → Except Interruption (Words × List String)
  | [] => .ok (w, rest)
  | c :: cs =>
    match specs.find? fun spec => spec.letter == c with
    | none => .error .usage
    | some spec =>
      if spec.takesValue then
        match cs with
        | [] => giveNext w spec rest
        | '=' :: value => do return (← w.giveValue spec (String.ofList value), rest)
        | value => do return (← w.giveValue spec (String.ofList value), rest)
      else do readLetters specs (← w.give spec) rest cs

/-- The words of a command, once all are read. Each is checked as it is read, so that a word that
is wrong comes before a later one that asks for help. The number bounds how many there are. -/
def readWords (form : CommandForm) : Nat → Words → List String → Except Interruption Words
  | 0, w, _ => .ok w
  | _, w, [] => .ok w
  | fuel + 1, w, word :: rest =>
    match word.toList with
    | ['-'] => do readWords form fuel (← w.argument form.arguments word) rest
    | ['-', '-'] => rest.foldlM (fun w word => w.argument form.arguments word) w
    | '-' :: '-' :: cs => do
      let (w, rest) ← readLong form.options w cs rest
      readWords form fuel w rest
    | '-' :: cs => do
      let (w, rest) ← readLetters form.options w rest cs
      readWords form fuel w rest
    | _ => do readWords form fuel (← w.argument form.arguments word) rest

end RegularLanguages.CommandLine
