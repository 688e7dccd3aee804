import RegularLanguages.Regex.Reader

/-!
# Reading with two stacks

The usual machine for expressions with operators. The text is cut into tokens first, and a mark is
put between two of them that are juxtaposed; the mark has the place of the second one. Then the
tokens are pushed one after another on a stack of operands and a stack of operators. An operator is
resolved when one that binds no tighter follows, when its group is closed or when the text ends.

A group may not take operands from the groups around it. It remembers how many operands there were
when it was opened.
-/

namespace RegularLanguages.Regex.Stacks

/-! ## Tokens -/

inductive Kind where
  | operand (r : Regex)
  | opening
  | closing
  | star
  | bar
  /-- The mark between juxtaposed tokens, which no character stands for. -/
  | juxtaposition
deriving DecidableEq

def Kind.ofChar : Char → Kind
  | '(' => .opening
  | ')' => .closing
  | '*' => .star
  | '|' => .bar
  | '∅' => .operand .emptySet
  | '~' => .operand .emptyWord
  | c => .operand (.char c)

def Kind.startsFactor : Kind → Bool
  | .bar | .star | .closing => false
  | _ => true

def Kind.endsFactor : Kind → Bool
  | .opening | .bar => false
  | _ => true

structure Token where
  kind : Kind
  place : Nat

def marks (previous : Option Kind) (t : Token) : List Token :=
  if previous.any Kind.endsFactor && t.kind.startsFactor then [⟨.juxtaposition, t.place⟩] else []

def tokensFrom (previous : Option Kind) (place : Nat) : List Char → List Token
  | [] => []
  | c :: cs =>
    marks previous ⟨.ofChar c, place⟩ ++
      ⟨.ofChar c, place⟩ :: tokensFrom (some (.ofChar c)) (place + 1) cs

/-! ## The machine -/

inductive Operator where
  /-- An open group, with the number of operands below it. -/
  | group (floor place : Nat)
  | union (place : Nat)
  | concat (place : Nat)

structure Machine where
  operands : List Regex
  operators : List Operator

/-- The number of operands that the innermost open group cannot reach. -/
def floor : List Operator → Nat
  | [] => 0
  | .group floor _ :: _ => floor
  | .union _ :: rest | .concat _ :: rest => floor rest

def popOperand (operator : Char) (place floor : Nat) :
    List Regex → Except ReadError (Regex × List Regex)
  | [] => .error (.lacksOperand operator place)
  | r :: rest =>
    if (r :: rest).length ≤ floor then .error (.lacksOperand operator place) else .ok (r, rest)

def applyTo (operator : Char) (place floor : Nat) (build : Regex → Regex → Regex)
    (operands : List Regex) :
    Except ReadError (List Regex) := do
  let (r, operands) ← popOperand operator place floor operands
  let (l, operands) ← popOperand operator place floor operands
  return build l r :: operands

def Machine.resolveConcat (m : Machine) : Except ReadError Machine :=
  match m.operators with
  | .concat place :: operators => do
    return ⟨← applyTo '·' place (floor operators) juxtapose m.operands, operators⟩
  | _ => .ok m

def resolveUnions (operands : List Regex) : List Operator → Except ReadError Machine
  | .union place :: operators => do
    resolveUnions (← applyTo '|' place (floor operators) .union operands) operators
  | operators => .ok ⟨operands, operators⟩

def Machine.resolve (m : Machine) : Except ReadError Machine := do
  let m ← m.resolveConcat
  resolveUnions m.operands m.operators

def Machine.close (m : Machine) (place : Nat) : Except ReadError Machine := do
  let m ← m.resolve
  match m.operators with
  | .group floor _ :: operators =>
    return ⟨if m.operands.length = floor then .emptyWord :: m.operands else m.operands, operators⟩
  | _ => .error (.unopened place)

def Machine.push (m : Machine) (t : Token) : Except ReadError Machine :=
  match t.kind with
  | .operand r => .ok { m with operands := r :: m.operands }
  | .opening => .ok { m with operators := .group m.operands.length t.place :: m.operators }
  | .closing => m.close t.place
  | .star => do
    let (r, operands) ← popOperand '*' t.place (floor m.operators) m.operands
    return { m with operands := .star r :: operands }
  | .bar => do
    let m ← m.resolveConcat
    if m.operands.length ≤ floor m.operators then .error (.lacksOperand '|' t.place)
    else .ok { m with operators := .union t.place :: m.operators }
  | .juxtaposition => do
    let m ← m.resolveConcat
    return { m with operators := .concat t.place :: m.operators }

def Machine.finish (m : Machine) : Except ReadError Regex := do
  let m ← m.resolve
  match m.operators with
  | .group _ place :: _ => .error (.unclosed place)
  | _ => return m.operands.headD .emptyWord

def read (text : String) : Except ReadError Regex := do
  let m ← (tokensFrom none 0 text.toList).foldlM Machine.push ⟨[], []⟩
  m.finish

end RegularLanguages.Regex.Stacks
