import RegularLanguages.Dfa.Refinement
import RegularLanguages.Dfa.Subsets

/-!
# Minimization

The states of the minimal automaton are the blocks of states that no word tells apart, without the
block of the states from which nothing is accepted. They are numbered in the order of a
breadth-first search from the block of the start, the characters taken in order. If nothing is
accepted, one state is left.
-/

namespace RegularLanguages

namespace Dfa

def owners (blocks : List StateSet) : Array (List Nat) :=
  rowsOf (blocks.zipIdx.flatMap fun (b, i) => b.toList.map fun q => (q, i))

def blockOf (owners : Array (List Nat)) (q : Nat) : Option Nat := (owners[q]?.getD []).head?

private theorem filterMap_members (b : StateSet) (i q : Nat) :
    ((b.toList.map fun p => (p, i)).filterMap fun e => if e.1 = q then some e.2 else none) =
      if q ∈ b then [i] else [] := by
  have h : ∀ l : List Nat, l.Nodup →
      ((l.map fun p => (p, i)).filterMap fun e => if e.1 = q then some e.2 else none) =
        if q ∈ l then [i] else [] := by
    intro l hl
    induction l with
    | nil => simp
    | cons p l ih =>
      rw [List.nodup_cons] at hl
      rw [List.map_cons, List.filterMap_cons, ih hl.2]
      by_cases hp : p = q
      · subst hp
        simp [hl.1]
      · simp [hp, Ne.symm hp]
  rw [h _ b.nodup_toList]
  simp

theorem blockOf_owners (blocks : List StateSet) (q : Nat) :
    blockOf (owners blocks) q = blocks.findIdx? fun b => decide (q ∈ b) := by
  rw [blockOf, owners, getD_rowsOf]
  have h : ∀ (l : List StateSet) (k : Nat),
      (((l.zipIdx k).flatMap fun (b, i) => b.toList.map fun p => (p, i)).filterMap
        fun e => if e.1 = q then some e.2 else none).head? =
      (l.findIdx? fun b => decide (q ∈ b)).map (k + ·) := by
    intro l
    induction l with
    | nil => simp
    | cons b l ih =>
      intro k
      rw [List.zipIdx_cons, List.flatMap_cons, List.filterMap_append, filterMap_members,
        List.findIdx?_cons]
      by_cases hq : q ∈ b
      · simp [hq]
      · simp only [hq, if_false, List.nil_append, ih, decide_false, Bool.false_eq_true,
          Option.map_map]
        congr 1
        funext i
        simp only [Function.comp_apply]
        omega
  simpa using h blocks 0

/--
The blocks that the characters lead to from a block, as its first state does, with the characters.
A character that leads to the block of the sink is left out.
-/
def blockMoves (step : Nat → Char → Option Nat) (block : Nat → Option Nat) (sinkBlock : Option Nat)
    (alphabet : List Char) (blocks : Array StateSet) (i : Nat) : List (Char × Nat) :=
  match blocks[i]?.bind (·.first?) with
  | none => []
  | some q => alphabet.filterMap fun c =>
    let j := (step q c).bind block
    if j = sinkBlock then none else j.map fun j => (c, j)

/-- The indices of the blocks that words lead to without falling into the sink, as a search finds
them. -/
def liveBlocks (d : Dfa) (blocks : List StateSet) : List (Visit Nat Char) :=
  let block := blockOf (owners blocks)
  let sinkBlock := block d.sink
  match block d.start with
  | none => []
  | some first =>
    if sinkBlock = some first then []
    else
      let next := blockMoves (rowStep d.moveRows) block sinkBlock d.alphabet.toList blocks.toArray
      Search.explore next (fun _ => false) blocks.length first

def mergedSubset (subsets : List StateSet) (block : StateSet) : StateSet :=
  block.toList.foldl (fun s q => s ∪ subsets[q]?.getD ∅) ∅

def minimize (d : Dfa) : Dfa :=
  let blocks := d.blocks
  let visits := d.liveBlocks blocks
  let order := visits.map (·.node)
  let members := order.map fun i => blocks[i]?.getD ∅
  { labels := .sequential (max 1 order.length)
    start := 0
    accepting := StateSet.placesWhere (·.intersects d.accepting) members
    moves := numberedMoves visits
    subsets := d.subsets.map fun subsets =>
      if order.isEmpty then [subsets[d.start]?.getD ∅] else members.map (mergedSubset subsets) }

end Dfa

def Nfa.minimize (n : Nfa) : Dfa := n.determinize.minimize

end RegularLanguages
