import RegularLanguages.Dfa.Basic

/-!
# Refining a partition of the states

States that no word tells apart are found by splitting blocks of states. A splitter is a block
together with a character: it splits every block of which some states, but not all, lead into it.
Moves are completed with a sink, which is the number past the last state. When a block is split,
the larger part keeps its place, and the smaller one becomes a new block, which is queued as a
splitter for every character.
-/

namespace RegularLanguages

structure Refinement where
  blocks : Array StateSet
  owner : Array Nat
  /-- The splitters still to be tried, each the index of a block and a character. -/
  queue : List (Nat × Char)

namespace Refinement

/-- What a set of states does to a block: the part that keeps its place, and the part that is split
off. -/
def split (s : StateSet) (block : StateSet) : StateSet × Option StateSet :=
  let inside := block ∩ s
  let outside := block \ s
  if inside.isEmpty || outside.isEmpty then (block, none)
  else if outside.hasAtLeast inside.size then (outside, some inside)
  else (inside, some outside)

/-- Splits a block by a set of states. The part that is split off is queued for every character. -/
def splitBlock (alphabet : List Char) (s : StateSet) (r : Refinement) (i : Nat) : Refinement :=
  match split s (r.blocks[i]?.getD ∅) with
  | (_, none) => r
  | (kept, some part) =>
    let j := r.blocks.size
    { blocks := (r.blocks.setIfInBounds i kept).push part
      owner := part.toList.foldl (fun owner q => owner.setIfInBounds q j) r.owner
      queue := r.queue ++ alphabet.map fun c => (j, c) }

def touched (r : Refinement) (s : StateSet) : StateSet :=
  StateSet.ofList (s.toList.filterMap fun q => r.owner[q]?)

/-- Splits every block by the states that lead into a splitter. A block that holds none of them
stays whole. -/
def refineBy (r : Refinement) (alphabet : List Char) (sources : StateSet) : Refinement :=
  (r.touched sources).toList.foldl (splitBlock alphabet sources) r

/-- Tries splitters until none is left, at most as many as the number says. -/
def run (sources : StateSet → Char → StateSet) (alphabet : List Char) :
    Nat → Refinement → Refinement
  | 0, r => r
  | fuel + 1, r =>
    match r.queue with
    | [] => r
    | (i, c) :: rest =>
      let splitter := r.blocks[i]?.getD ∅
      run sources alphabet fuel (refineBy { r with queue := rest } alphabet (sources splitter c))

end Refinement

namespace Dfa

/-- The state past the last one, where missing moves lead. -/
def sink (d : Dfa) : Nat := d.size

def totalStep (d : Dfa) (q : Nat) (c : Char) : Nat := (d.step q c).getD d.sink

def totalStates (d : Dfa) : StateSet := d.reachable.insert d.sink

/-- For each character, the states that it leads to a state, in the row of that state. -/
def arrivals (d : Dfa) : SortedMap Char (Array (List Nat)) :=
  let rows := d.moveRows
  let states := d.totalStates.toList
  let sink := d.sink
  SortedMap.ofList <| d.alphabet.toList.map fun c =>
    (c, rowsOf (states.map fun q => ((rowStep rows q c).getD sink, q)))

def sourcesInto (arrivals : SortedMap Char (Array (List Nat))) (target : StateSet)
    (c : Char) : StateSet :=
  let rows := (arrivals.get? c).getD #[]
  StateSet.ofList (target.toList.flatMap fun p => rows[p]?.getD [])

/-- The accepting states and the others with the sink, every block a splitter for every
character. -/
def firstRefinement (d : Dfa) : Refinement :=
  let reachable := d.reachable
  let blocks :=
    [d.accepting ∩ reachable, (reachable \ d.accepting).insert d.sink].filter (!·.isEmpty)
  let alphabet := d.alphabet.toList
  { blocks := blocks.toArray
    owner := (Array.range (d.sink + 1)).map fun q => blocks.findIdx fun b => decide (q ∈ b)
    queue := (List.range blocks.length).flatMap fun i => alphabet.map fun c => (i, c) }

/-- The refinement after all splitters. Every block is queued once for each character. -/
def refinement (d : Dfa) : Refinement :=
  Refinement.run (sourcesInto d.arrivals) d.alphabet.toList (d.totalStates.size * d.alphabet.size)
    d.firstRefinement

def blocks (d : Dfa) : List StateSet := d.refinement.blocks.toList

end Dfa

end RegularLanguages
