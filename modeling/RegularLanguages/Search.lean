import RegularLanguages.Index

/-!
# Breadth-first search

`explore` finds the nodes that can be reached along labelled edges, layer by layer: a layer holds
the nodes that are new after one more edge, in the order in which the layer before it leads to
them. Each node comes with its edges, and with the labels on the way by which it was found first.
-/

namespace RegularLanguages

structure Visit (α σ : Type) where
  node : α
  /-- The labels that lead to the node, the last one first. -/
  trail : List σ
  /-- The edges from the node, each a label and a target. -/
  edges : List (σ × α)

def Visit.word {α σ : Type} (v : Visit α σ) : List σ := v.trail.reverse

namespace Search

variable {α σ : Type} [Key α]

structure Layer (α σ : Type) [Key α] where
  /-- All nodes that have been found, in this layer and before it. -/
  known : KeySet α
  /-- The visits to the nodes of the layer, the latest one first. -/
  fresh : List (Visit α σ)

def meet (next : α → List (σ × α)) (trail : List σ) (l : Layer α σ) (e : σ × α) : Layer α σ :=
  if l.known.contains e.2 then l else ⟨l.known.insert e.2, ⟨e.2, e.1 :: trail, next e.2⟩ :: l.fresh⟩

def layerAfter (next : α → List (σ × α)) (known : KeySet α)
    (visits : List (Visit α σ)) : Layer α σ :=
  visits.foldl (fun l v => v.edges.foldl (meet next v.trail) l) ⟨known, []⟩

/-- Searches on from a layer. All visits so far, those of the layer among them, stand with the
latest first. -/
def exploreFrom (next : α → List (σ × α)) (stop : α → Bool) :
    Nat → KeySet α → List (Visit α σ) → List (Visit α σ) → List (Visit α σ)
  | 0, _, found, _ => found.reverse
  | fuel + 1, known, found, layer =>
    if layer.isEmpty || layer.any (fun v => stop v.node) then found.reverse
    else
      let l := layerAfter next known layer
      exploreFrom next stop fuel l.known (l.fresh ++ found) l.fresh.reverse

/--
The nodes that can be reached from `start`, in the order in which they are found. The search takes
at most `fuel` layers, and ends early after the first layer that holds a node to stop at.
-/
def explore (next : α → List (σ × α)) (stop : α → Bool) (fuel : Nat) (start : α) :
    List (Visit α σ) :=
  let first : Visit α σ := ⟨start, [], next start⟩
  exploreFrom next stop fuel ((∅ : KeySet α).insert start) [first] [first]

end Search

end RegularLanguages
