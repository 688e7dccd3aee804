import RegularLanguages.Nfa.Run
import RegularLanguages.Regex.Basic

/-!
# Automata of regular expressions

The automaton of an expression is put together from those of its parts: the states of each part are
shifted to numbers of their own, and empty moves join the parts. `compose` does it part by part.
`toNfa` gives each state its final number at once; `toNfa_eq_compose` says that the automaton is
the same.
-/

namespace RegularLanguages

namespace Nfa

def shiftedEdges (k : Nat) (n : Nfa) : SortedSet Edge := n.edges.image (Edge.rename (· + k))

def movesInto (s : StateSet) (target : Nat) : SortedSet Edge :=
  SortedSet.ofList (s.toList.map fun q => ⟨q, .epsilon, target⟩)

def ofChar (c : Char) : Nfa := ⟨.sequential 2, 0, .singleton 1, .singleton ⟨0, .char c, 1⟩⟩

def emptyWord : Nfa := ⟨.sequential 1, 0, .singleton 0, ∅⟩

def emptySet : Nfa := ⟨.sequential 1, 0, ∅, ∅⟩

/-- The left automaton before the right one, its accepting states joined to the start of the right
one. -/
def concat (l r : Nfa) : Nfa where
  labels := .sequential (l.size + r.size)
  start := l.start
  accepting := r.accepting.shift l.size
  edges := l.edges ∪ (movesInto l.accepting (r.start + l.size) ∪ r.shiftedEdges l.size)

def union (l r : Nfa) : Nfa where
  labels := .sequential (1 + l.size + r.size)
  start := 0
  accepting := l.accepting.shift 1 ∪ r.accepting.shift (1 + l.size)
  edges :=
    SortedSet.ofList [⟨0, .epsilon, l.start + 1⟩, ⟨0, .epsilon, r.start + (1 + l.size)⟩] ∪
      (l.shiftedEdges 1 ∪ r.shiftedEdges (1 + l.size))

/-- A new start that accepts, joined to the old one, to which the accepting states lead back. -/
def star (n : Nfa) : Nfa where
  labels := .sequential (1 + n.size)
  start := 0
  accepting := (n.accepting.shift 1).insert 0
  edges :=
    SortedSet.singleton ⟨0, .epsilon, n.start + 1⟩ ∪
      (movesInto (n.accepting.shift 1) (n.start + 1) ∪ n.shiftedEdges 1)

end Nfa

namespace Regex

def compose : Regex → Nfa
  | emptySet => .emptySet
  | emptyWord => .emptyWord
  | char c => .ofChar c
  | concat l r => .concat l.compose r.compose
  | union l r => .union l.compose r.compose
  | star e => .star e.compose

/-- The states of an expression as a part of a larger one, and all edges so far. -/
structure Part where
  size : Nat
  /-- The start, not counting the states before the part. -/
  start : Nat
  /-- The accepting states, not counting the states before the part. -/
  accepting : StateSet
  edges : List Edge

/-- Empty moves from every state of a set to one state, shifted by an offset, before other edges. -/
def joined (k : Nat) (s : StateSet) (target : Nat) (edges : List Edge) : List Edge :=
  s.toList.foldl (fun edges q => ⟨q + k, .epsilon, target + k⟩ :: edges) edges

/-- Numbers the states of an expression from an offset on, and puts its edges before other edges. -/
def part (k : Nat) (edges : List Edge) : Regex → Part
  | emptySet => ⟨1, 0, ∅, edges⟩
  | emptyWord => ⟨1, 0, .singleton 0, edges⟩
  | char c => ⟨2, 0, .singleton 1, ⟨k, .char c, k + 1⟩ :: edges⟩
  | concat l r =>
    let left := l.part k edges
    let right := r.part (k + left.size) left.edges
    { size := left.size + right.size
      start := left.start
      accepting := right.accepting.shift left.size
      edges := joined k left.accepting (right.start + left.size) right.edges }
  | union l r =>
    let left := l.part (k + 1) edges
    let right := r.part (k + (1 + left.size)) left.edges
    { size := 1 + left.size + right.size
      start := 0
      accepting := left.accepting.shift 1 ∪ right.accepting.shift (1 + left.size)
      edges :=
        ⟨k, .epsilon, left.start + 1 + k⟩ ::
          ⟨k, .epsilon, right.start + (1 + left.size) + k⟩ :: right.edges }
  | star e =>
    let inner := e.part (k + 1) edges
    let accepting := inner.accepting.shift 1
    { size := 1 + inner.size
      start := 0
      accepting := accepting.insert 0
      edges := ⟨k, .epsilon, inner.start + 1 + k⟩ :: joined k accepting
        (inner.start + 1) inner.edges }

def toNfa (r : Regex) : Nfa :=
  let whole := r.part 0 []
  ⟨.sequential whole.size, whole.start, whole.accepting, SortedSet.ofList whole.edges⟩

def accepts (r : Regex) (word : List Char) : Bool := r.toNfa.accepts word

/-! ## The numbers of the states -/

def Shifted (k : Nat) (edges : SortedSet Edge) (e : Edge) : Prop :=
  ∃ d ∈ edges, d.rename (· + k) = e

theorem shifted_union {k : Nat} {s t : SortedSet Edge} {e : Edge} :
    Shifted k (s ∪ t) e ↔ Shifted k s e ∨ Shifted k t e := by
  simp only [Shifted, SortedSet.mem_union, or_and_right, exists_or]

theorem shifted_shiftedEdges {j k : Nat} {n : Nfa} {e : Edge} :
    Shifted k (n.shiftedEdges j) e ↔ Shifted (k + j) n.edges e := by
  have h : ∀ d : Edge, (d.rename (· + j)).rename (· + k) = d.rename (· + (k + j)) := fun d => by
    simp only [Edge.rename, Edge.mk.injEq, true_and]
    omega
  constructor
  · rintro ⟨_, hc, rfl⟩
    obtain ⟨d, hd, hdc⟩ := SortedSet.mem_image.1 hc
    exact ⟨d, hd, by rw [← h, hdc]⟩
  · rintro ⟨d, hd, rfl⟩
    exact ⟨_, SortedSet.mem_image.2 ⟨d, hd, rfl⟩, h d⟩

theorem shifted_singleton {k : Nat} {d e : Edge} :
    Shifted k (SortedSet.singleton d) e ↔ e = d.rename (· + k) := by
  simp [Shifted, eq_comm]

theorem shifted_ofList_pair {k : Nat} {c d e : Edge} :
    Shifted k (SortedSet.ofList [c, d]) e ↔ e = c.rename (· + k) ∨ e = d.rename (· + k) := by
  simp [Shifted, eq_comm]

theorem mem_joined {k target : Nat} {s : StateSet} {edges : List Edge} {e : Edge} :
    e ∈ joined k s target edges ↔ Shifted k (Nfa.movesInto s target) e ∨ e ∈ edges := by
  have h : ∀ (l : List Nat) (edges : List Edge),
      e ∈ l.foldl (fun edges q => (⟨q + k, .epsilon, target + k⟩ : Edge) :: edges) edges ↔
        (∃ q ∈ l, (⟨q + k, .epsilon, target + k⟩ : Edge) = e) ∨ e ∈ edges := by
    intro l
    induction l with
    | nil => simp
    | cons p l ih =>
      intro edges
      rw [List.foldl_cons, ih, List.mem_cons, eq_comm (a := e)]
      simp only [List.mem_cons, exists_eq_or_imp]
      exact or_left_comm.trans or_assoc.symm
  rw [joined, h]
  refine or_congr_left ⟨?_, ?_⟩
  · rintro ⟨q, hq, rfl⟩
    exact ⟨⟨q, .epsilon, target⟩, by simpa [Nfa.movesInto] using hq, rfl⟩
  · rintro ⟨d, hd, rfl⟩
    obtain ⟨q, hq, rfl⟩ : ∃ q ∈ s, (⟨q, .epsilon, target⟩ : Edge) = d := by
      simpa [Nfa.movesInto] using hd
    exact ⟨q, StateSet.mem_toList.2 hq, rfl⟩

/-- A part has the states of an automaton, and its edges, shifted by an offset, beside other
edges. -/
structure Part.Shows (p : Part) (n : Nfa) (k : Nat) (others : List Edge) : Prop where
  size_eq : p.size = n.size
  start_eq : p.start = n.start
  accepting_eq : p.accepting = n.accepting
  mem_edges : ∀ e, e ∈ p.edges ↔ Shifted k n.edges e ∨ e ∈ others

theorem part_shows (r : Regex) (k : Nat) (edges : List Edge) :
    (r.part k edges).Shows r.compose k edges := by
  induction r generalizing k edges with
  | emptySet => exact ⟨rfl, rfl, rfl, fun e => by simp [part, compose, Nfa.emptySet, Shifted]⟩
  | emptyWord => exact ⟨rfl, rfl, rfl, fun e => by simp [part, compose, Nfa.emptyWord, Shifted]⟩
  | char c =>
    refine ⟨rfl, rfl, rfl, fun e => ?_⟩
    rw [part, compose, Nfa.ofChar, shifted_singleton, List.mem_cons, Edge.rename, Nat.zero_add,
      Nat.add_comm 1 k]
  | concat l r ihl ihr =>
    have hl := ihl k edges
    generalize hL : l.part k edges = left at hl
    have hr := ihr (k + left.size) left.edges
    rw [part, hL]
    refine ⟨?_, hl.start_eq, ?_, fun e => ?_⟩
    · rw [compose, Nfa.concat, Nfa.size, LabelTable.size_sequential, ← hl.size_eq, ← hr.size_eq]
    · rw [compose, Nfa.concat, hr.accepting_eq, hl.size_eq]
    · rw [compose, Nfa.concat, mem_joined, hr.mem_edges, hl.mem_edges, hl.accepting_eq, hr.start_eq,
        hl.size_eq, shifted_union, shifted_union, shifted_shiftedEdges]
      simp only [or_assoc, or_left_comm]
  | union l r ihl ihr =>
    have hl := ihl (k + 1) edges
    generalize hL : l.part (k + 1) edges = left at hl
    have hr := ihr (k + (1 + left.size)) left.edges
    rw [part, hL]
    refine ⟨?_, rfl, ?_, fun e => ?_⟩
    · rw [compose, Nfa.union, Nfa.size, LabelTable.size_sequential, ← hl.size_eq, ← hr.size_eq]
    · rw [compose, Nfa.union, hl.accepting_eq, hr.accepting_eq, hl.size_eq]
    · rw [compose, Nfa.union, List.mem_cons, List.mem_cons, hr.mem_edges, hl.mem_edges, hl.start_eq,
        hr.start_eq, hl.size_eq, shifted_union, shifted_union, shifted_shiftedEdges,
        shifted_shiftedEdges, shifted_ofList_pair]
      simp only [Edge.rename, Nat.zero_add, or_assoc, or_left_comm]
  | star r ih =>
    have hr := ih (k + 1) edges
    generalize hI : r.part (k + 1) edges = inner at hr
    rw [part, hI]
    refine ⟨?_, rfl, ?_, fun e => ?_⟩
    · rw [compose, Nfa.star, Nfa.size, LabelTable.size_sequential, hr.size_eq]
    · rw [compose, Nfa.star, hr.accepting_eq]
    · rw [compose, Nfa.star, List.mem_cons, mem_joined, hr.mem_edges, hr.start_eq, hr.accepting_eq,
        shifted_union, shifted_union, shifted_shiftedEdges, shifted_singleton, Edge.rename,
        Nat.zero_add, or_assoc, or_assoc]

/-- The automaton of an expression is composed from those of its parts. -/
theorem toNfa_eq_compose (r : Regex) : r.toNfa = r.compose := by
  have h := part_shows r 0 []
  have hlabels : r.compose.labels = .sequential r.compose.size := by
    cases r <;>
      simp only [compose, Nfa.emptySet, Nfa.emptyWord, Nfa.ofChar, Nfa.concat, Nfa.union, Nfa.star,
        Nfa.size, LabelTable.size_sequential]
  have hedges : SortedSet.ofList (r.part 0 []).edges = r.compose.edges := SortedSet.ext fun e => by
    rw [SortedSet.mem_ofList, h.mem_edges]
    simp [Shifted, Edge.rename]
  rw [toNfa, hedges, h.size_eq, h.start_eq, h.accepting_eq, ← hlabels]

end Regex

end RegularLanguages
