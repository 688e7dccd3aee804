import Mathlib.Data.List.Perm.Basic
import Mathlib.Data.Set.Function
import Mathlib.Order.Interval.Set.Defs
import RegularLanguages.Nfa.Renumber
import RegularLanguages.Proofs.BreadthFirst
import RegularLanguages.Proofs.LabelTable
import RegularLanguages.Proofs.Nfa.Composition
import RegularLanguages.Proofs.Places

/-!
# Renamed states

An automaton whose states are renamed accepts the same words, as long as no two states that it
mentions get one name (`Nfa.Within.accepts_rename`). The order in which `renumber` numbers the
states lists every state once (`Nfa.WellFormed.mem_searchOrder`), so the places in it are such
names, and the renumbered automaton is isomorphic to the old one
(`Nfa.WellFormed.renamed_renumber`).
-/

namespace RegularLanguages

namespace Nfa

variable {n : Nfa} {p q : Nat} {a : Symbol} {w : List Char}

/-! ## Renamed automata -/

/-- All states that an automaton mentions are among given ones. -/
structure Within (n : Nfa) (inside : Nat → Prop) : Prop where
  start : inside n.start
  accepting : ∀ q ∈ n.accepting, inside q
  ends : ∀ {p a q}, ⟨p, a, q⟩ ∈ n.edges → inside p ∧ inside q

theorem WellFormed.within (hn : n.WellFormed) : n.Within (· < n.size) where
  start := hn.start_lt
  accepting := hn.accepting_lt
  ends := hn.ends_lt

section Rename

variable {inside : Nat → Prop} {f : Nat → Nat}

theorem mem_edges_rename {labels : LabelTable} :
    ⟨p, a, q⟩ ∈ (n.rename labels f).edges ↔
      ∃ p' q', f p' = p ∧ f q' = q ∧ ⟨p', a, q'⟩ ∈ n.edges := by
  rw [rename, SortedSet.mem_image]
  constructor
  · rintro ⟨d, hd, heq⟩
    cases heq
    exact ⟨d.source, d.target, rfl, rfl, hd⟩
  · rintro ⟨p', q', rfl, rfl, he⟩
    exact ⟨_, he, rfl⟩

theorem Within.accepts_rename (h : n.Within inside) (hf : ∀ p q, inside p → f p = f q → p = q)
    (labels : LabelTable) (w : List Char) : (n.rename labels f).accepts w = n.accepts w := by
  rw [Bool.eq_iff_iff, accepts_iff_path, accepts_iff_path]
  constructor
  · rintro ⟨y, hy, hpath⟩
    obtain ⟨q, hq, hqy⟩ := StateSet.mem_image.1 hy
    have hstay : ∀ p a y, inside p → ⟨f p, a, y⟩ ∈ (n.rename labels f).edges →
        ∃ q, f q = y ∧ inside q ∧ ⟨p, a, q⟩ ∈ n.edges := by
      intro p a y hp he
      obtain ⟨p', q, hp', hq, he⟩ := mem_edges_rename.1 he
      rw [← hf p p' hp hp'.symm] at he
      exact ⟨q, hq, (h.ends he).2, he⟩
    obtain ⟨r, hr, -, hpath⟩ := Path.of_rename hstay h.start hpath
    rw [hf q r (h.accepting q hq) (hqy.trans hr.symm)] at hq
    exact ⟨r, hq, hpath⟩
  · rintro ⟨q, hq, hpath⟩
    refine ⟨f q, StateSet.mem_image.2 ⟨q, hq, rfl⟩, ?_⟩
    exact Path.rename (fun e he => SortedSet.mem_image.2 ⟨e, he, rfl⟩) hpath

theorem Within.wellFormed_rename (h : n.Within inside) {labels : LabelTable}
    (hlabels : labels.toList.Nodup) (hf : ∀ q, inside q → f q < labels.size) :
    (n.rename labels f).WellFormed where
  labels_nodup := hlabels
  start_lt := hf n.start h.start
  accepting_lt := by
    intro y hy
    obtain ⟨q, hq, rfl⟩ := StateSet.mem_image.1 hy
    exact hf q (h.accepting q hq)
  source_lt := by
    rintro ⟨p, a, q⟩ hmem
    obtain ⟨p', q', rfl, rfl, he⟩ := mem_edges_rename.1 hmem
    exact hf p' (h.ends he).1
  target_lt := by
    rintro ⟨p, a, q⟩ hmem
    obtain ⟨p', q', rfl, rfl, he⟩ := mem_edges_rename.1 hmem
    exact hf q' (h.ends he).2

theorem Within.rename_eq_self (h : n.Within inside) (hf : ∀ q, inside q → f q = q) :
    n.rename n.labels f = n := by
  have haccepting : n.accepting.image f = n.accepting := by
    ext p
    rw [StateSet.mem_image]
    constructor
    · rintro ⟨q, hq, rfl⟩
      rw [hf q (h.accepting q hq)]
      exact hq
    · intro hp
      exact ⟨p, hp, hf p (h.accepting p hp)⟩
  have hedge : ∀ e ∈ n.edges, e.rename f = e := by
    rintro ⟨p, a, q⟩ he
    rw [Edge.rename, hf p (h.ends he).1, hf q (h.ends he).2]
  have hedges : n.edges.image (Edge.rename f) = n.edges := by
    ext e
    rw [SortedSet.mem_image]
    constructor
    · rintro ⟨d, hd, rfl⟩
      rw [hedge d hd]
      exact hd
    · intro he
      exact ⟨e, he, hedge e he⟩
  rw [rename, hf n.start h.start, haccepting, hedges]

theorem alphabet_rename (n : Nfa) (labels : LabelTable) (f : Nat → Nat) :
    (n.rename labels f).alphabet = n.alphabet := by
  ext c
  rw [mem_alphabet, mem_alphabet]
  constructor
  · rintro ⟨p, q, he⟩
    obtain ⟨p', q', -, -, he⟩ := mem_edges_rename.1 he
    exact ⟨p', q', he⟩
  · rintro ⟨p, q, he⟩
    exact ⟨f p, f q, mem_edges_rename.2 ⟨p, q, rfl, rfl, he⟩⟩

end Rename

/-! ## Isomorphic automata -/

/-- `Renamed f n m` says that `m` is the automaton `n` with its states renamed by `f`, whatever the
labels. -/
structure Renamed (f : Nat → Nat) (n m : Nfa) : Prop where
  size_eq : m.size = n.size
  bijOn : Set.BijOn f (Set.Iio n.size) (Set.Iio n.size)
  start_eq : m.start = f n.start
  mem_accepting_iff : ∀ p, p ∈ m.accepting ↔ ∃ q ∈ n.accepting, f q = p
  mem_edges_iff : ∀ p a q, ⟨p, a, q⟩ ∈ m.edges ↔
    ∃ p' q', ⟨p', a, q'⟩ ∈ n.edges ∧ f p' = p ∧ f q' = q

theorem Renamed.edge_iff {f : Nat → Nat} {m : Nfa} {r : Nat} (h : Renamed f n m) (hn : n.WellFormed)
    (hp : p < n.size) : ⟨f p, a, r⟩ ∈ m.edges ↔ ∃ q, ⟨p, a, q⟩ ∈ n.edges ∧ f q = r := by
  rw [h.mem_edges_iff]
  constructor
  · rintro ⟨p', q, he, hf, rfl⟩
    rw [h.bijOn.injOn (hn.ends_lt he).1 hp hf] at he
    exact ⟨q, he, rfl⟩
  · rintro ⟨q, he, rfl⟩
    exact ⟨p, q, he, rfl, rfl⟩

/-! ## The order of a search -/

open Search

def reached (n : Nfa) : List Nat :=
  (explore (fun q => n.edgeRows[q]?.getD []) (fun _ => false) n.size n.start).map (·.node)

def unreached (n : Nfa) : List Nat :=
  (List.range n.size).filter fun q => !decide (q ∈ StateSet.ofList n.reached)

theorem mem_unreached : q ∈ n.unreached ↔ q < n.size ∧ q ∉ n.reached := by
  rw [unreached, List.mem_filter, List.mem_range, Bool.not_eq_true', decide_eq_false_iff_not,
    StateSet.mem_ofList]

theorem searchOrder_eq (n : Nfa) : n.searchOrder = n.reached ++ n.unreached := rfl

theorem mem_searchOrder : q ∈ n.searchOrder ↔ q ∈ n.reached ∨ q < n.size := by
  rw [searchOrder_eq, List.mem_append, mem_unreached]
  by_cases hq : q ∈ n.reached <;> simp [hq]

theorem nodup_searchOrder (n : Nfa) : n.searchOrder.Nodup := by
  rw [searchOrder_eq, List.nodup_append]
  refine ⟨(walked_explore _ _ _ _).nodup, List.nodup_range.filter _, ?_⟩
  rintro p hp q hq rfl
  exact (mem_unreached.1 hq).2 hp

theorem reached_eq (n : Nfa) :
    n.reached = (explore n.edgesFrom (fun _ => false) n.size n.start).map (·.node) := by
  rw [reached, funext n.getD_edgeRows]

theorem WellFormed.lt_of_spells (hn : n.WellFormed) {word : List Symbol}
    (h : Spells n.edgesFrom p word q) (hp : p < n.size) : q < n.size := by
  induction h with
  | refl => exact hp
  | step he _ ih => exact ih (hn.ends_lt (mem_edgesFrom.1 he)).2

theorem WellFormed.mem_searchOrder (hn : n.WellFormed) : q ∈ n.searchOrder ↔ q < n.size := by
  rw [Nfa.mem_searchOrder]
  constructor
  · rintro (hq | hq)
    · rw [reached_eq] at hq
      obtain ⟨v, hv, rfl⟩ := List.mem_map.1 hq
      exact hn.lt_of_spells ((walked_explore _ _ _ _).spells v hv) hn.start_lt
    · exact hq
  · exact .inr

theorem WellFormed.length_searchOrder (hn : n.WellFormed) : n.searchOrder.length = n.size := by
  have hperm : n.searchOrder.Perm (List.range n.size) := by
    rw [List.perm_ext_iff_of_nodup n.nodup_searchOrder List.nodup_range]
    intro q
    rw [hn.mem_searchOrder, List.mem_range]
  rw [hperm.length_eq, List.length_range]

/-! ## Renumbered automata -/

def number (n : Nfa) (q : Nat) : Nat := (Index.ofList n.searchOrder).place q

theorem renumber_eq (n : Nfa) :
    n.renumber =
      (n.rename (.sequential n.size) n.number,
        n.searchOrder.mapIdx fun i q => (n.label q, toString i)) := by
  rw [Nfa.renumber, LabelTable.displayIn_eq_display]
  rfl

theorem WellFormed.bijOn_number (hn : n.WellFormed) :
    Set.BijOn n.number (Set.Iio n.size) (Set.Iio n.size) := by
  have hplaces := Index.bijOn_place n.nodup_searchOrder
  have hstates : {q | q ∈ n.searchOrder} = Set.Iio n.size := Set.ext fun _ => hn.mem_searchOrder
  rw [hstates, hn.length_searchOrder] at hplaces
  exact hplaces

theorem WellFormed.renumber (hn : n.WellFormed) : n.renumber.1.WellFormed := by
  apply hn.within.wellFormed_rename (LabelTable.nodup_sequential n.size)
  intro q hq
  rw [LabelTable.size_sequential]
  exact hn.bijOn_number.mapsTo hq

theorem WellFormed.accepts_renumber (hn : n.WellFormed) (w : List Char) :
    n.renumber.1.accepts w = n.accepts w := by
  apply hn.within.accepts_rename
  intro p q hp hpq
  exact Index.place_inj (hn.mem_searchOrder.2 hp) hpq

/-- Nothing but the numbers of the states changes, and their labels with them. -/
theorem WellFormed.renamed_renumber (hn : n.WellFormed) : Renamed n.number n n.renumber.1 where
  size_eq := LabelTable.size_sequential n.size
  bijOn := hn.bijOn_number
  start_eq := rfl
  mem_accepting_iff _ := StateSet.mem_image
  mem_edges_iff p a q := by
    refine mem_edges_rename.trans ?_
    constructor
    · rintro ⟨p', q', hp, hq, he⟩
      exact ⟨p', q', he, hp, hq⟩
    · rintro ⟨p', q', he, hp, hq⟩
      exact ⟨p', q', hp, hq, he⟩

theorem alphabet_renumber (n : Nfa) : n.renumber.1.alphabet = n.alphabet :=
  alphabet_rename n _ _

end Nfa

end RegularLanguages
