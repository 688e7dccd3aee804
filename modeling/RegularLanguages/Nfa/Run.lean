import RegularLanguages.Nfa.Basic
import RegularLanguages.Reach

/-!
# Runs of nondeterministic automata

A run keeps the set of states that the characters read so far can lead to. The set is closed under
empty moves at every point.
-/

namespace RegularLanguages

namespace Nfa

def emptyMoves (n : Nfa) : List (Nat × Nat) :=
  n.edges.toList.filterMap fun e => if e.symbol = .epsilon then some (e.source, e.target) else none

/-- The states that empty moves lead to from a set. Numbers in the set that are no states stay in
it. -/
def closure (n : Nfa) (s : StateSet) : StateSet := s.reach n.emptyMoves

def initial (n : Nfa) : StateSet := n.closure (.singleton n.start)

/-- The states that one character leads to, without the empty moves after it. -/
def move (n : Nfa) (s : StateSet) (c : Char) : StateSet :=
  StateSet.ofList <| n.edges.toList.filterMap fun e =>
    if e.symbol = .char c ∧ e.source ∈ s then some e.target else none

def step (n : Nfa) (s : StateSet) (c : Char) : StateSet := n.closure (n.move s c)

def stepAll (n : Nfa) (s : StateSet) (word : List Char) : StateSet := word.foldl n.step s

def isAccepting (n : Nfa) (s : StateSet) : Bool := s.intersects n.accepting

def isEmpty (n : Nfa) : Bool :=
  !((StateSet.singleton n.start).reach
    (n.edges.toList.map fun e => (e.source, e.target))).intersects n.accepting

end Nfa

/--
What an automaton needs for taking many steps: for each state, the characters on the edges from it,
each with the states that empty moves lead to from its target.
-/
structure StepTable where
  rows : Array (List (Char × StateSet))

namespace StepTable

def step (t : StepTable) (s : StateSet) (c : Char) : StateSet :=
  s.toList.foldl
    (fun u q => (t.rows[q]?.getD []).foldl (fun u e => if e.1 = c then u ∪ e.2 else u) u) ∅

def steps (t : StepTable) (s : StateSet) : Std.TreeMap Char StateSet Key.compare :=
  s.toList.foldl
    (fun m q => (t.rows[q]?.getD []).foldl (fun m e => m.insert e.1 (m[e.1]?.getD ∅ ∪ e.2)) m) ∅

theorem mem_step {t : StepTable} {s : StateSet} {c : Char} {r : Nat} :
    r ∈ t.step s c ↔ ∃ q ∈ s, ∃ e ∈ t.rows[q]?.getD [], e.1 = c ∧ r ∈ e.2 := by
  have hrow : ∀ (row : List (Char × StateSet)) (u : StateSet),
      r ∈ row.foldl (fun u e => if e.1 = c then u ∪ e.2 else u) u ↔
        r ∈ u ∨ ∃ e ∈ row, e.1 = c ∧ r ∈ e.2 := by
    intro row
    induction row with
    | nil => simp
    | cons e es ih =>
      intro u
      rw [List.foldl_cons, ih]
      by_cases he : e.1 = c <;> simp [he, or_assoc]
  have hrows : ∀ (l : List Nat) (u : StateSet),
      r ∈ l.foldl
        (fun u q => (t.rows[q]?.getD []).foldl (fun u e => if e.1 = c then u ∪ e.2 else u) u) u ↔
        r ∈ u ∨ ∃ q ∈ l, ∃ e ∈ t.rows[q]?.getD [], e.1 = c ∧ r ∈ e.2 := by
    intro l
    induction l with
    | nil => simp
    | cons q l ih =>
      intro u
      rw [List.foldl_cons, ih, hrow]
      simp only [List.mem_cons, exists_eq_or_imp, or_assoc]
  rw [step, hrows]
  simp

theorem getD_steps (t : StepTable) (s : StateSet) (c : Char) :
    (t.steps s)[c]?.getD ∅ = t.step s c := by
  have hrow : ∀ (row : List (Char × StateSet)) (m : Std.TreeMap Char StateSet Key.compare),
      (row.foldl (fun m e => m.insert e.1 (m[e.1]?.getD ∅ ∪ e.2)) m)[c]?.getD ∅ =
        row.foldl (fun u e => if e.1 = c then u ∪ e.2 else u) (m[c]?.getD ∅) := by
    intro row
    induction row with
    | nil => intro m; rfl
    | cons e es ih =>
      intro m
      rw [List.foldl_cons, List.foldl_cons, ih, Std.TreeMap.getElem?_insert]
      by_cases he : e.1 = c
      · rw [if_pos (Key.compare_eq_eq_iff.2 he), if_pos he, he, Option.getD_some]
      · rw [if_neg fun h => he (Key.compare_eq_eq_iff.1 h), if_neg he]
  have hrows : ∀ (l : List Nat) (m : Std.TreeMap Char StateSet Key.compare),
      (l.foldl (fun m q => (t.rows[q]?.getD []).foldl
        (fun m e => m.insert e.1 (m[e.1]?.getD ∅ ∪ e.2)) m) m)[c]?.getD
          ∅ =
        l.foldl
          (fun u q => (t.rows[q]?.getD []).foldl (fun u e => if e.1 = c then u ∪ e.2 else u) u)
          (m[c]?.getD ∅) := by
    intro l
    induction l with
    | nil => intro m; rfl
    | cons q l ih =>
      intro m
      rw [List.foldl_cons, List.foldl_cons, ih, hrow]
  rw [steps, step, hrows, Std.TreeMap.getElem?_emptyc, Option.getD_none]

end StepTable

namespace Nfa

def charTargets (n : Nfa) : StateSet :=
  StateSet.ofList
    (n.edges.toList.filterMap fun e => if e.symbol = .epsilon then none else some e.target)

def targetClosures (n : Nfa) : Array StateSet :=
  let wanted := n.charTargets
  let rows := rowsOf n.emptyMoves
  let count := n.emptyMoves.length
  (Array.range (wanted.bits.log2 + 1)).map fun p =>
    if p ∈ wanted then (StateSet.singleton p).reachBy rows count else ∅

def stepTable (n : Nfa) : StepTable :=
  let closures := n.targetClosures
  ⟨rowsOf (n.edges.toList.filterMap fun e =>
    e.symbol.char?.map fun c => (e.source, c, closures[e.target]?.getD ∅))⟩

theorem getD_targetClosures {n : Nfa} {p : Nat} (h : p ∈ n.charTargets) :
    n.targetClosures[p]?.getD ∅ = n.closure (.singleton p) := by
  have hlt : p < n.charTargets.bits.log2 + 1 := by
    have hpos : n.charTargets.bits ≠ 0 := fun h0 => by
      rw [StateSet.mem_def, h0, Nat.zero_testBit] at h
      cases h
    exact Nat.lt_succ_of_le ((Nat.le_log2 hpos).2 (Nat.ge_two_pow_of_testBit h))
  simp only [targetClosures, Array.getElem?_map, Array.getElem?_range, hlt, Option.map_some, h,
    if_true, Option.getD_some]
  rfl

theorem mem_rows_stepTable {n : Nfa} {q : Nat} {c : Char} {u : StateSet} :
    (c, u) ∈ n.stepTable.rows[q]?.getD [] ↔
      ∃ p, ⟨q, .char c, p⟩ ∈ n.edges ∧ n.closure (.singleton p) = u := by
  have hclosure : ∀ {p : Nat} {e : Edge}, e ∈ n.edges → e.symbol = .char c → e.target = p →
      n.targetClosures[p]?.getD ∅ = n.closure (.singleton p) := fun he hs hp =>
    getD_targetClosures (StateSet.mem_ofList.2 (List.mem_filterMap.2 ⟨_, he, by simp [hs, hp]⟩))
  simp only [stepTable, getD_rowsOf, List.mem_filterMap, Option.map_eq_some_iff]
  constructor
  · rintro ⟨⟨q', d, u'⟩, ⟨e, he, c', hc', heq⟩, hu⟩
    simp only [Prod.mk.injEq] at heq
    obtain ⟨rfl, rfl, rfl⟩ := heq
    by_cases hq : e.source = q
    · simp only [hq, if_true, Option.some.injEq, Prod.mk.injEq] at hu
      obtain ⟨rfl, rfl⟩ := hu
      have hs : e.symbol = .char c' := Symbol.char?_eq_some_iff.1 hc'
      refine ⟨e.target, ?_, (hclosure he hs rfl).symm⟩
      rw [← hs, ← hq]
      exact he
    · simp [hq] at hu
  · rintro ⟨p, he, rfl⟩
    exact ⟨(q, c, n.closure (.singleton p)), ⟨_, he, c, rfl, by rw [hclosure he rfl rfl]⟩, by simp⟩

/-- Steps by a table are those of the automaton. -/
theorem step_stepTable (n : Nfa) (s : StateSet) (c : Char) : n.stepTable.step s c = n.step s c := by
  refine StateSet.ext fun r => ?_
  rw [StepTable.mem_step, step, closure, StateSet.mem_reach]
  constructor
  · rintro ⟨q, hq, ⟨d, u⟩, he, rfl, hr⟩
    obtain ⟨p, hp, rfl⟩ := mem_rows_stepTable.1 he
    rw [closure, StateSet.mem_reach] at hr
    obtain ⟨o, ho, hor⟩ := hr
    rw [StateSet.mem_singleton.1 ho] at hor
    exact ⟨p, StateSet.mem_ofList.2 (List.mem_filterMap.2 ⟨_, hp, by simp [hq]⟩), hor⟩
  · rintro ⟨p, hp, hpr⟩
    obtain ⟨e, he, hep⟩ := List.mem_filterMap.1 (StateSet.mem_ofList.1 hp)
    by_cases hc : e.symbol = .char c ∧ e.source ∈ s
    · simp only [hc, and_self, if_true, Option.some.injEq] at hep
      refine ⟨e.source, hc.2, (c, n.closure (.singleton p)),
        mem_rows_stepTable.2 ⟨p, ?_, rfl⟩, rfl, ?_⟩
      · rw [← hc.1, ← hep]
        exact he
      · rw [closure, StateSet.mem_reach]
        exact ⟨p, StateSet.mem_singleton.2 rfl, hpr⟩
    · simp [hc] at hep

def active (n : Nfa) (word : List Char) : StateSet := word.foldl n.stepTable.step n.initial

theorem active_eq_stepAll (n : Nfa) (word : List Char) :
    n.active word = n.stepAll n.initial word := by
  rw [active, stepAll, show n.stepTable.step = n.step from
    funext fun s => funext fun c => n.step_stepTable s c]

def accepts (n : Nfa) (word : List Char) : Bool := n.isAccepting (n.active word)

end Nfa

end RegularLanguages
