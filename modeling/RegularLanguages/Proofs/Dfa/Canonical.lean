import Mathlib.Data.List.Nodup
import Mathlib.Tactic.Choose
import RegularLanguages.Proofs.Dfa.Runs

/-!
# Canonical automata

An automaton is canonical if its states can all be told apart, if something is accepted from each
of them, and if they are numbered by words. Such an automaton has as few states as any of its
language (`Canonical.size_le`). Its states stand for the least words of the classes into which the
language divides the words that can be completed, and so the language fixes it
(`Canonical.eq_of_accepts_eq`).
-/

namespace RegularLanguages.Dfa

/-- What the minimal automata of nonempty languages have in common. -/
structure Canonical (m : Dfa) : Prop extends WellFormed m where
  live : ∀ q < m.size, ∃ w, m.acceptsFrom q w = true
  separated : ∀ p < m.size, ∀ q < m.size, m.Alike p q → p = q
  numbered : m.NumberedByWords

variable {m n e : Dfa}

theorem Canonical.run_eq_some_iff (hm : m.Canonical) {u w : List Char} {q : Nat}
    (hu : m.run m.start u = some q) :
    m.run m.start w = some q ↔ ∀ v, m.accepts (w ++ v) = m.accepts (u ++ v) := by
  constructor
  · intro hw v
    rw [accepts_append hu, accepts_append hw]
  · intro heq
    have hq := hm.run_lt hm.start_lt hu
    obtain ⟨v, hv⟩ := hm.live q hq
    rw [← accepts_append hu, ← heq] at hv
    obtain ⟨p, hw⟩ := exists_run_of_accepts_append hv
    have halike : m.Alike p q := by
      intro x
      rw [← accepts_append hw, ← accepts_append hu, heq]
    rw [hw, hm.separated p (hm.run_lt hm.start_lt hw) q hq halike]

/-! ## No automaton of the language has fewer states -/

/-- Words that lead to different states here must do so in every other automaton. -/
theorem Canonical.size_le (hm : m.Canonical) (he : e.WellFormed)
    (h : ∀ w, e.accepts w = m.accepts w) : m.size ≤ e.size := by
  have hword : ∀ q < m.size, ∃ x w, m.run m.start w = some q ∧ e.run e.start w = some x := by
    intro q hq
    obtain ⟨w, hw, -⟩ := hm.numbered.exists_leastWord q hq
    obtain ⟨v, hv⟩ := hm.live q hq
    rw [← accepts_append hw, ← h] at hv
    obtain ⟨x, hx⟩ := exists_run_of_accepts_append hv
    exact ⟨x, w, hw, hx⟩
  choose! image word hm_run he_run using hword
  have hnodup : ((List.range m.size).map image).Nodup := by
    apply List.Nodup.map_on _ List.nodup_range
    intro p hp q hq heq
    rw [List.mem_range] at hp hq
    have hsame : m.run m.start (word p) = some q := by
      rw [hm.run_eq_some_iff (hm_run q hq)]
      intro v
      rw [← h, ← h, accepts_append (he_run p hp), accepts_append (he_run q hq), heq]
    rw [hm_run p hp, Option.some.injEq] at hsame
    exact hsame
  have hsub : (List.range m.size).map image ⊆ List.range e.size := by
    intro x hx
    obtain ⟨q, hq, rfl⟩ := List.mem_map.1 hx
    exact List.mem_range.2 (he.run_lt he.start_lt (he_run q (List.mem_range.1 hq)))
  have hle := hnodup.length_le_of_subset hsub
  rw [List.length_map, List.length_range, List.length_range] at hle
  exact hle

/-! ## The language fixes the automaton -/

/-- `Leader accepts w` says that `w` can be completed, and that of all words that the same words
complete it is the least. -/
def Leader (accepts : List Char → Bool) (w : List Char) : Prop :=
  (∃ v, accepts (w ++ v) = true) ∧
    ∀ u, (∀ v, accepts (u ++ v) = accepts (w ++ v)) → ¬ List.Shortlex (· < ·) u w

theorem Canonical.exists_leastWord_iff (hm : m.Canonical) {w : List Char} :
    (∃ q, m.LeastWord q w) ↔ Leader m.accepts w := by
  constructor
  · rintro ⟨q, hw, hleast⟩
    obtain ⟨v, hv⟩ := hm.live q (hm.run_lt hm.start_lt hw)
    rw [← accepts_append hw] at hv
    refine ⟨⟨v, hv⟩, fun u hu => ?_⟩
    exact hleast u ((hm.run_eq_some_iff hw).2 hu)
  · rintro ⟨⟨v, hv⟩, hleast⟩
    obtain ⟨q, hw⟩ := exists_run_of_accepts_append hv
    refine ⟨q, hw, fun u hu => ?_⟩
    exact hleast u ((hm.run_eq_some_iff hw).1 hu)

theorem Canonical.leastWord_lt (hm : m.Canonical) {q : Nat} {w : List Char} (h : m.LeastWord q w) :
    q < m.size :=
  hm.run_lt hm.start_lt h.1

theorem LeastWord.inj {p q : Nat} {w : List Char} (hp : m.LeastWord p w) (hq : m.LeastWord q w) :
    p = q := by
  rw [LeastWord, hq.1, Option.some.injEq] at hp
  exact hp.1.symm

/-- If the states below `k` have the same words in both automata, then so has `k`. -/
private theorem leastWord_of_below (hm : m.Canonical) (hn : n.Canonical) (h : m.accepts = n.accepts)
    {k : Nat} (hbelow : ∀ j < k, ∀ w, m.LeastWord j w ↔ n.LeastWord j w) {w : List Char}
    (hw : m.LeastWord k w) : n.LeastWord k w := by
  have hleader := hm.exists_leastWord_iff.1 ⟨k, hw⟩
  rw [h] at hleader
  obtain ⟨l, hl⟩ := hn.exists_leastWord_iff.2 hleader
  rcases Nat.lt_trichotomy l k with hlk | rfl | hkl
  · have hsame := hw.inj ((hbelow l hlk w).2 hl)
    omega
  · exact hl
  · -- The word of the state `k` in between would have to belong to a state below `k`.
    have hk : k < n.size := hkl.trans (hn.leastWord_lt hl)
    obtain ⟨u, hu⟩ := hn.numbered.exists_leastWord k hk
    have huw := (hn.numbered.lt_iff k l u w hu hl).1 hkl
    have huleader := hn.exists_leastWord_iff.1 ⟨k, hu⟩
    rw [← h] at huleader
    obtain ⟨j, hj⟩ := hm.exists_leastWord_iff.2 huleader
    have hjk := (hm.numbered.lt_iff j k u w hj hw).2 huw
    have hsame := hu.inj ((hbelow j hjk u).1 hj)
    omega

theorem Canonical.leastWord_iff (hm : m.Canonical) (hn : n.Canonical) (h : m.accepts = n.accepts)
    (k : Nat) (w : List Char) : m.LeastWord k w ↔ n.LeastWord k w := by
  induction k using Nat.strongRecOn generalizing w with
  | ind k ih =>
      constructor
      · exact leastWord_of_below hm hn h ih
      · exact leastWord_of_below hn hm h.symm fun j hj u => (ih j hj u).symm

private theorem run_eq_some_of_accepts_eq (hm : m.Canonical) (hn : n.Canonical)
    (h : m.accepts = n.accepts) {w : List Char} {q : Nat} (hw : m.run m.start w = some q) :
    n.run n.start w = some q := by
  obtain ⟨u, hu⟩ := hm.numbered.exists_leastWord q (hm.run_lt hm.start_lt hw)
  have hword := (hm.leastWord_iff hn h q u).1 hu
  rw [hn.run_eq_some_iff hword.1, ← h]
  exact (hm.run_eq_some_iff hu.1).1 hw

theorem Canonical.run_eq (hm : m.Canonical) (hn : n.Canonical) (h : m.accepts = n.accepts)
    (w : List Char) : m.run m.start w = n.run n.start w := by
  apply Option.ext
  intro q
  constructor
  · exact run_eq_some_of_accepts_eq hm hn h
  · exact run_eq_some_of_accepts_eq hn hm h.symm

theorem Canonical.lt_size_iff (hm : m.Canonical) {q : Nat} :
    q < m.size ↔ ∃ w, m.run m.start w = some q := by
  constructor
  · intro hq
    obtain ⟨w, hw, -⟩ := hm.numbered.exists_leastWord q hq
    exact ⟨w, hw⟩
  · rintro ⟨w, hw⟩
    exact hm.run_lt hm.start_lt hw

theorem Canonical.mem_accepting_iff (hm : m.Canonical) {q : Nat} :
    q ∈ m.accepting ↔ ∃ w, m.run m.start w = some q ∧ m.accepts w = true := by
  constructor
  · intro hq
    obtain ⟨w, hw⟩ := hm.lt_size_iff.1 (hm.accepting_lt q hq)
    exact ⟨w, hw, accepts_iff.2 ⟨q, hq, hw⟩⟩
  · rintro ⟨w, hw, hacc⟩
    obtain ⟨p, hp, hrun⟩ := accepts_iff.1 hacc
    rw [hw, Option.some.injEq] at hrun
    rw [hrun]
    exact hp

theorem Canonical.step_eq_some_iff (hm : m.Canonical) {p q : Nat} {c : Char} :
    m.step p c = some q ↔ ∃ w, m.run m.start w = some p ∧ m.run m.start (w ++ [c]) = some q := by
  constructor
  · intro hstep
    obtain ⟨w, hw⟩ := hm.lt_size_iff.1 (hm.ends_lt hstep).1
    refine ⟨w, hw, ?_⟩
    rw [run_concat, hw]
    exact hstep
  · rintro ⟨w, hw, hwc⟩
    rw [run_concat, hw] at hwc
    exact hwc

/-- Canonical automata of one language agree in all that the language speaks of. -/
theorem Canonical.eq_of_accepts_eq (hm : m.Canonical) (hn : n.Canonical)
    (h : m.accepts = n.accepts) :
    m.size = n.size ∧ m.start = n.start ∧ m.accepting = n.accepting ∧ m.moves = n.moves := by
  have hrun := hm.run_eq hn h
  refine ⟨?_, ?_, ?_, ?_⟩
  · apply Nat.le_antisymm
    · exact hm.size_le hn.toWellFormed fun w => by rw [h]
    · exact hn.size_le hm.toWellFormed fun w => by rw [h]
  · have hstart := hrun []
    exact Option.some.inj hstart
  · apply StateSet.ext
    intro q
    rw [hm.mem_accepting_iff, hn.mem_accepting_iff, h]
    simp only [hrun]
  · apply SortedMap.ext
    rintro ⟨p, c⟩
    apply Option.ext
    intro q
    have hstep : m.step p c = some q ↔ n.step p c = some q := by
      rw [hm.step_eq_some_iff, hn.step_eq_some_iff]
      simp only [hrun]
    exact hstep

end RegularLanguages.Dfa
