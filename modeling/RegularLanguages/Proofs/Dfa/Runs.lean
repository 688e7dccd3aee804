import Mathlib.Data.Char
import Mathlib.Data.List.Shortlex
import RegularLanguages.Dfa.Refinement

/-!
# Runs of deterministic automata

The words that are accepted from a state are its residual language. A missing move leads to the
sink, from which nothing is accepted, so that residual languages go along with all moves.
-/

namespace RegularLanguages.Dfa

theorem run_cons (d : Dfa) (q : Nat) (c : Char) (w : List Char) :
    d.run q (c :: w) = (d.step q c).bind (d.run · w) := rfl

theorem run_append (d : Dfa) (q : Nat) (u v : List Char) :
    d.run q (u ++ v) = (d.run q u).bind (d.run · v) := by
  induction u generalizing q with
  | nil => rfl
  | cons c u ih =>
      rw [List.cons_append, run_cons, run_cons, Option.bind_assoc]
      congr 1
      funext p
      exact ih p

theorem run_singleton (d : Dfa) (q : Nat) (c : Char) : d.run q [c] = d.step q c := by
  rw [run_cons]
  cases d.step q c <;> rfl

theorem run_concat (d : Dfa) (q : Nat) (w : List Char) (c : Char) :
    d.run q (w ++ [c]) = (d.run q w).bind (d.step · c) := by
  rw [run_append]
  congr 1
  funext p
  exact d.run_singleton p c

theorem acceptsFrom_iff {d : Dfa} {q : Nat} {w : List Char} :
    d.acceptsFrom q w = true ↔ ∃ p ∈ d.accepting, d.run q w = some p := by
  unfold acceptsFrom
  cases h : d.run q w with
  | none => simp
  | some p => simp

theorem acceptsFrom_nil (d : Dfa) (q : Nat) : d.acceptsFrom q [] = decide (q ∈ d.accepting) := rfl

theorem acceptsFrom_append {d : Dfa} {p q : Nat} {u : List Char} (h : d.run p u = some q)
    (v : List Char) :
    d.acceptsFrom p (u ++ v) = d.acceptsFrom q v := by
  rw [acceptsFrom, run_append, h]
  rfl

theorem acceptsFrom_append_of_none {d : Dfa} {p : Nat} {u : List Char} (h : d.run p u = none)
    (v : List Char) : d.acceptsFrom p (u ++ v) = false := by
  rw [acceptsFrom, run_append, h]
  rfl

theorem accepts_append {d : Dfa} {q : Nat} {u : List Char} (h : d.run d.start u = some q)
    (v : List Char) :
    d.accepts (u ++ v) = d.acceptsFrom q v := acceptsFrom_append h v

theorem accepts_iff {d : Dfa} {w : List Char} :
    d.accepts w = true ↔ ∃ q ∈ d.accepting, d.run d.start w = some q := acceptsFrom_iff

theorem exists_run_of_accepts_append {d : Dfa} {u v : List Char} (h : d.accepts (u ++ v) = true) :
    ∃ q, d.run d.start u = some q := by
  cases hu : d.run d.start u with
  | none =>
      rw [accepts, acceptsFrom_append_of_none hu] at h
      cases h
  | some q => exact ⟨q, rfl⟩

def Alike (d : Dfa) (p q : Nat) : Prop := ∀ w, d.acceptsFrom p w = d.acceptsFrom q w

theorem Alike.symm {d : Dfa} {p q : Nat} (h : d.Alike p q) : d.Alike q p := fun w => (h w).symm

/-! ## States of well-formed automata -/

instance (d : Dfa) : Decidable d.WellFormed :=
  decidable_of_iff
    (d.labels.toList.Nodup ∧ d.start < d.size ∧ (∀ q ∈ d.accepting.toList, q < d.size) ∧
      (∀ e ∈ d.moves.toList, e.1.1 < d.size ∧ e.2 < d.size) ∧
      ∀ subsets ∈ d.subsets, subsets.length = d.size)
    ⟨fun ⟨hlabels, hstart, haccepting, hends, hsubsets⟩ =>
      ⟨hlabels, hstart, fun q hq => haccepting q (StateSet.mem_toList.2 hq),
        fun e he => (hends e he).1, fun e he => (hends e he).2, hsubsets⟩,
    fun h => ⟨h.labels_nodup, h.start_lt, fun q hq => h.accepting_lt q (StateSet.mem_toList.1 hq),
      fun e he => ⟨h.source_lt e he, h.target_lt e he⟩, h.length_subsets⟩⟩

theorem step_eq_some_iff {d : Dfa} {p q : Nat} {c : Char} :
    d.step p c = some q ↔ ((p, c), q) ∈ d.moves.toList :=
  SortedMap.get?_eq_some_iff

theorem WellFormed.ends_lt {d : Dfa} (hd : d.WellFormed) {p q : Nat} {c : Char}
    (h : d.step p c = some q) : p < d.size ∧ q < d.size :=
  ⟨hd.source_lt _ (step_eq_some_iff.1 h), hd.target_lt _ (step_eq_some_iff.1 h)⟩

theorem WellFormed.run_lt {d : Dfa} (hd : d.WellFormed) {p q : Nat} {w : List Char}
    (hp : p < d.size) (h : d.run p w = some q) : q < d.size := by
  induction w generalizing p with
  | nil =>
      cases h
      exact hp
  | cons c w ih =>
      rw [run_cons, Option.bind_eq_some_iff] at h
      obtain ⟨o, ho, hw⟩ := h
      exact ih (hd.ends_lt ho).2 hw

theorem mem_alphabet {d : Dfa} {c : Char} : c ∈ d.alphabet ↔ ∃ p q, d.step p c = some q := by
  simp only [alphabet, SortedMap.keys, SortedSet.mem_ofList, List.mem_map, step_eq_some_iff]
  constructor
  · rintro ⟨k, ⟨e, he, rfl⟩, rfl⟩
    exact ⟨e.1.1, e.2, he⟩
  · rintro ⟨p, q, he⟩
    exact ⟨(p, c), ⟨_, he, rfl⟩, rfl⟩

theorem leads_moves_iff {d : Dfa} {p q : Nat} :
    Leads (d.moves.toList.map fun e => (e.1.1, e.2)) p q ↔ ∃ w, d.run p w = some q := by
  constructor
  · intro h
    induction h with
    | refl q => exact ⟨[], rfl⟩
    | step he _ ih =>
        obtain ⟨w, hw⟩ := ih
        obtain ⟨⟨⟨p, c⟩, q⟩, hmove, heq⟩ := List.mem_map.1 he
        cases heq
        refine ⟨c :: w, ?_⟩
        rw [run_cons, step_eq_some_iff.2 hmove]
        exact hw
  · rintro ⟨w, hw⟩
    induction w generalizing p with
    | nil =>
        cases hw
        exact .refl _
    | cons c w ih =>
        rw [run_cons, Option.bind_eq_some_iff] at hw
        obtain ⟨o, ho, hw⟩ := hw
        exact .step (List.mem_map.2 ⟨_, step_eq_some_iff.1 ho, rfl⟩) (ih hw)

theorem mem_reachable {d : Dfa} {q : Nat} : q ∈ d.reachable ↔ ∃ w, d.run d.start w = some q := by
  rw [reachable, StateSet.mem_reach]
  constructor
  · rintro ⟨p, hp, h⟩
    rw [StateSet.mem_singleton.1 hp] at h
    exact leads_moves_iff.1 h
  · intro h
    exact ⟨d.start, StateSet.mem_singleton.2 rfl, leads_moves_iff.2 h⟩

/-! ## The sink -/

theorem WellFormed.step_sink {d : Dfa} (hd : d.WellFormed) (c : Char) : d.step d.sink c = none := by
  cases h : d.step d.sink c with
  | none => rfl
  | some q => exact absurd (hd.ends_lt h).1 (Nat.lt_irrefl _)

theorem WellFormed.acceptsFrom_sink {d : Dfa} (hd : d.WellFormed) (w : List Char) :
    d.acceptsFrom d.sink w = false := by
  cases w with
  | nil =>
      rw [acceptsFrom_nil, decide_eq_false_iff_not]
      intro h
      exact Nat.lt_irrefl _ (hd.accepting_lt _ h)
  | cons c w =>
      rw [acceptsFrom, run_cons, hd.step_sink]
      rfl

/-- The residual languages go along with the moves, those to the sink included. -/
theorem WellFormed.acceptsFrom_cons {d : Dfa} (hd : d.WellFormed) (q : Nat) (c : Char)
    (w : List Char) :
    d.acceptsFrom q (c :: w) = d.acceptsFrom (d.totalStep q c) w := by
  unfold totalStep
  cases h : d.step q c with
  | none =>
      rw [Option.getD_none, hd.acceptsFrom_sink, acceptsFrom, run_cons, h]
      rfl
  | some p =>
      rw [Option.getD_some, acceptsFrom, run_cons, h]
      rfl

theorem WellFormed.totalStep_eq_sink_iff {d : Dfa} (hd : d.WellFormed) {q : Nat} {c : Char} :
    d.totalStep q c = d.sink ↔ d.step q c = none := by
  unfold totalStep
  cases h : d.step q c with
  | none => simp
  | some p =>
      rw [Option.getD_some]
      constructor
      · intro hp
        have hlt := (hd.ends_lt h).2
        rw [hp] at hlt
        exact absurd hlt (Nat.lt_irrefl _)
      · intro hn
        cases hn

/-! ## Numbering by words -/

/-- `d.LeastWord q w` says that of all words that lead from the start to `q`, the word `w` is the
least, by length first and then by the code points of its characters. -/
def LeastWord (d : Dfa) (q : Nat) (w : List Char) : Prop :=
  d.run d.start w = some q ∧ ∀ u, d.run d.start u = some q → ¬ List.Shortlex (· < ·) u w

/-- Words lead to all states, and the states stand in the order of their least words. -/
structure NumberedByWords (d : Dfa) : Prop where
  exists_leastWord : ∀ q < d.size, ∃ w, d.LeastWord q w
  lt_iff : ∀ p q u v, d.LeastWord p u → d.LeastWord q v → (p < q ↔ List.Shortlex (· < ·) u v)

end RegularLanguages.Dfa
