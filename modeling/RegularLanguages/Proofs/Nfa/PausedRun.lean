import RegularLanguages.Nfa.PausedRun
import RegularLanguages.Proofs.Nfa.Paths

/-!
# What a paused run yields, call by call

The state of a paused run is known after every call (`after_start`, `after_start_spent`): before
the first call nothing is known of it, then so many characters have been read as there were calls
after the first, and from the verdict on nothing changes any more. What each of these states yields
next is said once, and the rest follows from it: the events in their order, the position and the
last set (`reports_start`).

A run is driven to its end by a number of steps that is computed from its rest. More steps than
that yield nothing more (`take_eq_events`), so the verdict that is read off the last event is that
of the whole run.
-/

namespace RegularLanguages.PausedRun

variable {n : Nfa} {word : List Char} {i k m : Nat}

def after (s : PausedRun) : Nat → PausedRun
  | 0 => s
  | k + 1 => (after s k).next.2

/-- The run on a word of which so many characters have been read. -/
def reading (n : Nfa) (word : List Char) (i : Nat) : PausedRun :=
  ⟨n, word.drop i, i, some (n.stepAll n.initial (word.take i)), false⟩

def spent (n : Nfa) (word : List Char) : PausedRun :=
  ⟨n, [], word.length, some (n.stepAll n.initial word), true⟩

/-! ## What one call does -/

theorem next_start (n : Nfa) (word : List Char) :
    (start n word).next = (some (.active n.initial), reading n word 0) := rfl

theorem next_reading (hi : i < word.length) :
    (reading n word i).next =
      (some (.active (n.stepAll n.initial (word.take (i + 1)))), reading n word (i + 1)) := by
  have hrest : word.drop i = word[i] :: word.drop (i + 1) := List.drop_eq_getElem_cons hi
  have hset : n.stepAll n.initial (word.take (i + 1)) =
      n.step (n.stepAll n.initial (word.take i)) word[i] := by
    rw [List.take_succ_eq_append_getElem hi, Nfa.stepAll, List.foldl_append]
    rfl
  rw [next, reading, reading, hrest, hset]
  rfl

theorem next_reading_length (n : Nfa) (word : List Char) :
    (reading n word word.length).next =
      (some (.finished (n.isAccepting (n.stepAll n.initial word))), spent n word) := by
  rw [next, reading, spent, List.drop_length, List.take_length]
  rfl

theorem next_spent (n : Nfa) (word : List Char) : (spent n word).next = (none, spent n word) := rfl

/-! ## What many calls do -/

theorem after_start (hk : k ≤ word.length) : (start n word).after (k + 1) = reading n word k := by
  induction k with
  | zero => rfl
  | succ k ih => rw [after, ih (by omega), next_reading (by omega)]

theorem after_start_spent (hk : word.length + 2 ≤ k) : (start n word).after k = spent n word := by
  induction k with
  | zero => omega
  | succ k ih =>
      rw [after]
      by_cases hlast : k = word.length + 1
      · rw [hlast, after_start (Nat.le_refl _), next_reading_length]
      · rw [ih (by omega), next_spent]

/-- The three stages of a run. -/
theorem after_start_cases (n : Nfa) (word : List Char) (k : Nat) :
    (k = 0 ∧ (start n word).after k = start n word) ∨
      (∃ i ≤ word.length, k = i + 1 ∧ (start n word).after k = reading n word i) ∨
      (word.length + 2 ≤ k ∧ (start n word).after k = spent n word) := by
  by_cases hspent : word.length + 2 ≤ k
  · exact .inr (.inr ⟨hspent, after_start_spent hspent⟩)
  · cases k with
    | zero => exact .inl ⟨rfl, rfl⟩
    | succ i => exact .inr (.inl ⟨i, by omega, rfl, after_start (by omega)⟩)

theorem rest_after (n : Nfa) (word : List Char) (k : Nat) :
    ((start n word).after k).rest = word.drop ((start n word).after k).position := by
  rcases after_start_cases n word k with ⟨-, hk⟩ | ⟨i, -, -, hk⟩ | ⟨-, hk⟩
  · rw [hk]
    rfl
  · rw [hk]
    rfl
  · rw [hk]
    exact List.drop_length.symm

theorem position_after (n : Nfa) (word : List Char) (k : Nat) :
    ((start n word).after k).position = min (k - 1) word.length := by
  rcases after_start_cases n word k with ⟨rfl, hk⟩ | ⟨i, hi, rfl, hk⟩ | ⟨hspent, hk⟩
  · exact (Nat.zero_min _).symm
  · rw [hk]
    exact (Nat.min_eq_left hi).symm
  · rw [hk, Nat.min_eq_right (by omega)]
    rfl

theorem current_after_succ (n : Nfa) (word : List Char) (k : Nat) :
    ((start n word).after (k + 1)).current = some (n.stepAll n.initial (word.take k)) := by
  by_cases hk : k ≤ word.length
  · rw [after_start hk]
    rfl
  · rw [after_start_spent (by omega), List.take_of_length_le (by omega)]
    rfl

theorem done_after_iff (n : Nfa) (word : List Char) (k : Nat) :
    ((start n word).after k).done = true ↔ word.length + 2 ≤ k := by
  rcases after_start_cases n word k with ⟨rfl, hk⟩ | ⟨i, hi, rfl, hk⟩ | ⟨hspent, hk⟩
  · rw [hk]
    simp [start]
  · rw [hk]
    simp only [reading, Bool.false_eq_true, false_iff]
    omega
  · rw [hk]
    simp [spent, hspent]

/-! ## To the end -/

def left (s : PausedRun) : Nat :=
  if s.done then 0
  else
    match s.current with
    | none => s.rest.length + 2
    | some _ => s.rest.length + 1

theorem left_le (s : PausedRun) : s.left ≤ s.rest.length + 2 := by
  unfold left
  split
  · omega
  · split <;> omega

/-- A call yields one of the events to come, if there are any. -/
theorem next_cases (s : PausedRun) :
    (s.left = 0 ∧ s.next = (none, s)) ∨ ∃ e t, s.next = (some e, t) ∧ s.left = t.left + 1 := by
  obtain ⟨n, rest, position, current, done⟩ := s
  cases done with
  | true => exact .inl ⟨rfl, rfl⟩
  | false =>
      right
      cases current with
      | none => exact ⟨_, _, rfl, rfl⟩
      | some states =>
          cases rest with
          | nil => exact ⟨_, _, rfl, rfl⟩
          | cons c rest => exact ⟨_, _, rfl, rfl⟩

theorem take_of_left_le {s : PausedRun} (hm : s.left ≤ m) : s.take m = s.take s.left := by
  induction m generalizing s with
  | zero => rw [Nat.le_zero.1 hm]
  | succ m ih =>
      rcases next_cases s with ⟨hleft, hnext⟩ | ⟨e, t, hnext, hleft⟩
      · rw [hleft, take, take, hnext]
      · rw [hleft, take, take, hnext]
        change e :: t.take m = e :: t.take t.left
        rw [ih (by omega)]

theorem take_eq_events {s : PausedRun} (hm : s.rest.length + 2 ≤ m) : s.take m = s.events := by
  have hleft := s.left_le
  rw [events, take_of_left_le (by omega), take_of_left_le hleft]

theorem getLast?_take_reading (hi : i ≤ word.length) (hm : word.length < i + m) :
    ((reading n word i).take m).getLast? = some (.finished (n.accepts word)) := by
  induction m generalizing i with
  | zero => omega
  | succ m ih =>
      by_cases hlast : i = word.length
      · have hspent : (spent n word).take m = [] := by
          cases m <;> rfl
        rw [hlast, take, next_reading_length]
        change (Event.finished _ :: (spent n word).take m).getLast? = _
        rw [hspent, Nfa.accepts, Nfa.active_eq_stepAll]
        rfl
      · have hrest := ih (i := i + 1) (by omega) (by omega)
        rw [take, next_reading (by omega)]
        change (_ :: (reading n word (i + 1)).take m).getLast? = _
        rw [List.getLast?_cons, hrest]
        rfl

theorem accepted_reading (hi : i ≤ word.length) : (reading n word i).accepted = n.accepts word := by
  have hm : word.length < i + ((word.drop i).length + 2) := by
    rw [List.length_drop]
    omega
  have hlast := getLast?_take_reading (n := n) hi hm
  rw [accepted, events]
  change (((reading n word i).take ((word.drop i).length + 2)).getLast? == _) = _
  rw [hlast]
  cases n.accepts word <;> rfl

theorem accepted_start (n : Nfa) (word : List Char) : (start n word).accepted = n.accepts word := by
  have hlast : ((reading n word 0).take (word.length + 1)).getLast? =
      some (.finished (n.accepts word)) :=
    getLast?_take_reading (Nat.zero_le _) (by omega)
  rw [accepted, events, take, next_start]
  change ((_ :: (reading n word 0).take (word.length + 1)).getLast? == _) = _
  rw [List.getLast?_cons, hlast]
  cases n.accepts word <;> rfl

/-! ## The whole run -/

/-- What the calls on a run of `n` on a word come to. Call number `k + 1` is made on the run after
`k` calls. -/
structure Reports (n : Nfa) (word : List Char) : Prop where
  first : ((start n word).after 0).next.1 = some (.active (n.closure (.singleton n.start)))
  active : ∀ i, 1 ≤ i → i ≤ word.length →
    ((start n word).after i).next.1 = some (.active (n.stepAll n.initial (word.take i)))
  verdict : ∃ verdict, ((start n word).after (word.length + 1)).next.1 = some (.finished verdict) ∧
    (verdict = true ↔ ∃ q ∈ n.stepAll n.initial word, q ∈ n.accepting)
  silent : ∀ k, word.length + 2 ≤ k → ((start n word).after k).next.1 = none
  position_eq : ∀ k, ((start n word).after k).position = min (k - 1) word.length
  rest_eq : ∀ k, ((start n word).after k).rest = word.drop ((start n word).after k).position
  current_zero : ((start n word).after 0).current = none
  current_succ : ∀ k, ((start n word).after (k + 1)).current =
    some (n.stepAll n.initial (word.take k))
  done_iff : ∀ k, ((start n word).after k).done = true ↔ word.length + 2 ≤ k
  take_eq : ∀ k m, word.length + 2 ≤ m → ((start n word).after k).take m =
    ((start n word).after k).events
  accepted_eq : ∀ k, k ≤ word.length + 1 → ((start n word).after k).accepted = n.accepts word
  accepted_eq_false : ∀ k, word.length + 2 ≤ k → ((start n word).after k).accepted = false

theorem reports_start (n : Nfa) (word : List Char) : Reports n word where
  first := rfl
  active i hi hlen := by
    obtain ⟨j, rfl⟩ : ∃ j, i = j + 1 := ⟨i - 1, by omega⟩
    rw [after_start (by omega), next_reading (by omega)]
  verdict := by
    refine ⟨_, ?_, Nfa.isAccepting_iff⟩
    rw [after_start (Nat.le_refl _), next_reading_length]
  silent k hk := by rw [after_start_spent hk, next_spent]
  position_eq := position_after n word
  rest_eq := rest_after n word
  current_zero := rfl
  current_succ := current_after_succ n word
  done_iff := done_after_iff n word
  take_eq k m hm := by
    apply take_eq_events
    rw [rest_after, List.length_drop]
    omega
  accepted_eq k hk := by
    cases k with
    | zero => exact accepted_start n word
    | succ i => rw [after_start (by omega), accepted_reading (by omega)]
  accepted_eq_false k hk := by
    rw [after_start_spent hk]
    rfl

end RegularLanguages.PausedRun
