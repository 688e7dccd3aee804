import RegularLanguages.Rows
import RegularLanguages.StateSet

/-!
# Reachable states

`StateSet.reach` adds to a set of states all that edges lead to from it, one after another. The
edges are put into rows by their sources first, so that every edge is looked at once. `mem_reach`
says that exactly the states at the end of paths from the set are added, so reaching from a union
is the union of reaching.
-/

namespace RegularLanguages

/-- `Leads edges p q` says that edges, given by source and target, lead from `p` to `q`, or that
these are one. -/
inductive Leads (edges : List (Nat × Nat)) : Nat → Nat → Prop
  | refl (q : Nat) : Leads edges q q
  | step {p q r : Nat} : (p, q) ∈ edges → Leads edges q r → Leads edges p r

theorem Leads.trans {edges : List (Nat × Nat)} {p q r : Nat} (h : Leads edges p q)
    (h' : Leads edges q r) :
    Leads edges p r := by
  induction h with
  | refl => exact h'
  | step he _ ih => exact .step he (ih h')

namespace StateSet

/-- Notes a state, unless it has been seen: among those seen, and among those pending. -/
def note (p : StateSet × List Nat) (q : Nat) : StateSet × List Nat :=
  if q ∈ p.1 then p else (p.1.insert q, q :: p.2)

/-- Follows the edges from the pending states, at most as many as the number says, and gives the
states seen. -/
def saturate (next : Nat → List Nat) : Nat → StateSet × List Nat → StateSet
  | 0, (seen, _) => seen
  | _ + 1, (seen, []) => seen
  | fuel + 1, (seen, q :: pending) => saturate next fuel ((next q).foldl note (seen, pending))

/-- The states that edges in rows lead to from a set, together with the set. The number is that of
the edges. -/
def reachBy (rows : Array (List Nat)) (count : Nat) (s : StateSet) : StateSet :=
  let states := s.toList
  saturate (fun q => rows[q]?.getD []) (states.length + count) (s, states)

/-- The states that edges, given by source and target, lead to from a set, together with the set. -/
def reach (edges : List (Nat × Nat)) (s : StateSet) : StateSet :=
  s.reachBy (rowsOf edges) edges.length

/-! ## What is reached -/

theorem foldl_note (l : List Nat) (p : StateSet × List Nat) :
    (∀ q, q ∈ (l.foldl note p).1 ↔ q ∈ p.1 ∨ q ∈ l) ∧
      (∀ q ∈ (l.foldl note p).2, q ∈ p.2 ∨ q ∈ l) ∧
      (∀ q ∈ p.2, q ∈ (l.foldl note p).2) ∧
      ∀ q ∈ (l.foldl note p).1, q ∈ p.1 ∨ q ∈ (l.foldl note p).2 := by
  induction l generalizing p with
  | nil => exact ⟨fun q => by simp, fun q hq => .inl hq, fun q hq => hq, fun q hq => .inl hq⟩
  | cons x xs ih =>
    obtain ⟨hseen, hpending, hkept, hnew⟩ := ih (note p x)
    rw [List.foldl_cons]
    by_cases hx : x ∈ p.1
    · have hnote : note p x = p := if_pos hx
      rw [hnote] at hseen hpending hkept hnew ⊢
      refine ⟨fun q => ?_, fun q hq => (hpending q hq).imp_right (List.mem_cons_of_mem x),
        hkept, hnew⟩
      rw [hseen, List.mem_cons]
      refine ⟨fun h => h.imp_right .inr, fun h => ?_⟩
      rcases h with h | rfl | h
      · exact .inl h
      · exact .inl hx
      · exact .inr h
    · have hnote : note p x = (p.1.insert x, x :: p.2) := if_neg hx
      rw [hnote] at hseen hpending hkept hnew ⊢
      refine ⟨fun q => ?_, fun q hq => ?_, fun q hq => hkept q (List.mem_cons_of_mem x hq),
        fun q hq => ?_⟩
      · rw [hseen, mem_insert, List.mem_cons, or_assoc, or_left_comm]
      · rcases hpending q hq with h | h
        · rcases List.mem_cons.1 h with rfl | h
          · exact .inr List.mem_cons_self
          · exact .inl h
        · exact .inr (List.mem_cons_of_mem x h)
      · rcases hnew q hq with h | h
        · rcases mem_insert.1 h with rfl | h
          · exact .inr (hkept q List.mem_cons_self)
          · exact .inl h
        · exact .inr h

def unseen (edges : List (Nat × Nat)) (seen : StateSet) : Nat :=
  edges.countP fun e => decide (e.2 ∉ seen)

theorem unseen_insert_lt {edges : List (Nat × Nat)} {seen : StateSet} {e : Nat × Nat}
    (he : e ∈ edges) (hx : e.2 ∉ seen) : unseen edges (seen.insert e.2) < unseen edges seen := by
  have hle : ∀ l : List (Nat × Nat), unseen l (seen.insert e.2) ≤ unseen l seen := fun l =>
    List.countP_mono_left fun d _ hd => by simp_all
  induction edges with
  | nil => exact absurd he List.not_mem_nil
  | cons d ds ih =>
    simp only [unseen, List.countP_cons] at hle ih ⊢
    rcases List.mem_cons.1 he with rfl | he
    · have := hle ds
      have hin : e.2 ∈ seen.insert e.2 := mem_insert.2 (.inl rfl)
      simp only [hin, not_true, decide_false, Bool.false_eq_true, if_false, hx, not_false_eq_true,
        decide_true, if_true]
      omega
    · have := ih he
      have hd : d.2 ∉ seen.insert e.2 → d.2 ∉ seen := fun h hd => h (mem_insert.2 (.inr hd))
      by_cases h : d.2 ∉ seen.insert e.2
      · simp only [h, hd h, not_false_eq_true, decide_true, if_true]
        omega
      · simp only [h, decide_false, Bool.false_eq_true, if_false]
        omega

theorem length_foldl_note {edges : List (Nat × Nat)} {l : List Nat}
    (h : ∀ q ∈ l, ∃ e ∈ edges, e.2 = q) (p : StateSet × List Nat) :
    (l.foldl note p).2.length + unseen edges (l.foldl note p).1 ≤
      p.2.length + unseen edges p.1 := by
  induction l generalizing p with
  | nil => exact Nat.le_refl _
  | cons x xs ih =>
    refine Nat.le_trans (ih (fun q hq => h q (List.mem_cons_of_mem x hq)) (note p x)) ?_
    by_cases hx : x ∈ p.1
    · simp only [show note p x = p from if_pos hx, Nat.le_refl]
    · obtain ⟨e, he, rfl⟩ := h x List.mem_cons_self
      rw [show note p e.2 = (p.1.insert e.2, e.2 :: p.2) from if_neg hx]
      have := unseen_insert_lt he hx
      simp only [List.length_cons]
      omega

/-- What holds of the states seen and pending in the course of a search from a set. -/
structure Searching (edges : List (Nat × Nat)) (s : StateSet) (seen : StateSet)
    (pending : List Nat) : Prop where
  start_seen : ∀ q ∈ s, q ∈ seen
  closed : ∀ q ∈ seen, q ∈ pending ∨ ∀ r, (q, r) ∈ edges → r ∈ seen
  reached : ∀ q ∈ seen, ∃ p ∈ s, Leads edges p q
  pending_seen : ∀ q ∈ pending, q ∈ seen

theorem searching_saturate {edges : List (Nat × Nat)} {next : Nat → List Nat} {s : StateSet}
    (hnext : ∀ q r, r ∈ next q ↔ (q, r) ∈ edges) {fuel : Nat} {seen : StateSet} {pending : List Nat}
    (h : Searching edges s seen pending) (hfuel : pending.length + unseen edges seen ≤ fuel) :
    Searching edges s (saturate next fuel (seen, pending)) [] := by
  induction fuel generalizing seen pending with
  | zero =>
    cases pending with
    | nil => exact h
    | cons q qs => simp at hfuel
  | succ fuel ih =>
    cases pending with
    | nil => exact h
    | cons q qs =>
      rw [saturate]
      have htargets : ∀ r ∈ next q, ∃ e ∈ edges, e.2 = r :=
        fun r hr => ⟨(q, r), (hnext q r).1 hr, rfl⟩
      have hlen := length_foldl_note htargets (seen, qs)
      obtain ⟨hseen, hpending, hkept, hnew⟩ := foldl_note (next q) (seen, qs)
      generalize (next q).foldl note (seen, qs) = found at hlen hseen hpending hkept hnew
      obtain ⟨seen', pending'⟩ := found
      refine ih ⟨fun r hr => (hseen r).2 (.inl (h.start_seen r hr)), fun r hr => ?_, fun r hr => ?_,
        fun r hr => ?_⟩ ?_
      · by_cases hq : r = q
        · subst hq
          exact .inr fun t ht => (hseen t).2 (.inr ((hnext r t).2 ht))
        · rcases hnew r hr with hr | hr
          · rcases h.closed r hr with hp | hc
            · rcases List.mem_cons.1 hp with hp | hp
              · exact absurd hp hq
              · exact .inl (hkept r hp)
            · exact .inr fun t ht => (hseen t).2 (.inl (hc t ht))
          · exact .inl hr
      · rcases (hseen r).1 hr with hr | hr
        · exact h.reached r hr
        · obtain ⟨p, hp, hpq⟩ := h.reached q (h.pending_seen q List.mem_cons_self)
          exact ⟨p, hp, hpq.trans (.step ((hnext q r).1 hr) (.refl r))⟩
      · rcases hpending r hr with hr | hr
        · exact (hseen r).2 (.inl (h.pending_seen r (List.mem_cons_of_mem q hr)))
        · exact (hseen r).2 (.inr hr)
      · simp only [List.length_cons] at hfuel hlen
        omega

theorem mem_of_leads {edges : List (Nat × Nat)} {seen : StateSet}
    (hclosed : ∀ q ∈ seen, ∀ r, (q, r) ∈ edges → r ∈ seen) {p q : Nat} (h : Leads edges p q)
    (hp : p ∈ seen) :
    q ∈ seen := by
  induction h with
  | refl => exact hp
  | step he _ ih => exact ih (hclosed _ hp _ he)

/-- The states at the end of paths from a set are reached, and no others. -/
theorem mem_reach {edges : List (Nat × Nat)} {s : StateSet} {q : Nat} :
    q ∈ s.reach edges ↔ ∃ p ∈ s, Leads edges p q := by
  have hnext : ∀ p r, r ∈ (rowsOf edges)[p]?.getD [] ↔ (p, r) ∈ edges := fun p r => by
    rw [getD_rowsOf, List.mem_filterMap]
    constructor
    · rintro ⟨e, he, hr⟩
      by_cases hp : e.1 = p
      · rw [if_pos hp] at hr
        exact (Prod.ext hp (Option.some.inj hr) : e = (p, r)) ▸ he
      · rw [if_neg hp] at hr
        cases hr
    · intro h
      exact ⟨(p, r), h, if_pos rfl⟩
  have h : Searching edges s (s.reach edges) [] := by
    refine searching_saturate hnext ⟨fun q hq => hq, fun q hq => .inl (mem_toList.2 hq),
      fun q hq => ⟨q, hq, .refl q⟩, fun q hq => mem_toList.1 hq⟩ ?_
    exact Nat.add_le_add_left List.countP_le_length _
  constructor
  · exact h.reached q
  · rintro ⟨p, hp, hpq⟩
    exact mem_of_leads (fun q hq => (h.closed q hq).resolve_left List.not_mem_nil) hpq
      (h.start_seen p hp)

end StateSet

end RegularLanguages
