import Mathlib.Data.List.Induction
import Mathlib.Data.List.Lex
import Mathlib.Data.List.Nodup
import Mathlib.Data.List.Shortlex
import RegularLanguages.Search

/-!
# What a breadth-first search finds

Words are compared by length first and then by their characters (`List.Shortlex`). If the edges
from every node ascend strictly by their labels, a search visits the nodes by ascending words, and
the word of a visit is the least of all words that lead to its node:

* `Explored` is the invariant of the layers: after `k` of them, every node that a word of at most
  `k` labels leads to has been found;
* `explore_explored` says that the invariant holds at the end of a search, which stops after a
  layer that is empty or holds a node to stop at;
* `explore_enumerates` is the case of a search that stops nowhere: it finds every node.
-/

namespace RegularLanguages.Search

variable {α σ : Type}

/-- `Spells next x w y` says that edges with the labels `w` lead from `x` to `y`. -/
inductive Spells (next : α → List (σ × α)) : α → List σ → α → Prop
  | refl (x : α) : Spells next x [] x
  | step {x y z : α} {a : σ} {w : List σ} :
    (a, y) ∈ next x → Spells next y w z → Spells next x (a :: w) z

theorem spells_append {next : α → List (σ × α)} {x z : α} {u v : List σ} :
    Spells next x (u ++ v) z ↔ ∃ y, Spells next x u y ∧ Spells next y v z := by
  induction u generalizing x with
  | nil =>
      constructor
      · intro h
        exact ⟨x, .refl x, h⟩
      · rintro ⟨y, hu, hv⟩
        cases hu
        exact hv
  | cons a u ih =>
      constructor
      · intro h
        cases h with
        | step he h =>
            obtain ⟨y, hu, hv⟩ := ih.1 h
            exact ⟨y, .step he hu, hv⟩
      · rintro ⟨y, hu, hv⟩
        cases hu with
        | step he hu => exact .step he (ih.2 ⟨y, hu, hv⟩)

theorem spells_singleton {next : α → List (σ × α)} {x y : α} {a : σ} :
    Spells next x [a] y ↔ (a, y) ∈ next x := by
  constructor
  · intro h
    cases h with
    | step he h =>
        cases h
        exact he
  · intro h
    exact .step h (.refl y)

def ReachesAtMost (next : α → List (σ × α)) (start : α) (bound : Nat) : Prop :=
  ∀ l : List α, l.Nodup → (∀ y ∈ l, ∃ w, Spells next start w y) → l.length ≤ bound

theorem reachesAtMost_length {next : α → List (σ × α)} {start : α} {nodes : List α}
    (h : ∀ w y, Spells next start w y → y ∈ nodes) : ReachesAtMost next start nodes.length := by
  intro l hl hreached
  have hsub : l ⊆ nodes := by
    intro y hy
    obtain ⟨w, hw⟩ := hreached y hy
    exact h w y hw
  exact hl.length_le_of_subset hsub

theorem reachesAtMost_of_lt {next : Nat → List (σ × Nat)} {start bound : Nat}
    (h : ∀ w y, Spells next start w y → y < bound) : ReachesAtMost next start bound := by
  have hbound : ReachesAtMost next start (List.range bound).length :=
    reachesAtMost_length fun w y hw => List.mem_range.2 (h w y hw)
  rw [List.length_range] at hbound
  exact hbound

/-! ## The least word to a node -/

variable [LinearOrder σ]

/-- `Least next x y w` says that `w` is the least word that leads from `x` to `y`. -/
def Least (next : α → List (σ × α)) (x y : α) (w : List σ) : Prop :=
  Spells next x w y ∧ ∀ u, Spells next x u y → ¬ List.Shortlex (· < ·) u w

/-- Words of one length and one more label each are compared without the label first. -/
theorem shortlex_concat {u v : List σ} (h : u.length = v.length) (a b : σ) :
    List.Shortlex (· < ·) (u ++ [a]) (v ++ [b]) ↔ List.Shortlex (· < ·) u v ∨ u = v ∧ a < b := by
  induction u generalizing v with
  | nil =>
      cases v with
      | nil => simp
      | cons y v => simp at h
  | cons x u ih =>
      cases v with
      | nil => simp at h
      | cons y v =>
          have huv : u.length = v.length := by simpa using h
          have ih' := ih huv
          rw [List.shortlex_iff_lex (by simp [huv]), List.shortlex_iff_lex huv] at ih'
          rw [List.shortlex_iff_lex (by simp [huv]), List.shortlex_iff_lex h]
          rw [List.cons_append, List.cons_append]
          by_cases hxy : x = y
          · subst hxy
            rw [List.lex_cons_iff, List.lex_cons_iff, ih']
            simp
          · constructor
            · intro hlex
              cases hlex with
              | cons _ => exact absurd rfl hxy
              | rel hlt => exact .inl (.rel hlt)
            · intro hor
              rcases hor with hlex | ⟨heq, -⟩
              · cases hlex with
                | cons _ => exact absurd rfl hxy
                | rel hlt => exact .rel hlt
              · exact absurd (List.cons.inj heq).1 hxy

theorem shortlex_trans {u v w : List σ} (huv : List.Shortlex (· < ·) u v)
    (hvw : List.Shortlex (· < ·) v w) : List.Shortlex (· < ·) u w := by
  rw [List.shortlex_def] at *
  rcases huv with huv | ⟨huv, hlex⟩
  · left
    rcases hvw with hvw | ⟨hvw, -⟩ <;> omega
  · rcases hvw with hvw | ⟨hvw, hlex'⟩
    · left
      omega
    · right
      exact ⟨by omega, lt_trans (α := List σ) hlex hlex'⟩

theorem shortlex_irrefl (w : List σ) : ¬ List.Shortlex (· < ·) w w := by
  intro h
  exact asymm h h

theorem eq_of_not_shortlex {u v : List σ} (huv : ¬ List.Shortlex (· < ·) u v)
    (hvu : ¬ List.Shortlex (· < ·) v u) : u = v :=
  Std.Trichotomous.trichotomous (r := List.Shortlex (· < · : σ → σ → Prop)) u v huv hvu

theorem Least.unique {next : α → List (σ × α)} {x y : α} {u v : List σ} (hu : Least next x y u)
    (hv : Least next x y v) : u = v :=
  eq_of_not_shortlex (hv.2 u hu.1) (hu.2 v hv.1)

/-- Whether the edges from every node ascend strictly by their labels. -/
def AscendingRows (next : α → List (σ × α)) : Prop := ∀ x, (next x).Pairwise fun d e => d.1 < e.1

/-! ## One layer -/

section Layers

variable {α σ : Type}

def follow (next : α → List (σ × α)) (v : Visit α σ) (e : σ × α) : Visit α σ :=
  ⟨e.2, e.1 :: v.trail, next e.2⟩

theorem word_follow (next : α → List (σ × α)) (v : Visit α σ) (e : σ × α) :
    (follow next v e).word = v.word ++ [e.1] := by
  rw [follow, Visit.word, Visit.word, List.reverse_cons]

def candidates (next : α → List (σ × α)) (layer : List (Visit α σ)) : List (Visit α σ) :=
  layer.flatMap fun v => v.edges.map (follow next v)

theorem mem_candidates {next : α → List (σ × α)} {layer : List (Visit α σ)} {v : Visit α σ} :
    v ∈ candidates next layer ↔ ∃ u ∈ layer, ∃ e ∈ u.edges, follow next u e = v := by
  simp only [candidates, List.mem_flatMap, List.mem_map]

variable [Key α]

def firstVisits (known : KeySet α) : List (Visit α σ) → List (Visit α σ)
  | [] => []
  | v :: vs =>
    if known.contains v.node then firstVisits known vs
    else v :: firstVisits (known.insert v.node) vs

private def meetVisit (l : Layer α σ) (v : Visit α σ) : Layer α σ :=
  if l.known.contains v.node then l else ⟨l.known.insert v.node, v :: l.fresh⟩

private theorem contains_foldl_meetVisit (vs : List (Visit α σ)) (l : Layer α σ) (x : α) :
    (vs.foldl meetVisit l).known.contains x = true ↔
      l.known.contains x = true ∨ ∃ v ∈ vs, v.node = x := by
  induction vs generalizing l with
  | nil => simp
  | cons v vs ih =>
      rw [List.foldl_cons, ih, List.exists_mem_cons_iff, ← or_assoc]
      apply or_congr_left
      unfold meetVisit
      split
      · rename_i hv
        constructor
        · exact .inl
        · rintro (hx | rfl)
          · exact hx
          · exact hv
      · rw [KeySet.contains_insert_iff, or_comm, eq_comm (a := x)]

private theorem fresh_foldl_meetVisit (vs : List (Visit α σ)) (l : Layer α σ) :
    (vs.foldl meetVisit l).fresh = (firstVisits l.known vs).reverse ++ l.fresh := by
  induction vs generalizing l with
  | nil => rfl
  | cons v vs ih =>
      rw [List.foldl_cons, ih, firstVisits, meetVisit]
      split
      · rfl
      · simp

private theorem layerAfter_eq_foldl_meetVisit (next : α → List (σ × α)) (known : KeySet α)
    (layer : List (Visit α σ)) :
    layerAfter next known layer = (candidates next layer).foldl meetVisit ⟨known, []⟩ := by
  unfold layerAfter candidates
  rw [List.foldl_flatMap]
  congr 1
  funext l v
  rw [List.foldl_map]
  rfl

theorem fresh_layerAfter (next : α → List (σ × α)) (known : KeySet α) (layer : List (Visit α σ)) :
    (layerAfter next known layer).fresh = (firstVisits known (candidates next layer)).reverse := by
  rw [layerAfter_eq_foldl_meetVisit, fresh_foldl_meetVisit, List.append_nil]

theorem contains_layerAfter (next : α → List (σ × α)) (known : KeySet α) (layer : List (Visit α σ))
    (x : α) :
    (layerAfter next known layer).known.contains x = true ↔
      known.contains x = true ∨ ∃ v ∈ candidates next layer, v.node = x := by
  rw [layerAfter_eq_foldl_meetVisit, contains_foldl_meetVisit]

theorem firstVisits_sublist (known : KeySet α) (vs : List (Visit α σ)) :
    (firstVisits known vs).Sublist vs := by
  induction vs generalizing known with
  | nil => exact List.Sublist.refl []
  | cons v vs ih =>
      unfold firstVisits
      split
      · exact (ih known).cons v
      · exact (ih _).cons_cons v

theorem not_known_of_mem_firstVisits {known : KeySet α} {vs : List (Visit α σ)} {v : Visit α σ}
    (h : v ∈ firstVisits known vs) : known.contains v.node = false := by
  induction vs generalizing known with
  | nil => exact absurd h List.not_mem_nil
  | cons u vs ih =>
      unfold firstVisits at h
      split at h
      · exact ih h
      · rename_i hu
        rcases List.mem_cons.1 h with rfl | h
        · exact Bool.eq_false_of_not_eq_true hu
        · have hv := ih h
          rw [← Bool.not_eq_true, KeySet.contains_insert_iff, not_or] at hv
          exact Bool.eq_false_of_not_eq_true hv.2

/-- The first visit to a node stands at or before every other visit to it. -/
theorem exists_mem_firstVisits {r : Visit α σ → Visit α σ → Prop} {known : KeySet α}
    {vs : List (Visit α σ)} (hvs : vs.Pairwise r) {v : Visit α σ} (hv : v ∈ vs)
    (hnew : known.contains v.node = false) :
    ∃ u ∈ firstVisits known vs, u.node = v.node ∧ (u = v ∨ r u v) := by
  induction vs generalizing known with
  | nil => exact absurd hv List.not_mem_nil
  | cons x vs ih =>
      rw [List.pairwise_cons] at hvs
      unfold firstVisits
      by_cases hx : known.contains x.node = true
      · rw [if_pos hx]
        rcases List.mem_cons.1 hv with rfl | hv
        · rw [hnew] at hx
          cases hx
        · exact ih hvs.2 hv hnew
      · rw [if_neg hx]
        rcases List.mem_cons.1 hv with rfl | hv
        · exact ⟨v, List.mem_cons_self, rfl, .inl rfl⟩
        · by_cases heq : x.node = v.node
          · exact ⟨x, List.mem_cons_self, heq, .inr (hvs.1 v hv)⟩
          · have hnew' : (known.insert x.node).contains v.node = false := by
              rw [← Bool.not_eq_true, KeySet.contains_insert_iff, not_or, Bool.not_eq_true]
              exact ⟨Ne.symm heq, hnew⟩
            obtain ⟨u, hu, hnode, hr⟩ := ih hvs.2 hv hnew'
            exact ⟨u, List.mem_cons_of_mem x hu, hnode, hr⟩

theorem nodup_firstVisits (known : KeySet α) (vs : List (Visit α σ)) :
    ((firstVisits known vs).map (·.node)).Nodup := by
  induction vs generalizing known with
  | nil => exact List.nodup_nil
  | cons v vs ih =>
      unfold firstVisits
      split
      · exact ih known
      · rw [List.map_cons, List.nodup_cons]
        refine ⟨fun hmem => ?_, ih _⟩
        obtain ⟨u, hu, hnode⟩ := List.mem_map.1 hmem
        have hnot := not_known_of_mem_firstVisits hu
        rw [hnode, KeySet.contains_insert_iff.2 (.inl rfl)] at hnot
        cases hnot

end Layers

/-! ## All layers -/

/-- Visits whose words are the least that lead to their nodes, by ascending words. -/
structure Found (next : α → List (σ × α)) (start : α) (visits : List (Visit α σ)) : Prop where
  edges_eq : ∀ v ∈ visits, v.edges = next v.node
  least : ∀ v ∈ visits, Least next start v.node v.word
  ascending : visits.Pairwise fun u v => List.Shortlex (· < ·) u.word v.word

/-- After `k` layers, of which the given one is the last, all words of at most `k` labels are
covered. -/
structure Explored (next : α → List (σ × α)) (start : α) (k : Nat)
    (visits layer : List (Visit α σ)) : Prop extends Found next start visits where
  mem_layer : ∀ v, v ∈ layer ↔ v ∈ visits ∧ v.word.length = k
  layer_ascending : layer.Pairwise fun u v => List.Shortlex (· < ·) u.word v.word
  length_le : ∀ v ∈ visits, v.word.length ≤ k
  covers : ∀ w y, Spells next start w y → w.length ≤ k → ∃ v ∈ visits, v.node = y

variable {next : α → List (σ × α)} {start : α} {k : Nat} {visits layer : List (Visit α σ)}

theorem Found.node_inj (h : Found next start visits) {u v : Visit α σ} (hu : u ∈ visits)
    (hv : v ∈ visits) (hnode : u.node = v.node) : u.word = v.word := by
  have hleast := h.least u hu
  rw [hnode] at hleast
  exact hleast.unique (h.least v hv)

theorem Found.nodup (h : Found next start visits) : (visits.map (·.node)).Nodup := by
  rw [List.Nodup, List.pairwise_map]
  apply h.ascending.imp_of_mem
  intro u v hu hv hlt hnode
  rw [h.node_inj hu hv hnode] at hlt
  exact shortlex_irrefl _ hlt

/-- A word with one more label is covered by the next candidates, if it was not covered before. -/
theorem Explored.exists_candidate (h : Explored next start k visits layer) {u : List σ} {a : σ}
    {y : α} (hspells : Spells next start (u ++ [a]) y) (hlen : u.length ≤ k) :
    (∃ v ∈ visits, v.node = y) ∨
      ∃ v ∈ candidates next layer, v.node = y ∧ ∃ t, v.word = t ++ [a] ∧ t.length = k ∧
        ¬ List.Shortlex (· < ·) u t := by
  obtain ⟨x, hu, ha⟩ := spells_append.1 hspells
  obtain ⟨v, hv, rfl⟩ := h.covers u x hu hlen
  have hleast := h.least v hv
  by_cases hk : v.word.length = k
  · right
    have hlayer : v ∈ layer := (h.mem_layer v).2 ⟨hv, hk⟩
    have hedge : (a, y) ∈ v.edges := by
      rw [h.edges_eq v hv]
      exact spells_singleton.1 ha
    exact ⟨_, mem_candidates.2 ⟨v, hlayer, _, hedge, rfl⟩, rfl, v.word, word_follow next v _, hk,
      hleast.2 u hu⟩
  · left
    have hlt : v.word.length ≤ k := h.length_le v hv
    apply h.covers (v.word ++ [a]) y (spells_append.2 ⟨_, hleast.1, ha⟩)
    rw [List.length_append, List.length_singleton]
    omega

theorem Explored.spells_of_mem_candidates (h : Explored next start k visits layer) {v : Visit α σ}
    (hv : v ∈ candidates next layer) :
    Spells next start v.word v.node ∧ v.word.length = k + 1 ∧ v.edges = next v.node := by
  obtain ⟨u, hu, e, he, rfl⟩ := mem_candidates.1 hv
  have hvisits := (h.mem_layer u).1 hu
  rw [h.edges_eq u hvisits.1] at he
  rw [word_follow, List.length_append, hvisits.2]
  exact ⟨spells_append.2 ⟨_, (h.least u hvisits.1).1, spells_singleton.2 he⟩, rfl, rfl⟩

theorem Explored.candidates_ascending (hrows : AscendingRows next)
    (h : Explored next start k visits layer) :
    (candidates next layer).Pairwise fun u v => List.Shortlex (· < ·) u.word v.word := by
  unfold candidates
  rw [List.pairwise_flatMap]
  constructor
  · intro u hu
    rw [List.pairwise_map, h.edges_eq u ((h.mem_layer u).1 hu).1]
    apply (hrows u.node).imp
    intro d e hlt
    rw [word_follow, word_follow, shortlex_concat rfl]
    exact .inr ⟨rfl, hlt⟩
  · apply h.layer_ascending.imp_of_mem
    intro u v hu hv hlt x hx y hy
    obtain ⟨d, -, rfl⟩ := List.mem_map.1 hx
    obtain ⟨e, -, rfl⟩ := List.mem_map.1 hy
    have hlen : u.word.length = v.word.length := by
      rw [((h.mem_layer u).1 hu).2, ((h.mem_layer v).1 hv).2]
    rw [word_follow, word_follow, shortlex_concat hlen]
    exact .inl hlt

/-- Nothing new after a layer without nodes: every word is covered. -/
theorem Explored.covers_all (h : Explored next start k visits []) {w : List σ} {y : α}
    (hw : Spells next start w y) : ∃ v ∈ visits, v.node = y := by
  induction w using List.reverseRecOn generalizing y with
  | nil => exact h.covers [] y hw (Nat.zero_le k)
  | append_singleton u a ih =>
      obtain ⟨x, hu, ha⟩ := spells_append.1 hw
      obtain ⟨v, hv, rfl⟩ := ih hu
      have hne : v.word.length ≠ k := by
        intro hk
        exact absurd ((h.mem_layer v).2 ⟨hv, hk⟩) List.not_mem_nil
      have hle := h.length_le v hv
      apply h.covers (v.word ++ [a]) y (spells_append.2 ⟨_, (h.least v hv).1, ha⟩)
      rw [List.length_append, List.length_singleton]
      omega

theorem explored_start (next : α → List (σ × α)) (start : α) :
    Explored next start 0 [⟨start, [], next start⟩] [⟨start, [], next start⟩] where
  edges_eq v hv := by
    rw [List.mem_singleton.1 hv]
  least v hv := by
    rw [List.mem_singleton.1 hv]
    exact ⟨.refl start, fun u _ => List.not_shortlex_nil_right⟩
  ascending := List.pairwise_singleton _ _
  mem_layer v := by
    constructor
    · intro hv
      refine ⟨hv, ?_⟩
      rw [List.mem_singleton.1 hv]
      rfl
    · exact fun h => h.1
  layer_ascending := List.pairwise_singleton _ _
  length_le v hv := by
    rw [List.mem_singleton.1 hv]
    exact Nat.le_refl 0
  covers w y hw hlen := by
    have hnil : w = [] := List.eq_nil_of_length_eq_zero (Nat.le_zero.1 hlen)
    subst hnil
    cases hw
    exact ⟨_, List.mem_singleton_self _, rfl⟩

variable [Key α]

def Knows (known : KeySet α) (visits : List (Visit α σ)) : Prop :=
  ∀ x, known.contains x = true ↔ ∃ v ∈ visits, v.node = x

variable {known : KeySet α}

omit [LinearOrder σ] in
theorem Knows.node_ne (hknown : Knows known visits) {u v : Visit α σ} {vs : List (Visit α σ)}
    (hu : u ∈ visits) (hv : v ∈ firstVisits known vs) : u.node ≠ v.node := by
  intro hnode
  have hnot := not_known_of_mem_firstVisits hv
  rw [(hknown v.node).2 ⟨u, hu, hnode⟩] at hnot
  cases hnot

omit [LinearOrder σ] in
theorem Knows.layerAfter (hknown : Knows known visits) :
    Knows (layerAfter next known layer).known
      (visits ++ firstVisits known (candidates next layer)) := by
  intro x
  rw [contains_layerAfter, hknown]
  constructor
  · intro hx
    by_cases hold : ∃ v ∈ visits, v.node = x
    · obtain ⟨v, hv, hnode⟩ := hold
      exact ⟨v, List.mem_append_left _ hv, hnode⟩
    · obtain ⟨v, hv, rfl⟩ := hx.resolve_left hold
      have hnew : known.contains v.node = false := by
        rw [← Bool.not_eq_true, hknown]
        exact hold
      obtain ⟨u, hu, hnode, -⟩ := exists_mem_firstVisits (r := fun _ _ => True)
        (List.pairwise_of_forall fun _ _ => trivial) hv hnew
      exact ⟨u, List.mem_append_right _ hu, hnode⟩
  · rintro ⟨v, hv, rfl⟩
    rcases List.mem_append.1 hv with hv | hv
    · exact .inl ⟨v, hv, rfl⟩
    · exact .inr ⟨v, (firstVisits_sublist _ _).subset hv, rfl⟩

/-- Of the candidates for one node the first is kept, and its word is the least of theirs. -/
theorem Explored.exists_first (hrows : AscendingRows next) (h : Explored next start k visits layer)
    (hknown : Knows known visits) {v : Visit α σ} (hv : v ∈ candidates next layer)
    (hnew : ∀ u ∈ visits, u.node ≠ v.node) :
    ∃ u ∈ firstVisits known (candidates next layer),
      u.node = v.node ∧ (u = v ∨ List.Shortlex (· < ·) u.word v.word) := by
  apply exists_mem_firstVisits (h.candidates_ascending hrows) hv
  rw [← Bool.not_eq_true, hknown]
  rintro ⟨u, hu, hnode⟩
  exact hnew u hu hnode

theorem Explored.least_of_mem_firstVisits (hrows : AscendingRows next)
    (h : Explored next start k visits layer) (hknown : Knows known visits) {v : Visit α σ}
    (hv : v ∈ firstVisits known (candidates next layer)) : Least next start v.node v.word := by
  have hcandidate := h.spells_of_mem_candidates ((firstVisits_sublist _ _).subset hv)
  refine ⟨hcandidate.1, fun u hu hlt => ?_⟩
  have hlen : u.length ≤ k + 1 := by
    have hvlen := hcandidate.2.1
    rcases List.shortlex_def.1 hlt with hlt | ⟨heq, -⟩ <;> omega
  -- A smaller word has one label more than the layers so far, since they do not hold the node.
  have hk : ¬ u.length ≤ k := by
    intro hk
    obtain ⟨x, hx, hnode⟩ := h.covers u v.node hu hk
    exact hknown.node_ne hx hv hnode
  rcases u.eq_nil_or_concat' with rfl | ⟨t, a, rfl⟩
  · exact hk (Nat.zero_le k)
  rw [List.length_append, List.length_singleton] at hlen hk
  rcases h.exists_candidate hu (by omega) with ⟨x, hx, hnode⟩
    | ⟨x, hx, hnode, t', hword, htlen, hle⟩
  · exact hknown.node_ne hx hv hnode
  have hxnew : ∀ z ∈ visits, z.node ≠ x.node := by
    intro z hz
    rw [hnode]
    exact hknown.node_ne hz hv
  obtain ⟨y, hy, hynode, hyx⟩ := h.exists_first hrows hknown hx hxnew
  have hyv : y = v :=
    List.inj_on_of_nodup_map (nodup_firstVisits known _) hy hv (hynode.trans hnode)
  have htx : List.Shortlex (· < ·) (t ++ [a]) x.word := by
    rw [← hyv] at hlt
    rcases hyx with rfl | hyx
    · exact hlt
    · exact shortlex_trans hlt hyx
  rw [hword, shortlex_concat (by omega)] at htx
  rcases htx with htx | ⟨-, haa⟩
  · exact hle htx
  · exact lt_irrefl a haa

theorem Explored.covers_succ (hrows : AscendingRows next)
    (h : Explored next start k visits layer) (hknown : Knows known visits) {w : List σ} {y : α}
    (hw : Spells next start w y) (hlen : w.length ≤ k + 1) :
    ∃ v ∈ visits ++ firstVisits known (candidates next layer), v.node = y := by
  have hcovered : (∃ v ∈ visits, v.node = y) →
      ∃ v ∈ visits ++ firstVisits known (candidates next layer), v.node = y := by
    rintro ⟨v, hv, hnode⟩
    exact ⟨v, List.mem_append_left _ hv, hnode⟩
  by_cases hold : ∃ v ∈ visits, v.node = y
  · exact hcovered hold
  rcases w.eq_nil_or_concat' with rfl | ⟨t, a, rfl⟩
  · exact hcovered (h.covers [] y hw (Nat.zero_le k))
  rw [List.length_append, List.length_singleton] at hlen
  rcases h.exists_candidate hw (by omega) with hy | ⟨x, hx, rfl, -⟩
  · exact hcovered hy
  obtain ⟨u, hu, hnode, -⟩ := h.exists_first hrows hknown hx fun z hz hzx => hold ⟨z, hz, hzx⟩
  exact ⟨u, List.mem_append_right _ hu, hnode⟩

theorem Explored.succ (hrows : AscendingRows next) (h : Explored next start k visits layer)
    (hknown : Knows known visits) :
    Explored next start (k + 1) (visits ++ firstVisits known (candidates next layer))
      (firstVisits known (candidates next layer)) := by
  have hsub := firstVisits_sublist known (candidates next layer)
  have hascending := (h.candidates_ascending hrows).sublist hsub
  have hfresh : ∀ v ∈ firstVisits known (candidates next layer),
      v.word.length = k + 1 ∧ v.edges = next v.node :=
    fun v hv => (h.spells_of_mem_candidates (hsub.subset hv)).2
  refine { edges_eq := ?_, least := ?_, ascending := ?_, mem_layer := ?_,
           layer_ascending := hascending, length_le := ?_,
           covers := fun w y hw hlen => h.covers_succ hrows hknown hw hlen }
  · intro v hv
    rcases List.mem_append.1 hv with hv | hv
    · exact h.edges_eq v hv
    · exact (hfresh v hv).2
  · intro v hv
    rcases List.mem_append.1 hv with hv | hv
    · exact h.least v hv
    · exact h.least_of_mem_firstVisits hrows hknown hv
  · rw [List.pairwise_append]
    refine ⟨h.ascending, hascending, fun u hu v hv => ?_⟩
    apply List.Shortlex.of_length_lt
    have hulen := h.length_le u hu
    have hvlen := (hfresh v hv).1
    omega
  · intro v
    rw [List.mem_append]
    constructor
    · intro hv
      exact ⟨.inr hv, (hfresh v hv).1⟩
    · rintro ⟨hv | hv, hlen⟩
      · have := h.length_le v hv
        omega
      · exact hv
  · intro v hv
    rcases List.mem_append.1 hv with hv | hv
    · have := h.length_le v hv
      omega
    · exact (hfresh v hv).1.le

omit [LinearOrder σ] in
theorem knows_start (next : α → List (σ × α)) (start : α) :
    Knows ((∅ : KeySet α).insert start) [⟨start, [], next start⟩] := by
  intro x
  rw [KeySet.contains_insert_iff, Std.TreeSet.contains_emptyc]
  simp [eq_comm]

/-! ## The whole search -/

/-- A search under way: it knows the nodes of its visits, and it has made more visits than
layers. -/
structure Underway (next : α → List (σ × α)) (start : α) (k : Nat) (known : KeySet α)
    (visits layer : List (Visit α σ)) : Prop extends Explored next start k visits layer where
  knows : Knows known visits
  lt_length : layer ≠ [] → k < visits.length

theorem underway_start (next : α → List (σ × α)) (start : α) :
    Underway next start 0 ((∅ : KeySet α).insert start) [⟨start, [], next start⟩]
      [⟨start, [], next start⟩] where
  toExplored := explored_start next start
  knows := knows_start next start
  lt_length _ := Nat.one_pos

theorem Underway.layer_eq_nil (h : Underway next start k known visits layer) {bound : Nat}
    (hbound : ReachesAtMost next start bound) (hk : bound ≤ k) : layer = [] := by
  by_contra hne
  have hlt := h.lt_length hne
  have hnodes := hbound (visits.map (·.node)) h.nodup ?_
  · rw [List.length_map] at hnodes
    omega
  · intro y hy
    obtain ⟨v, hv, rfl⟩ := List.mem_map.1 hy
    exact ⟨v.word, (h.least v hv).1⟩

theorem Underway.succ (hrows : AscendingRows next) (h : Underway next start k known visits layer)
    (hne : layer ≠ []) :
    Underway next start (k + 1) (layerAfter next known layer).known
      (visits ++ firstVisits known (candidates next layer))
      (firstVisits known (candidates next layer)) where
  toExplored := h.toExplored.succ hrows h.knows
  knows := h.knows.layerAfter
  lt_length hfresh := by
    have := h.lt_length hne
    have := List.length_pos_iff.2 hfresh
    rw [List.length_append]
    omega

omit [LinearOrder σ] in
theorem exploreFrom_of_stop {stop : α → Bool} {fuel : Nat}
    (hstop : (layer.isEmpty || layer.any fun v => stop v.node) = true) :
    exploreFrom next stop fuel known visits.reverse layer = visits := by
  cases fuel with
  | zero => rw [exploreFrom, List.reverse_reverse]
  | succ fuel => rw [exploreFrom, if_pos hstop, List.reverse_reverse]

omit [LinearOrder σ] in
theorem exploreFrom_of_not_stop {stop : α → Bool} {fuel : Nat}
    (hstop : ¬ (layer.isEmpty || layer.any fun v => stop v.node) = true) :
    exploreFrom next stop (fuel + 1) known visits.reverse layer =
      exploreFrom next stop fuel (layerAfter next known layer).known
        (visits ++ firstVisits known (candidates next layer)).reverse
        (firstVisits known (candidates next layer)) := by
  rw [exploreFrom, if_neg hstop, List.reverse_append]
  simp only [fresh_layerAfter, List.reverse_reverse]

omit [LinearOrder σ] [Key α] in
theorem ne_nil_of_not_stop {stop : α → Bool}
    (hstop : ¬ (layer.isEmpty || layer.any fun v => stop v.node) = true) : layer ≠ [] := by
  rintro rfl
  exact hstop rfl

/-- A search ends with a layer that is empty or holds a node to stop at, if the fuel is as much as
there are nodes. -/
theorem exploreFrom_explored (hrows : AscendingRows next) {stop : α → Bool} {bound fuel : Nat}
    (hbound : ReachesAtMost next start bound) (h : Underway next start k known visits layer)
    (hfuel : bound ≤ k + fuel) :
    ∃ k' layer',
      Explored next start k' (exploreFrom next stop fuel known visits.reverse layer) layer' ∧
      (layer' = [] ∨ ∃ v ∈ layer', stop v.node = true) := by
  induction fuel generalizing k known visits layer with
  | zero =>
      refine ⟨k, layer, ?_, .inl (h.layer_eq_nil hbound hfuel)⟩
      rw [exploreFrom, List.reverse_reverse]
      exact h.toExplored
  | succ fuel ih =>
      by_cases hstop : (layer.isEmpty || layer.any fun v => stop v.node) = true
      · rw [exploreFrom_of_stop hstop]
        rw [Bool.or_eq_true, List.isEmpty_iff, List.any_eq_true] at hstop
        exact ⟨k, layer, h.toExplored, hstop⟩
      · rw [exploreFrom_of_not_stop hstop]
        exact ih (h.succ hrows (ne_nil_of_not_stop hstop)) (by omega)

/-- A search with as much fuel as there are nodes comes to its end by itself: more fuel changes
nothing. -/
theorem exploreFrom_add_fuel (hrows : AscendingRows next) {stop : α → Bool} {bound fuel : Nat}
    (hbound : ReachesAtMost next start bound) (h : Underway next start k known visits layer)
    (hfuel : bound ≤ k + fuel) (more : Nat) :
    exploreFrom next stop (fuel + more) known visits.reverse layer =
      exploreFrom next stop fuel known visits.reverse layer := by
  induction fuel generalizing k known visits layer with
  | zero =>
      have hstop : (layer.isEmpty || layer.any fun v => stop v.node) = true := by
        rw [h.layer_eq_nil hbound hfuel]
        rfl
      rw [exploreFrom_of_stop hstop, exploreFrom_of_stop hstop]
  | succ fuel ih =>
      rw [Nat.add_right_comm]
      by_cases hstop : (layer.isEmpty || layer.any fun v => stop v.node) = true
      · rw [exploreFrom_of_stop hstop, exploreFrom_of_stop hstop]
      · rw [exploreFrom_of_not_stop hstop, exploreFrom_of_not_stop hstop]
        exact ih (h.succ hrows (ne_nil_of_not_stop hstop)) (by omega)

/-- The visits of a search that stops nowhere: every node that a word leads to. -/
structure Enumerates (next : α → List (σ × α)) (start : α) (visits : List (Visit α σ)) : Prop
    extends Found next start visits where
  covers : ∀ w y, Spells next start w y → ∃ v ∈ visits, v.node = y

theorem explore_explored (hrows : AscendingRows next) (stop : α → Bool) {fuel : Nat}
    (hfuel : ReachesAtMost next start fuel) :
    ∃ k layer, Explored next start k (explore next stop fuel start) layer ∧
      (layer = [] ∨ ∃ v ∈ layer, stop v.node = true) :=
  exploreFrom_explored hrows hfuel (underway_start next start) (by omega)

theorem explore_eq_of_le (hrows : AscendingRows next) (stop : α → Bool) {bound fuel : Nat}
    (hbound : ReachesAtMost next start bound) (hle : bound ≤ fuel) :
    explore next stop fuel start = explore next stop bound start := by
  obtain ⟨more, rfl⟩ := Nat.exists_eq_add_of_le hle
  exact exploreFrom_add_fuel hrows hbound (underway_start next start) (by omega) more

theorem explore_enumerates (hrows : AscendingRows next) {fuel : Nat}
    (hfuel : ReachesAtMost next start fuel) :
    Enumerates next start (explore next (fun _ => false) fuel start) := by
  obtain ⟨k, layer, h, hend⟩ := explore_explored hrows (fun _ => false) hfuel
  rcases hend with rfl | ⟨v, -, hv⟩
  · exact ⟨h.toFound, fun w y hw => h.covers_all hw⟩
  · cases hv

/-! ## The first node to stop at -/

theorem eq_or_shortlex {u v : List σ} (h : ¬ List.Shortlex (· < ·) v u) :
    u = v ∨ List.Shortlex (· < ·) u v := by
  by_cases huv : List.Shortlex (· < ·) u v
  · exact .inr huv
  · exact .inl (eq_of_not_shortlex huv h)

theorem stop_eq_false_of_explore (hrows : AscendingRows next) {stop : α → Bool} {fuel : Nat}
    (hfuel : ReachesAtMost next start fuel)
    (hfind : ((explore next stop fuel start).find? fun v => stop v.node) = none)
    {w : List σ} {y : α}
    (hw : Spells next start w y) : stop y = false := by
  rw [List.find?_eq_none] at hfind
  obtain ⟨k, layer, h, hend⟩ := explore_explored hrows stop hfuel
  rcases hend with rfl | ⟨v, hv, hstop⟩
  · obtain ⟨v, hv, rfl⟩ := h.covers_all hw
    exact Bool.eq_false_of_not_eq_true (hfind v hv)
  · exact absurd hstop (hfind v ((h.mem_layer v).1 hv).1)

/-- The first node to stop at is found by the least of all words that lead to such nodes. -/
theorem least_of_explore (hrows : AscendingRows next) {stop : α → Bool} {fuel : Nat}
    (hfuel : ReachesAtMost next start fuel)
    {v : Visit α σ} (hfind : ((explore next stop fuel start).find? fun v => stop v.node) = some v) :
    (Spells next start v.word v.node ∧ stop v.node = true) ∧
      ∀ w y, Spells next start w y → stop y = true →
        w = v.word ∨ List.Shortlex (· < ·) v.word w := by
  obtain ⟨k, layer, h, -⟩ := explore_explored hrows stop hfuel
  obtain ⟨hstop, before, after, heq, hbefore⟩ := List.find?_eq_some_iff_append.1 hfind
  have hv := List.mem_of_find?_eq_some hfind
  refine ⟨⟨(h.least v hv).1, hstop⟩, fun w y hw hy => ?_⟩
  by_cases hlen : w.length ≤ k
  · obtain ⟨u, hu, rfl⟩ := h.covers w y hw hlen
    have huw := eq_or_shortlex ((h.least u hu).2 w hw)
    have hvu : v.word = u.word ∨ List.Shortlex (· < ·) v.word u.word := by
      have hascending := h.ascending
      rw [heq] at hu hascending
      rcases List.mem_append.1 hu with hu | hu
      · -- No node before that of the first visit is one to stop at.
        have hnot := hbefore u hu
        rw [hy] at hnot
        cases hnot
      · rcases List.mem_cons.1 hu with rfl | hu
        · exact .inl rfl
        · exact .inr ((List.pairwise_cons.1 (List.pairwise_append.1 hascending).2.1).1 u hu)
    rcases hvu with hvu | hvu
    · rw [hvu]
      exact huw.imp_left Eq.symm
    · right
      rcases huw with rfl | huw
      · exact hvu
      · exact shortlex_trans hvu huw
  · right
    apply List.Shortlex.of_length_lt
    have := h.length_le v hv
    omega

/-! ## Searches along edges in any order -/

/-- Visits to different nodes, to each of which a word leads. -/
structure Walked (next : α → List (σ × α)) (start : α) (visits : List (Visit α σ)) : Prop where
  nodup : (visits.map (·.node)).Nodup
  edges_eq : ∀ v ∈ visits, v.edges = next v.node
  spells : ∀ v ∈ visits, Spells next start v.word v.node

omit [LinearOrder σ] in
theorem Walked.succ (h : Walked next start visits) (hknown : Knows known visits)
    (hlayer : ∀ v ∈ layer, v ∈ visits) :
    Walked next start (visits ++ firstVisits known (candidates next layer)) := by
  have hfresh : ∀ v ∈ firstVisits known (candidates next layer),
      v.edges = next v.node ∧ Spells next start v.word v.node := by
    intro v hv
    obtain ⟨u, hu, e, he, rfl⟩ := mem_candidates.1 ((firstVisits_sublist _ _).subset hv)
    rw [h.edges_eq u (hlayer u hu)] at he
    refine ⟨rfl, ?_⟩
    rw [word_follow]
    exact spells_append.2 ⟨u.node, h.spells u (hlayer u hu), spells_singleton.2 he⟩
  refine { nodup := ?_, edges_eq := fun v hv => ?_, spells := fun v hv => ?_ }
  · rw [List.map_append, List.nodup_append]
    refine ⟨h.nodup, nodup_firstVisits _ _, fun x hx y hy => ?_⟩
    obtain ⟨u, hu, rfl⟩ := List.mem_map.1 hx
    obtain ⟨v, hv, rfl⟩ := List.mem_map.1 hy
    exact hknown.node_ne hu hv
  · exact (List.mem_append.1 hv).elim (h.edges_eq v) fun hv => (hfresh v hv).1
  · exact (List.mem_append.1 hv).elim (h.spells v) fun hv => (hfresh v hv).2

omit [LinearOrder σ] in
/-- However the edges stand and wherever a search stops, it visits reachable nodes, and none
twice. -/
theorem walked_explore (next : α → List (σ × α)) (stop : α → Bool) (fuel : Nat) (start : α) :
    Walked next start (explore next stop fuel start) := by
  have hfrom : ∀ {fuel : Nat} {known : KeySet α} {visits layer : List (Visit α σ)},
      Walked next start visits → Knows known visits → (∀ v ∈ layer, v ∈ visits) →
        Walked next start (exploreFrom next stop fuel known visits.reverse layer) := by
    intro fuel
    induction fuel with
    | zero =>
        intro known visits layer h _ _
        rw [exploreFrom, List.reverse_reverse]
        exact h
    | succ fuel ih =>
        intro known visits layer h hknown hlayer
        by_cases hstop : (layer.isEmpty || layer.any fun v => stop v.node) = true
        · rw [exploreFrom_of_stop hstop]
          exact h
        · rw [exploreFrom_of_not_stop hstop]
          exact ih (h.succ hknown hlayer) hknown.layerAfter fun v hv => List.mem_append_right _ hv
  have hfirst : Walked next start [⟨start, [], next start⟩] := by
    refine { nodup := List.nodup_singleton start, edges_eq := fun v hv => ?_,
             spells := fun v hv => ?_ }
    · rw [List.mem_singleton.1 hv]
    · rw [List.mem_singleton.1 hv]
      exact .refl start
  exact hfrom hfirst (knows_start next start) fun v hv => hv

end RegularLanguages.Search
