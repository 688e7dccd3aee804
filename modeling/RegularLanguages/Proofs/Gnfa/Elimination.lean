import RegularLanguages.Proofs.Gnfa.Detours
import RegularLanguages.Proofs.Gnfa.Orders
import RegularLanguages.Proofs.Nfa.Paths
import RegularLanguages.Proofs.Regex.Language

/-!
# State elimination keeps the language

A generalized automaton accepts the words of its paths from the start to the accepting state. A
path through an eliminated state enters it, goes round its loop any number of times and leaves it;
that is what the label of the detour stands for (`Gnfa.WellFormed.path_bypass_iff`). When only the
start and the accepting state are left, the label between them denotes the language
(`Gnfa.WellFormed.accepts_iff_of_interior`).
-/

namespace RegularLanguages.Gnfa

open Regex

variable {g : Gnfa} {p q r : Nat} {w : List Char}

/-- Whether a path from the start to the accepting state spells a word. -/
def Accepts (g : Gnfa) (w : List Char) : Prop := Path g g.start w g.accept

/-! ## Paths -/

theorem Path.append {u v : List Char} (hu : Path g p u q) (hv : Path g q v r) :
    Path g p (u ++ v) r := by
  induction hu with
  | refl => exact hv
  | step he _ ih =>
      rw [List.append_assoc]
      exact .step he (ih hv)

theorem Path.single (h : (g.label p q).Matches w) : Path g p w q := by
  have hpath := Path.step h (.refl q)
  rwa [List.append_nil] at hpath

theorem mem_edges_of_matches (h : (g.label p q).Matches w) :
    ((p, q), g.label p q) ∈ g.edges.toList := by
  rw [← SortedMap.get?_eq_some_iff]
  unfold label at h ⊢
  cases hedge : g.edges.get? (p, q) with
  | none =>
      rw [hedge] at h
      exact absurd h (not_matches_emptySet w)
  | some e => rfl

theorem WellFormed.path_accept (hg : g.WellFormed) (h : Path g g.accept w q) :
    q = g.accept ∧ w = [] := by
  cases h with
  | refl => exact ⟨rfl, rfl⟩
  | step he _ => exact absurd rfl (hg.leaves _ (mem_edges_of_matches he)).2

/-! ## Labels of joined edges -/

theorem matches_labelIn_foldl_joinEdge {edges : SortedMap (Nat × Nat) Regex}
    {es : List ((Nat × Nat) × Regex)} {k : Nat × Nat} :
    (labelIn (es.foldl joinEdge edges) k).Matches w ↔
      (labelIn edges k).Matches w ∨ ∃ e ∈ es, e.1 = k ∧ e.2.Matches w := by
  induction es generalizing edges with
  | nil => simp
  | cons d es ih =>
      rw [List.foldl_cons, ih, labelIn_joinEdge, List.exists_mem_cons_iff, ← or_assoc]
      apply or_congr_left
      split
      · rename_i hk
        rw [plus_sameLanguage _ _ w, matches_union_iff, and_iff_right hk]
      · rename_i hk
        simp [hk]

/-! ## Automata as generalized ones -/

theorem matches_label_ofNfa {n : Nfa} :
    ((ofNfa n).label p q).Matches w ↔ ∃ r, ((p, q), r) ∈ symbolEdges n ∧ r.Matches w := by
  change (labelIn (ofNfa n).edges (p, q)).Matches w ↔ _
  rw [edges_ofNfa, matches_labelIn_foldl_joinEdge]
  constructor
  · rintro (hnone | ⟨⟨k, r⟩, he, rfl, hr⟩)
    · exact absurd hnone (not_matches_emptySet w)
    · exact ⟨r, he, hr⟩
  · rintro ⟨r, he, hr⟩
    exact .inr ⟨_, he, rfl, hr⟩

theorem path_ofNfa {n : Nfa} (h : Nfa.Path n p w q) : Path (ofNfa n) p w q := by
  have hstep : ∀ {p q : Nat} {a : Symbol} {u : List Char}, ⟨p, a, q⟩ ∈ n.edges →
      (symbolRegex a).Matches u → ((ofNfa n).label p q).Matches u := by
    intro p q a u he hu
    exact matches_label_ofNfa.2 ⟨_, mem_symbolEdges.2 (.inr (.inl ⟨a, he, rfl⟩)), hu⟩
  induction h with
  | refl => exact .refl _
  | empty he _ ih => exact .step (hstep he .emptyWord) ih
  | @char p q r c w he _ ih => exact .step (hstep he (.char c)) ih

/-- A path from an old state to the new accepting state comes by an old accepting state. -/
theorem exists_path_of_path_ofNfa {n : Nfa} (hn : n.WellFormed) (h : Path (ofNfa n) p w q)
    (hp : p < n.size) (hq : q = (ofNfa n).accept) : ∃ f ∈ n.accepting, Nfa.Path n p w f := by
  have haccept : (ofNfa n).accept = n.size + 1 := rfl
  -- The path stays among the old states until it takes an edge to the new accepting state, which no
  -- edge leaves.
  induction h with
  | refl => omega
  | @step p m q u v he hpath ih =>
      obtain ⟨r, hedge, hr⟩ := matches_label_ofNfa.1 he
      rcases mem_symbolEdges.1 hedge with ⟨rfl, -, -⟩ | ⟨a, ha, rfl⟩ | ⟨hmem, hm, rfl⟩
      · exact absurd hp (Nat.lt_irrefl _)
      · obtain ⟨f, hf, hv⟩ := ih (hn.target_lt _ ha) hq
        refine ⟨f, hf, ?_⟩
        cases a with
        | epsilon =>
            rw [matches_emptyWord_iff.1 hr]
            exact .empty ha hv
        | char c =>
            rw [matches_char_iff.1 hr]
            exact .char ha hv
      · rw [hm] at hpath
        rw [matches_emptyWord_iff.1 hr, ((wellFormed_ofNfa hn).path_accept hpath).2]
        exact ⟨p, hmem, .refl p⟩

theorem accepts_ofNfa_iff {n : Nfa} (hn : n.WellFormed) :
    (ofNfa n).Accepts w ↔ n.accepts w = true := by
  rw [Nfa.accepts_iff_path]
  constructor
  · intro h
    unfold Accepts at h
    generalize hend : (ofNfa n).accept = f at h
    cases h with
    | refl => exact absurd hend.symm (wellFormed_ofNfa hn).start_ne_accept
    | step he hpath =>
        obtain ⟨r, hedge, hr⟩ := matches_label_ofNfa.1 he
        rcases mem_symbolEdges.1 hedge with ⟨-, rfl, rfl⟩ | ⟨a, ha, -⟩ | ⟨hmem, -, -⟩
        · rw [matches_emptyWord_iff.1 hr]
          exact exists_path_of_path_ofNfa hn hpath hn.start_lt hend.symm
        · exact absurd (hn.source_lt _ ha) (Nat.lt_irrefl _)
        · exact absurd (hn.accepting_lt _ hmem) (Nat.lt_irrefl _)
  · rintro ⟨f, hf, hpath⟩
    have hstart : ((ofNfa n).label n.size n.start).Matches [] :=
      matches_label_ofNfa.2 ⟨_, mem_symbolEdges.2 (.inl ⟨rfl, rfl, rfl⟩), .emptyWord⟩
    have hend : ((ofNfa n).label f (n.size + 1)).Matches [] :=
      matches_label_ofNfa.2 ⟨_, mem_symbolEdges.2 (.inr (.inr ⟨hf, rfl, rfl⟩)), .emptyWord⟩
    have hfull := (path_ofNfa hpath).append (.single hend)
    rw [List.append_nil] at hfull
    exact .step hstart hfull

/-! ## Elimination of one state -/

/-- The expression of the words that lead through a state: into it, round its loop and out of it. -/
def through (g : Gnfa) (i r j : Nat) : Regex :=
  .concat (g.label i r) (.concat (.star (g.label r r)) (g.label r j))

theorem detour_sameLanguage (g : Gnfa) (i r j : Nat) :
    SameLanguage ((g.label i r).times ((g.label r r).iterate.times (g.label r j)))
      (g.through i r j) := by
  have htail := (times_sameLanguage (g.label r r).iterate (g.label r j)).trans
    ((iterate_sameLanguage _).concat (.refl _))
  exact (times_sameLanguage _ _).trans ((SameLanguage.refl _).concat htail)

theorem WellFormed.matches_label_bypass (hg : g.WellFormed) {i j : Nat} :
    ((g.bypass r).label i j).Matches w ↔
      (i ≠ r ∧ j ≠ r) ∧ ((g.label i j).Matches w ∨ (g.through i r j).Matches w) := by
  by_cases hi : i = r
  · rw [hi, (hg.label_bypass_self r j).2]
    exact iff_of_false (not_matches_emptySet w) fun h => h.1.1 rfl
  · by_cases hj : j = r
    · rw [hj, (hg.label_bypass_self r i).1]
      exact iff_of_false (not_matches_emptySet w) fun h => h.1.2 rfl
    · rw [hg.label_bypass hi hj, plus_sameLanguage _ _ w, matches_union_iff,
        detour_sameLanguage g i r j w, and_iff_right ⟨hi, hj⟩]

theorem path_of_star (h : (star (g.label r r)).Matches w) : Path g r w r := by
  apply h.star_induction (motive := fun w => Path g r w r) (.refl r)
  intro u v hu hv
  exact .step hu hv

theorem WellFormed.path_of_path_bypass (hg : g.WellFormed) (h : Path (g.bypass r) p w q) :
    Path g p w q := by
  induction h with
  | refl => exact .refl _
  | step he _ ih =>
      rcases (hg.matches_label_bypass.1 he).2 with hu | hu
      · exact .step hu ih
      · obtain ⟨x, _, rfl, hx, hyz⟩ := matches_concat_iff.1 hu
        obtain ⟨y, z, rfl, hy, hz⟩ := matches_concat_iff.1 hyz
        exact ((Path.single hx).append ((path_of_star hy).append (.single hz))).append ih

/-- A path to a state that stays: from a state that stays it is kept; from the eliminated state it
goes round the loop and leaves by an edge, after which it is kept. -/
theorem WellFormed.path_bypass_of_path (hg : g.WellFormed) (h : Path g p w q) (hq : q ≠ r) :
    (p ≠ r → Path (g.bypass r) p w q) ∧
      (p = r → ∃ j u v, j ≠ r ∧ w = u ++ v ∧
        (concat (star (g.label r r)) (g.label r j)).Matches u ∧ Path (g.bypass r) j v q) := by
  -- Both halves are needed at once: an edge into the eliminated state passes from the first to the
  -- second, and an edge out of it back to the first.
  induction h with
  | refl p => exact ⟨fun _ => .refl p, fun hp => absurd hp hq⟩
  | @step p m q u v he _ ih =>
      obtain ⟨hkept, hinside⟩ := ih hq
      by_cases hm : m = r
      · obtain ⟨j, x, y, hj, rfl, hx, hy⟩ := hinside hm
        rw [hm] at he
        rw [← List.append_assoc]
        constructor
        · intro hp
          exact .step (hg.matches_label_bypass.2 ⟨⟨hp, hj⟩, .inr (.concat he hx)⟩) hy
        · intro hp
          rw [hp] at he
          obtain ⟨x₁, x₂, rfl, hloop, hout⟩ := matches_concat_iff.1 hx
          refine ⟨j, u ++ (x₁ ++ x₂), y, hj, rfl, ?_, hy⟩
          rw [← List.append_assoc]
          exact .concat (he.star_append hloop) hout
      · constructor
        · intro hp
          exact .step (hg.matches_label_bypass.2 ⟨⟨hp, hm⟩, .inl he⟩) (hkept hm)
        · intro hp
          rw [hp] at he
          exact ⟨m, u, v, hm, rfl, .concat .starNil he, hkept hm⟩

theorem WellFormed.path_bypass_iff (hg : g.WellFormed) (hp : p ≠ r) (hq : q ≠ r) :
    Path (g.bypass r) p w q ↔ Path g p w q :=
  ⟨hg.path_of_path_bypass, fun h => (hg.path_bypass_of_path h hq).1 hp⟩

theorem WellFormed.accepts_bypass_iff (hg : g.WellFormed) (hr : r ∈ g.interior) :
    (g.bypass r).Accepts w ↔ g.Accepts w := by
  obtain ⟨-, hstart, haccept⟩ := mem_interior.1 hr
  exact hg.path_bypass_iff hstart.symm haccept.symm

/-! ## Elimination of many states -/

theorem WellFormed.foldl_bypass (hg : g.WellFormed) {order : List Nat}
    (horder : g.Eliminable order) :
    (order.foldl Gnfa.bypass g).WellFormed ∧
      ∀ w, (order.foldl Gnfa.bypass g).Accepts w ↔ g.Accepts w := by
  induction order generalizing g with
  | nil => exact ⟨hg, fun w => Iff.rfl⟩
  | cons r order ih =>
      obtain ⟨hr, horder⟩ := eliminable_cons.1 horder
      obtain ⟨hwell, haccepts⟩ := ih (hg.bypass hr) horder
      exact ⟨hwell, fun w => (haccepts w).trans (hg.accepts_bypass_iff hr)⟩

/-- Once only the start and the accepting state are left, the label between them is the language. -/
theorem WellFormed.accepts_iff_of_interior (hg : g.WellFormed) (hinterior : ∀ q, q ∉ g.interior) :
    g.Accepts w ↔ (g.label g.start g.accept).Matches w := by
  constructor
  · intro h
    unfold Accepts at h
    generalize hend : g.accept = f at h
    cases h with
    | refl => exact absurd hend.symm hg.start_ne_accept
    | @step _ m _ u v he hpath =>
        have hm := hg.enters _ (mem_edges_of_matches he)
        have haccept : m = g.accept := by
          by_contra hne
          exact hinterior m (mem_interior.2 ⟨hm.1, hm.2, hne⟩)
        rw [haccept] at he hpath
        rw [(hg.path_accept hpath).2, List.append_nil, ← hend]
        exact he
  · exact .single

theorem WellFormed.toRegex_eq_ok (hg : g.WellFormed) {order : List Nat} (hnodup : order.Nodup)
    (horder : ∀ q ∈ order, q ∈ g.interior) :
    ∃ e, g.toRegex order = .ok e ∧ ∀ w, e.Matches w ↔ g.Accepts w := by
  obtain ⟨hwell, haccepts⟩ := hg.foldl_bypass ⟨hnodup, horder⟩
  obtain ⟨hleft, hkept⟩ := hwell.foldl_bypass (eliminable_interior _)
  refine ⟨_, toRegex_eq_ok_iff_exists.2 ⟨⟨hnodup, horder⟩, regex?_bypassInterior _⟩, fun w => ?_⟩
  rw [← haccepts w, ← hkept w]
  refine (hleft.accepts_iff_of_interior fun q hq => ?_).symm
  exact absurd (interior_bypassInterior _ ▸ hq) List.not_mem_nil

theorem matches_toRegex_iff {n : Nfa} (hn : n.WellFormed) :
    n.toRegex.Matches w ↔ n.accepts w = true := by
  obtain ⟨e, he, hmatches⟩ := (wellFormed_ofNfa hn).toRegex_eq_ok List.nodup_nil nofun
  cases (toRegex_nil_ofNfa n).symm.trans he
  rw [hmatches, accepts_ofNfa_iff hn]

/-! ## The language of the expression -/

/-- Making an automaton generalized, eliminating its states in any order and reading off the
expression that is left all keep the language. -/
theorem elimination_keeps_language :
    (∀ n : Nfa, n.WellFormed → ∀ w, (ofNfa n).Accepts w ↔ n.accepts w = true) ∧
      (∀ g : Gnfa, Made g → ∀ r ∈ g.interior,
        ∃ g', g.eliminate r = .ok g' ∧ ∀ w, g'.Accepts w ↔ g.Accepts w) ∧
      (∀ g : Gnfa, Made g → ∀ order : List Nat, order.Nodup → (∀ q ∈ order, q ∈ g.interior) →
        ∃ e, g.toRegex order = .ok e ∧ ∀ w, e.Matches w ↔ g.Accepts w) ∧
      (∀ n : Nfa, n.WellFormed → ∀ order : List Nat, order.Nodup → (∀ q ∈ order, q < n.size) →
        ∃ e, (ofNfa n).toRegex order = .ok e ∧ ∀ w, e.Matches w ↔ n.accepts w = true) ∧
      ∀ n : Nfa, n.WellFormed → ∀ w, n.toRegex.Matches w ↔ n.accepts w = true := by
  refine ⟨fun n hn w => accepts_ofNfa_iff hn, ?_, ?_, ?_, fun n hn w => matches_toRegex_iff hn⟩
  · intro g hg r hr
    exact ⟨_, eliminate_eq_ok_iff.2 ⟨hr, rfl⟩, fun w => hg.wellFormed.accepts_bypass_iff hr⟩
  · intro g hg order hnodup horder
    exact hg.wellFormed.toRegex_eq_ok hnodup horder
  · intro n hn order hnodup horder
    have hinterior : ∀ q ∈ order, q ∈ (ofNfa n).interior := by
      intro q hq
      have hlt := horder q hq
      have hstart : (ofNfa n).start = n.size := rfl
      have haccept : (ofNfa n).accept = n.size + 1 := rfl
      refine mem_interior.2 ⟨StateSet.mem_below.2 ?_, ?_, ?_⟩ <;> omega
    obtain ⟨e, he, hmatches⟩ := (wellFormed_ofNfa hn).toRegex_eq_ok hnodup hinterior
    exact ⟨e, he, fun w => (hmatches w).trans (accepts_ofNfa_iff hn)⟩

/-- Two states with moves both ways, two of them side by side, and a loop. The second state is
eliminated first. -/
theorem elimination_keeps_language_loop :
    let n : Nfa := ⟨.sequential 2, 0, .singleton 1,
      .ofList [⟨0, .epsilon, 1⟩, ⟨0, .char 'b', 1⟩, ⟨1, .char 'a', 0⟩, ⟨1, .char 'b', 1⟩]⟩
    (∀ w, (ofNfa n).Accepts w ↔ n.accepts w = true) ∧
      (∃ g, (ofNfa n).eliminate 1 = .ok g ∧ Made g ∧ (∀ w, g.Accepts w ↔ (ofNfa n).Accepts w) ∧
        ∃ e, g.toRegex [0] = .ok e ∧ ∀ w, e.Matches w ↔ g.Accepts w) ∧
      (∃ e, (ofNfa n).toRegex [1, 0] = .ok e ∧ ∀ w, e.Matches w ↔ n.accepts w = true) ∧
      ∀ w, n.toRegex.Matches w ↔ n.accepts w = true := by
  intro n
  have hn : n.WellFormed := by decide +kernel
  obtain ⟨hofNfa, heliminate, horder, hlist, htoRegex⟩ := elimination_keeps_language
  obtain ⟨g, hg, haccepts⟩ := heliminate (ofNfa n) (.ofNfa hn) 1 (by decide +kernel)
  have hmade : Made g := .eliminate (.ofNfa hn) hg
  have hinterior : ∀ q ∈ [0], q ∈ g.interior := by
    rw [← (eliminate_eq_ok_iff.1 hg).2]
    decide +kernel
  refine ⟨hofNfa n hn, ⟨g, hg, hmade, haccepts, ?_⟩, ?_, htoRegex n hn⟩
  · exact horder g hmade [0] (by decide) hinterior
  · exact hlist n hn [1, 0] (by decide) (by decide +kernel)

end RegularLanguages.Gnfa
