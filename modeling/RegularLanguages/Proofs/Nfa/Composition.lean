import RegularLanguages.Nfa.OfRegex
import RegularLanguages.Proofs.Nfa.Paths
import RegularLanguages.Proofs.Regex.Language

/-!
# The languages of composed automata

Each way of composing automata is described by its edges, then by its paths: a path that begins in a
part stays there (`Path.of_rename`) or leaves by an empty move from an accepting state of the part.
By induction on the expression, its automaton accepts exactly the words that it matches.
-/

namespace RegularLanguages

namespace Nfa

/-! ## Paths inside a part -/

theorem Path.rename {m n : Nfa} {f : Nat → Nat} (h : ∀ e ∈ m.edges, e.rename f ∈ n.edges)
    {p q : Nat} {w : List Char} (hp : Path m p w q) : Path n (f p) w (f q) := by
  induction hp with
  | refl => exact .refl _
  | empty he _ ih => exact .empty (h _ he) ih
  | char he _ ih => exact .char (h _ he) ih

/-- A path does not leave a part if none of the edges from the states of the part does. -/
theorem Path.of_rename {m n : Nfa} {f : Nat → Nat} {inside : Nat → Prop}
    (h : ∀ p a y, inside p → ⟨f p, a, y⟩ ∈ n.edges → ∃ q, f q = y ∧ inside q ∧ ⟨p, a, q⟩ ∈ m.edges)
    {p y : Nat} {w : List Char} (hp : inside p) (hpath : Path n (f p) w y) :
    ∃ q, f q = y ∧ inside q ∧ Path m p w q := by
  generalize hx : f p = x at hpath
  induction hpath generalizing p with
  | refl => exact ⟨p, hx, hp, .refl p⟩
  | empty he _ ih =>
      subst hx
      obtain ⟨q, hq, hqin, hedge⟩ := h p _ _ hp he
      obtain ⟨r, hr, hrin, hpath⟩ := ih hqin hq
      exact ⟨r, hr, hrin, .empty hedge hpath⟩
  | char he _ ih =>
      subst hx
      obtain ⟨q, hq, hqin, hedge⟩ := h p _ _ hp he
      obtain ⟨r, hr, hrin, hpath⟩ := ih hqin hq
      exact ⟨r, hr, hrin, .char hedge hpath⟩

/-! ## Edges -/

theorem mem_shiftedEdges {n : Nfa} {k p q : Nat} {a : Symbol} :
    ⟨p, a, q⟩ ∈ n.shiftedEdges k ↔ ∃ p' q', p' + k = p ∧ q' + k = q ∧ ⟨p', a, q'⟩ ∈ n.edges := by
  unfold shiftedEdges
  rw [SortedSet.mem_image]
  constructor
  · rintro ⟨d, hd, heq⟩
    cases heq
    exact ⟨d.source, d.target, rfl, rfl, hd⟩
  · rintro ⟨p', q', rfl, rfl, he⟩
    exact ⟨_, he, rfl⟩

theorem mem_movesInto {s : StateSet} {target p q : Nat} {a : Symbol} :
    ⟨p, a, q⟩ ∈ movesInto s target ↔ p ∈ s ∧ a = .epsilon ∧ q = target := by
  unfold movesInto
  rw [SortedSet.mem_ofList, List.mem_map]
  constructor
  · rintro ⟨q', hq, heq⟩
    cases heq
    exact ⟨StateSet.mem_toList.1 hq, rfl, rfl⟩
  · rintro ⟨hp, rfl, rfl⟩
    exact ⟨p, StateSet.mem_toList.2 hp, rfl⟩

theorem mem_edges_concat {l r : Nfa} {p q : Nat} {a : Symbol} :
    ⟨p, a, q⟩ ∈ (concat l r).edges ↔
      ⟨p, a, q⟩ ∈ l.edges ∨ (p ∈ l.accepting ∧ a = .epsilon ∧ q = r.start + l.size) ∨
        ∃ p' q', p' + l.size = p ∧ q' + l.size = q ∧ ⟨p', a, q'⟩ ∈ r.edges := by
  rw [concat, SortedSet.mem_union, SortedSet.mem_union, mem_movesInto, mem_shiftedEdges]

theorem mem_edges_union {l r : Nfa} {p q : Nat} {a : Symbol} :
    ⟨p, a, q⟩ ∈ (union l r).edges ↔
      (p = 0 ∧ a = .epsilon ∧ (q = l.start + 1 ∨ q = r.start + (1 + l.size))) ∨
        (∃ p' q', p' + 1 = p ∧ q' + 1 = q ∧ ⟨p', a, q'⟩ ∈ l.edges) ∨
          ∃ p' q', p' + (1 + l.size) = p ∧ q' + (1 + l.size) = q ∧ ⟨p', a, q'⟩ ∈ r.edges := by
  rw [union, SortedSet.mem_union, SortedSet.mem_union, mem_shiftedEdges, mem_shiftedEdges,
    SortedSet.mem_ofList]
  apply or_congr_left
  rw [List.mem_cons, List.mem_singleton, Edge.mk.injEq, Edge.mk.injEq, ← and_or_left, ← and_or_left]

theorem mem_edges_star {n : Nfa} {p q : Nat} {a : Symbol} :
    ⟨p, a, q⟩ ∈ (star n).edges ↔
      ((p = 0 ∨ p ∈ n.accepting.shift 1) ∧ a = .epsilon ∧ q = n.start + 1) ∨
        ∃ p' q', p' + 1 = p ∧ q' + 1 = q ∧ ⟨p', a, q'⟩ ∈ n.edges := by
  rw [star, SortedSet.mem_union, SortedSet.mem_union, mem_movesInto, mem_shiftedEdges,
    SortedSet.mem_singleton, Edge.mk.injEq, ← or_assoc, or_and_right]

theorem add_mem_shift {s : StateSet} {k q : Nat} : q + k ∈ s.shift k ↔ q ∈ s := by
  rw [StateSet.mem_shift, Nat.add_sub_cancel]
  exact and_iff_right (Nat.le_add_left k q)

theorem mem_shift_iff_exists {s : StateSet} {k x : Nat} : x ∈ s.shift k ↔ ∃ q ∈ s, q + k = x := by
  constructor
  · intro hx
    obtain ⟨hle, hmem⟩ := StateSet.mem_shift.1 hx
    exact ⟨x - k, hmem, Nat.sub_add_cancel hle⟩
  · rintro ⟨q, hq, rfl⟩
    exact add_mem_shift.2 hq

/-! ## Concatenation -/

theorem path_concat_right {l r : Nfa} (hl : l.WellFormed) {p y : Nat} {w : List Char}
    (h : Path (concat l r) (p + l.size) w y) : ∃ q, q + l.size = y ∧ Path r p w q := by
  have hstay : ∀ p a y, True → ⟨p + l.size, a, y⟩ ∈ (concat l r).edges →
      ∃ q, q + l.size = y ∧ True ∧ ⟨p, a, q⟩ ∈ r.edges := by
    intro p a y _ he
    rcases mem_edges_concat.1 he with he | ⟨hp, -, -⟩ | ⟨p', q', hp, hq, he⟩
    · have := hl.source_lt _ he
      dsimp only at this
      omega
    · have := hl.accepting_lt _ hp
      omega
    · rw [Nat.add_right_cancel hp] at he
      exact ⟨q', hq, trivial, he⟩
  obtain ⟨q, hq, -, hpath⟩ := Path.of_rename (f := (· + l.size)) hstay trivial h
  exact ⟨q, hq, hpath⟩

/-- A path out of the left part goes through one of its accepting states and then through the right
part. -/
theorem path_concat_left {l r : Nfa} (hl : l.WellFormed) {p y : Nat} {w : List Char}
    (h : Path (concat l r) p w y) (hp : p < l.size) (hy : l.size ≤ y) :
    ∃ u v, w = u ++ v ∧ (∃ f ∈ l.accepting, Path l p u f) ∧ ∃ q, q + l.size = y ∧
      Path r r.start v q := by
  induction h with
  | refl => omega
  | @empty p x z w he hpath ih =>
      rcases mem_edges_concat.1 he with he | ⟨hacc, -, rfl⟩ | ⟨p', q', hp', -, -⟩
      · obtain ⟨u, v, rfl, ⟨f, hf, hu⟩, hv⟩ := ih (hl.target_lt _ he) hy
        exact ⟨u, v, rfl, ⟨f, hf, .empty he hu⟩, hv⟩
      · exact ⟨[], w, rfl, ⟨p, hacc, .refl p⟩, path_concat_right hl hpath⟩
      · omega
  | @char p x z c w he hpath ih =>
      rcases mem_edges_concat.1 he with he | ⟨-, ha, -⟩ | ⟨p', q', hp', -, -⟩
      · obtain ⟨u, v, rfl, ⟨f, hf, hu⟩, hv⟩ := ih (hl.target_lt _ he) hy
        exact ⟨c :: u, v, rfl, ⟨f, hf, .char he hu⟩, hv⟩
      · cases ha
      · omega

theorem accepts_concat {l r : Nfa} (hl : l.WellFormed) (w : List Char) :
    (concat l r).accepts w = true ↔
      ∃ u v, w = u ++ v ∧ l.accepts u = true ∧ r.accepts v = true := by
  simp only [accepts_iff_path]
  constructor
  · rintro ⟨y, hy, hpath⟩
    obtain ⟨q, hq, rfl⟩ := mem_shift_iff_exists.1 hy
    obtain ⟨u, v, rfl, hu, q', hqq, hv⟩ :=
      path_concat_left hl hpath hl.start_lt (Nat.le_add_left l.size q)
    rw [Nat.add_right_cancel hqq] at hv
    exact ⟨u, v, rfl, hu, q, hq, hv⟩
  · rintro ⟨u, v, rfl, ⟨f, hf, hu⟩, q, hq, hv⟩
    refine ⟨q + l.size, add_mem_shift.2 hq, ?_⟩
    have hleft : Path (concat l r) l.start u f :=
      Path.rename (f := id) (fun e he => mem_edges_concat.2 (.inl he)) hu
    have hjoin : ⟨f, .epsilon, r.start + l.size⟩ ∈ (concat l r).edges :=
      mem_edges_concat.2 (.inr (.inl ⟨hf, rfl, rfl⟩))
    have hright : Path (concat l r) (r.start + l.size) v (q + l.size) :=
      Path.rename (f := (· + l.size))
        (fun e he => mem_edges_concat.2 (.inr (.inr ⟨_, _, rfl, rfl, he⟩))) hv
    exact hleft.append (.empty hjoin hright)

/-! ## Union -/

theorem path_union_left {l r : Nfa} (hl : l.WellFormed) {p y : Nat} {w : List Char}
    (hp : p < l.size) (h : Path (union l r) (p + 1) w y) :
    ∃ q, q + 1 = y ∧ q < l.size ∧ Path l p w q := by
  have hstay : ∀ p a y, p < l.size → ⟨p + 1, a, y⟩ ∈ (union l r).edges →
      ∃ q, q + 1 = y ∧ q < l.size ∧ ⟨p, a, q⟩ ∈ l.edges := by
    intro p a y hp he
    rcases mem_edges_union.1 he with ⟨hzero, -, -⟩ | ⟨p', q', hp', hq, he⟩ | ⟨p', q', hp', -, -⟩
    · omega
    · rw [Nat.add_right_cancel hp'] at he
      exact ⟨q', hq, hl.target_lt _ he, he⟩
    · omega
  exact Path.of_rename (f := (· + 1)) hstay hp h

theorem path_union_right {l r : Nfa} (hl : l.WellFormed) {p y : Nat} {w : List Char}
    (h : Path (union l r) (p + (1 + l.size)) w y) : ∃ q, q + (1 + l.size) = y ∧ Path r p w q := by
  have hstay : ∀ p a y, True → ⟨p + (1 + l.size), a, y⟩ ∈ (union l r).edges →
      ∃ q, q + (1 + l.size) = y ∧ True ∧ ⟨p, a, q⟩ ∈ r.edges := by
    intro p a y _ he
    rcases mem_edges_union.1 he with ⟨hzero, -, -⟩ | ⟨p', q', hp', -, he⟩ | ⟨p', q', hp', hq, he⟩
    · omega
    · have := hl.source_lt _ he
      dsimp only at this
      omega
    · rw [Nat.add_right_cancel hp'] at he
      exact ⟨q', hq, trivial, he⟩
  obtain ⟨q, hq, -, hpath⟩ := Path.of_rename (f := (· + (1 + l.size))) hstay trivial h
  exact ⟨q, hq, hpath⟩

/-- A path from the new start to another state enters one of the parts by an empty move. -/
theorem path_union_start {l r : Nfa} {y : Nat} {w : List Char} (h : Path (union l r) 0 w y)
    (hy : y ≠ 0) :
    Path (union l r) (l.start + 1) w y ∨ Path (union l r) (r.start + (1 + l.size)) w y := by
  cases h with
  | refl => exact absurd rfl hy
  | empty he hpath =>
      rcases mem_edges_union.1 he with ⟨-, -, rfl | rfl⟩ | ⟨p', q', hp', -, -⟩ | ⟨p', q', hp', -, -⟩
      · exact .inl hpath
      · exact .inr hpath
      · omega
      · omega
  | char he hpath =>
      rcases mem_edges_union.1 he with ⟨-, ha, -⟩ | ⟨p', q', hp', -, -⟩ | ⟨p', q', hp', -, -⟩
      · cases ha
      · omega
      · omega

theorem mem_accepting_union {l r : Nfa} {y : Nat} :
    y ∈ (union l r).accepting ↔
      (∃ q ∈ l.accepting, q + 1 = y) ∨ ∃ q ∈ r.accepting, q + (1 + l.size) = y := by
  rw [union, StateSet.mem_union, mem_shift_iff_exists, mem_shift_iff_exists]

theorem accepts_union {l r : Nfa} (hl : l.WellFormed) (w : List Char) :
    (union l r).accepts w = true ↔ l.accepts w = true ∨ r.accepts w = true := by
  simp only [accepts_iff_path]
  constructor
  · rintro ⟨y, hy, hpath⟩
    have hpos : y ≠ 0 := by
      rcases mem_accepting_union.1 hy with ⟨q, -, rfl⟩ | ⟨q, -, rfl⟩ <;> omega
    rcases path_union_start hpath hpos with hpath | hpath
    · left
      obtain ⟨q, rfl, hlt, hpath⟩ := path_union_left hl hl.start_lt hpath
      refine ⟨q, ?_, hpath⟩
      rcases mem_accepting_union.1 hy with ⟨q', hq', heq⟩ | ⟨q', -, heq⟩
      · rw [← Nat.add_right_cancel heq]
        exact hq'
      · omega
    · right
      obtain ⟨q, heq, hright⟩ := path_union_right hl hpath
      subst heq
      refine ⟨q, ?_, hright⟩
      rcases mem_accepting_union.1 hy with ⟨q', hq', heq⟩ | ⟨q', hq', heq⟩
      · have := hl.accepting_lt q' hq'
        omega
      · rw [← Nat.add_right_cancel heq]
        exact hq'
  · rintro (⟨q, hq, hpath⟩ | ⟨q, hq, hpath⟩)
    · have hstart : ⟨0, .epsilon, l.start + 1⟩ ∈ (union l r).edges :=
        mem_edges_union.2 (.inl ⟨rfl, rfl, .inl rfl⟩)
      refine ⟨q + 1, mem_accepting_union.2 (.inl ⟨q, hq, rfl⟩), .empty hstart ?_⟩
      exact Path.rename (f := (· + 1))
        (fun e he => mem_edges_union.2 (.inr (.inl ⟨_, _, rfl, rfl, he⟩))) hpath
    · have hstart : ⟨0, .epsilon, r.start + (1 + l.size)⟩ ∈ (union l r).edges :=
        mem_edges_union.2 (.inl ⟨rfl, rfl, .inr rfl⟩)
      refine ⟨q + (1 + l.size), mem_accepting_union.2 (.inr ⟨q, hq, rfl⟩), .empty hstart ?_⟩
      exact Path.rename (f := (· + (1 + l.size)))
        (fun e he => mem_edges_union.2 (.inr (.inr ⟨_, _, rfl, rfl, he⟩))) hpath

/-! ## Repetition -/

/-- A path through a repeated automaton is one through the automaton and then words of its
language. -/
theorem path_star {n : Nfa} {words : List Char → Prop} (hnil : words [])
    (hcons : ∀ u v, (∃ f ∈ n.accepting, Path n n.start u f) → words v → words (u ++ v)) {p q : Nat}
    {w : List Char} (h : Path (star n) (p + 1) w (q + 1)) (hq : q ∈ n.accepting) :
    ∃ u v, w = u ++ v ∧ (∃ f ∈ n.accepting, Path n p u f) ∧ words v := by
  generalize hx : p + 1 = x at h
  generalize hy : q + 1 = y at h
  induction h generalizing p with
  | refl =>
      have hpq : p = q := by omega
      exact ⟨[], [], rfl, ⟨q, hq, hpq ▸ .refl p⟩, hnil⟩
  | @empty x z r w he hpath ih =>
      subst hx
      rcases mem_edges_star.1 he with ⟨hloop, -, hz⟩ | ⟨p', q', hp', hq', he⟩
      · -- The path leaves the automaton here and begins it anew.
        obtain ⟨u, v, rfl, hu, hv⟩ := ih hz.symm hy
        have hp : p ∈ n.accepting := by
          rcases hloop with hzero | hmem
          · omega
          · exact add_mem_shift.1 hmem
        exact ⟨[], u ++ v, rfl, ⟨p, hp, .refl p⟩, hcons u v hu hv⟩
      · obtain ⟨u, v, rfl, ⟨f, hf, hu⟩, hv⟩ := ih hq' hy
        rw [Nat.add_right_cancel hp'] at he
        exact ⟨u, v, rfl, ⟨f, hf, .empty he hu⟩, hv⟩
  | @char x z r c w he hpath ih =>
      subst hx
      rcases mem_edges_star.1 he with ⟨-, ha, -⟩ | ⟨p', q', hp', hq', he⟩
      · cases ha
      · obtain ⟨u, v, rfl, ⟨f, hf, hu⟩, hv⟩ := ih hq' hy
        rw [Nat.add_right_cancel hp'] at he
        exact ⟨c :: u, v, rfl, ⟨f, hf, .char he hu⟩, hv⟩

theorem mem_accepting_star {n : Nfa} {y : Nat} :
    y ∈ (star n).accepting ↔ y = 0 ∨ ∃ q ∈ n.accepting, q + 1 = y := by
  rw [star, StateSet.mem_insert, mem_shift_iff_exists]

theorem path_star_start {n : Nfa} {y : Nat} {w : List Char} (h : Path (star n) 0 w y) :
    (y = 0 ∧ w = []) ∨ Path (star n) (n.start + 1) w y := by
  cases h with
  | refl => exact .inl ⟨rfl, rfl⟩
  | empty he hpath =>
      rcases mem_edges_star.1 he with ⟨-, -, rfl⟩ | ⟨p', q', hp', -, -⟩
      · exact .inr hpath
      · omega
  | char he hpath =>
      rcases mem_edges_star.1 he with ⟨-, ha, -⟩ | ⟨p', q', hp', -, -⟩
      · cases ha
      · omega

theorem target_star {n : Nfa} {p q : Nat} {a : Symbol} (h : ⟨p, a, q⟩ ∈ (star n).edges) :
    ∃ z, z + 1 = q := by
  rcases mem_edges_star.1 h with ⟨-, -, rfl⟩ | ⟨-, q', -, hq, -⟩
  · exact ⟨n.start, rfl⟩
  · exact ⟨q', hq⟩

theorem ne_zero_of_path_star {n : Nfa} {p y : Nat} {w : List Char} (h : Path (star n) (p + 1) w y) :
    y ≠ 0 := by
  generalize hx : p + 1 = x at h
  induction h generalizing p with
  | refl => omega
  | empty he _ ih =>
      obtain ⟨z, hz⟩ := target_star he
      exact ih hz
  | char he _ ih =>
      obtain ⟨z, hz⟩ := target_star he
      exact ih hz

theorem accepts_star_nil (n : Nfa) : (star n).accepts [] = true :=
  accepts_iff_path.2 ⟨0, mem_accepting_star.2 (.inl rfl), .refl 0⟩

theorem accepts_star_append {n : Nfa} {u v : List Char} (hu : n.accepts u = true)
    (hv : (star n).accepts v = true) : (star n).accepts (u ++ v) = true := by
  rw [accepts_iff_path] at *
  obtain ⟨f, hf, hu⟩ := hu
  obtain ⟨y, hy, hv⟩ := hv
  have hstart : ⟨0, .epsilon, n.start + 1⟩ ∈ (star n).edges :=
    mem_edges_star.2 (.inl ⟨.inl rfl, rfl, rfl⟩)
  have hinner : Path (star n) (n.start + 1) u (f + 1) :=
    Path.rename (f := (· + 1)) (fun e he => mem_edges_star.2 (.inr ⟨_, _, rfl, rfl, he⟩)) hu
  rcases path_star_start hv with ⟨-, rfl⟩ | hv
  · rw [List.append_nil]
    exact ⟨f + 1, mem_accepting_star.2 (.inr ⟨f, hf, rfl⟩), .empty hstart hinner⟩
  · have hloop : ⟨f + 1, .epsilon, n.start + 1⟩ ∈ (star n).edges :=
      mem_edges_star.2 (.inl ⟨.inr (add_mem_shift.2 hf), rfl, rfl⟩)
    exact ⟨y, hy, .empty hstart (hinner.append (.empty hloop hv))⟩

/-- The words of a repeated automaton are in every set that holds the empty word and is closed under
putting a word of the automaton in front. -/
theorem of_accepts_star {n : Nfa} {words : List Char → Prop} (hnil : words [])
    (hcons : ∀ u v, n.accepts u = true → words v → words (u ++ v)) {w : List Char}
    (h : (star n).accepts w = true) : words w := by
  simp only [accepts_iff_path] at hcons
  obtain ⟨y, hy, hpath⟩ := accepts_iff_path.1 h
  rcases path_star_start hpath with ⟨-, rfl⟩ | hpath
  · exact hnil
  rcases mem_accepting_star.1 hy with hzero | ⟨q, hq, rfl⟩
  · exact absurd hzero (ne_zero_of_path_star hpath)
  · obtain ⟨u, v, rfl, hu, hv⟩ := path_star hnil hcons hpath hq
    exact hcons u v hu hv

/-! ## Well-formedness -/

theorem wellFormed_concat {l r : Nfa} (hl : l.WellFormed) (hr : r.WellFormed) :
    (concat l r).WellFormed := by
  apply wellFormed_of_sequential (l.size + r.size) rfl
  · exact Nat.lt_add_right r.size hl.start_lt
  · intro q hq
    obtain ⟨q', hq', rfl⟩ := mem_shift_iff_exists.1 hq
    have := hr.accepting_lt q' hq'
    omega
  · intro p a q he
    rcases mem_edges_concat.1 he with hleft | ⟨hp, -, rfl⟩ | ⟨p', q', rfl, rfl, hright⟩
    · have := hl.ends_lt hleft
      omega
    · have := hl.accepting_lt p hp
      have := hr.start_lt
      omega
    · have := hr.ends_lt hright
      omega

theorem wellFormed_union {l r : Nfa} (hl : l.WellFormed) (hr : r.WellFormed) :
    (union l r).WellFormed := by
  apply wellFormed_of_sequential (1 + l.size + r.size) rfl
  · have : (union l r).start = 0 := rfl
    omega
  · intro q hq
    rcases mem_accepting_union.1 hq with ⟨q', hq', rfl⟩ | ⟨q', hq', rfl⟩
    · have := hl.accepting_lt q' hq'
      omega
    · have := hr.accepting_lt q' hq'
      omega
  · intro p a q he
    rcases mem_edges_union.1 he with ⟨rfl, -, hq⟩ | ⟨p', q', rfl, rfl, hleft⟩
      | ⟨p', q', rfl, rfl, hright⟩
    · have := hl.start_lt
      have := hr.start_lt
      omega
    · have := hl.ends_lt hleft
      omega
    · have := hr.ends_lt hright
      omega

theorem wellFormed_star {n : Nfa} (hn : n.WellFormed) : (star n).WellFormed := by
  have haccepting : ∀ q ∈ n.accepting.shift 1, q < 1 + n.size := by
    intro q hq
    obtain ⟨q', hq', rfl⟩ := mem_shift_iff_exists.1 hq
    have := hn.accepting_lt q' hq'
    omega
  apply wellFormed_of_sequential (1 + n.size) rfl
  · have : (star n).start = 0 := rfl
    omega
  · intro q hq
    rcases StateSet.mem_insert.1 hq with rfl | hq
    · omega
    · exact haccepting q hq
  · intro p a q he
    rcases mem_edges_star.1 he with ⟨hp, -, rfl⟩ | ⟨p', q', rfl, rfl, hinner⟩
    · have := hn.start_lt
      rcases hp with rfl | hp
      · omega
      · have := haccepting p hp
        omega
    · have := hn.ends_lt hinner
      omega

end Nfa

namespace Regex

theorem wellFormed_compose (r : Regex) : r.compose.WellFormed := by
  induction r with
  | emptySet =>
      apply Nfa.wellFormed_of_sequential 1 rfl Nat.one_pos
      · intro q hq
        exact absurd hq (StateSet.not_mem_empty q)
      · intro p a q he
        exact absurd he (SortedSet.not_mem_empty _)
  | emptyWord =>
      apply Nfa.wellFormed_of_sequential 1 rfl Nat.one_pos
      · intro q hq
        rw [StateSet.mem_singleton.1 hq]
        exact Nat.one_pos
      · intro p a q he
        exact absurd he (SortedSet.not_mem_empty _)
  | char c =>
      apply Nfa.wellFormed_of_sequential 2 rfl Nat.two_pos
      · intro q hq
        rw [StateSet.mem_singleton.1 hq]
        exact Nat.one_lt_two
      · intro p a q he
        cases SortedSet.mem_singleton.1 he
        exact ⟨Nat.two_pos, Nat.one_lt_two⟩
  | concat l r ihl ihr => exact Nfa.wellFormed_concat ihl ihr
  | union l r ihl ihr => exact Nfa.wellFormed_union ihl ihr
  | star e ih => exact Nfa.wellFormed_star ih

/-! ## The language of an expression -/

theorem accepts_ofChar_iff {c : Char} {w : List Char} :
    (Nfa.ofChar c).accepts w = true ↔ Matches (char c) w := by
  have hedge : ∀ {p a q}, ⟨p, a, q⟩ ∈ (Nfa.ofChar c).edges → p = 0 ∧ a = .char c ∧ q = 1 := by
    intro p a q he
    cases SortedSet.mem_singleton.1 he
    exact ⟨rfl, rfl, rfl⟩
  have hend : ∀ {q w}, Nfa.Path (Nfa.ofChar c) 1 w q → w = [] := by
    intro q w h
    cases h with
    | refl => rfl
    | empty he _ => exact absurd (hedge he).1 Nat.one_ne_zero
    | char he _ => exact absurd (hedge he).1 Nat.one_ne_zero
  rw [Nfa.accepts_iff_path]
  constructor
  · rintro ⟨q, hq, hpath⟩
    rw [StateSet.mem_singleton.1 hq] at hpath
    change Nfa.Path (Nfa.ofChar c) 0 w 1 at hpath
    cases hpath with
    | empty he _ => cases (hedge he).2.1
    | char he hrest =>
        obtain ⟨-, ha, rfl⟩ := hedge he
        cases ha
        rw [hend hrest]
        exact .char c
  · intro h
    cases h
    exact ⟨1, StateSet.mem_singleton.2 rfl, .char (SortedSet.mem_singleton.2 rfl) (.refl 1)⟩

theorem accepts_emptyWord_iff {w : List Char} :
    Nfa.emptyWord.accepts w = true ↔ Matches emptyWord w := by
  rw [Nfa.accepts_iff_path]
  constructor
  · rintro ⟨q, -, hpath⟩
    cases hpath with
    | refl => exact .emptyWord
    | empty he _ => exact absurd he (SortedSet.not_mem_empty _)
    | char he _ => exact absurd he (SortedSet.not_mem_empty _)
  · intro h
    cases h
    exact ⟨0, StateSet.mem_singleton.2 rfl, .refl 0⟩

theorem accepts_emptySet_iff {w : List Char} :
    Nfa.emptySet.accepts w = true ↔ Matches emptySet w := by
  rw [Nfa.accepts_iff_path]
  constructor
  · rintro ⟨q, hq, -⟩
    exact absurd hq (StateSet.not_mem_empty q)
  · intro h
    cases h

theorem accepts_compose_iff (r : Regex) (w : List Char) :
    r.compose.accepts w = true ↔ r.Matches w := by
  induction r generalizing w with
  | emptySet => exact accepts_emptySet_iff
  | emptyWord => exact accepts_emptyWord_iff
  | char c => exact accepts_ofChar_iff
  | concat l r ihl ihr =>
      rw [compose, Nfa.accepts_concat (wellFormed_compose l), matches_concat_iff]
      simp only [ihl, ihr]
  | union l r ihl ihr =>
    rw [compose, Nfa.accepts_union (wellFormed_compose l), matches_union_iff, ihl, ihr]
  | star e ih =>
      constructor
      · intro h
        exact Nfa.of_accepts_star .starNil (fun u v hu hv => .star_append ((ih u).1 hu) hv) h
      · intro h
        apply h.star_induction (motive := fun w => (Nfa.star e.compose).accepts w = true)
          (Nfa.accepts_star_nil e.compose)
        intro u v hu hv
        exact Nfa.accepts_star_append ((ih u).2 hu) hv

/-- The automaton of an expression accepts exactly the words that the expression matches. -/
theorem accepts_toNfa_iff_matches (r : Regex) (w : List Char) :
    r.toNfa.accepts w = true ↔ r.Matches w := by
  rw [toNfa_eq_compose]
  exact accepts_compose_iff r w

-- A repetition of repetitions, of which many may be empty.
example : (star (star (union emptyWord (concat (char 'a') (star (char 'b')))))).accepts
    "abba".toList = true := by
  decide +kernel

end Regex

end RegularLanguages
