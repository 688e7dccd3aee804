import RegularLanguages.Proofs.Regex.Stacks

/-!
# Where errors are

Brackets of a text that have the brackets between them matched belong together. While a text is
read, the open groups are those of the opening brackets without a partner so far, each at its
place, and all other brackets have theirs (`Opened`). So an error that names a bracket names one
without a partner: the first closing one, or the last opening one if all closing ones have
partners. An error that names an operator names a star or a bar that stands at its place
(`Regex.errors_located`).
-/

namespace RegularLanguages.Regex

variable {a b u v cs : List Char} {c : Char} {i j k d : Nat} {ps : List Nat}

/-! ## Brackets -/

/-- Whether every bracket in a text has its partner there. -/
inductive Balanced : List Char → Prop
  | nil : Balanced []
  | other {c : Char} {u : List Char} : c ≠ '(' → c ≠ ')' → Balanced u → Balanced (c :: u)
  | bracket {u v : List Char} : Balanced u → Balanced v → Balanced ('(' :: (u ++ ')' :: v))

/-- Whether the brackets at two places of a text are partners. -/
def Paired (cs : List Char) (i j : Nat) : Prop :=
  ∃ a u b, cs = a ++ '(' :: (u ++ ')' :: b) ∧ Balanced u ∧ i = a.length ∧
    j = a.length + 1 + u.length

def UnmatchedOpening (cs : List Char) (i : Nat) : Prop := cs[i]? = some '(' ∧ ∀ j, ¬ Paired cs i j

def UnmatchedClosing (cs : List Char) (j : Nat) : Prop := cs[j]? = some ')' ∧ ∀ i, ¬ Paired cs i j

theorem Balanced.append (hu : Balanced u) (hv : Balanced v) : Balanced (u ++ v) := by
  induction hu with
  | nil => exact hv
  | other hopening hclosing _ ih => exact .other hopening hclosing ih
  | bracket hu _ _ ih =>
      rw [List.cons_append, List.append_assoc, List.cons_append]
      exact .bracket hu ih

theorem Paired.prepend (a : List Char) (h : Paired cs i j) :
    Paired (a ++ cs) (a.length + i) (a.length + j) := by
  obtain ⟨before, u, after, rfl, hu, rfl, rfl⟩ := h
  refine ⟨a ++ before, u, after, (List.append_assoc _ _ _).symm, hu, List.length_append.symm, ?_⟩
  rw [List.length_append]
  omega

theorem Paired.append (h : Paired cs i j) (b : List Char) : Paired (cs ++ b) i j := by
  obtain ⟨before, u, after, rfl, hu, rfl, rfl⟩ := h
  exact ⟨before, u, after ++ b, by simp, hu, rfl, rfl⟩

theorem Paired.getElem? (h : Paired cs i j) : cs[i]? = some '(' ∧ cs[j]? = some ')' := by
  obtain ⟨before, u, after, rfl, -, rfl, rfl⟩ := h
  constructor
  · simp
  · have hsplit : before ++ '(' :: (u ++ ')' :: after) = (before ++ '(' :: u) ++ ')' :: after := by
      simp
    have hlength : before.length + 1 + u.length = (before ++ '(' :: u).length := by
      simp only [List.length_append, List.length_cons]
      omega
    rw [hsplit, hlength]
    simp

theorem getElem?_append_cases (h : (a ++ b)[k]? = some c) :
    a[k]? = some c ∨ ∃ l, k = a.length + l ∧ b[l]? = some c := by
  rcases Nat.lt_or_ge k a.length with hlt | hge
  · rw [List.getElem?_append_left hlt] at h
    exact .inl h
  · rw [List.getElem?_append_right hge] at h
    exact .inr ⟨k - a.length, by omega, h⟩

def HasPartner (cs : List Char) (k : Nat) : Prop := ∃ l, Paired cs k l ∨ Paired cs l k

theorem HasPartner.prepend (a : List Char) (h : HasPartner cs k) :
    HasPartner (a ++ cs) (a.length + k) := by
  obtain ⟨l, h⟩ := h
  exact ⟨a.length + l, h.imp (·.prepend a) (·.prepend a)⟩

theorem HasPartner.append (h : HasPartner cs k) (b : List Char) : HasPartner (cs ++ b) k := by
  obtain ⟨l, h⟩ := h
  exact ⟨l, h.imp (·.append b) (·.append b)⟩

theorem HasPartner.not_unmatchedOpening (h : HasPartner cs k) : ¬ UnmatchedOpening cs k := by
  rintro ⟨hopening, hnot⟩
  obtain ⟨l, h | h⟩ := h
  · exact hnot l h
  · rw [h.getElem?.2] at hopening
    cases hopening

theorem HasPartner.not_unmatchedClosing (h : HasPartner cs k) : ¬ UnmatchedClosing cs k := by
  rintro ⟨hclosing, hnot⟩
  obtain ⟨l, h | h⟩ := h
  · rw [h.getElem?.1] at hclosing
    cases hclosing
  · exact hnot l h

theorem Balanced.hasPartner (hu : Balanced u) (hk : u[k]? = some c) (hc : c = '(' ∨ c = ')') :
    HasPartner u k := by
  induction hu generalizing k with
  | nil => cases hk
  | @other d u hopening hclosing _ ih =>
      cases k with
      | zero =>
          cases hk
          exact absurd hc (not_or.2 ⟨hopening, hclosing⟩)
      | succ k =>
          have hpartner := (ih hk).prepend [d]
          rwa [List.length_singleton, Nat.add_comm] at hpartner
  | @bracket u v hu _ ihu ihv =>
      -- The bracket in front, the text up to its partner, the partner and the rest.
      have hpair : Paired ('(' :: (u ++ ')' :: v)) 0 (u.length + 1) :=
        ⟨[], u, v, rfl, hu, rfl, by simp; omega⟩
      cases k with
      | zero => exact ⟨_, .inl hpair⟩
      | succ k =>
          rcases getElem?_append_cases hk with hk | ⟨l, rfl, hl⟩
          · have hpartner := ((ihu hk).append (')' :: v)).prepend ['(']
            rwa [List.length_singleton, Nat.add_comm] at hpartner
          · cases l with
            | zero => exact ⟨_, .inr hpair⟩
            | succ l =>
                have hpartner := (ihv hl).prepend ('(' :: (u ++ [')']))
                have hplace : ('(' :: (u ++ [')'])).length + l = u.length + (l + 1) + 1 := by
                  simp only [List.length_cons, List.length_append, List.length_nil]
                  omega
                rw [hplace] at hpartner
                simpa using hpartner

/-! ## Brackets that are left open -/

/-- How many brackets are open after a text if so many were before. There is no answer if one is
closed that was not open. -/
def depth : List Char → Nat → Option Nat
  | [], d => some d
  | '(' :: cs, d => depth cs (d + 1)
  | ')' :: _, 0 => none
  | ')' :: cs, d + 1 => depth cs d
  | _ :: cs, d => depth cs d

theorem depth_append (u v : List Char) (d : Nat) :
    depth (u ++ v) d = (depth u d).bind (depth v) := by
  fun_induction depth u d <;> simp_all [depth]

theorem Balanced.depth_eq (hu : Balanced u) (d : Nat) : depth u d = some d := by
  induction hu generalizing d with
  | nil => rfl
  | other hopening hclosing _ ih =>
      rw [depth]
      · exact ih d
      · exact hopening
      · exact fun _ => hclosing
      · exact fun _ _ => hclosing
  | bracket _ _ ihu ihv => rw [depth, depth_append, ihu, Option.bind_some, depth, ihv]

/-- An opening bracket has no partner if nothing after it closes it. -/
theorem unmatchedOpening_of_depth (h : depth v 0 = some d) :
    UnmatchedOpening (u ++ '(' :: v) u.length := by
  refine ⟨by simp, ?_⟩
  rintro j ⟨a, w, b, heq, hw, hlength, -⟩
  -- The partner would be the first one to close what was not open.
  obtain ⟨rfl, htail⟩ := List.append_inj heq hlength
  cases htail
  rw [depth_append, hw.depth_eq, Option.bind_some, depth] at h
  cases h

theorem Balanced.unmatchedClosing (hu : Balanced u) (v : List Char) :
    UnmatchedClosing (u ++ ')' :: v) u.length := by
  refine ⟨by simp, ?_⟩
  rintro i ⟨a, w, b, heq, hw, -, hlength⟩
  have hsplit : a ++ '(' :: (w ++ ')' :: b) = (a ++ '(' :: w) ++ ')' :: b := by simp
  rw [hsplit] at heq
  obtain ⟨rfl, -⟩ :=
    List.append_inj heq (by rw [hlength, List.length_append, List.length_cons]; omega)
  -- The partner would still be open at the end of a balanced text.
  have hdepth := hu.depth_eq 0
  rw [depth_append, Option.bind_eq_some_iff] at hdepth
  obtain ⟨d, -, hd⟩ := hdepth
  rw [depth, hw.depth_eq] at hd
  cases hd

theorem Balanced.le_of_unmatchedClosing (hu : Balanced u) (h : UnmatchedClosing (u ++ v) j) :
    u.length ≤ j := by
  by_contra hlt
  rw [Nat.not_le] at hlt
  have hclosing := h.1
  rw [List.getElem?_append_left hlt] at hclosing
  exact ((hu.hasPartner hclosing (.inr rfl)).append v).not_unmatchedClosing h

/-- `Opened ps u` says that the brackets which are open after the text `u` are at the places `ps`,
the innermost first. -/
inductive Opened : List Nat → List Char → Prop
  | nil {u : List Char} : Balanced u → Opened [] u
  | bracket {ps : List Nat} {u v : List Char} :
    Opened ps u → Balanced v → Opened (u.length :: ps) (u ++ '(' :: v)

namespace Opened

theorem append (hu : Opened ps u) (hv : Balanced v) : Opened ps (u ++ v) := by
  cases hu with
  | nil hu => exact .nil (hu.append hv)
  | bracket hu hw =>
      rw [List.append_assoc, List.cons_append]
      exact .bracket hu (hw.append hv)

theorem opening (hu : Opened ps u) : Opened (u.length :: ps) (u ++ ['(']) := .bracket hu .nil

theorem closing (hu : Opened (k :: ps) u) : Opened ps (u ++ [')']) := by
  cases hu with
  | bracket hu hv =>
      rw [List.append_assoc, List.cons_append]
      exact hu.append (.bracket hv .nil)

theorem exists_depth (hu : Opened ps u) (hk : k ∈ ps) :
    ∃ a b d, u = a ++ '(' :: b ∧ k = a.length ∧ depth b 0 = some d := by
  induction hu with
  | nil => cases hk
  | @bracket ps u v _ hv ih =>
      rcases List.mem_cons.1 hk with rfl | hk
      · exact ⟨u, v, 0, rfl, rfl, hv.depth_eq 0⟩
      · obtain ⟨a, b, d, rfl, rfl, hd⟩ := ih hk
        refine ⟨a, b ++ '(' :: v, d + 1, by simp, rfl, ?_⟩
        rw [depth_append, hd, Option.bind_some, depth, hv.depth_eq]

theorem mem_or_hasPartner (hu : Opened ps u) (hk : u[k]? = some c) (hc : c = '(' ∨ c = ')') :
    c = '(' ∧ k ∈ ps ∨ HasPartner u k := by
  induction hu generalizing k with
  | nil hu => exact .inr (hu.hasPartner hk hc)
  | @bracket ps u v _ hv ih =>
      rcases getElem?_append_cases hk with hk | ⟨l, rfl, hl⟩
      · exact (ih hk).imp (fun h => ⟨h.1, List.mem_cons_of_mem _ h.2⟩) (·.append _)
      · cases l with
        | zero =>
            cases hl
            exact .inl ⟨rfl, List.mem_cons_self⟩
        | succ l =>
            have hpartner := (hv.hasPartner hl hc).prepend (u ++ ['('])
            rw [List.length_append, List.length_singleton, List.append_assoc] at hpartner
            rw [Nat.add_comm l 1, ← Nat.add_assoc]
            exact .inr hpartner

theorem unmatchedOpening_iff (hu : Opened ps u) : UnmatchedOpening u k ↔ k ∈ ps := by
  constructor
  · intro h
    rcases hu.mem_or_hasPartner h.1 (.inl rfl) with ⟨-, hk⟩ | hpartner
    · exact hk
    · exact absurd h hpartner.not_unmatchedOpening
  · intro hk
    obtain ⟨a, b, d, rfl, rfl, hd⟩ := hu.exists_depth hk
    exact unmatchedOpening_of_depth hd

theorem not_unmatchedClosing (hu : Opened ps u) (k : Nat) : ¬ UnmatchedClosing u k := by
  intro h
  rcases hu.mem_or_hasPartner h.1 (.inr rfl) with ⟨heq, -⟩ | hpartner
  · cases heq
  · exact hpartner.not_unmatchedClosing h

theorem le_of_mem (hu : Opened (k :: ps) u) (hj : j ∈ k :: ps) : j ≤ k := by
  cases hu with
  | bracket hu _ =>
      rcases List.mem_cons.1 hj with rfl | hj
      · exact Nat.le_refl _
      · obtain ⟨a, b, d, rfl, rfl, -⟩ := hu.exists_depth hj
        simp

end Opened

/-! ## Errors -/

def ReadError.Located (cs : List Char) : ReadError → Prop
  | unclosed p =>
    (∀ j, ¬ UnmatchedClosing cs j) ∧ UnmatchedOpening cs p ∧ ∀ i, UnmatchedOpening cs i → i ≤ p
  | unopened p => UnmatchedClosing cs p ∧ ∀ j, UnmatchedClosing cs j → p ≤ j
  | lacksOperand operator p => (operator = '*' ∨ operator = '|') ∧ cs[p]? = some operator

namespace Reader

variable {g : Group} {s : State} {r : Regex} {e : ReadError}

theorem join_error {finished : List Regex} {bars : List Nat} (h : join r finished bars = .error e) :
    ∃ p ∈ bars, e = .lacksOperand '|' p := by
  induction finished generalizing r bars with
  | nil =>
      cases bars with
      | nil => cases h
      | cons p bars =>
          cases h
          exact ⟨p, List.mem_cons_self, rfl⟩
  | cons l rest ih =>
      cases bars with
      | nil => cases h
      | cons p bars =>
          obtain ⟨q, hq, rfl⟩ := ih h
          exact ⟨q, List.mem_cons_of_mem p hq, rfl⟩

theorem Group.close_error (h : g.close = .error e) : ∃ p ∈ g.bars, e = .lacksOperand '|' p := by
  rw [Stacks.close_eq] at h
  split at h
  · cases h
  · exact join_error h

theorem Group.bars_factor (g : Group) (r : Regex) : (g.factor r).bars = g.bars := by
  obtain ⟨finished, bars, _ | f⟩ := g <;> rfl

theorem Group.star_cases (g : Group) (k : Nat) :
    g.star k = .error (.lacksOperand '*' k) ∨ ∃ g', g.star k = .ok g' ∧ g'.bars = g.bars := by
  obtain ⟨finished, bars, _ | f⟩ := g
  · cases finished with
    | nil => exact .inl rfl
    | cons r rest => exact .inr ⟨_, rfl, rfl⟩
  · exact .inr ⟨_, rfl, rfl⟩

theorem Group.bar_cases (g : Group) (k : Nat) :
    g.bar k = .error (.lacksOperand '|' k) ∨ ∃ g', g.bar k = .ok g' ∧ g'.bars = k :: g.bars := by
  rw [Stacks.bar_eq]
  split
  · exact .inl rfl
  · exact .inr ⟨_, rfl, rfl⟩

/-- What a state has noted of the text before it: which brackets are open, and where bars are. -/
structure State.Notes (s : State) (u : List Char) : Prop where
  opened : Opened (s.enclosing.map (·.1)) u
  bars : ∀ g ∈ s.group :: s.enclosing.map (·.2), ∀ p ∈ g.bars, u[p]? = some '|'

namespace State.Notes

theorem bars_append (h : s.Notes u) (v : List Char) :
    ∀ g ∈ s.group :: s.enclosing.map (·.2), ∀ p ∈ g.bars, (u ++ v)[p]? = some '|' := by
  intro g hg p hp
  have hbar := h.bars g hg p hp
  rw [List.getElem?_append_left (List.getElem?_eq_some_iff.1 hbar).1]
  exact hbar

/-- Outside of brackets a state changes by its innermost group only, which may note one more bar. -/
theorem within (h : s.Notes u) (hc : c ≠ '(' ∧ c ≠ ')')
    (hbars : ∀ p ∈ g.bars, p ∈ s.group.bars ∨ p = u.length ∧ c = '|') :
    State.Notes { s with group := g } (u ++ [c]) := by
  refine ⟨h.opened.append (.other hc.1 hc.2 .nil), ?_⟩
  rw [List.forall_mem_cons]
  refine ⟨fun p hp => ?_, fun g' hg' => h.bars_append [c] g' (List.mem_cons_of_mem _ hg')⟩
  rcases hbars p hp with hp | ⟨rfl, rfl⟩
  · exact h.bars_append [c] _ List.mem_cons_self p hp
  · simp

theorem read_cases (h : s.Notes u) (c : Char) (v : List Char) :
    (∃ s', s.read u.length c = .ok s' ∧ s'.Notes (u ++ [c])) ∨
      ∃ e, s.read u.length c = .error e ∧ e.Located (u ++ c :: v) := by
  rcases Stacks.char_cases c with rfl | rfl | rfl | rfl | ⟨hc, r, -, hread⟩
  · refine .inl ⟨_, rfl, h.opened.opening, ?_⟩
    rw [List.forall_mem_cons]
    exact ⟨nofun, h.bars_append _⟩
  · cases hclose : s.group.close with
    | error e =>
        obtain ⟨p, hp, rfl⟩ := Group.close_error hclose
        have hbar := h.bars_append (')' :: v) _ List.mem_cons_self p hp
        exact .inr ⟨_, bind_eq_error_iff.2 (.inl hclose), .inr rfl, hbar⟩
    | ok r =>
        have hbars := h.bars_append [')']
        have hopened := h.opened
        obtain ⟨group, _ | ⟨outer, rest⟩⟩ := s
        · cases hopened with
          | nil hu =>
              refine .inr ⟨_, bind_eq_error_iff.2 (.inr ⟨r, hclose, rfl⟩),
                hu.unmatchedClosing v, ?_⟩
              exact fun j hj => hu.le_of_unmatchedClosing hj
        · refine .inl ⟨_, bind_eq_ok_iff.2 ⟨r, hclose, rfl⟩, hopened.closing, ?_⟩
          simp only [List.map_cons, List.forall_mem_cons, Group.bars_factor] at hbars ⊢
          exact hbars.2
  · rcases s.group.star_cases u.length with herror | ⟨g, hg, hbars⟩
    · exact .inr ⟨_, bind_eq_error_iff.2 (.inl herror), .inl rfl, by simp⟩
    · refine .inl ⟨_, bind_eq_ok_iff.2 ⟨g, hg, rfl⟩, h.within (by decide) fun p hp => ?_⟩
      exact .inl (hbars ▸ hp)
  · rcases s.group.bar_cases u.length with herror | ⟨g, hg, hbars⟩
    · exact .inr ⟨_, bind_eq_error_iff.2 (.inl herror), .inr rfl, by simp⟩
    · refine .inl ⟨_, bind_eq_ok_iff.2 ⟨g, hg, rfl⟩, h.within (by decide) fun p hp => ?_⟩
      rw [hbars] at hp
      exact (List.mem_cons.1 hp).symm.imp_right fun hp => ⟨hp, rfl⟩
  · exact .inl ⟨_, hread s u.length, h.within hc fun p hp =>
      .inl (Group.bars_factor s.group r ▸ hp)⟩

theorem located_finish (h : s.Notes u) (hfinish : s.finish = .error e) : e.Located u := by
  rcases bind_eq_error_iff.1 hfinish with hclose | ⟨r, -, hfinish⟩
  · obtain ⟨p, hp, rfl⟩ := Group.close_error hclose
    exact ⟨.inr rfl, h.bars _ List.mem_cons_self p hp⟩
  · have hopened := h.opened
    obtain ⟨group, enclosing⟩ := s
    cases enclosing with
    | nil => cases hfinish
    | cons outer rest =>
        cases hfinish
        refine ⟨hopened.not_unmatchedClosing, hopened.unmatchedOpening_iff.2 List.mem_cons_self, ?_⟩
        exact fun i hi => hopened.le_of_mem (hopened.unmatchedOpening_iff.1 hi)

theorem located_readFrom (h : s.Notes u) (hread : s.readFrom u.length cs = .error e) :
    e.Located (u ++ cs) := by
  induction cs generalizing s u with
  | nil =>
      rw [List.append_nil]
      exact h.located_finish hread
  | cons c cs ih =>
      rcases h.read_cases c cs with ⟨s', hs', h'⟩ | ⟨e', he', hlocated⟩
      · have hnext : (u ++ [c]).length = u.length + 1 := List.length_append
        rw [State.readFrom, hs', ← hnext] at hread
        rw [List.append_cons]
        exact ih h' hread
      · cases (bind_eq_error_iff.2 (.inl he')).symm.trans hread
        exact hlocated

end State.Notes

end Reader

/-- Reading with two stacks and reading group by group have the same outcome, and when a text
cannot be read, the error names the place where it is at fault. -/
theorem errors_located (text : String) :
    Stacks.read text = parse text ∧ ∀ e, parse text = .error e → e.Located text.toList := by
  refine ⟨Stacks.read_eq_parse text, fun e he => ?_⟩
  have hinitial : Reader.State.initial.Notes [] :=
    ⟨.nil .nil, by simp [Reader.State.initial, Reader.Group.empty]⟩
  exact hinitial.located_readFrom he

/-- The bracket inside of the group that is not closed has its partner, the second closing bracket
comes too late, and the star takes away what the bar needs. -/
theorem errors_located_faults :
    parse "a(b(c)" = .error (.unclosed 1) ∧ ReadError.Located "a(b(c)".toList (.unclosed 1) ∧
      parse "(a))b)" = .error (.unopened 3) ∧ ReadError.Located "(a))b)".toList (.unopened 3) ∧
      parse "c(a|*b)" = .error (.lacksOperand '|' 3) ∧
      ReadError.Located "c(a|*b)".toList (.lacksOperand '|' 3) := by
  have hunclosed : parse "a(b(c)" = .error (.unclosed 1) := by decide +kernel
  have hunopened : parse "(a))b)" = .error (.unopened 3) := by decide +kernel
  have hlacks : parse "c(a|*b)" = .error (.lacksOperand '|' 3) := by decide +kernel
  exact ⟨hunclosed, (errors_located _).2 _ hunclosed, hunopened,
    (errors_located _).2 _ hunopened, hlacks, (errors_located _).2 _ hlacks⟩

end RegularLanguages.Regex
