import RegularLanguages.Proofs.Outcome
import RegularLanguages.Regex.Stacks

/-!
# Two stacks and one group at a time

The machine with two stacks and the reader of groups go through a text side by side. The operands
of the innermost group lie on top of those of the groups around it, and so do its operators: a mark
if its sequence has more than one factor, and the bars (`Stacks.OnStacks`). A mark finds both of
its operands, as it is put after one factor and resolved after the next. So the machine fails where
the reader does, with the same error, and otherwise both give the same expression
(`Stacks.read_eq_parse`).
-/

namespace RegularLanguages.Regex.Stacks

open Reader

variable {g : Group} {s : State} {m : Machine} {previous : Option Kind} {k : Nat} {c : Char}
  {r : Regex} {rs xs : List Regex} {os ops : List Operator} {enclosing : List (Nat × Group)}

/-! ## Groups on the stacks -/

/-- The alternatives of a group when a bar or its end follows, the latest first. -/
def alternatives (g : Group) : List Regex :=
  match g.current with
  | none => g.finished
  | some f => f.value :: g.finished

theorem close_eq (g : Group) :
    g.close = match alternatives g with
      | [] => .ok .emptyWord
      | r :: rest => join r rest g.bars := by
  obtain ⟨finished, bars, _ | f⟩ := g
  · cases finished <;> rfl
  · rfl

theorem bar_eq (g : Group) (k : Nat) :
    g.bar k = match alternatives g with
      | [] => .error (.lacksOperand '|' k)
      | r :: rest => .ok ⟨r :: rest, k :: g.bars, none⟩ := by
  obtain ⟨finished, bars, _ | f⟩ := g
  · cases finished <;> rfl
  · rfl

/-- Whether every finished alternative of a group has its bar, and bars stand only after
alternatives. -/
structure Sound (g : Group) : Prop where
  length_le : g.finished.length ≤ g.bars.length
  bars_eq_nil : alternatives g = [] → g.bars = []

theorem Sound.length_rest_le (h : Sound g) {rest : List Regex}
    (halternatives : alternatives g = r :: rest) :
    rest.length ≤ g.bars.length := by
  have hlength := h.length_le
  obtain ⟨finished, bars, _ | f⟩ := g
  · cases halternatives
    exact Nat.le_of_succ_le hlength
  · cases halternatives
    exact hlength

theorem Sound.factor (h : Sound g) (r : Regex) : Sound (g.factor r) := by
  obtain ⟨finished, bars, current⟩ := g
  cases current <;> exact ⟨h.length_le, nofun⟩

/-- `OnStacks g rs os` says that `rs` are the operands of a group and `os` its operators. -/
inductive OnStacks : Group → List Regex → List Operator → Prop
  | none {finished : List Regex} {bars : List Nat} :
    OnStacks ⟨finished, bars, none⟩ finished (bars.map .union)
  | one {finished : List Regex} {bars : List Nat} {last : Regex} :
    OnStacks ⟨finished, bars, some ⟨.none, last⟩⟩ (last :: finished) (bars.map .union)
  | more {finished : List Regex} {bars : List Nat} {front last : Regex} {k : Nat} :
    OnStacks ⟨finished, bars, some ⟨some front, last⟩⟩ (last :: front :: finished)
      (.concat k :: bars.map .union)

/-- The same when one more factor is about to be read, with a mark before it if it is not the
first. -/
inductive Awaits : Group → List Regex → List Operator → Prop
  | first {finished : List Regex} {bars : List Nat} :
    Awaits ⟨finished, bars, none⟩ finished (bars.map .union)
  | next {finished : List Regex} {bars : List Nat} {f : Factors} {k : Nat} :
    Awaits ⟨finished, bars, some f⟩ (f.value :: finished) (.concat k :: bars.map .union)

theorem Awaits.factor (h : Awaits g rs os) (r : Regex) : OnStacks (g.factor r) (r :: rs) os := by
  cases h with
  | first => exact .one
  | next => exact .more

/-- The operands and the operators of the groups around the innermost one. -/
inductive Beneath : List (Nat × Group) → List Regex → List Operator → Prop
  | nil : Beneath [] [] []
  | bracket {enclosing : List (Nat × Group)} {rs xs : List Regex}
      {os ops : List Operator} {g : Group}
    {k : Nat} :
    Beneath enclosing xs ops → Sound g → Awaits g rs os →
      Beneath ((k, g) :: enclosing) (rs ++ xs) (.group (rs ++ xs).length k :: (os ++ ops))

/-! ## Popping -/

theorem Beneath.floor_eq (h : Beneath enclosing xs ops) (bars : List Nat) :
    floor (bars.map .union ++ ops) = xs.length := by
  induction bars with
  | nil => cases h <;> rfl
  | cons k bars ih => exact ih

theorem popOperand_append (operator : Char) (k : Nat) (r : Regex) (rs xs : List Regex) :
    popOperand operator k xs.length (r :: (rs ++ xs)) = .ok (r, rs ++ xs) := by
  have hlt : ¬ (r :: (rs ++ xs)).length ≤ xs.length := by
    simp only [List.length_cons, List.length_append]
    omega
  rw [popOperand, if_neg hlt]

theorem popOperand_length (operator : Char) (k : Nat) (xs : List Regex) :
    popOperand operator k xs.length xs = .error (.lacksOperand operator k) := by
  cases xs <;> simp [popOperand]

theorem applyTo_append (operator : Char) (k : Nat) (build : Regex → Regex → Regex) (r l : Regex)
    (rs xs : List Regex) :
    applyTo operator k xs.length build (r :: l :: (rs ++ xs)) = .ok (build l r :: (rs ++ xs)) := by
  have hright := popOperand_append operator k r (l :: rs) xs
  have hleft := popOperand_append operator k l rs xs
  exact bind_eq_ok_iff.2 ⟨_, hright, bind_eq_ok_iff.2 ⟨_, hleft, rfl⟩⟩

theorem applyTo_singleton (operator : Char) (k : Nat) (build : Regex → Regex → Regex) (r : Regex)
    (xs : List Regex) :
    applyTo operator k xs.length build (r :: xs) = .error (.lacksOperand operator k) := by
  have hright := popOperand_append operator k r [] xs
  have hleft := popOperand_length operator k xs
  exact bind_eq_error_iff.2 (.inr ⟨_, hright, bind_eq_error_iff.2 (.inl hleft)⟩)

/-! ## Resolving -/

namespace Beneath

theorem resolveConcat_unions (h : Beneath enclosing xs ops) (operands : List Regex)
    (bars : List Nat) :
    Machine.resolveConcat ⟨operands, bars.map .union ++ ops⟩ =
      .ok ⟨operands, bars.map .union ++ ops⟩ := by
  cases bars with
  | nil => cases h <;> rfl
  | cons => rfl

theorem resolveConcat (h : Beneath enclosing xs ops) (hg : OnStacks g rs os) :
    Machine.resolveConcat ⟨rs ++ xs, os ++ ops⟩ =
      .ok ⟨alternatives g ++ xs, g.bars.map .union ++ ops⟩ := by
  cases hg with
  | none => exact h.resolveConcat_unions _ _
  | one => exact h.resolveConcat_unions _ _
  | @more finished bars front last mark =>
      have happly := applyTo_append '·' mark juxtapose last front finished xs
      rw [← h.floor_eq bars] at happly
      exact bind_eq_ok_iff.2 ⟨_, happly, rfl⟩

theorem resolveUnions (h : Beneath enclosing xs ops) {finished : List Regex} {bars : List Nat}
    (hlength : finished.length ≤ bars.length) (r : Regex) :
    Agree (fun t m => m = ⟨t :: xs, ops⟩) (join r finished bars)
      (Stacks.resolveUnions (r :: (finished ++ xs)) (bars.map .union ++ ops)) := by
  induction bars generalizing finished r with
  | nil =>
      have hnil : finished = [] := List.length_eq_zero_iff.1 (by simpa using hlength)
      subst hnil
      cases h <;> exact .ok rfl
  | cons k bars ih =>
      rw [List.map_cons, List.cons_append, Stacks.resolveUnions, h.floor_eq]
      cases finished with
      | nil =>
          rw [List.nil_append, applyTo_singleton]
          exact .error _
      | cons l rest =>
          rw [List.cons_append, applyTo_append]
          exact ih (by simpa using hlength) (.union l r)

/-- A group is resolved to its expression. Of a group without anything in it no operand is left. -/
theorem resolve (h : Beneath enclosing xs ops) (hsound : Sound g) (hg : OnStacks g rs os) :
    Agree (fun t m => m = ⟨t :: xs, ops⟩ ∨ t = .emptyWord ∧ m = ⟨xs, ops⟩) g.close
      (Machine.resolve ⟨rs ++ xs, os ++ ops⟩) := by
  rw [Machine.resolve, h.resolveConcat hg, close_eq]
  cases halternatives : alternatives g with
  | nil =>
      rw [hsound.bars_eq_nil halternatives]
      cases h <;> exact .ok (.inr ⟨rfl, rfl⟩)
  | cons r rest =>
      have hlength := hsound.length_rest_le halternatives
      exact (h.resolveUnions hlength r).imp fun _ _ hm => .inl hm

end Beneath

/-! ## Pushing -/

/-- `Simulates s previous m` says that the machine `m` has come as far as the reader, and that
`previous` is the token before. -/
inductive Simulates : State → Option Kind → Machine → Prop
  | intro {g : Group} {enclosing : List (Nat × Group)} {previous : Option Kind} {rs xs : List Regex}
    {os ops : List Operator} :
    Beneath enclosing xs ops → Sound g → OnStacks g rs os →
      previous.any Kind.endsFactor = g.current.isSome →
      Simulates ⟨g, enclosing⟩ previous ⟨rs ++ xs, os ++ ops⟩

theorem Beneath.push_marks (h : Beneath enclosing xs ops) (hg : OnStacks g rs os) {t : Token}
    (hprevious : previous.any Kind.endsFactor = g.current.isSome)
    (hstarts : t.kind.startsFactor = true) :
    ∃ rs' os', Awaits g rs' os' ∧
      (marks previous t).foldlM Machine.push ⟨rs ++ xs, os ++ ops⟩ =
        .ok ⟨rs' ++ xs, os' ++ ops⟩ := by
  rw [marks, hprevious, hstarts, Bool.and_true]
  obtain ⟨finished, bars, _ | f⟩ := g
  · cases hg
    exact ⟨_, _, .first, rfl⟩
  · refine ⟨_, _, .next (k := t.place), ?_⟩
    have hpush : Machine.push ⟨rs ++ xs, os ++ ops⟩ ⟨.juxtaposition, t.place⟩ =
        .ok ⟨f.value :: finished ++ xs, .concat t.place :: bars.map .union ++ ops⟩ :=
      bind_eq_ok_iff.2 ⟨_, h.resolveConcat hg, rfl⟩
    rw [Option.isSome_some, if_pos rfl, List.foldlM_cons, hpush]
    rfl

theorem Beneath.close (h : Beneath enclosing xs ops) (hsound : Sound g) (hg : OnStacks g rs os) :
    Agree (fun s m => Simulates s (some .closing) m) (State.read ⟨g, enclosing⟩ k ')')
      (Machine.close ⟨rs ++ xs, os ++ ops⟩ k) := by
  apply (h.resolve hsound hg).bind
  intro t m hm
  cases h with
  | nil => rcases hm with rfl | ⟨-, rfl⟩ <;> exact .error _
  | @bracket enclosing rs xs os ops outer k h houter hawaits =>
      -- Whether the group left its expression or nothing, its expression is on top now.
      have hsimulates : Simulates ⟨outer.factor t, enclosing⟩ (some .closing)
          ⟨t :: rs ++ xs, os ++ ops⟩ := by
        refine .intro h (houter.factor t) (hawaits.factor t) ?_
        obtain ⟨finished, bars, _ | f⟩ := outer <;> rfl
      rcases hm with rfl | ⟨rfl, rfl⟩
      · have hne : (t :: (rs ++ xs)).length ≠ (rs ++ xs).length := by simp
        refine .ok ?_
        rw [if_neg hne]
        exact hsimulates
      · refine .ok ?_
        rw [if_pos rfl]
        exact hsimulates

theorem char_cases (c : Char) :
    c = '(' ∨ c = ')' ∨ c = '*' ∨ c = '|' ∨ (c ≠ '(' ∧ c ≠ ')') ∧ ∃ r, Kind.ofChar c = .operand r ∧
      ∀ (s : State) (k : Nat), s.read k c = .ok { s with group := s.group.factor r } := by
  by_cases hopening : c = '('
  · exact .inl hopening
  by_cases hclosing : c = ')'
  · exact .inr (.inl hclosing)
  by_cases hstar : c = '*'
  · exact .inr (.inr (.inl hstar))
  by_cases hbar : c = '|'
  · exact .inr (.inr (.inr (.inl hbar)))
  refine .inr (.inr (.inr (.inr ⟨⟨hopening, hclosing⟩, ?_⟩)))
  by_cases hset : c = '∅'
  · exact ⟨.emptySet, by rw [hset]; rfl, fun s k => by rw [hset]; rfl⟩
  by_cases hword : c = '~'
  · exact ⟨.emptyWord, by rw [hword]; rfl, fun s k => by rw [hword]; rfl⟩
  refine ⟨.char c, ?_, fun s k => ?_⟩
  · unfold Kind.ofChar
    split <;> first | contradiction | rfl
  · unfold State.read
    split <;> first | contradiction | rfl

theorem OnStacks.star (hg : OnStacks g rs os) (hsound : Sound g) (k : Nat) :
    (rs = [] ∧ g.star k = .error (.lacksOperand '*' k)) ∨
      ∃ r rest g', rs = r :: rest ∧ g.star k = .ok g' ∧ Sound g' ∧ g'.current.isSome = true ∧
        OnStacks g' (.star r :: rest) os := by
  obtain ⟨hlength, -⟩ := hsound
  cases hg with
  | none =>
      cases rs with
      | nil => exact .inl ⟨rfl, rfl⟩
      | cons r rest => exact .inr ⟨_, _, _, rfl, rfl, ⟨Nat.le_of_succ_le hlength, nofun⟩, rfl, .one⟩
  | one => exact .inr ⟨_, _, _, rfl, rfl, ⟨hlength, nofun⟩, rfl, .one⟩
  | more => exact .inr ⟨_, _, _, rfl, rfl, ⟨hlength, nofun⟩, rfl, .more⟩

theorem Beneath.push_star (h : Beneath enclosing xs ops) (hsound : Sound g) (hg : OnStacks g rs os)
    (k : Nat) :
    Agree (fun s m => Simulates s (some .star) m) (State.read ⟨g, enclosing⟩ k '*')
      (Machine.push ⟨rs ++ xs, os ++ ops⟩ ⟨.star, k⟩) := by
  have hfloor : floor (os ++ ops) = xs.length := by
    cases hg <;> exact h.floor_eq _
  have hread : State.read ⟨g, enclosing⟩ k '*' = do return ⟨← g.star k, enclosing⟩ := rfl
  rw [hread, Machine.push, hfloor]
  rcases hg.star hsound k with ⟨rfl, hstar⟩ | ⟨r, rest, g', rfl, hstar, hsound', hcurrent, hg'⟩
  · rw [hstar, List.nil_append, popOperand_length]
    exact .error _
  · rw [hstar, List.cons_append, popOperand_append]
    exact .ok (.intro h hsound' hg' hcurrent.symm)

theorem Beneath.push_bar (h : Beneath enclosing xs ops) (hsound : Sound g) (hg : OnStacks g rs os)
    (k : Nat) :
    Agree (fun s m => Simulates s (some .bar) m) (State.read ⟨g, enclosing⟩ k '|')
      (Machine.push ⟨rs ++ xs, os ++ ops⟩ ⟨.bar, k⟩) := by
  have hread : State.read ⟨g, enclosing⟩ k '|' = do return ⟨← g.bar k, enclosing⟩ := rfl
  rw [hread, bar_eq, Machine.push, h.resolveConcat hg]
  change Agree _ _
    (if (alternatives g ++ xs).length ≤ floor (g.bars.map .union ++ ops) then _ else _)
  rw [h.floor_eq]
  cases halternatives : alternatives g with
  | nil =>
      rw [List.nil_append, if_pos (Nat.le_refl _)]
      exact .error _
  | cons r rest =>
      have hlt : ¬ (r :: rest ++ xs).length ≤ xs.length := by
        simp only [List.length_append, List.length_cons]
        omega
      rw [if_neg hlt]
      have hlength := hsound.length_rest_le halternatives
      exact .ok (.intro (g := ⟨r :: rest, k :: g.bars, none⟩) h
        ⟨Nat.succ_le_succ hlength, nofun⟩ .none rfl)

theorem Simulates.read (h : Simulates s previous m) (k : Nat) (c : Char) :
    Agree (fun s m => Simulates s (some (.ofChar c)) m) (s.read k c)
      ((marks previous ⟨.ofChar c, k⟩).foldlM Machine.push m >>= fun m =>
        m.push ⟨.ofChar c, k⟩) := by
  obtain @⟨g, enclosing, previous, rs, xs, os, ops, hbeneath, hsound, hg, hprevious⟩ := h
  have hmarks : ∀ {kind : Kind}, kind.startsFactor = false → marks previous ⟨kind, k⟩ = [] := by
    intro kind hkind
    rw [marks, hkind, Bool.and_false]
    rfl
  -- An opening bracket and an operand begin a factor, which may need a mark; the others do not.
  rcases char_cases c with rfl | rfl | rfl | rfl | ⟨-, r, hkind, hread⟩
  · obtain ⟨rs', os', hawaits, hpush⟩ :=
      hbeneath.push_marks (t := ⟨.opening, k⟩) hg hprevious rfl
    change Agree _ _ ((marks previous ⟨.opening, k⟩).foldlM _ _ >>= _)
    rw [hpush]
    exact .ok (.intro (g := .empty) (.bracket hbeneath hsound hawaits)
      ⟨Nat.le_refl 0, fun _ => rfl⟩ .none rfl)
  · change Agree _ _ ((marks previous ⟨.closing, k⟩).foldlM _ _ >>= _)
    rw [hmarks rfl]
    exact hbeneath.close hsound hg
  · change Agree _ _ ((marks previous ⟨.star, k⟩).foldlM _ _ >>= _)
    rw [hmarks rfl]
    exact hbeneath.push_star hsound hg k
  · change Agree _ _ ((marks previous ⟨.bar, k⟩).foldlM _ _ >>= _)
    rw [hmarks rfl]
    exact hbeneath.push_bar hsound hg k
  · obtain ⟨rs', os', hawaits, hpush⟩ :=
      hbeneath.push_marks (t := ⟨.operand r, k⟩) hg hprevious rfl
    rw [hkind, hread, hpush]
    refine .ok (.intro (g := g.factor r) hbeneath (hsound.factor r) (hawaits.factor r) ?_)
    obtain ⟨finished, bars, _ | f⟩ := g <;> rfl

theorem Simulates.finish (h : Simulates s previous m) : s.finish = m.finish := by
  obtain ⟨hbeneath, hsound, hg, -⟩ := h
  apply (hbeneath.resolve hsound hg).bind_eq
  intro t m hm
  cases hbeneath with
  | nil => rcases hm with rfl | ⟨rfl, rfl⟩ <;> rfl
  | bracket => rcases hm with rfl | ⟨rfl, rfl⟩ <;> rfl

theorem Simulates.readFrom (h : Simulates s previous m) (k : Nat) (cs : List Char) :
    s.readFrom k cs = (tokensFrom previous k cs).foldlM Machine.push m >>= Machine.finish := by
  induction cs generalizing s previous m k with
  | nil => exact h.finish
  | cons c cs ih =>
      have hstep := (h.read k c).bind_eq fun s' m' h' => ih h' (k + 1)
      simp only [tokensFrom, List.foldlM_append, List.foldlM_cons, bind_assoc] at hstep ⊢
      exact hstep

/-- The machine and the reader have the same outcome on every text. -/
theorem read_eq_parse (text : String) : read text = parse text := by
  have hinitial : Simulates .initial none ⟨[], []⟩ :=
    .intro (g := .empty) .nil ⟨Nat.le_refl 0, fun _ => rfl⟩ .none rfl
  exact (hinitial.readFrom 0 text.toList).symm

end RegularLanguages.Regex.Stacks
