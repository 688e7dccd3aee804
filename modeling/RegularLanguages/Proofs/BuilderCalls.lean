import Mathlib.Data.List.Induction
import RegularLanguages.Proofs.Builder

/-!
# Calls on builders

A builder is told what to do by calls, and answers each. Builders of both kinds do the same with
the states of an automaton, whatever its edges are: what a call does to them and how it is answered
is said once, by `Outline.perform`, and both builders keep to it. From what one call does follows
what a sequence of calls does, by induction on the calls from the end (`Builder.Lawful.follows`).

A call on a reserved character is refused. It leaves everything as it was, also where it names
states that do not exist, so it can be left out of any sequence of calls. `Nfa.connect` and
`Dfa.connect` carry such calls out step by step, with what is done before a failure kept: the
character is looked at before states are created.
-/

namespace RegularLanguages

/-! ## Calls and answers -/

inductive Call (σ : Type) where
  | addState
  | addLabeledState (label : String)
  | find (label : String)
  | setStart (q : Nat)
  | addAccepting (q : Nat)
  | connect (source : Nat) (symbol : σ) (target : Nat)

inductive Answer where
  /-- A state that is there from now on. -/
  | state (q : Nat)
  /-- The state that was looked for, if there is one. -/
  | found (q : Option Nat)
  | done
  | refused (defect : Defect)
deriving DecidableEq

variable {β σ : Type}

namespace Call

def start? : Call σ → Option Nat
  | setStart q => some q
  | _ => none

/-- The states that exist after a call because it, or its answer, names them. -/
def named : Call σ × Answer → List Nat
  | (_, .refused _) => []
  | (_, .state q) => [q]
  | (setStart q, _) | (addAccepting q, _) => [q]
  | (connect p _ q, _) => [p, q]
  | _ => []

end Call

/-- How many states there are if there were so many before and some are named. -/
def countNamed (count : Nat) (states : List Nat) : Nat :=
  states.foldl (fun k q => max k (q + 1)) count

structure Outline where
  labels : LabelTable
  start : Nat
  accepting : StateSet

/-- What a call does apart from the edges, and how it is answered. -/
def Outline.perform (char? : σ → Option Char) (o : Outline) : Call σ → Answer × Outline
  | .addState => (.state o.labels.size, { o with labels := o.labels.reserve o.labels.size })
  | .addLabeledState label =>
    (.state ((o.labels.id? label).getD o.labels.size), { o with labels := o.labels.intern label })
  | .find label => (.found (o.labels.id? label), o)
  | .setStart q => (.done, { o with labels := o.labels.reserve q, start := q })
  | .addAccepting q =>
    (.done, { o with labels := o.labels.reserve q, accepting := o.accepting.insert q })
  | .connect p a q =>
    match (char? a).filter fun c => !Symbol.isInput c with
    | some c => (.refused (.badSymbol (o.labels.display p) (String.singleton c)), o)
    | none => (.done, { o with labels := (o.labels.reserve p).reserve q })

/-! ## What one call does -/

namespace Outline

variable (char? : σ → Option Char) (o : Outline) (c : Call σ) {p q : Nat} {a : σ} {x : Char}
    {defect : Defect}

theorem perform_connect (h : ∀ x, char? a = some x → Symbol.isInput x = true) :
    o.perform char? (.connect p a q) =
      (.done, { o with labels := (o.labels.reserve p).reserve q }) := by
  have hnone : (char? a).filter (fun c => !Symbol.isInput c) = none := by
    simpa [Option.filter_eq_none_iff] using h
  rw [perform, hnone]

theorem perform_connect_reserved (hchar : char? a = some x) (hx : Symbol.isInput x = false) :
    o.perform char? (.connect p a q) =
      (.refused (.badSymbol (o.labels.display p) (String.singleton x)), o) := by
  have hsome : (char? a).filter (fun c => !Symbol.isInput c) = some x := by
    simp [Option.filter_eq_some_iff, hchar, hx]
  rw [perform, hsome]

theorem perform_eq_refused_iff :
    (o.perform char? c).1 = .refused defect ↔
      ∃ p a q x, c = .connect p a q ∧ char? a = some x ∧ Symbol.isInput x = false ∧
        defect = .badSymbol (o.labels.display p) (String.singleton x) := by
  cases c with
  | connect p a q =>
      rw [perform]
      cases hfilter : (char? a).filter fun x => !Symbol.isInput x with
      | some x =>
          obtain ⟨hchar, hreserved⟩ := Option.filter_eq_some_iff.1 hfilter
          rw [Bool.not_eq_true'] at hreserved
          simp [hchar, hreserved, eq_comm (a := defect)]
      | none =>
          have hinput : ∀ x, char? a = some x → Symbol.isInput x = true := by
            simpa [Option.filter_eq_none_iff] using hfilter
          simp +contextual [hinput]
  | _ => simp [perform]

theorem prefix_perform : o.labels.toList <+: (o.perform char? c).2.labels.toList := by
  cases c with
  | addState => exact o.labels.prefix_reserve _
  | addLabeledState label => exact o.labels.prefix_intern label
  | find label => exact List.prefix_refl _
  | setStart q => exact o.labels.prefix_reserve q
  | addAccepting q => exact o.labels.prefix_reserve q
  | connect p a q =>
      rw [perform]
      split
      · exact List.prefix_refl _
      · exact (o.labels.prefix_reserve p).trans (LabelTable.prefix_reserve _ q)

theorem nodup_perform (ho : o.labels.toList.Nodup) : (o.perform char? c).2.labels.toList.Nodup := by
  cases c with
  | addState => exact LabelTable.nodup_reserve ho _
  | addLabeledState label => exact LabelTable.nodup_intern ho label
  | find label => exact ho
  | setStart q => exact LabelTable.nodup_reserve ho q
  | addAccepting q => exact LabelTable.nodup_reserve ho q
  | connect p a q =>
      rw [perform]
      split
      · exact ho
      · exact LabelTable.nodup_reserve (LabelTable.nodup_reserve ho p) q

theorem size_perform :
    (o.perform char? c).2.labels.size =
      countNamed o.labels.size (Call.named (c, (o.perform char? c).1)) := by
  cases c with
  | addState => exact o.labels.size_reserve _
  | addLabeledState label => exact o.labels.size_intern label
  | find label => rfl
  | setStart q => exact o.labels.size_reserve q
  | addAccepting q => exact o.labels.size_reserve q
  | connect p a q =>
      rw [perform]
      split
      · rfl
      · change ((o.labels.reserve p).reserve q).size = max (max o.labels.size (p + 1)) (q + 1)
        rw [LabelTable.size_reserve, LabelTable.size_reserve]

theorem start_perform : (o.perform char? c).2.start = c.start?.getD o.start := by
  cases c with
  | connect p a q =>
      rw [perform]
      split <;> rfl
  | _ => rfl

theorem mem_accepting_perform :
    q ∈ (o.perform char? c).2.accepting ↔ q ∈ o.accepting ∨ c = .addAccepting q := by
  cases c with
  | addAccepting r =>
    rw [perform, StateSet.mem_insert, or_comm, Call.addAccepting.injEq, eq_comm (a := r)]
  | connect p a r =>
      rw [perform]
      split <;> simp
  | _ => simp [perform]

end Outline

/-! ## What many calls do -/

theorem getLast?_filterMap_concat {α γ : Type} (f : α → Option γ) (l : List α) (x : α) :
    ((l ++ [x]).filterMap f).getLast? = (f x).or (l.filterMap f).getLast? := by
  rw [List.filterMap_append, List.getLast?_append]
  cases hx : f x <;> simp [hx]

structure Builder (β σ : Type) where
  perform : β → Call σ → Answer × β
  outline : β → Outline
  char? : σ → Option Char

namespace Builder

section Runs

variable (B : Builder β σ) (b : β)

def count : Nat := (B.outline b).labels.size

def label (q : Nat) : String := (B.outline b).labels.display q

def after (calls : List (Call σ)) : β := calls.foldl (fun b c => (B.perform b c).2) b

def transcript (b : β) : List (Call σ) → List (Call σ × Answer)
  | [] => []
  | c :: calls => (c, (B.perform b c).1) :: transcript (B.perform b c).2 calls

theorem after_append (u v : List (Call σ)) : B.after b (u ++ v) = B.after (B.after b u) v :=
  List.foldl_append

theorem after_concat (calls : List (Call σ)) (c : Call σ) :
    B.after b (calls ++ [c]) = (B.perform (B.after b calls) c).2 :=
  B.after_append b calls [c]

theorem transcript_append (u v : List (Call σ)) :
    B.transcript b (u ++ v) = B.transcript b u ++ B.transcript (B.after b u) v := by
  induction u generalizing b with
  | nil => rfl
  | cons c u ih =>
      rw [List.cons_append, transcript, transcript, ih, List.cons_append]
      rfl

theorem transcript_concat (calls : List (Call σ)) (c : Call σ) :
    B.transcript b (calls ++ [c]) =
      B.transcript b calls ++ [(c, (B.perform (B.after b calls) c).1)] :=
  B.transcript_append b calls [c]

end Runs

/-- Whether a builder does what is said by `Outline.perform`, and nothing on reserved characters. -/
structure Lawful (B : Builder β σ) : Prop where
  outline_perform : ∀ b c, (B.outline b).perform B.char? c =
    ((B.perform b c).1, B.outline (B.perform b c).2)
  unchanged : ∀ b p a q x, B.char? a = some x → Symbol.isInput x = false →
    (B.perform b (.connect p a q)).2 = b

/-- What a builder has to do on any calls from `b` on. -/
structure Follows (B : Builder β σ) (b : β) : Prop where
  refused_iff : ∀ calls c defect, (B.perform (B.after b calls) c).1 = .refused defect ↔
    ∃ p a q x, c = .connect p a q ∧ B.char? a = some x ∧ Symbol.isInput x = false ∧
      defect = .badSymbol (B.label (B.after b calls) p) (String.singleton x)
  after_refused : ∀ calls c defect, (B.perform (B.after b calls) c).1 = .refused defect →
    B.after b (calls ++ [c]) = B.after b calls
  after_without : ∀ calls c defect more, (B.perform (B.after b calls) c).1 = .refused defect →
    B.after b (calls ++ c :: more) = B.after b (calls ++ more)
  transcript_without : ∀ calls c defect more, (B.perform (B.after b calls) c).1 = .refused defect →
    ∃ later, B.transcript b (calls ++ c :: more) =
      B.transcript b calls ++ (c, .refused defect) :: later ∧
      B.transcript b (calls ++ more) = B.transcript b calls ++ later
  count_eq : ∀ calls, B.count (B.after b calls) =
    countNamed 1 ((B.transcript b calls).flatMap Call.named)
  addState_answer : ∀ calls, (B.perform (B.after b calls) .addState).1 =
    .state (B.count (B.after b calls))
  addLabeledState_answer : ∀ calls label, ∃ q,
    (B.perform (B.after b calls) (.addLabeledState label)).1 = .state q ∧
      (q < B.count (B.after b calls) ∧ B.label (B.after b calls) q = label ∨
        q = B.count (B.after b calls) ∧ (∀ p < q, B.label (B.after b calls) p ≠ label) ∧
          B.label (B.after b (calls ++ [.addLabeledState label])) q = label)
  find_answer : ∀ calls label, ∃ found, (B.perform (B.after b calls) (.find label)).1 =
    .found found ∧
    ∀ q, found = some q ↔ q < B.count (B.after b calls) ∧ B.label (B.after b calls) q = label
  label_eq : ∀ calls more q, q < B.count (B.after b calls) →
    B.label (B.after b (calls ++ more)) q = B.label (B.after b calls) q
  label_inj : ∀ calls p q, p < B.count (B.after b calls) → q < B.count (B.after b calls) →
    B.label (B.after b calls) p = B.label (B.after b calls) q → p = q
  start_eq : ∀ calls, (B.outline (B.after b calls)).start =
    (calls.filterMap Call.start?).getLast?.getD 0
  mem_accepting_iff : ∀ calls q, q ∈ (B.outline (B.after b calls)).accepting ↔
    .addAccepting q ∈ calls

namespace Lawful

variable {B : Builder β σ} {b : β}

theorem answer_eq (hB : B.Lawful) (b : β) (c : Call σ) :
    (B.perform b c).1 = ((B.outline b).perform B.char? c).1 := by
  rw [hB.outline_perform]

theorem outline_eq (hB : B.Lawful) (b : β) (c : Call σ) :
    B.outline (B.perform b c).2 = ((B.outline b).perform B.char? c).2 := by
  rw [hB.outline_perform]

theorem perform_refused (hB : B.Lawful) {c : Call σ} {defect : Defect}
    (h : (B.perform b c).1 = .refused defect) : (B.perform b c).2 = b := by
  rw [hB.answer_eq] at h
  obtain ⟨p, a, q, x, rfl, hchar, hx, -⟩ := (Outline.perform_eq_refused_iff _ _ c).1 h
  exact hB.unchanged b p a q x hchar hx

theorem prefix_after (hB : B.Lawful) (b : β) (calls : List (Call σ)) :
    (B.outline b).labels.toList <+: (B.outline (B.after b calls)).labels.toList := by
  induction calls using List.reverseRecOn with
  | nil => exact List.prefix_refl _
  | append_singleton calls c ih =>
      rw [after_concat, hB.outline_eq]
      exact ih.trans (Outline.prefix_perform _ _ c)

theorem nodup_after (hB : B.Lawful) (hb : (B.outline b).labels.toList.Nodup)
    (calls : List (Call σ)) :
    (B.outline (B.after b calls)).labels.toList.Nodup := by
  induction calls using List.reverseRecOn with
  | nil => exact hb
  | append_singleton calls c ih =>
      rw [after_concat, hB.outline_eq]
      exact Outline.nodup_perform _ _ c ih

theorem count_after (hB : B.Lawful) (b : β) (calls : List (Call σ)) :
    B.count (B.after b calls) =
      countNamed (B.count b) ((B.transcript b calls).flatMap Call.named) := by
  induction calls using List.reverseRecOn with
  | nil => rfl
  | append_singleton calls c ih =>
      have hone : B.count (B.after b (calls ++ [c])) =
          countNamed (B.count (B.after b calls))
            (Call.named (c, (B.perform (B.after b calls) c).1)) := by
        rw [after_concat, count, hB.outline_eq, hB.answer_eq]
        exact Outline.size_perform _ _ c
      calc B.count (B.after b (calls ++ [c]))
        _ = countNamed (countNamed (B.count b) ((B.transcript b calls).flatMap Call.named))
              (Call.named (c, (B.perform (B.after b calls) c).1)) := by rw [hone, ih]
        _ = countNamed (B.count b) ((B.transcript b calls).flatMap Call.named ++
              Call.named (c, (B.perform (B.after b calls) c).1)) := List.foldl_append.symm
        _ = countNamed (B.count b) ((B.transcript b (calls ++ [c])).flatMap Call.named) := by
              rw [transcript_concat, List.flatMap_append, List.flatMap_singleton]

theorem start_after (hB : B.Lawful) (b : β) (calls : List (Call σ)) :
    (B.outline (B.after b calls)).start =
      (calls.filterMap Call.start?).getLast?.getD (B.outline b).start := by
  induction calls using List.reverseRecOn with
  | nil => rfl
  | append_singleton calls c ih =>
      rw [after_concat, hB.outline_eq, Outline.start_perform, ih, getLast?_filterMap_concat,
        Option.getD_or]

theorem mem_accepting_after (hB : B.Lawful) (b : β) (calls : List (Call σ)) (q : Nat) :
    q ∈ (B.outline (B.after b calls)).accepting ↔
      q ∈ (B.outline b).accepting ∨ .addAccepting q ∈ calls := by
  induction calls using List.reverseRecOn with
  | nil => simp [after]
  | append_singleton calls c ih =>
      rw [after_concat, hB.outline_eq, Outline.mem_accepting_perform, ih, List.mem_append,
        List.mem_singleton, or_assoc, eq_comm (a := c)]

/-- A label gives the state that bears it, and otherwise the next state, which then bears it. -/
theorem addLabeledState_cases (hB : B.Lawful) (hb : (B.outline b).labels.toList.Nodup)
    (label : String) :
    ∃ q, (B.perform b (.addLabeledState label)).1 = .state q ∧
      (q < B.count b ∧ B.label b q = label ∨
        q = B.count b ∧ (∀ p < q, B.label b p ≠ label) ∧
          B.label (B.perform b (.addLabeledState label)).2 q = label) := by
  have hanswer := hB.answer_eq b (.addLabeledState label)
  cases hid : (B.outline b).labels.id? label with
  | some q =>
      rw [Outline.perform, hid] at hanswer
      exact ⟨q, hanswer, .inl ((LabelTable.id?_eq_some_iff_display hb).1 hid)⟩
  | none =>
      rw [Outline.perform, hid] at hanswer
      refine ⟨_, hanswer, .inr ⟨rfl, fun p hp heq => ?_, ?_⟩⟩
      · have hmem := LabelTable.display_mem hp
        rw [show (B.outline b).labels.display p = label from heq] at hmem
        exact LabelTable.id?_eq_none_iff.1 hid hmem
      · have hshown := LabelTable.display_intern (B.outline b).labels label
        rw [hid] at hshown
        rw [Builder.label, hB.outline_eq]
        exact hshown

theorem after_refused (hB : B.Lawful) {calls : List (Call σ)} {c : Call σ} {defect : Defect}
    (h : (B.perform (B.after b calls) c).1 = .refused defect) :
    B.after b (calls ++ [c]) = B.after b calls := by
  rw [after_concat]
  exact hB.perform_refused h

variable {label : String}

theorem nodup_after_single (hB : B.Lawful) (hb : B.outline b = ⟨⟨[label]⟩, 0, ∅⟩)
    (calls : List (Call σ)) :
    (B.outline (B.after b calls)).labels.toList.Nodup := by
  apply hB.nodup_after
  rw [hb]
  exact List.nodup_singleton label

/-- A builder that begins with one state, the start, does on all calls what is asked of it. -/
theorem follows (hB : B.Lawful) (hb : B.outline b = ⟨⟨[label]⟩, 0, ∅⟩) : B.Follows b where
  refused_iff calls c defect := by
    rw [hB.answer_eq]
    exact Outline.perform_eq_refused_iff _ _ c
  after_refused calls c defect h := hB.after_refused h
  after_without calls c defect more h := by
    rw [List.append_cons, after_append, hB.after_refused h, ← after_append]
  transcript_without calls c defect more h := by
    refine ⟨B.transcript (B.after b calls) more, ?_, B.transcript_append b calls more⟩
    rw [transcript_append, transcript, h, hB.perform_refused h]
  count_eq calls := by
    rw [hB.count_after, count, hb]
    rfl
  addState_answer calls := hB.answer_eq _ .addState
  addLabeledState_answer calls label := by
    rw [after_concat]
    exact hB.addLabeledState_cases (hB.nodup_after_single hb calls) label
  find_answer calls label :=
    ⟨_, hB.answer_eq _ (.find label), fun q =>
      LabelTable.id?_eq_some_iff_display (hB.nodup_after_single hb calls)⟩
  label_eq calls more q hq := by
    rw [after_append]
    exact LabelTable.display_of_prefix (hB.prefix_after _ more) hq
  label_inj calls p q hp hq h := LabelTable.display_inj (hB.nodup_after_single hb calls) hp hq h
  start_eq calls := by rw [hB.start_after, hb]
  mem_accepting_iff calls q := by
    rw [hB.mem_accepting_after, hb]
    simp

end Lawful

end Builder

def Answer.ofResult : Except Defect Unit → Answer
  | .ok () => .done
  | .error defect => .refused defect

/-! ## Nondeterministic automata -/

namespace Nfa

/-- Adds an edge on a character, step by step: what is done before a step fails stays done. -/
def connect (p : Nat) (x : Char) (q : Nat) : ExceptT Defect (StateM Nfa) Unit := do
  unless Symbol.isInput x do throw (.badSymbol ((← get).label p) (String.singleton x))
  modify fun n => n.reserve p
  modify fun n => n.reserve q
  modify fun n => { n with edges := n.edges.insert ⟨p, .char x, q⟩ }

/-- Only the first step can fail, so that nothing is done for an edge that is not added. -/
theorem run_connect (n : Nfa) (p : Nat) (x : Char) (q : Nat) :
    (connect p x q).run n =
      match n.addTransition p x q with
      | .ok n' => (.ok (), n')
      | .error defect => (.error defect, n) := by
  unfold connect addTransition
  split
  · rfl
  · rfl

def perform (n : Nfa) : Call Symbol → Answer × Nfa
  | .addState => (.state n.addState.1, n.addState.2)
  | .addLabeledState label => (.state (n.addLabeledState label).1, (n.addLabeledState label).2)
  | .find label => (.found (n.labels.id? label), n)
  | .setStart q => (.done, n.setStart q)
  | .addAccepting q => (.done, n.addAccepting q)
  | .connect p .epsilon q => (.done, n.addEmptyMove p q)
  | .connect p (.char x) q => ((connect p x q).run n).map Answer.ofResult id

def builder : Builder Nfa Symbol :=
  ⟨perform, fun n => ⟨n.labels, n.start, n.accepting⟩, Symbol.char?⟩

section Step

variable {n : Nfa} {p q : Nat} {x : Char}

theorem perform_input (hx : Symbol.isInput x = true) :
    n.perform (.connect p (.char x) q) = (.done, n.addEdge ⟨p, .char x, q⟩) := by
  rw [perform, run_connect, addTransition, if_pos hx]
  rfl

theorem perform_reserved (hx : Symbol.isInput x = false) :
    n.perform (.connect p (.char x) q) =
      (.refused (.badSymbol (n.label p) (String.singleton x)), n) := by
  rw [perform, run_connect, addTransition, hx]
  rfl

theorem mem_edges_perform {a : Symbol} (c : Call Symbol) :
    ⟨p, a, q⟩ ∈ (n.perform c).2.edges ↔
      ⟨p, a, q⟩ ∈ n.edges ∨ (.connect p a q, .done) = (c, (n.perform c).1) := by
  cases c with
  | connect p' b q' =>
      have hinsert : ⟨p, a, q⟩ ∈ (n.addEdge ⟨p', b, q'⟩).edges ↔
          ⟨p, a, q⟩ ∈ n.edges ∨ (Call.connect p a q, Answer.done) = (.connect p' b q', .done) := by
        change _ ∈ n.edges.insert _ ↔ _
        rw [SortedSet.mem_insert, or_comm]
        simp
      cases b with
      | epsilon => exact hinsert
      | char x =>
          cases hx : Symbol.isInput x with
          | true =>
              rw [perform_input hx]
              exact hinsert
          | false => simp [perform_reserved hx]
  | _ => simp [perform, addState, addLabeledState, setStart, addAccepting, reserve]

end Step

theorem lawful_builder : builder.Lawful where
  outline_perform n c := by
    cases c with
    | connect p a q =>
        change Outline.perform Symbol.char? _ _ = ((n.perform _).1, builder.outline (n.perform _).2)
        cases a with
        | epsilon => rfl
        | char x =>
            cases hx : Symbol.isInput x with
            | true =>
                rw [perform_input hx]
                exact Outline.perform_connect _ _ fun y hy => Option.some.inj hy ▸ hx
            | false =>
                rw [perform_reserved hx]
                exact Outline.perform_connect_reserved _ _ rfl hx
    | _ => rfl
  unchanged n p a q x hchar hx := by
    rw [Symbol.char?_eq_some_iff.1 hchar]
    exact congrArg Prod.snd (perform_reserved hx)

theorem mem_edges_after (n : Nfa) (calls : List (Call Symbol)) (p : Nat) (a : Symbol) (q : Nat) :
    ⟨p, a, q⟩ ∈ (builder.after n calls).edges ↔
      ⟨p, a, q⟩ ∈ n.edges ∨ (.connect p a q, .done) ∈ builder.transcript n calls := by
  induction calls using List.reverseRecOn with
  | nil => simp [Builder.after, Builder.transcript]
  | append_singleton calls c ih =>
      rw [Builder.after_concat, Builder.transcript_concat, List.mem_append, List.mem_singleton,
        ← or_assoc, ← ih]
      exact mem_edges_perform c

end Nfa

/-! ## Deterministic automata -/

def Call.target? (p : Nat) (x : Char) : Call Char × Answer → Option Nat
  | (connect p' x' q, .done) => if (p', x') = (p, x) then some q else none
  | _ => none

namespace Dfa

/-- Sets where a state moves to on a character, step by step as `Nfa.connect` does. -/
def connect (p : Nat) (x : Char) (q : Nat) : ExceptT Defect (StateM Dfa) Unit := do
  unless Symbol.isInput x do throw (.badSymbol ((← get).label p) (String.singleton x))
  modify fun d => d.reserve p
  modify fun d => d.reserve q
  modify fun d => { d with moves := d.moves.set (p, x) q }

theorem run_connect (d : Dfa) (p : Nat) (x : Char) (q : Nat) :
    (connect p x q).run d =
      match d.addTransition p x q with
      | .ok d' => (.ok (), d')
      | .error defect => (.error defect, d) := by
  unfold connect addTransition
  split
  · rfl
  · rfl

def perform (d : Dfa) : Call Char → Answer × Dfa
  | .addState => (.state d.addState.1, d.addState.2)
  | .addLabeledState label => (.state (d.addLabeledState label).1, (d.addLabeledState label).2)
  | .find label => (.found (d.labels.id? label), d)
  | .setStart q => (.done, d.setStart q)
  | .addAccepting q => (.done, d.addAccepting q)
  | .connect p x q => ((connect p x q).run d).map Answer.ofResult id

def builder : Builder Dfa Char := ⟨perform, fun d => ⟨d.labels, d.start, d.accepting⟩, some⟩

section Step

variable {d : Dfa} {p q : Nat} {x : Char}

theorem perform_input (hx : Symbol.isInput x = true) :
    d.perform (.connect p x q) = (.done, d.setMove p x q) := by
  rw [perform, run_connect, addTransition, if_pos hx]
  rfl

theorem perform_reserved (hx : Symbol.isInput x = false) :
    d.perform (.connect p x q) = (.refused (.badSymbol (d.label p) (String.singleton x)), d) := by
  rw [perform, run_connect, addTransition, hx]
  rfl

theorem step_perform (c : Call Char) :
    (d.perform c).2.step p x = (Call.target? p x (c, (d.perform c).1)).or (d.step p x) := by
  cases c with
  | connect p' y q =>
      cases hy : Symbol.isInput y with
      | true =>
          rw [perform_input hy, Call.target?]
          change (d.moves.set (p', y) q).get? (p, x) = _
          rw [SortedMap.get?_set]
          split_ifs <;> rfl
      | false =>
          rw [perform_reserved hy]
          rfl
  | _ => rfl

end Step

theorem lawful_builder : builder.Lawful where
  outline_perform d c := by
    cases c with
    | connect p x q =>
        change Outline.perform some _ _ = ((d.perform _).1, builder.outline (d.perform _).2)
        cases hx : Symbol.isInput x with
        | true =>
            rw [perform_input hx]
            exact Outline.perform_connect _ _ fun y hy => Option.some.inj hy ▸ hx
        | false =>
            rw [perform_reserved hx]
            exact Outline.perform_connect_reserved _ _ rfl hx
    | _ => rfl
  unchanged d p a q x hchar hx := by
    rw [Option.some.inj hchar]
    exact congrArg Prod.snd (perform_reserved hx)

/-- Of the calls that make a state move on a character the last one counts. -/
theorem step_after (d : Dfa) (calls : List (Call Char)) (p : Nat) (x : Char) :
    (builder.after d calls).step p x =
      ((builder.transcript d calls).filterMap (Call.target? p x)).getLast?.or (d.step p x) := by
  induction calls using List.reverseRecOn with
  | nil => rfl
  | append_singleton calls c ih =>
      have hone : (builder.after d (calls ++ [c])).step p x =
          (Call.target? p x (c, (builder.perform (builder.after d calls) c).1)).or
            ((builder.after d calls).step p x) := by
        rw [Builder.after_concat]
        exact step_perform c
      rw [hone, ih, ← Option.or_assoc, Builder.transcript_concat, getLast?_filterMap_concat]

end Dfa

/-- Calls on a builder of either kind, refused ones among them, build exactly what was asked for. -/
theorem builders_follow_calls (label : String) :
    (Nfa.builder.Follows (.single label) ∧
      ∀ calls p a q, ⟨p, a, q⟩ ∈ (Nfa.builder.after (.single label) calls).edges ↔
        (.connect p a q, .done) ∈ Nfa.builder.transcript (.single label) calls) ∧
    Dfa.builder.Follows (.single label) ∧
      ∀ calls p x, (Dfa.builder.after (.single label) calls).step p x =
        ((Dfa.builder.transcript (.single label) calls).filterMap (Call.target? p x)).getLast? := by
  refine ⟨⟨Nfa.lawful_builder.follows rfl, ?_⟩, Dfa.lawful_builder.follows rfl, ?_⟩
  · intro calls p a q
    rw [Nfa.mem_edges_after]
    exact or_iff_right (SortedSet.not_mem_empty _)
  · intro calls p x
    rw [Dfa.step_after]
    exact Option.or_none

-- The refused call creates no state. State `1` is labelled with a prime, as the start has its
-- number for a label.
example :
    (Dfa.builder.transcript (.single "1") [.connect 3 '*' 9, .addState, .connect 0 'x' 2,
      .find "1'"]).map Prod.snd =
      [.refused (.badSymbol "3" "*"), .state 1, .done, .found (some 1)] := by
  decide +kernel

end RegularLanguages
