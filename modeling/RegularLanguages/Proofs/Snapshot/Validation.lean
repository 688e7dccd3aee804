import RegularLanguages.Proofs.Snapshot.Dfa

/-!
# Which snapshots describe automata

A snapshot declares the states that are keys of its table or accept. It is valid if its start is
declared and its rows are for symbols and lead to declared states only. Exactly then it describes
an automaton, and it describes no other. Of a snapshot that is not valid the first fault is
reported: the start is looked at first, and then the entries of the table in order.
-/

namespace RegularLanguages

open SnapshotFormat

namespace SnapshotFormat

variable {labels : LabelTable}

theorem exists_target_eq_ok {state label : String} (h : label ∈ labels.toList) :
    ∃ q, target labels.index state label = .ok q := by
  rw [exists_eq_ok_iff]
  intro d hd
  exact (target_eq_error_iff.1 hd).1 h

theorem mem_statesOf_iff (hlabels : labels.toList.Nodup) {names : List String} {q : Nat} :
    q ∈ statesOf labels.index names ↔ q < labels.size ∧ labels.display q ∈ names := by
  rw [mem_statesOf]
  simp only [LabelTable.id?_eq_some_iff_display hlabels]
  constructor
  · rintro ⟨name, hname, hq, rfl⟩
    exact ⟨hq, hname⟩
  · rintro ⟨hq, hname⟩
    exact ⟨_, hname, hq, rfl⟩

end SnapshotFormat

/-! ## Nondeterministic automata -/

namespace Nfa

namespace Snapshot

variable {s : Snapshot} {e : Table.Entry (List String)} {state : String} {d : Defect}

/-- Whether a label is that of a state: it has a row, or accepts. -/
def Declares (s : Snapshot) (label : String) : Prop := label ∈ s.table.keys ∨ label ∈ s.accepting

/-- The start and all targets are declared, and every row is for symbols. -/
structure Valid (s : Snapshot) : Prop where
  start_declared : ∃ start, s.start = some start ∧ s.Declares start
  key_spelled : ∀ e ∈ s.table.entries, ∃ a, Symbol.SpelledBy a e.key
  target_declared : ∀ e ∈ s.table.entries, ∀ t ∈ e.value, s.Declares t

def TargetFault (s : Snapshot) (state t : String) (d : Defect) : Prop :=
  ¬ s.Declares t ∧ d = .unknownTarget state t

/-- What is wrong first with an entry: its key, or else its first target that is not declared. -/
inductive EntryFault (s : Snapshot) (e : Table.Entry (List String)) : Defect → Prop
  | badSymbol : (∀ a, ¬ Symbol.SpelledBy a e.key) → EntryFault s e (.badSymbol e.state e.key)
  | unknownTarget {a : Symbol} {d : Defect} :
    a.SpelledBy e.key → FirstFault (s.TargetFault e.state) e.value d → EntryFault s e d

inductive Fault (s : Snapshot) : Defect → Prop
  | noStart : s.start = none → Fault s .noStart
  | unknownStart {start : String} :
    s.start = some start → ¬ s.Declares start → Fault s (.unknownStart start)
  | entry {start : String} {d : Defect} :
    s.start = some start → s.Declares start → FirstFault s.EntryFault s.table.entries d → Fault s d

/-- The automaton has the states, the start, the accepting states and the edges that a snapshot
lists. -/
structure Describes (s : Snapshot) (n : Nfa) : Prop where
  labels_eq : n.labels.toList = s.table.keys ++ (s.accepting.filter (· ∉ s.table.keys)).eraseDups
  start_lt : n.start < n.size
  start_eq : s.start = some (n.label n.start)
  mem_accepting_iff : ∀ q, q ∈ n.accepting ↔ q < n.size ∧ n.label q ∈ s.accepting
  mem_edges_iff : ∀ p a q, ⟨p, a, q⟩ ∈ n.edges ↔ p < n.size ∧ q < n.size ∧
    ∃ e ∈ s.table.entries, e.state = n.label p ∧ a.SpelledBy e.key ∧ n.label q ∈ e.value

theorem mem_labels {label : String} : label ∈ s.labels.toList ↔ s.Declares label := by
  rw [labels, LabelTable.mem_ofList, List.mem_append, Declares]

/-! ### Faults -/

theorem forall_not_entryFault_iff :
    (∀ d, ¬ s.EntryFault e d) ↔ (∃ a, Symbol.SpelledBy a e.key) ∧ ∀ t ∈ e.value, s.Declares t := by
  have htargets : (∀ d, ¬ FirstFault (s.TargetFault e.state) e.value d) ↔
      ∀ t ∈ e.value, s.Declares t := by
    simp [forall_not_firstFault_iff, TargetFault]
  constructor
  · intro hnone
    obtain ⟨a, ha⟩ : ∃ a, Symbol.SpelledBy a e.key := by
      by_contra hkey
      exact hnone _ (.badSymbol (not_exists.1 hkey))
    exact ⟨⟨a, ha⟩, htargets.1 fun d hfirst => hnone d (.unknownTarget ha hfirst)⟩
  · rintro ⟨⟨a, ha⟩, hdeclared⟩ _ (hkey | ⟨-, hfirst⟩)
    · exact hkey a ha
    · exact htargets.2 hdeclared _ hfirst

/-! The start is looked at first, and the entries count only if it is declared. -/

theorem fault_iff_of_eq_none (hstart : s.start = none) : s.Fault d ↔ d = .noStart := by
  constructor
  · rintro (- | ⟨h, -⟩ | ⟨h, -⟩)
    · rfl
    · simp [hstart] at h
    · simp [hstart] at h
  · rintro rfl
    exact .noStart hstart

theorem fault_iff_of_eq_some {start : String} (hstart : s.start = some start) :
    s.Fault d ↔ ¬ s.Declares start ∧ d = .unknownStart start ∨
      s.Declares start ∧ FirstFault s.EntryFault s.table.entries d := by
  constructor
  · rintro (h | ⟨h, hundeclared⟩ | ⟨h, hdeclared, hfirst⟩)
    · simp [hstart] at h
    · cases hstart.symm.trans h
      exact .inl ⟨hundeclared, rfl⟩
    · cases hstart.symm.trans h
      exact .inr ⟨hdeclared, hfirst⟩
  · rintro (⟨hundeclared, rfl⟩ | ⟨hdeclared, hfirst⟩)
    · exact .unknownStart hstart hundeclared
    · exact .entry hstart hdeclared hfirst

theorem valid_iff : s.Valid ↔ ∀ d, ¬ s.Fault d := by
  have hentries : (∀ d, ¬ FirstFault s.EntryFault s.table.entries d) ↔
      ∀ e ∈ s.table.entries, (∃ a, Symbol.SpelledBy a e.key) ∧ ∀ t ∈ e.value, s.Declares t := by
    simp only [forall_not_firstFault_iff, forall_not_entryFault_iff]
  constructor
  · rintro ⟨⟨start, hstart, hdeclared⟩, hkey, htarget⟩ d hfault
    rcases (fault_iff_of_eq_some hstart).1 hfault with ⟨hundeclared, -⟩ | ⟨-, hfirst⟩
    · exact hundeclared hdeclared
    · exact hentries.2 (fun e he => ⟨hkey e he, htarget e he⟩) d hfirst
  · intro hnone
    obtain ⟨start, hstart⟩ : ∃ start, s.start = some start :=
      Option.ne_none_iff_exists'.1 fun h => hnone _ (.noStart h)
    have hdeclared : s.Declares start := by
      by_contra h
      exact hnone _ (.unknownStart hstart h)
    have hvalid := hentries.1 fun d hfirst => hnone d (.entry hstart hdeclared hfirst)
    exact ⟨⟨start, hstart, hdeclared⟩, fun e he => (hvalid e he).1, fun e he => (hvalid e he).2⟩

theorem target_eq_error_iff_targetFault {t : String} :
    target s.labels.index state t = .error d ↔ s.TargetFault state t d := by
  rw [target_eq_error_iff, mem_labels, TargetFault]

theorem edgesOfRow_eq_error_iff {row : Table (List String)} (hstate : s.Declares state) :
    edgesOfRow s.labels.index state row = .error d ↔
      FirstFault (fun (key, targets) => s.EntryFault ⟨state, key, targets⟩) row.toList d := by
  obtain ⟨source, hsource⟩ := exists_target_eq_ok (mem_labels.2 hstate)
  rw [edgesOfRow, hsource]
  change (_ >>= fun edges => pure (List.flatten edges)) = Except.error d ↔ _
  rw [bind_pure_eq_error_iff, mapM_eq_error_iff]
  apply firstFault_congr
  rintro ⟨key, targets⟩ - d
  rw [bind_eq_error_iff, symbol_eq_error_iff]
  simp only [symbol_eq_ok_iff, mapM_eq_error_iff, bind_pure_eq_error_iff,
    target_eq_error_iff_targetFault]
  constructor
  · rintro (⟨hkey, rfl⟩ | ⟨a, ha, hfirst⟩)
    · exact .badSymbol hkey
    · exact .unknownTarget ha hfirst
  · rintro (hkey | ⟨ha, hfirst⟩)
    · exact .inl ⟨hkey, rfl⟩
    · exact .inr ⟨_, ha, hfirst⟩

end Snapshot

theorem ofSnapshot_eq_error_iff {s : Snapshot} {d : Defect} :
    ofSnapshot s = .error d ↔ s.Fault d := by
  have hrows : s.table.toList.mapM (fun r => edgesOfRow s.labels.index r.1 r.2) = .error d ↔
      FirstFault s.EntryFault s.table.entries d := by
    apply Table.mapM_rows_eq_error_iff
    intro state row hrow d
    exact Snapshot.edgesOfRow_eq_error_iff (.inl (List.mem_map_of_mem hrow))
  unfold ofSnapshot
  cases hstart : s.start with
  | none =>
      rw [Snapshot.fault_iff_of_eq_none hstart]
      dsimp only
      rw [Except.error.injEq, eq_comm]
  | some start =>
      rw [Snapshot.fault_iff_of_eq_some hstart, ← Snapshot.mem_labels, ← hrows]
      dsimp only
      rw [LabelTable.place?_index]
      cases hid : (LabelTable.ofList (s.table.keys ++ s.accepting)).id? start with
      | none =>
          have hmem : start ∉ s.labels.toList := LabelTable.id?_eq_none_iff.1 hid
          simp [hmem, eq_comm]
      | some q =>
          have hmem : start ∈ s.labels.toList := by
            by_contra h
            have hnone : s.labels.id? start = none := LabelTable.id?_eq_none_iff.2 h
            cases hid.symm.trans hnone
          simp only [hmem, not_true, false_and, true_and, false_or]
          exact bind_pure_eq_error_iff

/-! ### What is described -/

theorem describes_of_ofSnapshot {s : Snapshot} {n : Nfa} (h : ofSnapshot s = .ok n) :
    s.Describes n := by
  have hn := wellFormed_ofSnapshot h
  have hedges : ∀ p a q, ⟨p, a, q⟩ ∈ n.edges ↔ p < n.size ∧ q < n.size ∧
      ∃ e ∈ s.table.entries, e.state = n.label p ∧ a.SpelledBy e.key ∧ n.label q ∈ e.value := by
    intro p a q
    rw [mem_edges_ofSnapshot h]
    simp only [LabelTable.id?_eq_some_iff_display hn.labels_nodup]
    constructor
    · rintro ⟨e, he, ⟨hp, hstate⟩, ha, t, ht, hq, rfl⟩
      exact ⟨hp, hq, e, he, hstate.symm, ha, ht⟩
    · rintro ⟨hp, hq, e, he, hstate, ha, ht⟩
      exact ⟨e, he, ⟨hp, hstate.symm⟩, ha, _, ht, hq, rfl⟩
  obtain ⟨start, q, edges, hstart, hq, -, rfl⟩ := ofSnapshot_eq_ok_iff.1 h
  rw [LabelTable.id?_eq_some_iff_display hn.labels_nodup] at hq
  exact {
    labels_eq := LabelTable.toList_ofList_append s.table.nodup s.accepting
    start_lt := hn.start_lt
    start_eq := by
      rw [hstart]
      exact congrArg some hq.2.symm
    mem_accepting_iff := fun q => mem_statesOf_iff hn.labels_nodup
    mem_edges_iff := hedges }

theorem Snapshot.Describes.labels_eq_labels {s : Snapshot} {n : Nfa} (hn : s.Describes n) :
    n.labels = s.labels := by
  have h : n.labels.toList = s.labels.toList := calc
    n.labels.toList = s.table.keys ++ (s.accepting.filter (· ∉ s.table.keys)).eraseDups :=
      hn.labels_eq
    _ = s.labels.toList := (LabelTable.toList_ofList_append s.table.nodup s.accepting).symm
  exact congrArg LabelTable.mk h

theorem Snapshot.Describes.unique {s : Snapshot} {m n : Nfa} (hm : s.Describes m)
    (hn : s.Describes n) :
    m = n := by
  obtain ⟨labels, start, accepting, edges⟩ := m
  obtain ⟨labels', start', accepting', edges'⟩ := n
  obtain rfl : labels = labels' := hm.labels_eq_labels.trans hn.labels_eq_labels.symm
  have hnodup : labels.toList.Nodup := by
    rw [show labels = s.labels from hm.labels_eq_labels]
    exact LabelTable.nodup_ofList _
  have hstart : labels.display start = labels.display start' :=
    Option.some.inj (hm.start_eq.symm.trans hn.start_eq)
  obtain rfl : start = start' := LabelTable.display_inj hnodup hm.start_lt hn.start_lt hstart
  obtain rfl : accepting = accepting' :=
    StateSet.ext fun q => (hm.mem_accepting_iff q).trans (hn.mem_accepting_iff q).symm
  obtain rfl : edges = edges' :=
    SortedSet.ext fun ⟨p, a, q⟩ => (hm.mem_edges_iff p a q).trans (hn.mem_edges_iff p a q).symm
  rfl

/-- A snapshot is read with success if it is valid, and then it describes the automaton and no
other. Otherwise its first fault is reported. -/
theorem ofSnapshot_outcome_edges (s : Snapshot) :
    ((∃ n, ofSnapshot s = .ok n) ↔ s.Valid) ∧
      (∀ n, ofSnapshot s = .ok n ↔ s.Valid ∧ s.Describes n) ∧
        ∀ d, ofSnapshot s = .error d ↔ s.Fault d :=
  outcome_of_faults (fun _ => ofSnapshot_eq_error_iff) Snapshot.valid_iff
    (fun _ => describes_of_ofSnapshot) (fun _ _ => Snapshot.Describes.unique)

/-- Of five faults, the first: neither the other target of its entry nor what comes after it
counts. -/
example :
    let rows : Table (Table (List String)) :=
      ⟨[("p", ⟨[("~", ["q"]), ("a", ["p", "x", "y"]), ("(", [])], by decide⟩),
        ("", ⟨[("ab", ["z"])], by decide⟩)], by decide⟩
    ofSnapshot ⟨some "q", ["q", "q"], rows⟩ = .error (.unknownTarget "p" "x") := by
  decide +kernel

end Nfa

/-! ## Deterministic automata -/

namespace Dfa

namespace Snapshot

variable {s : Snapshot} {e : Table.Entry String} {state : String} {x : Defect}

def Declares (s : Snapshot) (label : String) : Prop := label ∈ s.table.keys ∨ label ∈ s.accepting

/-- There is a state, every row is for characters, and all targets are declared. -/
structure Valid (s : Snapshot) : Prop where
  keys_ne_nil : s.table.keys ≠ []
  key_spelled : ∀ e ∈ s.table.entries, ∃ c, Symbol.SpelledBy (.char c) e.key
  target_declared : ∀ e ∈ s.table.entries, s.Declares e.value

/-- What is wrong first with an entry: its key, or else its target. -/
inductive EntryFault (s : Snapshot) (e : Table.Entry String) : Defect → Prop
  | badSymbol : (∀ a, ¬ Symbol.SpelledBy a e.key) → EntryFault s e (.badSymbol e.state e.key)
  | emptyMove : Symbol.SpelledBy .epsilon e.key → EntryFault s e (.emptyMove e.state)
  | unknownTarget {c : Char} :
    Symbol.SpelledBy (.char c) e.key → ¬ s.Declares e.value →
      EntryFault s e (.unknownTarget e.state e.value)

inductive Fault (s : Snapshot) : Defect → Prop
  | noStart : s.table.keys = [] → Fault s .noStart
  | entry {x : Defect} : s.table.keys ≠ [] → FirstFault s.EntryFault s.table.entries x → Fault s x

/-- The automaton has the states, the accepting states and the moves that a snapshot lists, and
starts with the first key. -/
structure Describes (s : Snapshot) (d : Dfa) : Prop where
  labels_eq : d.labels.toList = s.table.keys ++ (s.accepting.filter (· ∉ s.table.keys)).eraseDups
  start_lt : d.start < d.size
  head?_keys : s.table.keys.head? = some (d.label d.start)
  mem_accepting_iff : ∀ q, q ∈ d.accepting ↔ q < d.size ∧ d.label q ∈ s.accepting
  step_eq_some_iff : ∀ p c q, d.step p c = some q ↔ p < d.size ∧ q < d.size ∧
    ∃ e ∈ s.table.entries, e.state = d.label p ∧ Symbol.SpelledBy (.char c) e.key ∧
      e.value = d.label q
  subsets_eq : d.subsets = none

theorem mem_labels {label : String} : label ∈ s.labels.toList ↔ s.Declares label := by
  rw [labels, LabelTable.mem_ofList, List.mem_append, Declares]

/-! ### Faults -/

theorem forall_not_entryFault_iff :
    (∀ x, ¬ s.EntryFault e x) ↔ (∃ c, Symbol.SpelledBy (.char c) e.key) ∧ s.Declares e.value := by
  constructor
  · intro hnone
    obtain ⟨a, ha⟩ : ∃ a, Symbol.SpelledBy a e.key := by
      by_contra hkey
      exact hnone _ (.badSymbol (not_exists.1 hkey))
    cases a with
    | epsilon => exact absurd (.emptyMove ha) (hnone _)
    | char c =>
        refine ⟨⟨c, ha⟩, ?_⟩
        by_contra hundeclared
        exact hnone _ (.unknownTarget ha hundeclared)
  · rintro ⟨⟨c, hc⟩, hdeclared⟩ _ (hkey | hkey | ⟨-, hundeclared⟩)
    · exact hkey _ hc
    · cases hkey.unique hc
    · exact hundeclared hdeclared

theorem valid_iff : s.Valid ↔ ∀ x, ¬ s.Fault x := by
  have hentries : (∀ x, ¬ FirstFault s.EntryFault s.table.entries x) ↔
      ∀ e ∈ s.table.entries, (∃ c, Symbol.SpelledBy (.char c) e.key) ∧ s.Declares e.value := by
    simp only [forall_not_firstFault_iff, forall_not_entryFault_iff]
  constructor
  · rintro ⟨hkeys, hkey, htarget⟩ x (h | ⟨-, hfirst⟩)
    · exact hkeys h
    · exact hentries.2 (fun e he => ⟨hkey e he, htarget e he⟩) x hfirst
  · intro hnone
    have hkeys : s.table.keys ≠ [] := fun h => hnone _ (.noStart h)
    have hvalid := hentries.1 fun x hfirst => hnone x (.entry hkeys hfirst)
    exact ⟨hkeys, fun e he => (hvalid e he).1, fun e he => (hvalid e he).2⟩

theorem movesOfRow_eq_error_iff {row : Table String} (hstate : s.Declares state) :
    movesOfRow s.labels.index state row = .error x ↔
      FirstFault (fun (key, t) => s.EntryFault ⟨state, key, t⟩) row.toList x := by
  obtain ⟨source, hsource⟩ := exists_target_eq_ok (mem_labels.2 hstate)
  rw [movesOfRow, hsource]
  change List.mapM _ _ = _ ↔ _
  rw [mapM_eq_error_iff]
  apply firstFault_congr
  rintro ⟨key, t⟩ - x
  rw [bind_eq_error_iff, symbol_eq_error_iff]
  constructor
  · rintro (⟨hkey, rfl⟩ | ⟨a, ha, hfault⟩)
    · exact .badSymbol hkey
    · rw [symbol_eq_ok_iff] at ha
      cases a with
      | epsilon =>
          cases hfault
          exact .emptyMove ha
      | char c =>
          obtain ⟨ht, rfl⟩ := target_eq_error_iff.1 (bind_pure_eq_error_iff.1 hfault)
          exact .unknownTarget ha (mt mem_labels.2 ht)
  · rintro (hkey | hkey | ⟨hc, hundeclared⟩)
    · exact .inl ⟨hkey, rfl⟩
    · exact .inr ⟨.epsilon, symbol_eq_ok_iff.2 hkey, rfl⟩
    · refine .inr ⟨.char _, symbol_eq_ok_iff.2 hc, bind_pure_eq_error_iff.2 ?_⟩
      exact target_eq_error_iff.2 ⟨mt mem_labels.1 hundeclared, rfl⟩

end Snapshot

theorem ofSnapshot_eq_error_iff {s : Snapshot} {x : Defect} :
    ofSnapshot s = .error x ↔ s.Fault x := by
  have hrows : s.table.toList.mapM (fun r => movesOfRow s.labels.index r.1 r.2) = .error x ↔
      FirstFault s.EntryFault s.table.entries x := by
    apply Table.mapM_rows_eq_error_iff
    intro state row hrow x
    exact Snapshot.movesOfRow_eq_error_iff (.inl (List.mem_map_of_mem hrow))
  unfold ofSnapshot
  split
  · rename_i hkeys
    constructor
    · rintro ⟨⟩
      exact .noStart hkeys
    · rintro (- | ⟨h, -⟩)
      · rfl
      · exact absurd hkeys h
  · rename_i start keys hkeys
    have hne : s.table.keys ≠ [] := by simp [hkeys]
    obtain ⟨q, hq⟩ : ∃ q, target s.labels.index start start = .ok q :=
      exists_target_eq_ok (Snapshot.mem_labels.2 (.inl (by simp [hkeys])))
    change (target s.labels.index start start >>= _) = _ ↔ _
    rw [hq]
    refine (bind_pure_eq_error_iff.trans hrows).trans ⟨.entry hne, ?_⟩
    rintro (h | ⟨-, hfirst⟩)
    · exact absurd h hne
    · exact hfirst

theorem describes_of_ofSnapshot {s : Snapshot} {d : Dfa} (h : ofSnapshot s = .ok d) :
    s.Describes d := by
  have hd := wellFormed_ofSnapshot h
  have hstep : ∀ p c q, d.step p c = some q ↔ p < d.size ∧ q < d.size ∧ ∃ e ∈ s.table.entries,
      e.state = d.label p ∧ Symbol.SpelledBy (.char c) e.key ∧ e.value = d.label q := by
    intro p c q
    rw [step_ofSnapshot h]
    simp only [LabelTable.id?_eq_some_iff_display hd.labels_nodup]
    constructor
    · rintro ⟨e, he, ⟨hp, hstate⟩, hc, hq, hvalue⟩
      exact ⟨hp, hq, e, he, hstate.symm, hc, hvalue.symm⟩
    · rintro ⟨hp, hq, e, he, hstate, hc, hvalue⟩
      exact ⟨e, he, ⟨hp, hstate.symm⟩, hc, hq, hvalue.symm⟩
  obtain ⟨start, keys, q, moves, hkeys, hq, -, rfl⟩ := ofSnapshot_eq_ok_iff.1 h
  rw [target_eq_ok_iff, LabelTable.id?_eq_some_iff_display hd.labels_nodup] at hq
  exact {
    labels_eq := LabelTable.toList_ofList_append s.table.nodup s.accepting
    start_lt := hd.start_lt
    head?_keys := by
      rw [hkeys]
      exact congrArg some hq.2.symm
    mem_accepting_iff := fun q => mem_statesOf_iff hd.labels_nodup
    step_eq_some_iff := hstep
    subsets_eq := rfl }

theorem Snapshot.Describes.labels_eq_labels {s : Snapshot} {d : Dfa} (hd : s.Describes d) :
    d.labels = s.labels := by
  have h : d.labels.toList = s.labels.toList := calc
    d.labels.toList = s.table.keys ++ (s.accepting.filter (· ∉ s.table.keys)).eraseDups :=
      hd.labels_eq
    _ = s.labels.toList := (LabelTable.toList_ofList_append s.table.nodup s.accepting).symm
  exact congrArg LabelTable.mk h

theorem Snapshot.Describes.unique {s : Snapshot} {d e : Dfa} (hd : s.Describes d)
    (he : s.Describes e) :
    d = e := by
  obtain ⟨labels, start, accepting, moves, subsets⟩ := d
  obtain ⟨labels', start', accepting', moves', subsets'⟩ := e
  obtain rfl : labels = labels' := hd.labels_eq_labels.trans he.labels_eq_labels.symm
  have hnodup : labels.toList.Nodup := by
    rw [show labels = s.labels from hd.labels_eq_labels]
    exact LabelTable.nodup_ofList _
  have hstart : labels.display start = labels.display start' :=
    Option.some.inj (hd.head?_keys.symm.trans he.head?_keys)
  obtain rfl : start = start' := LabelTable.display_inj hnodup hd.start_lt he.start_lt hstart
  obtain rfl : accepting = accepting' :=
    StateSet.ext fun q => (hd.mem_accepting_iff q).trans (he.mem_accepting_iff q).symm
  obtain rfl : moves = moves' := by
    apply SortedMap.ext
    rintro ⟨p, c⟩
    ext q
    exact (hd.step_eq_some_iff p c q).trans (he.step_eq_some_iff p c q).symm
  obtain rfl : subsets = subsets' := hd.subsets_eq.trans he.subsets_eq.symm
  rfl

/-- A snapshot is read with success if it is valid, and then it describes the automaton and no
other. Otherwise its first fault is reported. -/
theorem ofSnapshot_outcome_moves (s : Snapshot) :
    ((∃ d, ofSnapshot s = .ok d) ↔ s.Valid) ∧
      (∀ d, ofSnapshot s = .ok d ↔ s.Valid ∧ s.Describes d) ∧
        ∀ x, ofSnapshot s = .error x ↔ s.Fault x :=
  outcome_of_faults (fun _ => ofSnapshot_eq_error_iff) Snapshot.valid_iff
    (fun _ => describes_of_ofSnapshot) (fun _ _ => Snapshot.Describes.unique)

/-- An empty move is reported before its target, which is not declared either. -/
example :
    let rows : Table (Table String) :=
      ⟨[("p", ⟨[("a", "q"), ("~", "x"), ("", "q")], by decide⟩)], by decide⟩
    ofSnapshot ⟨["q"], rows⟩ = .error (.emptyMove "p") := by
  decide +kernel

end Dfa

end RegularLanguages
