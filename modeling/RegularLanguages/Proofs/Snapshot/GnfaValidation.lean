import RegularLanguages.Proofs.Gnfa.Structure
import RegularLanguages.Proofs.Snapshot.Validation

/-!
# Which snapshots describe generalized automata

The start and the accepting state of a snapshot are declared even where the table has no row for
them. A snapshot is valid if they differ, its rows lead to declared states and are labelled with
regular expressions, and no edge enters the start or leaves the accepting state; a label that is
read as the empty language is no edge, and may stand anywhere. Of each entry the target is looked
at first, then the label, and then the shape.
-/

namespace RegularLanguages.Gnfa

open SnapshotFormat

namespace Snapshot

variable {s : Snapshot} {e : Table.Entry String} {state : String} {x : Defect}

/-- Whether a label is that of a state: it has a row, or is that of the start or the accepting
state. -/
def Declares (s : Snapshot) (label : String) : Prop :=
  label ∈ s.table.keys ∨ label = s.start ∨ label = s.accept

/-- Whether an entry is an edge: its text is read as something else than the empty language. -/
def IsEdge (e : Table.Entry String) : Prop := ∃ r, Regex.parse e.value = .ok r ∧ r ≠ .emptySet

/-- The start is not the accepting state, every entry leads to a declared state and has the text of
an expression, and no edge enters the start or leaves the accepting state. -/
structure Valid (s : Snapshot) : Prop where
  start_ne_accept : s.start ≠ s.accept
  target_declared : ∀ e ∈ s.table.entries, s.Declares e.key
  label_read : ∀ e ∈ s.table.entries, ∃ r, Regex.parse e.value = .ok r
  not_enters_start : ∀ e ∈ s.table.entries, IsEdge e → e.key ≠ s.start
  not_leaves_accept : ∀ e ∈ s.table.entries, IsEdge e → e.state ≠ s.accept

/-- What is wrong first with an entry: its target, or else its label, or else an edge that enters
the start, or else one that leaves the accepting state. -/
inductive EntryFault (s : Snapshot) (e : Table.Entry String) : Defect → Prop
  | unknownTarget : ¬ s.Declares e.key → EntryFault s e (.unknownTarget e.state e.key)
  | badLabel {cause : Regex.ReadError} :
    s.Declares e.key → Regex.parse e.value = .error cause →
      EntryFault s e (.badLabel e.state e.key cause)
  | entersStart : s.Declares e.key → IsEdge e → e.key = s.start →
      EntryFault s e (.entersStart e.state)
  | leavesAccept : s.Declares e.key → IsEdge e → e.key ≠ s.start → e.state = s.accept →
      EntryFault s e (.leavesAccept e.key)

inductive Fault (s : Snapshot) : Defect → Prop
  | startAccepts : s.start = s.accept → Fault s .startAccepts
  | entry {x : Defect} : s.start ≠ s.accept → FirstFault s.EntryFault s.table.entries x → Fault s x

/-- The automaton has the states that a snapshot declares. The label of a listed pair is what its
text is read as, and all other pairs are labelled with the empty language. -/
structure Describes (s : Snapshot) (g : Gnfa) : Prop where
  labels_eq : g.labels.toList = s.table.keys ++
    ([s.start, s.accept].filter (· ∉ s.table.keys)).eraseDups
  states_eq : g.states = .below g.labels.size
  start_eq : g.labels.id? s.start = some g.start
  accept_eq : g.labels.id? s.accept = some g.accept
  label_of_entry : ∀ e ∈ s.table.entries, ∃ p q, g.labels.id? e.state = some p ∧
    g.labels.id? e.key = some q ∧ Regex.parse e.value = .ok (g.label p q)
  label_of_no_entry : ∀ p q,
    (∀ e ∈ s.table.entries, g.labels.id? e.state = some p → g.labels.id? e.key ≠ some q) →
      g.label p q = .emptySet
  stored_ne : ∀ e ∈ g.edges.toList, e.2 ≠ .emptySet

theorem mem_labels {label : String} : label ∈ s.labels.toList ↔ s.Declares label := by
  rw [labels, LabelTable.mem_ofList, List.mem_append, List.mem_pair, Declares]

/-! ### Faults -/

theorem forall_not_entryFault_iff :
    (∀ x, ¬ s.EntryFault e x) ↔ s.Declares e.key ∧ (∃ r, Regex.parse e.value = .ok r) ∧
      (IsEdge e → e.key ≠ s.start) ∧ (IsEdge e → e.state ≠ s.accept) := by
  constructor
  · intro hnone
    have hdeclared : s.Declares e.key := by
      by_contra h
      exact hnone _ (.unknownTarget h)
    have hread : ∃ r, Regex.parse e.value = .ok r :=
      exists_eq_ok_iff.2 fun cause h => hnone _ (.badLabel hdeclared h)
    have henters : IsEdge e → e.key ≠ s.start :=
      fun hedge h => hnone _ (.entersStart hdeclared hedge h)
    exact ⟨hdeclared, hread, henters,
      fun hedge h => hnone _ (.leavesAccept hdeclared hedge (henters hedge) h)⟩
  · rintro ⟨hdeclared, ⟨r, hr⟩, henters, hleaves⟩ _ (h | ⟨-, h⟩ | ⟨-, hedge, h⟩ | ⟨-, hedge, -, h⟩)
    · exact h hdeclared
    · cases hr.symm.trans h
    · exact henters hedge h
    · exact hleaves hedge h

theorem entryFault_iff_of_not_declares (h : ¬ s.Declares e.key) :
    s.EntryFault e x ↔ x = .unknownTarget e.state e.key := by
  constructor
  · rintro (- | ⟨hdeclared, -⟩ | ⟨hdeclared, -⟩ | ⟨hdeclared, -⟩)
    · rfl
    all_goals exact absurd hdeclared h
  · rintro rfl
    exact .unknownTarget h

theorem entryFault_iff_of_parse_error {cause : Regex.ReadError} (hdeclared : s.Declares e.key)
    (hparse : Regex.parse e.value = .error cause) :
    s.EntryFault e x ↔ x = .badLabel e.state e.key cause := by
  constructor
  · rintro (h | ⟨-, h⟩ | ⟨-, ⟨r, h, -⟩, -⟩ | ⟨-, ⟨r, h, -⟩, -⟩)
    · exact absurd hdeclared h
    · cases hparse.symm.trans h
      rfl
    all_goals cases hparse.symm.trans h
  · rintro rfl
    exact .badLabel hdeclared hparse

theorem entryFault_iff_of_parse {r : Regex} (hdeclared : s.Declares e.key)
    (hparse : Regex.parse e.value = .ok r) :
    s.EntryFault e x ↔ r ≠ .emptySet ∧ (e.key = s.start ∧ x = .entersStart e.state ∨
      e.key ≠ s.start ∧ e.state = s.accept ∧ x = .leavesAccept e.key) := by
  have hedge : IsEdge e ↔ r ≠ .emptySet := by
    simp [IsEdge, hparse]
  constructor
  · rintro (h | ⟨-, h⟩ | ⟨-, h, hkey⟩ | ⟨-, h, hkey, hstate⟩)
    · exact absurd hdeclared h
    · cases hparse.symm.trans h
    · exact ⟨hedge.1 h, .inl ⟨hkey, rfl⟩⟩
    · exact ⟨hedge.1 h, .inr ⟨hkey, hstate, rfl⟩⟩
  · rintro ⟨hne, ⟨hkey, rfl⟩ | ⟨hkey, hstate, rfl⟩⟩
    · exact .entersStart hdeclared (hedge.2 hne) hkey
    · exact .leavesAccept hdeclared (hedge.2 hne) hkey hstate

theorem valid_iff : s.Valid ↔ ∀ x, ¬ s.Fault x := by
  have hentries : (∀ x, ¬ FirstFault s.EntryFault s.table.entries x) ↔
      ∀ e ∈ s.table.entries, s.Declares e.key ∧ (∃ r, Regex.parse e.value = .ok r) ∧
        (IsEdge e → e.key ≠ s.start) ∧ (IsEdge e → e.state ≠ s.accept) := by
    simp only [forall_not_firstFault_iff, forall_not_entryFault_iff]
  constructor
  · rintro ⟨hne, htarget, hread, henters, hleaves⟩ x (h | ⟨-, hfirst⟩)
    · exact hne h
    · exact hentries.2 (fun e he => ⟨htarget e he, hread e he, henters e he, hleaves e he⟩) x hfirst
  · intro hnone
    have hne : s.start ≠ s.accept := fun h => hnone _ (.startAccepts h)
    have hvalid := hentries.1 fun x hfirst => hnone x (.entry hne hfirst)
    exact {
      start_ne_accept := hne
      target_declared := fun e he => (hvalid e he).1
      label_read := fun e he => (hvalid e he).2.1
      not_enters_start := fun e he => (hvalid e he).2.2.1
      not_leaves_accept := fun e he => (hvalid e he).2.2.2 }

/-! ### Entries one by one -/

variable {start accept source : Nat} {key text : String}

theorem edgeOfEntry_eq_error_iff (hstart : s.labels.id? s.start = some start)
    (haccept : s.labels.id? s.accept = some accept) (hsource : s.labels.id? state = some source) :
    edgeOfEntry s.labels.index start accept source state key text = .error x ↔
      s.EntryFault ⟨state, key, text⟩ x := by
  have hleaves : source = accept ↔ state = s.accept := LabelTable.id?_eq_id?_iff hsource haccept
  cases hq : s.labels.id? key with
  | none =>
      have hkey := LabelTable.id?_eq_none_iff.1 hq
      rw [edgeOfEntry_of_not_mem hkey, entryFault_iff_of_not_declares (mt mem_labels.2 hkey),
        Except.error.injEq, eq_comm]
  | some q =>
      have hdeclared : s.Declares key := mem_labels.1 (LabelTable.exists_id?_eq_some_iff.1 ⟨q, hq⟩)
      have henters : q = start ↔ key = s.start := LabelTable.id?_eq_id?_iff hq hstart
      cases hparse : Regex.parse text with
      | error cause =>
          rw [edgeOfEntry_of_parse_error hq hparse, entryFault_iff_of_parse_error hdeclared hparse,
            Except.error.injEq, eq_comm]
      | ok r =>
          rw [edgeOfEntry_of_parse hq hparse, entryFault_iff_of_parse hdeclared hparse]
          by_cases hne : r = .emptySet
          · simp [hne]
          · by_cases hkey : key = s.start
            · simp [hne, hkey, henters.2 hkey, eq_comm]
            · by_cases haccepts : state = s.accept
              · simp [hne, hkey, mt henters.1 hkey, haccepts, hleaves.2 haccepts, eq_comm]
              · simp [hne, hkey, mt henters.1 hkey, haccepts, mt hleaves.1 haccepts]

theorem edgesOfRow_eq_error_iff {row : Table String} (hstart : s.labels.id? s.start = some start)
    (haccept : s.labels.id? s.accept = some accept) (hstate : s.Declares state) :
    edgesOfRow s.labels.index start accept state row = .error x ↔
      FirstFault (fun (key, text) => s.EntryFault ⟨state, key, text⟩) row.toList x := by
  obtain ⟨source, hsource⟩ : ∃ source, target s.labels.index state state = .ok source :=
    exists_target_eq_ok (mem_labels.2 hstate)
  rw [edgesOfRow, hsource]
  change (_ >>= fun edges => pure (List.filterMap id edges)) = Except.error x ↔ _
  rw [bind_pure_eq_error_iff, mapM_eq_error_iff]
  apply firstFault_congr
  rintro ⟨key, text⟩ - x
  exact edgeOfEntry_eq_error_iff hstart haccept (target_eq_ok_iff.1 hsource)

end Snapshot

theorem ofSnapshot_eq_error_iff {s : Snapshot} {x : Defect} :
    ofSnapshot s = .error x ↔ s.Fault x := by
  obtain ⟨start, hstart⟩ : ∃ start, target s.labels.index s.start s.start = .ok start :=
    exists_target_eq_ok (Snapshot.mem_labels.2 (.inr (.inl rfl)))
  obtain ⟨accept, haccept⟩ : ∃ accept, target s.labels.index s.accept s.accept = .ok accept :=
    exists_target_eq_ok (Snapshot.mem_labels.2 (.inr (.inr rfl)))
  change (target s.labels.index s.start s.start >>= _) = _ ↔ _
  rw [hstart]
  change (target s.labels.index s.accept s.accept >>= _) = _ ↔ _
  rw [haccept]
  rw [target_eq_ok_iff] at hstart haccept
  have hrows : s.table.toList.mapM (fun r => edgesOfRow s.labels.index start accept r.1 r.2) =
      .error x ↔ FirstFault s.EntryFault s.table.entries x := by
    apply Table.mapM_rows_eq_error_iff
    intro state row hrow x
    exact Snapshot.edgesOfRow_eq_error_iff hstart haccept (.inl (List.mem_map_of_mem hrow))
  have hsame : start = accept ↔ s.start = s.accept := LabelTable.id?_eq_id?_iff hstart haccept
  change (if start = accept then _ else _) = _ ↔ _
  by_cases hne : s.start = s.accept
  · rw [if_pos (hsame.2 hne)]
    constructor
    · rintro ⟨⟩
      exact .startAccepts hne
    · rintro (- | ⟨h, -⟩)
      · rfl
      · exact absurd hne h
  · rw [if_neg (mt hsame.1 hne)]
    refine (bind_pure_eq_error_iff.trans hrows).trans ⟨.entry hne, ?_⟩
    rintro (h | ⟨-, hfirst⟩)
    · exact absurd h hne
    · exact hfirst

/-! ### What is described -/

theorem valid_of_ofSnapshot {s : Snapshot} {g : Gnfa} (h : ofSnapshot s = .ok g) : s.Valid := by
  rw [Snapshot.valid_iff]
  intro x hx
  rw [← ofSnapshot_eq_error_iff, h] at hx
  cases hx

theorem ends_ofSnapshot {s : Snapshot} {g : Gnfa} (h : ofSnapshot s = .ok g) :
    g.labels = s.labels ∧ s.labels.id? s.start = some g.start ∧
      s.labels.id? s.accept = some g.accept := by
  obtain ⟨start, accept, _, hstart, haccept, -, -, rfl⟩ := ofSnapshot_eq_ok_iff.1 h
  exact ⟨rfl, hstart, haccept⟩

theorem stored_ne_of_ofSnapshot {s : Snapshot} {g : Gnfa} (h : ofSnapshot s = .ok g) :
    ∀ e ∈ g.edges.toList, e.2 ≠ .emptySet := by
  intro e he
  obtain ⟨-, -, -, -, -, hne, -⟩ := (mem_edges_ofSnapshot h).1 he
  exact hne

theorem label_ofSnapshot {s : Snapshot} {g : Gnfa} (h : ofSnapshot s = .ok g)
    {e : Table.Entry String}
    (he : e ∈ s.table.entries) {p q : Nat} (hp : g.labels.id? e.state = some p)
    (hq : g.labels.id? e.key = some q) : Regex.parse e.value = .ok (g.label p q) := by
  have hvalid := valid_of_ofSnapshot h
  obtain ⟨r, hr⟩ := hvalid.label_read e he
  rw [hr, label]
  by_cases hne : r = .emptySet
  · have hnone : g.edges.get? (p, q) = none := by
      rw [Option.eq_none_iff_forall_ne_some]
      intro r' hr'
      obtain ⟨e', he', hp', hq', hparse, hne', -⟩ :=
        (mem_edges_ofSnapshot h).1 (SortedMap.get?_eq_some_iff.1 hr')
      have heq := Table.entry_unique he' he (LabelTable.id?_inj hp' hp) (LabelTable.id?_inj hq' hq)
      rw [heq, hr, Except.ok.injEq] at hparse
      exact hne' (hparse.symm.trans hne)
    rw [hnone, hne]
    rfl
  · obtain ⟨hlabels, hstart, haccept⟩ := ends_ofSnapshot h
    have henters : q ≠ g.start := by
      rintro rfl
      exact hvalid.not_enters_start e he ⟨r, hr, hne⟩ (LabelTable.id?_inj (hlabels ▸ hq) hstart)
    have hleaves : p ≠ g.accept := by
      rintro rfl
      exact hvalid.not_leaves_accept e he ⟨r, hr, hne⟩ (LabelTable.id?_inj (hlabels ▸ hp) haccept)
    have hmem : ((p, q), r) ∈ g.edges.toList :=
      (mem_edges_ofSnapshot h).2 ⟨e, he, hp, hq, hr, hne, henters, hleaves⟩
    rw [SortedMap.get?_eq_some_iff.2 hmem]
    rfl

theorem describes_of_ofSnapshot {s : Snapshot} {g : Gnfa} (h : ofSnapshot s = .ok g) :
    s.Describes g := by
  have hvalid := valid_of_ofSnapshot h
  obtain ⟨hlabels, hstart, haccept⟩ := ends_ofSnapshot h
  have hid : ∀ {label}, s.Declares label → ∃ q, g.labels.id? label = some q := by
    intro label hdeclared
    rw [hlabels, LabelTable.exists_id?_eq_some_iff]
    exact Snapshot.mem_labels.2 hdeclared
  refine { labels_eq := ?_, states_eq := ?_, start_eq := hlabels ▸ hstart,
           accept_eq := hlabels ▸ haccept, label_of_entry := ?_, label_of_no_entry := ?_,
           stored_ne := stored_ne_of_ofSnapshot h }
  · rw [hlabels]
    exact LabelTable.toList_ofList_append s.table.nodup _
  · obtain ⟨_, _, _, -, -, -, -, rfl⟩ := ofSnapshot_eq_ok_iff.1 h
    rfl
  · intro e he
    obtain ⟨row, hrow, -⟩ := Table.mem_entries.1 he
    obtain ⟨p, hp⟩ := hid (.inl (List.mem_map_of_mem hrow))
    obtain ⟨q, hq⟩ := hid (hvalid.target_declared e he)
    exact ⟨p, q, hp, hq, label_ofSnapshot h he hp hq⟩
  · intro p q hnone
    cases hget : g.edges.get? (p, q) with
    | none => rw [label, hget, Option.getD_none]
    | some r =>
        obtain ⟨e, he, hp, hq, -⟩ := (mem_edges_ofSnapshot h).1 (SortedMap.get?_eq_some_iff.1 hget)
        exact absurd hq (hnone e he hp)

/-- The labels of all pairs fix the edges, since the empty language is not stored. -/
theorem edges_eq_of_label_eq {g h : Gnfa} (hg : ∀ e ∈ g.edges.toList, e.2 ≠ .emptySet)
    (hh : ∀ e ∈ h.edges.toList, e.2 ≠ .emptySet) (hlabel : ∀ p q, g.label p q = h.label p q) :
    g.edges = h.edges := by
  have hget : ∀ {g : Gnfa}, (∀ e ∈ g.edges.toList, e.2 ≠ .emptySet) → ∀ p q r,
      g.edges.get? (p, q) = some r ↔ g.label p q = r ∧ r ≠ .emptySet := by
    intro g hg p q r
    rw [label]
    cases hedge : g.edges.get? (p, q) with
    | none => simp [eq_comm]
    | some r' =>
        have hne := hg _ (SortedMap.get?_eq_some_iff.1 hedge)
        rw [Option.some.injEq, Option.getD_some]
        constructor
        · rintro rfl
          exact ⟨rfl, hne⟩
        · exact fun h => h.1
  apply SortedMap.ext
  rintro ⟨p, q⟩
  ext r
  rw [hget hg, hget hh, hlabel]

theorem Snapshot.Describes.unique {s : Snapshot} {g h : Gnfa} (hg : s.Describes g)
    (hh : s.Describes h) :
    g = h := by
  have hlabels : g.labels = h.labels :=
    congrArg LabelTable.mk (hg.labels_eq.trans hh.labels_eq.symm)
  have hlabel : ∀ p q, g.label p q = h.label p q := by
    intro p q
    by_cases hlisted : ∃ e ∈ s.table.entries, g.labels.id? e.state = some p ∧
      g.labels.id? e.key = some q
    · obtain ⟨e, he, hp, hq⟩ := hlisted
      have hread : ∀ {k : Gnfa}, s.Describes k → k.labels.id? e.state = some p →
          k.labels.id? e.key = some q → Regex.parse e.value = .ok (k.label p q) := by
        intro k hk hp hq
        obtain ⟨p', q', hp', hq', hparse⟩ := hk.label_of_entry e he
        rw [hp, Option.some.injEq] at hp'
        rw [hq, Option.some.injEq] at hq'
        rw [hp', hq']
        exact hparse
      have hparse := (hread hg hp hq).symm.trans (hread hh (hlabels ▸ hp) (hlabels ▸ hq))
      exact Except.ok.inj hparse
    · have hnone : ∀ e ∈ s.table.entries, g.labels.id? e.state = some p →
          g.labels.id? e.key ≠ some q :=
        fun e he hp hq => hlisted ⟨e, he, hp, hq⟩
      rw [hg.label_of_no_entry p q hnone, hh.label_of_no_entry p q (hlabels ▸ hnone)]
  have hedges := edges_eq_of_label_eq hg.stored_ne hh.stored_ne hlabel
  have hstart : g.start = h.start :=
    Option.some.inj (hg.start_eq.symm.trans (hlabels ▸ hh.start_eq))
  have haccept : g.accept = h.accept :=
    Option.some.inj (hg.accept_eq.symm.trans (hlabels ▸ hh.accept_eq))
  have hstates : g.states = h.states := by
    rw [hg.states_eq, hh.states_eq, hlabels]
  obtain ⟨labels, states, start, accept, edges⟩ := g
  cases hlabels
  cases hstates
  cases hstart
  cases haccept
  cases hedges
  rfl

/-- A snapshot is read with success if it is valid, and then it describes the generalized automaton
and no other. Otherwise its first fault is reported. -/
theorem ofSnapshot_outcome_labels (s : Snapshot) :
    ((∃ g, ofSnapshot s = .ok g) ↔ s.Valid) ∧
      (∀ g, ofSnapshot s = .ok g ↔ s.Valid ∧ s.Describes g) ∧
        ∀ x, ofSnapshot s = .error x ↔ s.Fault x :=
  outcome_of_faults (fun _ => ofSnapshot_eq_error_iff) Snapshot.valid_iff
    (fun _ => describes_of_ofSnapshot) (fun _ _ => Snapshot.Describes.unique)

/-- An edge from the accepting state to the start is reported for entering the start. The entry
before it is read as the empty language, and the one after it does not count. -/
example :
    let rows : Table (Table String) :=
      ⟨[("f", ⟨[("q", "(∅)"), ("s", "a*"), ("x", "(")], by decide⟩), ("q", ⟨[], by decide⟩)],
        by decide⟩
    ofSnapshot ⟨"s", "f", rows⟩ = .error (.entersStart "f") := by
  decide +kernel

end RegularLanguages.Gnfa
