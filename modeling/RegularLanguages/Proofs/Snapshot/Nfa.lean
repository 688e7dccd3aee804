import RegularLanguages.Proofs.LabelTable
import RegularLanguages.Proofs.Nfa.Renaming
import RegularLanguages.Proofs.Snapshot.Rows
import RegularLanguages.Snapshot.Nfa

/-!
# Snapshots of nondeterministic automata

A snapshot names states by their labels only, and symbols by their text. As labels tell states apart
and the rows stand in the order of the states, the numbers come back as they were
(`Nfa.ofSnapshot_snapshot`). What a snapshot describes is well-formed in any case
(`Nfa.wellFormed_ofSnapshot`).
-/

namespace RegularLanguages

/-! ## Texts of symbols -/

namespace Symbol

/-- `a.SpelledBy s` says that `s` is the written form of a symbol: a tilde, or one character that
is not reserved. -/
inductive SpelledBy : Symbol → String → Prop
  | epsilon : SpelledBy .epsilon "~"
  | char {c : Char} : isInput c = true → SpelledBy (.char c) (String.singleton c)

theorem ofText?_eq_some_iff {s : String} {a : Symbol} : ofText? s = some a ↔ a.SpelledBy s := by
  constructor
  · intro h
    unfold ofText? at h
    split at h
    · rename_i c hc
      have hs : s = String.singleton c := String.toList_inj.1 (by rw [hc, String.toList_singleton])
      subst hs
      split at h
      · rename_i htilde
        cases h
        exact htilde ▸ .epsilon
      · split at h
        · rename_i hinput
          cases h
          exact .char hinput
        · cases h
    · cases h
  · intro h
    cases h with
    | epsilon => exact ofText?_text_epsilon
    | char hinput => exact ofText?_text_char hinput

theorem SpelledBy.text_eq {s : String} {a : Symbol} (h : a.SpelledBy s) : a.text = s := by
  cases h <;> rfl

def Readable (a : Symbol) : Prop := ∀ c, a = .char c → isInput c = true

theorem SpelledBy.readable {s : String} {a : Symbol} (h : a.SpelledBy s) : a.Readable := by
  rintro c rfl
  cases h
  assumption

theorem Readable.spelledBy {a : Symbol} (h : a.Readable) : a.SpelledBy a.text := by
  cases a with
  | epsilon => exact .epsilon
  | char c => exact .char (h c rfl)

theorem SpelledBy.unique {s : String} {a b : Symbol} (ha : a.SpelledBy s) (hb : b.SpelledBy s) :
    a = b := by
  rw [← ofText?_eq_some_iff] at ha hb
  exact Option.some.inj (ha.symm.trans hb)

end Symbol

/-! ## Looking labels and symbols up -/

namespace SnapshotFormat

theorem target_eq_ok_iff {labels : LabelTable} {state label : String} {q : Nat} :
    target labels.index state label = .ok q ↔ labels.id? label = some q := by
  unfold target
  rw [LabelTable.place?_index]
  cases labels.id? label <;> simp

theorem lt_size_of_target {labels : LabelTable} {state label : String} {q : Nat}
    (h : target labels.index state label = .ok q) : q < labels.size :=
  LabelTable.lt_size_of_id? (target_eq_ok_iff.1 h)

theorem target_eq_error_iff {labels : LabelTable} {state label : String} {d : Defect} :
    target labels.index state label = .error d ↔
      label ∉ labels.toList ∧ d = .unknownTarget state label := by
  rw [← LabelTable.id?_eq_none_iff, target, LabelTable.place?_index]
  cases labels.id? label <;> simp [eq_comm]

theorem symbol_eq_ok_iff {state key : String} {a : Symbol} :
    symbol state key = .ok a ↔ a.SpelledBy key := by
  rw [← Symbol.ofText?_eq_some_iff, symbol]
  cases Symbol.ofText? key <;> simp

theorem symbol_eq_error_iff {state key : String} {d : Defect} :
    symbol state key = .error d ↔ (∀ a, ¬ Symbol.SpelledBy a key) ∧ d = .badSymbol state key := by
  simp only [← Symbol.ofText?_eq_some_iff, symbol]
  cases Symbol.ofText? key <;> simp [eq_comm]

theorem mem_statesOf {labels : LabelTable} {names : List String} {q : Nat} :
    q ∈ statesOf labels.index names ↔ ∃ name ∈ names, labels.id? name = some q := by
  rw [statesOf, StateSet.mem_ofList, List.mem_filterMap]
  simp only [LabelTable.place?_index]

theorem statesOf_display {labels : LabelTable} (hlabels : labels.toList.Nodup) {s : StateSet}
    (hs : ∀ q ∈ s, q < labels.size) : statesOf labels.index (s.toList.map labels.display) = s := by
  ext q
  rw [mem_statesOf]
  constructor
  · rintro ⟨name, hname, hq⟩
    obtain ⟨p, hp, rfl⟩ := List.mem_map.1 hname
    rw [StateSet.mem_toList] at hp
    rw [LabelTable.id?_display hlabels (hs p hp), Option.some.injEq] at hq
    exact hq ▸ hp
  · intro hq
    exact ⟨_, List.mem_map.2 ⟨q, StateSet.mem_toList.2 hq, rfl⟩,
      LabelTable.id?_display hlabels (hs q hq)⟩

end SnapshotFormat

namespace Nfa

open SnapshotFormat

variable {n : Nfa} {q : Nat}

/-! ## The rows of a snapshot -/

def snapshotRow (n : Nfa) (q : Nat) : Table (List String) :=
  Table.ofList <| (n.symbolsFrom q).toList.map fun a => (a.text, (n.targets q a).toList.map n.label)

theorem snapshot_eq (n : Nfa) :
    n.snapshot = ⟨some (n.label n.start), n.accepting.toList.map n.label,
      Table.ofList <| (List.range n.size).map fun q => (n.label q, n.snapshotRow q)⟩ := by
  unfold snapshot
  simp only [LabelTable.displayIn_eq_display, getD_edgeRows]
  rfl

theorem WellFormed.toList_table_snapshot (hn : n.WellFormed) :
    n.snapshot.table.toList = (List.range n.size).map fun q => (n.label q, n.snapshotRow q) := by
  rw [snapshot_eq]
  apply Table.toList_ofList
  rw [List.map_map]
  change ((List.range n.size).map n.labels.display).Nodup
  rw [Nfa.size, LabelTable.map_display_range]
  exact hn.labels_nodup

theorem WellFormed.keys_snapshot (hn : n.WellFormed) : n.snapshot.table.keys = n.labels.toList := by
  rw [Table.keys, hn.toList_table_snapshot, List.map_map]
  exact n.labels.map_display_range

def Readable (n : Nfa) : Prop := ∀ c ∈ n.alphabet, Symbol.isInput c = true

theorem readable_ofList {labels : LabelTable} {start : Nat} {accepting : StateSet}
    {edges : List Edge} (h : (edges.filterMap fun e => e.symbol.char?).all Symbol.isInput = true) :
    Readable ⟨labels, start, accepting, .ofList edges⟩ := by
  intro c hc
  obtain ⟨p, q, he⟩ := mem_alphabet.1 hc
  exact List.all_eq_true.1 h c (List.mem_filterMap.2 ⟨_, SortedSet.mem_ofList.1 he, rfl⟩)

theorem Readable.symbol (hread : n.Readable) {p : Nat} {a : Symbol} (he : ⟨q, a, p⟩ ∈ n.edges) :
    a.Readable := by
  rintro c rfl
  exact hread c (mem_alphabet.2 ⟨q, p, he⟩)

theorem Readable.of_mem_symbolsFrom (hread : n.Readable) {a : Symbol} (ha : a ∈ n.symbolsFrom q) :
    a.Readable := by
  obtain ⟨p, he⟩ := mem_symbolsFrom.1 ha
  exact hread.symbol he

theorem Readable.toList_snapshotRow (hread : n.Readable) (q : Nat) :
    (n.snapshotRow q).toList =
      (n.symbolsFrom q).toList.map fun a => (a.text, (n.targets q a).toList.map n.label) := by
  apply Table.toList_ofList
  rw [List.map_map]
  change ((n.symbolsFrom q).toList.map Symbol.text).Nodup
  -- Different symbols have different texts, since the text can be read back.
  rw [List.nodup_map_iff_inj_on ((n.symbolsFrom q).ascending.imp Key.ne_of_before)]
  intro a ha b hb hab
  have hspelled := (hread.of_mem_symbolsFrom ha).spelledBy
  rw [hab] at hspelled
  exact hspelled.unique (hread.of_mem_symbolsFrom hb).spelledBy

def rowEdges (n : Nfa) (q : Nat) : List Edge :=
  (n.symbolsFrom q).toList.flatMap fun a => (n.targets q a).toList.map fun p => ⟨q, a, p⟩

theorem mem_rowEdges {e : Edge} : e ∈ n.rowEdges q ↔ e ∈ n.edges ∧ e.source = q := by
  unfold rowEdges
  rw [List.mem_flatMap]
  constructor
  · rintro ⟨a, -, he⟩
    obtain ⟨p, hp, rfl⟩ := List.mem_map.1 he
    exact ⟨mem_targets.1 (StateSet.mem_toList.1 hp), rfl⟩
  · rintro ⟨he, rfl⟩
    refine ⟨e.symbol, mem_symbolsFrom.2 ⟨e.target, he⟩, List.mem_map.2 ⟨e.target, ?_, rfl⟩⟩
    exact StateSet.mem_toList.2 (mem_targets.2 he)

theorem WellFormed.edgesOfRow_snapshotRow (hn : n.WellFormed) (hread : n.Readable)
    (hq : q < n.size) :
    edgesOfRow n.labels.index (n.label q) (n.snapshotRow q) = .ok (n.rowEdges q) := by
  have hlabel : ∀ {state : String} {p : Nat}, p < n.size →
      target n.labels.index state (n.label p) = .ok p :=
    fun hp => target_eq_ok_iff.2 (LabelTable.id?_display hn.labels_nodup hp)
  refine bind_eq_ok_iff.2 ⟨q, hlabel hq, ?_⟩
  rw [hread.toList_snapshotRow]
  refine bind_eq_ok_iff.2 ⟨(n.symbolsFrom q).toList.map fun a => (n.targets q a).toList.map fun p =>
    Edge.mk q a p, mapM_map_eq_ok fun a ha => ?_, ?_⟩
  · have hsymbol : symbol (n.label q) a.text = .ok a :=
      symbol_eq_ok_iff.2 (hread.of_mem_symbolsFrom ha).spelledBy
    refine bind_eq_ok_iff.2 ⟨a, hsymbol, mapM_map_eq_ok fun p hp => ?_⟩
    have hlt := hn.target_lt _ (mem_targets.1 (StateSet.mem_toList.1 hp))
    exact bind_eq_ok_iff.2 ⟨p, hlabel hlt, rfl⟩
  · rw [rowEdges, List.flatMap]
    rfl

/-! ## There and back -/

def Snapshot.labels (s : Snapshot) : LabelTable := LabelTable.ofList (s.table.keys ++ s.accepting)

theorem ofSnapshot_eq_ok_iff {s : Snapshot} :
    ofSnapshot s = .ok n ↔ ∃ start q edges, s.start = some start ∧ s.labels.id? start = some q ∧
      s.table.toList.mapM (fun (state, row) => edgesOfRow s.labels.index state row) = .ok edges ∧
        n = ⟨s.labels, q, statesOf s.labels.index s.accepting, SortedSet.ofList edges.flatten⟩ := by
  unfold ofSnapshot Snapshot.labels
  simp only [LabelTable.place?_index]
  constructor
  · intro h
    split at h
    · cases h
    · rename_i start hstart
      split at h
      · cases h
      · rename_i q hq
        obtain ⟨edges, hedges, heq⟩ := bind_eq_ok_iff.1 h
        cases heq
        exact ⟨start, q, edges, hstart, hq, hedges, rfl⟩
  · rintro ⟨start, q, edges, hstart, hq, hedges, rfl⟩
    rw [hstart]
    dsimp only
    rw [hq]
    exact bind_eq_ok_iff.2 ⟨edges, hedges, rfl⟩

theorem WellFormed.labels_snapshot (hn : n.WellFormed) : n.snapshot.labels = n.labels := by
  rw [Snapshot.labels, hn.keys_snapshot, LabelTable.ofList_append hn.labels_nodup]
  rw [snapshot_eq]
  intro label hlabel
  obtain ⟨q, hq, rfl⟩ := List.mem_map.1 hlabel
  exact LabelTable.display_mem (hn.accepting_lt q (StateSet.mem_toList.1 hq))

theorem WellFormed.ofList_rowEdges (hn : n.WellFormed) :
    SortedSet.ofList ((List.range n.size).map n.rowEdges).flatten = n.edges := by
  ext e
  rw [SortedSet.mem_ofList, ← List.flatMap, List.mem_flatMap]
  simp only [mem_rowEdges, List.mem_range]
  constructor
  · rintro ⟨q, -, he, -⟩
    exact he
  · intro he
    exact ⟨e.source, hn.source_lt e he, he, rfl⟩

/-- The snapshot of an automaton describes the automaton, down to the numbers of its states. -/
theorem WellFormed.ofSnapshot_snapshot (hn : n.WellFormed) (hread : n.Readable) :
    ofSnapshot n.snapshot = .ok n := by
  refine ofSnapshot_eq_ok_iff.2 ⟨n.label n.start, n.start, (List.range n.size).map n.rowEdges,
    ?_, ?_, ?_, ?_⟩
  · rw [snapshot_eq]
  · rw [hn.labels_snapshot]
    exact LabelTable.id?_display hn.labels_nodup hn.start_lt
  · rw [hn.labels_snapshot, hn.toList_table_snapshot]
    exact mapM_map_eq_ok fun q hq => hn.edgesOfRow_snapshotRow hread (List.mem_range.1 hq)
  · rw [hn.labels_snapshot, hn.ofList_rowEdges, snapshot_eq]
    have haccepting : statesOf n.labels.index (n.accepting.toList.map n.label) = n.accepting :=
      statesOf_display hn.labels_nodup hn.accepting_lt
    rw [haccepting]

/-! ## What snapshots describe -/

theorem mem_edgesOfRow {labels : LabelTable} {state : String} {row : Table (List String)}
    {edges : List Edge} (h : edgesOfRow labels.index state row = .ok edges) {e : Edge} :
    e ∈ edges ↔ labels.id? state = some e.source ∧ ∃ key targets, (key, targets) ∈ row.toList ∧
      e.symbol.SpelledBy key ∧ ∃ t ∈ targets, labels.id? t = some e.target := by
  obtain ⟨source, hsource, h⟩ := bind_eq_ok_iff.1 h
  obtain ⟨entries, hentries, heq⟩ := bind_eq_ok_iff.1 h
  cases heq
  rw [target_eq_ok_iff] at hsource
  rw [mem_flatten_iff_of_mapM_eq_ok hentries, hsource, Option.some.injEq]
  constructor
  · rintro ⟨⟨key, targets⟩, hrow, entry, hentry, he⟩
    obtain ⟨a, ha, hentry⟩ := bind_eq_ok_iff.1 hentry
    obtain ⟨t, ht, hedge⟩ := (mem_iff_of_mapM_eq_ok hentry).1 he
    obtain ⟨target, htarget, heq⟩ := bind_eq_ok_iff.1 hedge
    cases heq
    exact ⟨rfl, key, targets, hrow, symbol_eq_ok_iff.1 ha, t, ht, target_eq_ok_iff.1 htarget⟩
  · rintro ⟨rfl, key, targets, hrow, ha, t, ht, htarget⟩
    obtain ⟨entry, hentry⟩ := exists_eq_ok_of_mapM_eq_ok hentries hrow
    refine ⟨(key, targets), hrow, entry, hentry, ?_⟩
    obtain ⟨a, ha', hentry⟩ := bind_eq_ok_iff.1 hentry
    rw [(symbol_eq_ok_iff.1 ha').unique ha] at hentry
    exact (mem_iff_of_mapM_eq_ok hentry).2 ⟨t, ht, bind_eq_ok_iff.2
      ⟨_, target_eq_ok_iff.2 htarget, rfl⟩⟩

theorem mem_edges_ofSnapshot {s : Snapshot} (h : ofSnapshot s = .ok n) {e : Edge} :
    e ∈ n.edges ↔ ∃ entry ∈ s.table.entries, n.labels.id? entry.state = some e.source ∧
      e.symbol.SpelledBy entry.key ∧ ∃ t ∈ entry.value, n.labels.id? t = some e.target := by
  obtain ⟨_, _, rows, -, -, hrows, rfl⟩ := ofSnapshot_eq_ok_iff.1 h
  rw [SortedSet.mem_ofList, mem_flatten_iff_of_mapM_eq_ok hrows]
  constructor
  · rintro ⟨⟨state, row⟩, hrow, edges, hedges, he⟩
    obtain ⟨hsource, key, targets, hentry, ha, ht⟩ := (mem_edgesOfRow hedges).1 he
    exact ⟨⟨state, key, targets⟩, Table.mem_entries.2 ⟨row, hrow, hentry⟩, hsource, ha, ht⟩
  · rintro ⟨entry, hentry, hsource, ha, ht⟩
    obtain ⟨row, hrow, hv⟩ := Table.mem_entries.1 hentry
    obtain ⟨edges, hedges⟩ := exists_eq_ok_of_mapM_eq_ok hrows hrow
    exact ⟨(entry.state, row), hrow, edges, hedges,
      (mem_edgesOfRow hedges).2 ⟨hsource, entry.key, entry.value, hv, ha, ht⟩⟩

theorem ends_of_ofSnapshot {s : Snapshot} (h : ofSnapshot s = .ok n) {e : Edge} (he : e ∈ n.edges) :
    e.source < n.size ∧ e.target < n.size ∧ e.symbol.Readable := by
  obtain ⟨entry, -, hsource, ha, t, -, htarget⟩ := (mem_edges_ofSnapshot h).1 he
  exact ⟨LabelTable.lt_size_of_id? hsource, LabelTable.lt_size_of_id? htarget,
    ha.readable⟩

theorem wellFormed_ofSnapshot {s : Snapshot} (h : ofSnapshot s = .ok n) : n.WellFormed := by
  have hends : ∀ e ∈ n.edges, e.source < n.size ∧ e.target < n.size ∧ e.symbol.Readable :=
    fun _ he => ends_of_ofSnapshot h he
  obtain ⟨start, q, edges, -, hq, -, rfl⟩ := ofSnapshot_eq_ok_iff.1 h
  refine ⟨LabelTable.nodup_ofList _, LabelTable.lt_size_of_id? hq, ?_, fun e he => (hends e he).1,
    fun e he => (hends e he).2.1⟩
  intro f hf
  obtain ⟨name, -, hname⟩ := mem_statesOf.1 hf
  exact LabelTable.lt_size_of_id? hname

theorem readable_ofSnapshot {s : Snapshot} (h : ofSnapshot s = .ok n) : n.Readable := by
  intro c hc
  obtain ⟨p, q, he⟩ := mem_alphabet.1 hc
  exact (ends_of_ofSnapshot h he).2.2 c rfl

end Nfa

end RegularLanguages
