import Mathlib.Data.Set.Function
import Mathlib.Order.Interval.Set.Defs
import RegularLanguages.Proofs.Dfa.Runs
import RegularLanguages.Proofs.Snapshot.Nfa
import RegularLanguages.Proofs.Snapshot.Rows
import RegularLanguages.Snapshot.Dfa

/-!
# Snapshots of deterministic automata

The start of a snapshot is the first state of its table, and every other name is looked up among the
labels, so a snapshot that can be read describes a well-formed automaton (`wellFormed_ofSnapshot`).

As the start is written first, it comes back as the state `0`, and the states that stood before it
move up by one (`ofSnapshot_snapshot`). This is a renaming of the states, and doing it again changes
nothing.
-/

namespace RegularLanguages.Dfa

open SnapshotFormat

def Snapshot.labels (s : Snapshot) : LabelTable := LabelTable.ofList (s.table.keys ++ s.accepting)

theorem ofSnapshot_eq_ok_iff {s : Snapshot} {d : Dfa} :
    ofSnapshot s = .ok d ↔ ∃ start keys q moves, s.table.keys = start :: keys ∧
      target s.labels.index start start = .ok q ∧
      s.table.toList.mapM (fun (state, row) => movesOfRow s.labels.index state row) = .ok moves ∧
        d = ⟨s.labels, q, statesOf s.labels.index s.accepting,
          SortedMap.ofList moves.flatten, none⟩ := by
  unfold ofSnapshot Snapshot.labels
  constructor
  · intro h
    split at h
    · cases h
    · rename_i start keys hkeys
      obtain ⟨q, hq, h⟩ := bind_eq_ok_iff.1 h
      obtain ⟨moves, hmoves, heq⟩ := bind_eq_ok_iff.1 h
      cases heq
      exact ⟨start, keys, q, moves, hkeys, hkeys ▸ hq, hmoves, rfl⟩
  · rintro ⟨start, keys, q, moves, hkeys, hq, hmoves, rfl⟩
    rw [hkeys] at hq hmoves ⊢
    exact bind_eq_ok_iff.2 ⟨q, hq, bind_eq_ok_iff.2 ⟨moves, hmoves, rfl⟩⟩

theorem mem_movesOfRow {labels : LabelTable} {state : String} {row : Table String}
    {moves : List ((Nat × Char) × Nat)} {p q : Nat}
    (h : movesOfRow labels.index state row = .ok moves)
    {c : Char} : ((p, c), q) ∈ moves ↔ labels.id? state = some p ∧ ∃ key t, (key, t) ∈ row.toList ∧
      Symbol.SpelledBy (.char c) key ∧ labels.id? t = some q := by
  obtain ⟨source, hsource, h⟩ := bind_eq_ok_iff.1 h
  rw [target_eq_ok_iff] at hsource
  rw [mem_iff_of_mapM_eq_ok h, hsource, Option.some.injEq]
  constructor
  · rintro ⟨⟨key, t⟩, hrow, hmove⟩
    obtain ⟨a, ha, hmove⟩ := bind_eq_ok_iff.1 hmove
    cases a with
    | epsilon => cases hmove
    | char c =>
        obtain ⟨target, htarget, heq⟩ := bind_eq_ok_iff.1 hmove
        cases heq
        exact ⟨rfl, key, t, hrow, symbol_eq_ok_iff.1 ha, target_eq_ok_iff.1 htarget⟩
  · rintro ⟨rfl, key, t, hrow, hc, ht⟩
    refine ⟨(key, t), hrow, bind_eq_ok_iff.2 ⟨.char c, symbol_eq_ok_iff.2 hc, ?_⟩⟩
    exact bind_eq_ok_iff.2 ⟨q, target_eq_ok_iff.2 ht, rfl⟩

/-- An entry of the table is a move, and there are no others: as no two entries have the same state
and key, none replaces another. -/
theorem step_ofSnapshot {s : Snapshot} {d : Dfa} (h : ofSnapshot s = .ok d) {p q : Nat} {c : Char} :
    d.step p c = some q ↔ ∃ entry ∈ s.table.entries, d.labels.id? entry.state = some p ∧
      Symbol.SpelledBy (.char c) entry.key ∧ d.labels.id? entry.value = some q := by
  obtain ⟨start, keys, start', rows, -, -, hrows, rfl⟩ := ofSnapshot_eq_ok_iff.1 h
  have hmem : ∀ {p q : Nat} {c : Char}, ((p, c), q) ∈ rows.flatten ↔
      ∃ entry ∈ s.table.entries, s.labels.id? entry.state = some p ∧
        Symbol.SpelledBy (.char c) entry.key ∧ s.labels.id? entry.value = some q := by
    intro p q c
    rw [mem_flatten_iff_of_mapM_eq_ok hrows]
    constructor
    · rintro ⟨⟨state, row⟩, hrow, moves, hmoves, he⟩
      obtain ⟨hsource, key, t, hentry, hc, ht⟩ := (mem_movesOfRow hmoves).1 he
      exact ⟨⟨state, key, t⟩, Table.mem_entries.2 ⟨row, hrow, hentry⟩, hsource, hc, ht⟩
    · rintro ⟨entry, hentry, hsource, hc, ht⟩
      obtain ⟨row, hrow, hv⟩ := Table.mem_entries.1 hentry
      obtain ⟨moves, hmoves⟩ := exists_eq_ok_of_mapM_eq_ok hrows hrow
      exact ⟨(entry.state, row), hrow, moves, hmoves,
        (mem_movesOfRow hmoves).2 ⟨hsource, entry.key, entry.value, hv, hc, ht⟩⟩
  rw [step, SortedMap.get?_ofList, SortedMap.find?_eq_some_iff_of_unique, hmem]
  intro u v hu hv
  obtain ⟨entry, hentry, hsource, hc, hu⟩ := hmem.1 hu
  obtain ⟨entry', hentry', hsource', hc', hv⟩ := hmem.1 hv
  have heq := Table.entry_unique hentry hentry' (LabelTable.id?_inj hsource hsource')
    (hc.text_eq.symm.trans hc'.text_eq)
  rw [heq, hv, Option.some.injEq] at hu
  exact hu.symm

theorem wellFormed_ofSnapshot {s : Snapshot} {d : Dfa} (h : ofSnapshot s = .ok d) :
    d.WellFormed := by
  have hends : ∀ e ∈ d.moves.toList, e.1.1 < d.size ∧ e.2 < d.size := by
    intro e he
    obtain ⟨entry, -, hsource, -, htarget⟩ := (step_ofSnapshot h).1 (step_eq_some_iff.2 he)
    exact ⟨LabelTable.lt_size_of_id? hsource, LabelTable.lt_size_of_id? htarget⟩
  obtain ⟨start, keys, q, rows, -, hq, -, rfl⟩ := ofSnapshot_eq_ok_iff.1 h
  refine { labels_nodup := LabelTable.nodup_ofList _, start_lt := lt_size_of_target hq,
           accepting_lt := ?_, source_lt := fun e he => (hends e he).1,
           target_lt := fun e he => (hends e he).2, length_subsets := fun subsets h => by cases h }
  intro f hf
  obtain ⟨name, -, hname⟩ := mem_statesOf.1 hf
  exact LabelTable.lt_size_of_id? hname

/-! ## Renamed states -/

/-- `Renamed f d e` says that `e` is the automaton `d` with its states renamed by `f`. -/
structure Renamed (f : Nat → Nat) (d e : Dfa) : Prop where
  size_eq : e.size = d.size
  bijOn : Set.BijOn f (Set.Iio d.size) (Set.Iio d.size)
  start_eq : e.start = f d.start
  label_eq : ∀ q < d.size, e.label (f q) = d.label q
  mem_accepting_iff : ∀ p, p ∈ e.accepting ↔ ∃ q ∈ d.accepting, f q = p
  step_eq_some_iff : ∀ p c r, e.step p c = some r ↔ ∃ q s, d.step q c = some s ∧ f q = p ∧ f s = r

namespace Renamed

variable {f : Nat → Nat} {d e : Dfa} {q : Nat}

theorem step_eq (h : Renamed f d e) (hd : d.WellFormed) (hq : q < d.size) (c : Char) :
    e.step (f q) c = (d.step q c).map f := by
  ext r
  rw [h.step_eq_some_iff, Option.map_eq_some_iff]
  constructor
  · rintro ⟨q', s, hs, hf, rfl⟩
    rw [h.bijOn.injOn (hd.ends_lt hs).1 hq hf] at hs
    exact ⟨s, hs, rfl⟩
  · rintro ⟨s, hs, rfl⟩
    exact ⟨q, s, hs, rfl, rfl⟩

theorem run_eq (h : Renamed f d e) (hd : d.WellFormed) (hq : q < d.size) (w : List Char) :
    e.run (f q) w = (d.run q w).map f := by
  induction w generalizing q with
  | nil => rfl
  | cons c w ih =>
      rw [run_cons, run_cons, h.step_eq hd hq]
      cases hs : d.step q c with
      | none => rfl
      | some s => exact ih (hd.ends_lt hs).2

theorem accepts_eq (h : Renamed f d e) (hd : d.WellFormed) (w : List Char) :
    e.accepts w = d.accepts w := by
  rw [Bool.eq_iff_iff, accepts_iff, accepts_iff, h.start_eq, h.run_eq hd hd.start_lt]
  simp only [h.mem_accepting_iff, Option.map_eq_some_iff]
  constructor
  · rintro ⟨_, ⟨q, hq, rfl⟩, p, hp, hpq⟩
    have hlt := hd.run_lt hd.start_lt hp
    rw [h.bijOn.injOn hlt (hd.accepting_lt q hq) hpq] at hp
    exact ⟨q, hq, hp⟩
  · rintro ⟨q, hq, hrun⟩
    exact ⟨f q, ⟨q, hq, rfl⟩, q, hrun, rfl⟩

theorem alphabet_eq (h : Renamed f d e) : e.alphabet = d.alphabet := by
  ext c
  simp only [mem_alphabet, h.step_eq_some_iff]
  constructor
  · rintro ⟨_, _, q, s, hs, -, -⟩
    exact ⟨q, s, hs⟩
  · rintro ⟨q, s, hs⟩
    exact ⟨f q, f s, q, s, hs, rfl, rfl⟩

end Renamed

/-! ## The start in front -/

section StartFirst

variable {d : Dfa} {p q : Nat}

theorem mem_startFirst (hd : d.WellFormed) : q ∈ d.startFirst ↔ q < d.size := by
  have hstart := hd.start_lt
  simp only [startFirst, List.mem_cons, List.mem_filter, List.mem_range, bne_iff_ne]
  constructor
  · rintro (rfl | ⟨hq, -⟩)
    · exact hstart
    · exact hq
  · intro hq
    by_cases h : q = d.start
    · exact .inl h
    · exact .inr ⟨hq, h⟩

theorem nodup_startFirst (d : Dfa) : d.startFirst.Nodup := by
  rw [startFirst, List.nodup_cons]
  exact ⟨by simp, List.nodup_range.filter _⟩

theorem length_startFirst (hd : d.WellFormed) : d.startFirst.length = d.size := by
  have hperm : d.startFirst.Perm (List.range d.size) := by
    rw [List.perm_ext_iff_of_nodup d.nodup_startFirst List.nodup_range]
    intro q
    rw [mem_startFirst hd, List.mem_range]
  rw [hperm.length_eq, List.length_range]

def frontPlace (d : Dfa) (q : Nat) : Nat := d.startFirst.idxOf q

theorem frontPlace_start (d : Dfa) : d.frontPlace d.start = 0 := List.idxOf_cons_self

theorem frontPlace_lt_iff (hp : p < d.size) (hq : q < d.size) (hps : p ≠ d.start)
    (hqs : q ≠ d.start) : d.frontPlace p < d.frontPlace q ↔ p < q := by
  have hrest : ((List.range d.size).filter fun q => q != d.start).Pairwise (· < ·) :=
    List.pairwise_lt_range.filter _
  have hmem : ∀ {q}, q < d.size → q ≠ d.start →
      q ∈ (List.range d.size).filter fun q => q != d.start := by
    intro q hq hqs
    simp [hq, hqs]
  rw [frontPlace, frontPlace, startFirst, List.idxOf_cons_ne _ hps.symm,
    List.idxOf_cons_ne _ hqs.symm, Nat.succ_lt_succ_iff,
    idxOf_lt_idxOf_iff hrest (hmem hp hps) (hmem hq hqs)]

theorem bijOn_frontPlace (hd : d.WellFormed) :
    Set.BijOn d.frontPlace (Set.Iio d.size) (Set.Iio d.size) := by
  have hplaces := bijOn_idxOf d.nodup_startFirst
  have hstates : {q | q ∈ d.startFirst} = Set.Iio d.size := Set.ext fun _ => mem_startFirst hd
  rw [hstates, length_startFirst hd] at hplaces
  exact hplaces

theorem startFirst_of_start_eq_zero (hd : d.WellFormed) (hstart : d.start = 0) :
    d.startFirst = List.range d.size := by
  have hpos := hd.start_lt
  obtain ⟨k, hk⟩ : ∃ k, d.size = k + 1 := ⟨d.size - 1, by omega⟩
  rw [startFirst, hstart, hk, List.range_succ_eq_map]
  simp

theorem frontPlace_of_start_eq_zero (hd : d.WellFormed) (hstart : d.start = 0) (hq : q < d.size) :
    d.frontPlace q = q := by
  have hlt : q < (List.range d.size).length := by simpa using hq
  have hplace := List.nodup_range.idxOf_getElem q hlt
  rwa [List.getElem_range, ← startFirst_of_start_eq_zero hd hstart] at hplace

/-- The automaton with its start moved to the front; it does not say what its states stand for. -/
def startMoved (d : Dfa) : Dfa where
  labels := ⟨d.startFirst.map d.label⟩
  start := 0
  accepting := d.accepting.image d.frontPlace
  moves := .ofList <| d.startFirst.flatMap fun q =>
    (d.moves.row q).map fun (c, p) => ((d.frontPlace q, c), d.frontPlace p)
  subsets := none

theorem size_startMoved (hd : d.WellFormed) : d.startMoved.size = d.size := by
  rw [size, startMoved, LabelTable.size, List.length_map, length_startFirst hd]

theorem mem_moves_startMoved (hd : d.WellFormed) {k : Nat × Char} {r : Nat} :
    (k, r) ∈ (d.startFirst.flatMap fun q =>
      (d.moves.row q).map fun (c, p) => ((d.frontPlace q, c), d.frontPlace p)) ↔
        ∃ q s, d.step q k.2 = some s ∧ d.frontPlace q = k.1 ∧ d.frontPlace s = r := by
  simp only [List.mem_flatMap, List.mem_map, Prod.exists, SortedMap.mem_row, mem_startFirst hd,
    step_eq_some_iff]
  constructor
  · rintro ⟨q, -, c, s, hs, heq⟩
    cases heq
    exact ⟨q, s, hs, rfl, rfl⟩
  · rintro ⟨q, s, hs, hq, rfl⟩
    exact ⟨q, hd.source_lt _ hs, k.2, s, hs, by rw [hq]⟩

theorem renamed_startMoved (hd : d.WellFormed) : Renamed d.frontPlace d d.startMoved where
  size_eq := size_startMoved hd
  bijOn := bijOn_frontPlace hd
  start_eq := d.frontPlace_start.symm
  label_eq := fun q hq => LabelTable.display_idxOf ((mem_startFirst hd).2 hq)
  mem_accepting_iff := fun p => StateSet.mem_image
  step_eq_some_iff := by
    intro p c r
    rw [step, startMoved, SortedMap.get?_ofList, SortedMap.find?_eq_some_iff_of_unique]
    · exact mem_moves_startMoved hd
    · -- A pair has one target, since no other state moves to the place of its state.
      intro u v hu hv
      obtain ⟨q, s, hs, hq, rfl⟩ := (mem_moves_startMoved hd).1 hu
      obtain ⟨q', s', hs', hq', rfl⟩ := (mem_moves_startMoved hd).1 hv
      have hqq :=
        (bijOn_frontPlace hd).injOn (hd.ends_lt hs).1 (hd.ends_lt hs').1 (hq.trans hq'.symm)
      rw [hqq, hs', Option.some.injEq] at hs
      rw [hs]

theorem startMoved_of_start_eq_zero (hd : d.WellFormed) (hstart : d.start = 0)
    (hsubsets : d.subsets = none) :
    d.startMoved = d := by
  have hplace : ∀ {q}, q < d.size → d.frontPlace q = q := frontPlace_of_start_eq_zero hd hstart
  have hrenamed := renamed_startMoved hd
  have hlabels : d.startMoved.labels = d.labels := by
    rw [startMoved, startFirst_of_start_eq_zero hd hstart]
    exact congrArg LabelTable.mk d.labels.map_display_range
  have haccepting : d.startMoved.accepting = d.accepting := by
    ext p
    rw [hrenamed.mem_accepting_iff]
    constructor
    · rintro ⟨q, hq, rfl⟩
      rwa [hplace (hd.accepting_lt q hq)]
    · intro hp
      exact ⟨p, hp, hplace (hd.accepting_lt p hp)⟩
  have hmoves : d.startMoved.moves = d.moves := by
    apply SortedMap.ext
    rintro ⟨p, c⟩
    ext r
    change d.startMoved.step p c = some r ↔ d.step p c = some r
    rw [hrenamed.step_eq_some_iff]
    constructor
    · rintro ⟨q, s, hs, rfl, rfl⟩
      rwa [hplace (hd.ends_lt hs).1, hplace (hd.ends_lt hs).2]
    · intro h
      exact ⟨p, r, h, hplace (hd.ends_lt h).1, hplace (hd.ends_lt h).2⟩
  change Dfa.mk d.startMoved.labels 0 d.startMoved.accepting d.startMoved.moves none = d
  rw [hlabels, haccepting, hmoves, ← hstart, ← hsubsets]

end StartFirst

/-! ## There and back -/

section RoundTrip

variable {d : Dfa} {q : Nat}

def Readable (d : Dfa) : Prop := ∀ c ∈ d.alphabet, Symbol.isInput c = true

def snapshotRow (d : Dfa) (q : Nat) : Table String :=
  Table.ofList <| (d.moves.row q).map fun (c, p) => (String.singleton c, d.label p)

theorem snapshot_eq (d : Dfa) :
    d.snapshot = ⟨d.accepting.toList.map d.label,
      Table.ofList <| d.startFirst.map fun q => (d.label q, d.snapshotRow q)⟩ := by
  unfold snapshot moveRows
  simp only [LabelTable.displayIn_eq_display, SortedMap.getD_rowsOf_toList]
  rfl

theorem toList_snapshotRow (d : Dfa) (q : Nat) :
    (d.snapshotRow q).toList = (d.moves.row q).map fun (c, p) =>
      (String.singleton c, d.label p) := by
  apply Table.toList_ofList
  rw [List.map_map]
  change ((d.moves.row q).map (String.singleton ∘ Prod.fst)).Nodup
  rw [← List.map_map]
  apply (d.moves.nodup_keys_row q).map
  intro b c hbc
  simpa using congrArg String.toList hbc

theorem WellFormed.nodup_keys (hd : d.WellFormed) : (d.startFirst.map d.label).Nodup :=
  LabelTable.nodup_map_display hd.labels_nodup d.nodup_startFirst fun _ hq =>
    (mem_startFirst hd).1 hq

theorem WellFormed.toList_table_snapshot (hd : d.WellFormed) :
    d.snapshot.table.toList = d.startFirst.map fun q => (d.label q, d.snapshotRow q) := by
  rw [snapshot_eq]
  apply Table.toList_ofList
  rw [List.map_map]
  exact hd.nodup_keys

theorem WellFormed.keys_snapshot (hd : d.WellFormed) :
    d.snapshot.table.keys = d.startFirst.map d.label := by
  rw [Table.keys, hd.toList_table_snapshot, List.map_map]
  rfl

theorem WellFormed.labels_snapshot (hd : d.WellFormed) :
    d.snapshot.labels = ⟨d.startFirst.map d.label⟩ := by
  rw [Snapshot.labels, hd.keys_snapshot, LabelTable.ofList_append hd.nodup_keys]
  rw [snapshot_eq]
  intro label hlabel
  obtain ⟨q, hq, rfl⟩ := List.mem_map.1 hlabel
  exact List.mem_map_of_mem ((mem_startFirst hd).2 (hd.accepting_lt q (StateSet.mem_toList.1 hq)))

theorem WellFormed.id?_label (hd : d.WellFormed) (hq : q < d.size) :
    d.snapshot.labels.id? (d.label q) = some (d.frontPlace q) := by
  rw [hd.labels_snapshot]
  exact LabelTable.id?_map hd.nodup_keys ((mem_startFirst hd).2 hq)

theorem WellFormed.movesOfRow_snapshotRow (hd : d.WellFormed) (hread : d.Readable)
    (hq : q < d.size) :
    movesOfRow d.snapshot.labels.index (d.label q) (d.snapshotRow q) =
      .ok ((d.moves.row q).map fun (c, p) => ((d.frontPlace q, c), d.frontPlace p)) := by
  refine bind_eq_ok_iff.2 ⟨d.frontPlace q, target_eq_ok_iff.2 (hd.id?_label hq), ?_⟩
  rw [toList_snapshotRow]
  apply mapM_map_eq_ok
  rintro ⟨c, p⟩ hcp
  have hstep : d.step q c = some p := step_eq_some_iff.2 (SortedMap.mem_row.1 hcp)
  have hinput : Symbol.isInput c = true := hread c (mem_alphabet.2 ⟨q, p, hstep⟩)
  refine bind_eq_ok_iff.2 ⟨.char c, symbol_eq_ok_iff.2 (.char hinput), ?_⟩
  exact bind_eq_ok_iff.2 ⟨d.frontPlace p, target_eq_ok_iff.2 (hd.id?_label (hd.ends_lt hstep).2),
    rfl⟩

theorem WellFormed.statesOf_snapshot (hd : d.WellFormed) :
    statesOf d.snapshot.labels.index d.snapshot.accepting = d.accepting.image d.frontPlace := by
  have haccepting : d.snapshot.accepting = d.accepting.toList.map d.label := by rw [snapshot_eq]
  have hid : ∀ q ∈ d.accepting, d.snapshot.labels.id? (d.label q) = some (d.frontPlace q) :=
    fun q hq => hd.id?_label (hd.accepting_lt q hq)
  ext p
  rw [mem_statesOf, haccepting, StateSet.mem_image]
  constructor
  · rintro ⟨name, hname, hp⟩
    obtain ⟨q, hq, rfl⟩ := List.mem_map.1 hname
    rw [StateSet.mem_toList] at hq
    rw [hid q hq, Option.some.injEq] at hp
    exact ⟨q, hq, hp⟩
  · rintro ⟨q, hq, rfl⟩
    exact ⟨d.label q, List.mem_map_of_mem (StateSet.mem_toList.2 hq), hid q hq⟩

theorem WellFormed.ofSnapshot_snapshot (hd : d.WellFormed) (hread : d.Readable) :
    ofSnapshot d.snapshot = .ok d.startMoved := by
  refine ofSnapshot_eq_ok_iff.2 ⟨d.label d.start, _, 0, d.startFirst.map fun q =>
    (d.moves.row q).map fun (c, p) => ((d.frontPlace q, c), d.frontPlace p),
      hd.keys_snapshot, ?_, ?_, ?_⟩
  · rw [target_eq_ok_iff, hd.id?_label hd.start_lt, frontPlace_start]
  · rw [hd.toList_table_snapshot]
    exact mapM_map_eq_ok fun q hq => hd.movesOfRow_snapshotRow hread ((mem_startFirst hd).1 hq)
  · rw [hd.statesOf_snapshot, hd.labels_snapshot, ← List.flatMap]
    rfl

/-- A well-formed automaton without reserved characters comes back from its snapshot with its
states renamed: the start becomes the state `0`, and the others keep their order. It no longer says
what its states stand for. What has come back once comes back unchanged from then on. -/
theorem snapshot_renames (d : Dfa) (hd : d.WellFormed) (hinput : ∀ c ∈ d.alphabet,
    Symbol.isInput c = true) :
    ∃ e, ofSnapshot d.snapshot = .ok e ∧ Renamed d.frontPlace d e ∧ e.start = 0 ∧ e.subsets = none ∧
      (∀ p q, p < d.size → q < d.size → p ≠ d.start → q ≠ d.start →
        (d.frontPlace p < d.frontPlace q ↔ p < q)) ∧
      (∀ w, e.accepts w = d.accepts w) ∧ ofSnapshot e.snapshot = .ok e := by
  have hrenamed := renamed_startMoved hd
  have hread := hd.ofSnapshot_snapshot hinput
  refine ⟨d.startMoved, hread, hrenamed, rfl, rfl, fun p q => frontPlace_lt_iff,
    hrenamed.accepts_eq hd, ?_⟩
  have he := wellFormed_ofSnapshot hread
  have hinput' : d.startMoved.Readable := by
    rw [Readable, hrenamed.alphabet_eq]
    exact hinput
  rw [he.ofSnapshot_snapshot hinput', startMoved_of_start_eq_zero he rfl rfl]

/-- The start in the middle, labels that are numbers of other states, and a state that no move
leads to or from. -/
theorem snapshot_renames_middle :
    let d : Dfa := ⟨⟨["2", "", "0", "0'"]⟩, 2, .ofList [0, 2],
      .ofList [((0, 'a'), 2), ((2, 'a'), 0), ((2, 'b'), 2), ((0, 'c'), 1)], some [∅, ∅, ∅, ∅]⟩
    let e : Dfa := ⟨⟨["0", "2", "", "0'"]⟩, 0, .ofList [0, 1],
      .ofList [((1, 'a'), 0), ((0, 'a'), 1), ((0, 'b'), 0), ((1, 'c'), 2)], none⟩
    ofSnapshot d.snapshot = .ok e ∧ Renamed d.frontPlace d e ∧ (∀ w, e.accepts w = d.accepts w) ∧
      ofSnapshot e.snapshot = .ok e := by
  intro d e
  have hread : ofSnapshot d.snapshot = .ok e := by decide +kernel
  obtain ⟨e', hread', hrenamed, -, -, -, haccepts, hagain⟩ :=
    snapshot_renames d (by decide +kernel) (List.all_eq_true.1 (by decide +kernel))
  rw [hread, Except.ok.injEq] at hread'
  subst hread'
  exact ⟨hread, hrenamed, haccepts, hagain⟩

end RoundTrip

end RegularLanguages.Dfa
