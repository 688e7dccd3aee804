import RegularLanguages.Proofs.Json.RoundTrip
import RegularLanguages.Proofs.Snapshot.Nfa
import RegularLanguages.Snapshot.Document

/-!
# Documents of automata

The document of a nondeterministic automaton is the text of its snapshot, and is read back as this
snapshot, hence as the automaton itself (`Nfa.snapshot_roundTrip`).
-/

namespace RegularLanguages

open Json

namespace SnapshotFormat

/-! ## Tables as JSON -/

theorem readsBack_labelsJson (labels : List String) : ReadsBack (labelsJson labels) := by
  apply ReadsBack.array
  intro j hj
  obtain ⟨label, -, rfl⟩ := List.mem_map.1 hj
  exact .string label

theorem labels?_labelsJson (labels : List String) : labels? (labelsJson labels) = some labels := by
  have hlabels : (labels.map Json.string).mapM label? = some (labels.map id) :=
    mapM_map_eq_some fun _ _ => rfl
  rw [List.map_id] at hlabels
  exact hlabels

section Tables

variable {α : Type} {valueJson : α → Json} {value? : Json → Option α}

theorem readsBack_tableJson (h : ∀ v, ReadsBack (valueJson v)) (table : Table (Table α)) :
    ReadsBack (tableJson valueJson table) := by
  apply ReadsBack.object
  intro f hf
  obtain ⟨⟨state, row⟩, -, rfl⟩ := List.mem_map.1 hf
  apply ReadsBack.object
  intro g hg
  obtain ⟨⟨key, v⟩, -, rfl⟩ := List.mem_map.1 hg
  exact h v

theorem entries?_object (h : ∀ v, value? (valueJson v) = some v) (row : Table α) :
    entries? value? (.object (row.toList.map fun (key, v) => (key, valueJson v))) = some row := by
  have hentries : (row.toList.map fun e => (e.1, valueJson e.2)).mapM
      (fun e => do return (e.1, ← value? e.2)) = some (row.toList.map id) := by
    apply mapM_map_eq_some
    intro e _
    change (do return (e.1, ← value? (valueJson e.2))) = some e
    rw [h]
    rfl
  rw [List.map_id] at hentries
  rw [entries?, object?, Option.bind_eq_bind, Option.bind_some, Option.bind_eq_bind, hentries,
    Option.bind_some, Table.ofList_toList]
  rfl

theorem table?_tableJson (h : ∀ v, value? (valueJson v) = some v) (table : Table (Table α)) :
    table? value? (tableJson valueJson table) = some table :=
  entries?_object (entries?_object h) table

end Tables

theorem read_chars {α : Type} {ofJson? : Json → Option α} {j : Json} (hj : ReadsBack j) {s : α}
    (hs : ofJson? j = some s) (level : Option Nat) {blanks : List Char} (hblanks : Blank blanks) :
    read ofJson? (String.ofList (chars level j ++ blanks)) = .ok s := by
  rw [read, hj.parse?_chars level hblanks, Option.bind_some, hs]

end SnapshotFormat

open SnapshotFormat

namespace Nfa

theorem Snapshot.readsBack_toJson (s : Snapshot) : ReadsBack s.toJson := by
  apply ReadsBack.object
  intro f hf
  rcases List.mem_append.1 hf with hf | hf
  · obtain ⟨label, -, rfl⟩ := Option.map_eq_some_iff.1 (Option.mem_toList.1 hf)
    exact .string label
  · rcases List.mem_pair.1 hf with rfl | rfl
    · exact readsBack_labelsJson s.accepting
    · exact readsBack_tableJson readsBack_labelsJson s.table

theorem Snapshot.ofJson?_toJson (s : Snapshot) : ofJson? s.toJson = some s := by
  obtain ⟨start, accepting, table⟩ := s
  have hlabels := labels?_labelsJson accepting
  have htable := table?_tableJson labels?_labelsJson table
  cases start with
  | none => simp [ofJson?, toJson, record?, uniqueField, orDefault, hlabels, htable]
  | some start =>
      simp [ofJson?, toJson, record?, uniqueField, orDefault, optionalLabel?, label?,
        hlabels, htable]

theorem WellFormed.ofDocument_append {n : Nfa} (hn : n.WellFormed) (hread : n.Readable)
    {blanks : List Char}
    (hblanks : Blank blanks) : ofDocument (n.document ++ String.ofList blanks) = .ok n := by
  have hsnapshot :=
    read_chars (Snapshot.readsBack_toJson n.snapshot) n.snapshot.ofJson?_toJson (some 0) hblanks
  rw [String.ofList_append] at hsnapshot
  refine bind_eq_ok_iff.2 ⟨n.snapshot, hsnapshot, ?_⟩
  rw [hn.ofSnapshot_snapshot hread]
  rfl

/-- A well-formed automaton without reserved characters comes back from its snapshot, and from its
document, with the same states, labels, edges and accepting states under the same numbers. -/
theorem snapshot_roundTrip (n : Nfa) (hn : n.WellFormed)
    (hinput : ∀ c ∈ n.alphabet, Symbol.isInput c = true) :
    ofSnapshot n.snapshot = .ok n ∧ ofDocument n.document = .ok n := by
  constructor
  · exact hn.ofSnapshot_snapshot hinput
  · have hdocument : ofDocument (n.document ++ String.ofList []) = .ok n :=
      hn.ofDocument_append hinput blank_nil
    rwa [String.ofList_nil, String.append_empty] at hdocument

/-- Labels that are numbers of other states or empty, characters that JSON escapes, and a state that
no edge leads to or from. -/
theorem snapshot_roundTrip_labels :
    let n : Nfa := ⟨⟨["2", "0'", "", "1"]⟩, 1, .ofList [0, 2],
      .ofList [⟨1, .epsilon, 0⟩, ⟨0, .char '"', 2⟩, ⟨0, .char '"', 0⟩, ⟨2, .char '\n', 1⟩,
        ⟨1, .char 'é', 1⟩]⟩
    ofSnapshot n.snapshot = .ok n ∧ ofDocument n.document = .ok n := by
  intro n
  apply snapshot_roundTrip n
  · decide +kernel
  · exact readable_ofList (by decide)

end Nfa

end RegularLanguages
