import RegularLanguages.CommandLine.Report
import RegularLanguages.Proofs.Dfa.Determinization
import RegularLanguages.Proofs.Dfa.Embedding
import RegularLanguages.Proofs.Dfa.Minimization
import RegularLanguages.Proofs.Gnfa.Elimination
import RegularLanguages.Proofs.Gnfa.Labels
import RegularLanguages.Proofs.Nfa.DeadStates
import RegularLanguages.Proofs.Snapshot.Document

/-!
# What commands print can be read by commands

An automaton that is loaded is well-formed and has no reserved character on its edges, and no
command that prints an automaton brings one in. So every document that is printed can be loaded in
its turn, and since the commands keep the language, so does any chain of them. The expression that
is printed for an automaton has letters of the automaton only, and its text compiles to an
automaton of the same language (`Command.closed_under_output`).
-/

namespace RegularLanguages

variable {inputs : Inputs} {file : String} {m n : Nfa}

/-! ## Loading -/

namespace Nfa

theorem Readable.of_subset (h : n.Readable) (hsub : ∀ c ∈ m.alphabet, c ∈ n.alphabet) :
    m.Readable :=
  fun c hc => h c (hsub c hc)

theorem ofFileText_eq_ok_iff {text : String} :
    ofFileText file text = .ok n ↔ ¬ text.toList.all Text.isBlank = true ∧
      ofDocument text = .ok n := by
  unfold ofFileText
  split_ifs with hblank
  · simp [hblank]
  · simp [hblank, mapError_eq_ok_iff]

theorem exists_snapshot_of_ofDocument {text : String} (h : ofDocument text = .ok n) :
    ∃ s, ofSnapshot s = .ok n := by
  obtain ⟨s, -, hs⟩ := bind_eq_ok_iff.1 h
  exact ⟨s, mapError_eq_ok_iff.1 hs⟩

theorem not_blank_document (n : Nfa) (more : String) :
    ¬ (n.document ++ more).toList.all Text.isBlank = true := by
  obtain ⟨c, cs, hchars, hc⟩ := (Snapshot.readsBack_toJson n.snapshot).begins (some 0)
  have hblank : Text.isBlank c = false := by
    rcases hc with rfl | rfl | rfl <;> decide
  rw [document, Json.pretty, hchars, String.toList_append, String.toList_ofList, List.cons_append,
    List.all_cons, hblank, Bool.false_and]
  exact Bool.false_ne_true

theorem WellFormed.ofFileText_document (hn : n.WellFormed) (hread : n.Readable) (file : String) :
    ofFileText file (n.document ++ "\n") = .ok n := by
  refine ofFileText_eq_ok_iff.2 ⟨n.not_blank_document "\n", ?_⟩
  have hblank : Json.Blank ['\n'] := fun c hc => .inr (.inl (List.mem_singleton.1 hc))
  exact hn.ofDocument_append hread hblank

end Nfa

theorem Inputs.wellFormed_of_nfa (h : inputs.nfa file = .ok n) : n.WellFormed ∧ n.Readable := by
  obtain ⟨text, -, htext⟩ := bind_eq_ok_iff.1 h
  obtain ⟨s, hs⟩ := Nfa.exists_snapshot_of_ofDocument (Nfa.ofFileText_eq_ok_iff.1 htext).2
  exact ⟨Nfa.wellFormed_ofSnapshot hs, Nfa.readable_ofSnapshot hs⟩

/-! ## Printed automata -/

namespace Command

/-- Whether a command succeeds, and what it prints is loaded, from wherever it is read again, as an
automaton of the same language. -/
def PrintsLanguageOf (c : Command) (inputs : Inputs) (n : Nfa) : Prop :=
  ∃ out, c.perform inputs = .ok out ∧ ∀ (later : Inputs) (file : String),
    later.text file = .ok out.result → ∃ m, later.nfa file = .ok m ∧ ∀ w, m.accepts w = n.accepts w

theorem printsLanguageOf {c : Command} {remarks : String}
    (h : c.perform inputs = .ok ⟨m.document ++ "\n", remarks⟩) (hm : m.WellFormed)
    (hread : m.Readable)
    (haccepts : ∀ w, m.accepts w = n.accepts w) : c.PrintsLanguageOf inputs n := by
  refine ⟨_, h, fun later file htext => ⟨m, ?_, haccepts⟩⟩
  exact bind_eq_ok_iff.2 ⟨_, htext, hm.ofFileText_document hread file⟩

section Loaded

variable (h : inputs.nfa file = .ok n)

include h

theorem toNfa_printsLanguageOf {c : Command} {d : Dfa} {remarks : String}
    (hperform : c.perform inputs = .ok ⟨d.toNfa.document ++ "\n", remarks⟩) (hd : d.WellFormed)
    (halphabet : ∀ a ∈ d.alphabet, a ∈ n.alphabet) (haccepts : ∀ w, d.accepts w = n.accepts w) :
    c.PrintsLanguageOf inputs n := by
  obtain ⟨-, hread⟩ := Inputs.wellFormed_of_nfa h
  refine printsLanguageOf hperform hd.toNfa (hread.of_subset ?_) ?_
  · rw [Dfa.alphabet_toNfa]
    exact halphabet
  · intro w
    rw [Dfa.accepts_toNfa, haccepts]

theorem determinize_printsLanguageOf : (determinize file .nfa).PrintsLanguageOf inputs n := by
  obtain ⟨hn, -⟩ := Inputs.wellFormed_of_nfa h
  exact toNfa_printsLanguageOf (d := n.determinize) h (bind_eq_ok_iff.2 ⟨n, h, rfl⟩)
    (Nfa.wellFormed_determinize hn) (fun _ => Nfa.mem_alphabet_determinize hn)
    (Nfa.accepts_determinize hn)

theorem minimize_printsLanguageOf : (minimize file .nfa).PrintsLanguageOf inputs n := by
  obtain ⟨hn, -⟩ := Inputs.wellFormed_of_nfa h
  have hd := Nfa.wellFormed_determinize hn
  refine toNfa_printsLanguageOf (d := n.minimize) h (bind_eq_ok_iff.2 ⟨n, h, rfl⟩) hd.minimize ?_ ?_
  · intro a ha
    exact Nfa.mem_alphabet_determinize hn (hd.mem_alphabet_minimize ha)
  · intro w
    rw [Nfa.minimize, hd.accepts_minimize, Nfa.accepts_determinize hn]

theorem relabel_printsLanguageOf : (relabel file).PrintsLanguageOf inputs n := by
  obtain ⟨hn, hread⟩ := Inputs.wellFormed_of_nfa h
  refine printsLanguageOf (m := n.renumber.1) (bind_eq_ok_iff.2 ⟨n, h, rfl⟩) hn.renumber ?_
    hn.accepts_renumber
  apply hread.of_subset
  intro c hc
  rwa [Nfa.alphabet_renumber] at hc

theorem prune_printsLanguageOf (restore : Bool) :
    (prune file restore).PrintsLanguageOf inputs n := by
  obtain ⟨hn, hread⟩ := Inputs.wellFormed_of_nfa h
  cases restore with
  | false =>
      exact printsLanguageOf (m := n.prune) (bind_eq_ok_iff.2 ⟨n, h, rfl⟩) n.wellFormed_prune
        (hread.of_subset fun _ hc => Nfa.mem_alphabet_prune hc) n.accepts_prune
  | true =>
      exact printsLanguageOf (m := n.complete) (bind_eq_ok_iff.2 ⟨n, h, rfl⟩) hn.complete
        (hread.of_subset fun _ hc => Nfa.mem_alphabet_complete.1 hc) hn.accepts_complete

end Loaded

end Command

/-! ## Printed expressions -/

namespace Gnfa

theorem statesOf_eq_ok {g : Gnfa} {order : List String} {state : String → Nat}
    (h : ∀ label ∈ order, g.labels.id? label = some (state label)) :
    g.statesOf order = .ok (order.map state) := by
  rw [statesOf, mapM_eq_ok_iff, List.forall₂_map_right_iff, List.forall₂_same]
  intro label hlabel
  rw [h label hlabel]

/-- New labels do not get in the way of the labels of the states: different labels are looked up as
different states. -/
theorem statesOf_ofNfa (hn : n.WellFormed) {order : List String} (hnodup : order.Nodup)
    (horder : ∀ label ∈ order, label ∈ n.labels.toList) :
    ∃ states, (ofNfa n).statesOf order = .ok states ∧ states.Nodup ∧
      ∀ q ∈ states, q ∈ (ofNfa n).interior := by
  have hid : ∀ label ∈ order, n.labels.id? label = some (n.labels.toList.idxOf label) := by
    intro label hlabel
    rw [LabelTable.id?_eq_some_iff hn.labels_nodup, List.getElem?_idxOf (horder label hlabel)]
  refine ⟨order.map n.labels.toList.idxOf, ?_, ?_, ?_⟩
  · apply statesOf_eq_ok
    intro label hlabel
    have hstart := LabelTable.id?_internFresh hn.labels_nodup (hid label hlabel) "start"
    exact LabelTable.id?_internFresh (LabelTable.nodup_internFresh hn.labels_nodup "start")
      hstart "accept"
  · apply hnodup.map_on
    intro l hl l' _ heq
    exact (List.idxOf_inj (horder l hl)).1 heq
  · intro q hq
    obtain ⟨label, hlabel, rfl⟩ := List.mem_map.1 hq
    exact mem_interior_ofNfa.2 (LabelTable.lt_size_of_id? (hid label hlabel))

end Gnfa

namespace Command

open Regex

theorem compile_printsLanguageOf {r : Regex} (hletters : ∀ c ∈ r.letters, Symbol.isInput c = true)
    (hr : ∀ w, r.Matches w ↔ n.accepts w = true) (inputs : Inputs) :
    (compile r.text .nfa).PrintsLanguageOf inputs n := by
  obtain ⟨t, ht, hsame⟩ := (denotes_chars hletters).loosen (Nat.zero_le _)
  have hparse : parse r.text = .ok t := by
    apply parse_of_derives
    rw [text, String.toList_ofList]
    exact .alternation ht
  have hperform : (compile r.text .nfa).perform inputs = .ok ⟨t.toNfa.document ++ "\n", ""⟩ := by
    rw [perform, hparse]
    rfl
  apply printsLanguageOf hperform
  · rw [toNfa_eq_compose]
    exact wellFormed_compose t
  · intro c hc
    exact isInput_of_parse hparse c (mem_letters_of_mem_alphabet hc)
  · intro w
    rw [toNfa_eq_compose, Bool.eq_iff_iff, accepts_compose_iff, hsame w, hr w]

theorem toRegex_perform (h : inputs.nfa file = .ok n) {order : List String} (hnodup : order.Nodup)
    (horder : ∀ label ∈ order, label ∈ n.labels.toList) :
    ∃ r : Regex, (toRegex file order).perform inputs = .ok ⟨r.text ++ "\n", ""⟩ ∧
      (∀ c ∈ r.letters, c ∈ n.alphabet) ∧ ∀ w, r.Matches w ↔ n.accepts w = true := by
  obtain ⟨hn, -⟩ := Inputs.wellFormed_of_nfa h
  obtain ⟨states, hstates, hnodup, hinterior⟩ := Gnfa.statesOf_ofNfa hn hnodup horder
  obtain ⟨r, hr, hmatches⟩ := (Gnfa.wellFormed_ofNfa hn).toRegex_eq_ok hnodup hinterior
  refine ⟨r, ?_, ?_, fun w => (hmatches w).trans (Gnfa.accepts_ofNfa_iff hn)⟩
  · refine bind_eq_ok_iff.2 ⟨n, h, bind_eq_ok_iff.2 ⟨states, hstates, ?_⟩⟩
    rw [hr]
    rfl
  · have hletters := (inherited_letters (· ∈ n.alphabet)).kept
    apply (Gnfa.labelled_ofNfa hletters ?_).toRegex hletters hr
    intro c hc d hd
    rw [List.mem_singleton.1 hd]
    exact hc

/-- The commands that print an automaton print a document that is loaded as an automaton of the same
language, and the expression that is printed for any order of states compiles to one. -/
theorem closed_under_output (inputs : Inputs) (file : String) (n : Nfa)
    (h : inputs.nfa file = .ok n) :
    (determinize file .nfa).PrintsLanguageOf inputs n ∧
      (minimize file .nfa).PrintsLanguageOf inputs n ∧
      (relabel file).PrintsLanguageOf inputs n ∧ (prune file false).PrintsLanguageOf inputs n ∧
      (prune file true).PrintsLanguageOf inputs n ∧
      ∀ order : List String, order.Nodup → (∀ label ∈ order, label ∈ n.labels.toList) →
        ∃ text, (toRegex file order).perform inputs = .ok ⟨text ++ "\n", ""⟩ ∧
          ∀ later, (compile text .nfa).PrintsLanguageOf later n := by
  refine ⟨determinize_printsLanguageOf h, minimize_printsLanguageOf h, relabel_printsLanguageOf h,
    prune_printsLanguageOf h false, prune_printsLanguageOf h true, ?_⟩
  intro order hnodup horder
  obtain ⟨r, hperform, hletters, hmatches⟩ := toRegex_perform h hnodup horder
  have hinput : ∀ c ∈ r.letters, Symbol.isInput c = true :=
    fun c hc => (Inputs.wellFormed_of_nfa h).2 c (hletters c hc)
  exact ⟨r.text, hperform, compile_printsLanguageOf hinput hmatches⟩

/-- The document of two states with the labels that new states would get, and with an edge between
them that a character and the empty move share. Both are eliminated in the order in which they are
named. -/
theorem closed_under_output_labels :
    let n : Nfa := ⟨⟨["start", "accept"]⟩, 0, .singleton 1,
      .ofList [⟨0, .epsilon, 1⟩, ⟨0, .char 'a', 1⟩, ⟨1, .char 'b', 0⟩]⟩
    let inputs : Inputs := ⟨.ok (n.document ++ "\n"), fun _ => .ok (.text (n.document ++ "\n")), ""⟩
    inputs.nfa "automaton.json" = .ok n ∧
      (determinize "automaton.json" .nfa).PrintsLanguageOf inputs n ∧
      (minimize "automaton.json" .nfa).PrintsLanguageOf inputs n ∧
      (relabel "automaton.json").PrintsLanguageOf inputs n ∧
      (prune "automaton.json" false).PrintsLanguageOf inputs n ∧
      (prune "automaton.json" true).PrintsLanguageOf inputs n ∧
      ∃ text, (toRegex "automaton.json" ["accept", "start"]).perform inputs =
        .ok ⟨text ++ "\n", ""⟩ ∧
        ∀ later, (compile text .nfa).PrintsLanguageOf later n := by
  intro n inputs
  have hn : n.WellFormed := by decide +kernel
  have hread : n.Readable := Nfa.readable_ofList (by decide)
  have htext : inputs.text "automaton.json" = .ok (n.document ++ "\n") := by
    unfold Inputs.text
    split <;> rfl
  have h : inputs.nfa "automaton.json" = .ok n :=
    bind_eq_ok_iff.2 ⟨_, htext, hn.ofFileText_document hread _⟩
  obtain ⟨hdeterminize, hminimize, hrelabel, hprune, hrestore, horder⟩ :=
    closed_under_output inputs "automaton.json" n h
  exact ⟨h, hdeterminize, hminimize, hrelabel, hprune, hrestore,
    horder ["accept", "start"] (by decide) (by decide)⟩

end Command

end RegularLanguages
