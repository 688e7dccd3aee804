import Mathlib.Data.List.Forall2
import RegularLanguages.Proofs.Snapshot.Document
import Std.Data.String.ToNat

/-!
# Snapshots as JSON, and spellings of their labels

A snapshot of any kind is read back from the value that it is written as, and from the text of the
value in either layout. Tables keep the order of their rows and rows that of their entries, since
equal tables have them in the same order.

A label may also be spelled as a number. A value in which some labels are respelled so is read as
the same snapshot (`Nfa.Snapshot.ofJson?_respelled` and the like), as keys and the texts of regular
expressions are not labels and stay strings.
-/

namespace RegularLanguages

open Json

namespace SnapshotFormat

/-! ## Spellings -/

/-- A label that is a decimal number may be respelled as this number. -/
inductive Respelled : Json → Json → Prop
  | same (j : Json) : Respelled j j
  | number {k : Nat} : k < 2 ^ 64 → Respelled (.string (toString k)) (.number (toString k))

inductive ItemsRespelled (item : Json → Json → Prop) : Json → Json → Prop
  | same (j : Json) : ItemsRespelled item j j
  | array {js js' : List Json} : List.Forall₂ item js js' →
      ItemsRespelled item (.array js) (.array js')

/-- Fields keep their names and their order, and the value of each is respelled in its way. -/
def FieldsRespelled (field : String → Json → Json → Prop) (fs fs' : List (String × Json)) : Prop :=
  List.Forall₂ (fun f f' => f.1 = f'.1 ∧ field f.1 f.2 f'.2) fs fs'

inductive ValuesRespelled (value : Json → Json → Prop) : Json → Json → Prop
  | same (j : Json) : ValuesRespelled value j j
  | object {fs fs' : List (String × Json)} : FieldsRespelled (fun _ => value) fs fs' →
    ValuesRespelled value (.object fs) (.object fs')

/-- The fields of a record are respelled, whether the record is an object or lists them in order. -/
inductive RecordRespelled (names : List String) (field : String → Json → Json → Prop) :
    Json → Json → Prop
  | same (j : Json) : RecordRespelled names field j j
  | object {fs fs' : List (String × Json)} : FieldsRespelled field fs fs' →
    RecordRespelled names field (.object fs) (.object fs')
  | array {js js' : List Json} : js.length = js'.length →
    FieldsRespelled field (names.zip js) (names.zip js') →
    RecordRespelled names field (.array js) (.array js')

section Reading

variable {j j' : Json}

theorem label?_number {k : Nat} (hk : k < 2 ^ 64) :
    label? (.number (toString k)) = some (toString k) := by
  have hdigits : (toString k).toList.all Char.isDigit = true := by
    rw [List.all_eq_true]
    intro c hc
    rw [Nat.toString_eq_repr, Nat.repr, String.toList_ofList] at hc
    exact Nat.isDigit_of_mem_toDigits (by decide) (by decide) hc
  have hvalue : (toString k).toNat? = some k := Nat.toNat?_repr k
  have hlt : decide (k < 18446744073709551616) = true := decide_eq_true hk
  rw [label?, hdigits, hvalue, Option.any_some, hlt]
  rfl

theorem Respelled.label?_eq (h : Respelled j j') : label? j' = label? j := by
  cases h with
  | same => rfl
  | number hk => exact label?_number hk

theorem Respelled.optionalLabel?_eq (h : Respelled j j') :
    optionalLabel? j' = optionalLabel? j := by
  cases h with
  | same => rfl
  | number hk =>
    exact congrArg (Option.map some) (label?_number hk)

theorem mapM_eq_of_forall₂ {α β γ : Type} {related : α → β → Prop}
    {f : α → Option γ} {g : β → Option γ} {l : List α} {l' : List β}
    (h : List.Forall₂ related l l') (hfg : ∀ x y, related x y → g y = f x) :
    l'.mapM g = l.mapM f := by
  induction h with
  | nil => rfl
  | cons hxy _ ih => rw [List.mapM_cons, List.mapM_cons, hfg _ _ hxy, ih]

theorem ItemsRespelled.labels?_eq (h : ItemsRespelled Respelled j j') : labels? j' = labels? j := by
  cases h with
  | same => rfl
  | array hitems => exact mapM_eq_of_forall₂ hitems fun _ _ => Respelled.label?_eq

variable {α : Type} {value? : Json → Option α} {value : Json → Json → Prop}

theorem ValuesRespelled.entries?_eq (hvalue : ∀ j j', value j j' → value? j' = value? j)
    (h : ValuesRespelled value j j') : entries? value? j' = entries? value? j := by
  cases h with
  | same => rfl
  | @object fs fs' hfields =>
      have hentries : fs'.mapM (fun f => do return (f.1, ← value? f.2)) =
          fs.mapM (fun f => do return (f.1, ← value? f.2)) := by
        refine mapM_eq_of_forall₂ hfields fun f f' hf => ?_
        rw [hf.1, hvalue _ _ hf.2]
      change (fs'.mapM (fun f => do return (f.1, ← value? f.2)) >>= _) = (fs.mapM _ >>= _)
      rw [hentries]

theorem ValuesRespelled.table?_eq (hvalue : ∀ j j', value j j' → value? j' = value? j)
    (h : ValuesRespelled (ValuesRespelled value) j j') : table? value? j' = table? value? j :=
  h.entries?_eq fun _ _ => ValuesRespelled.entries?_eq hvalue

/-! ## Records -/

variable {names : List String} {field : String → Json → Json → Prop}

/-- Values of the fields of a record, which are left out on both sides or respelled. -/
inductive FieldsMatch (field : String → Json → Json → Prop) :
    List String → List (Option Json) → List (Option Json) → Prop
  | nil : FieldsMatch field [] [] []
  | cons {name : String} {names : List String} {x x' : Option Json} {xs xs' : List (Option Json)} :
    Option.Rel (field name) x x' → FieldsMatch field names xs xs' →
    FieldsMatch field (name :: names) (x :: xs) (x' :: xs')

theorem FieldsRespelled.uniqueField_cases {fs fs' : List (String × Json)}
    (h : FieldsRespelled field fs fs') (name : String) :
    (uniqueField fs name = none ∧ uniqueField fs' name = none) ∨
      ∃ x x', uniqueField fs name = some x ∧ uniqueField fs' name = some x' ∧
        Option.Rel (field name) x x' := by
  have hsame : List.Forall₂ (fun f f' => f.1 = f'.1 ∧ field f.1 f.2 f'.2)
      (fs.filter fun f => decide (f.1 = name)) (fs'.filter fun f => decide (f.1 = name)) := by
    refine List.rel_filter ?_ h
    intro f f' hf
    dsimp only
    rw [hf.1]
  have hname : ∀ f ∈ fs.filter fun f => decide (f.1 = name), f.1 = name := fun f hf =>
    of_decide_eq_true (List.mem_filter.1 hf).2
  unfold uniqueField
  generalize fs.filter (fun f => decide (f.1 = name)) = l at *
  generalize fs'.filter (fun f => decide (f.1 = name)) = l' at *
  cases hsame with
  | nil => exact .inr ⟨none, none, rfl, rfl, .none⟩
  | @cons f f' l l' hf hrest =>
      cases hrest with
      | nil =>
          have hvalue := hf.2
          rw [hname f List.mem_cons_self] at hvalue
          exact .inr ⟨some f.2, some f'.2, rfl, rfl, .some hvalue⟩
      | cons => exact .inl ⟨rfl, rfl⟩

theorem FieldsRespelled.mapM_uniqueField {fs fs' : List (String × Json)}
    (h : FieldsRespelled field fs fs') (names : List String) :
    (names.mapM (uniqueField fs) = none ∧ names.mapM (uniqueField fs') = none) ∨
      ∃ xs xs', names.mapM (uniqueField fs) = some xs ∧ names.mapM (uniqueField fs') = some xs' ∧
        FieldsMatch field names xs xs' := by
  induction names with
  | nil => exact .inr ⟨[], [], rfl, rfl, .nil⟩
  | cons name names ih =>
      rw [List.mapM_cons, List.mapM_cons]
      rcases h.uniqueField_cases name with ⟨hx, hx'⟩ | ⟨x, x', hx, hx', hmatch⟩
      · rw [hx, hx']
        exact .inl ⟨rfl, rfl⟩
      · rw [hx, hx']
        rcases ih with ⟨hxs, hxs'⟩ | ⟨xs, xs', hxs, hxs', hrest⟩
        · rw [hxs, hxs']
          exact .inl ⟨rfl, rfl⟩
        · rw [hxs, hxs']
          exact .inr ⟨_, _, rfl, rfl, .cons hmatch hrest⟩

theorem FieldsRespelled.match_replicate {js js' : List Json} (hlength : js.length = js'.length)
    (hle : js.length ≤ names.length) (h : FieldsRespelled field (names.zip js) (names.zip js')) :
    FieldsMatch field names (js.map some ++ List.replicate (names.length - js.length) none)
      (js'.map some ++ List.replicate (names.length - js'.length) none) := by
  induction names generalizing js js' with
  | nil =>
      rw [List.eq_nil_of_length_eq_zero (Nat.le_zero.1 hle)] at hlength ⊢
      rw [List.eq_nil_of_length_eq_zero hlength.symm]
      exact .nil
  | cons name names ih =>
      cases js with
      | nil =>
          rw [List.eq_nil_of_length_eq_zero hlength.symm]
          refine .cons .none ?_
          exact @ih [] [] rfl (Nat.zero_le _) (by simp [FieldsRespelled])
      | cons j js =>
          cases js' with
          | nil => cases hlength
          | cons j' js' =>
              rw [FieldsRespelled, List.zip_cons_cons, List.zip_cons_cons, List.forall₂_cons] at h
              have hrest := ih (Nat.succ.inj hlength) (Nat.le_of_succ_le_succ hle) h.2
              simp only [List.map_cons, List.cons_append, List.length_cons, Nat.add_sub_add_right]
              exact .cons (.some h.1.2) hrest

theorem RecordRespelled.record?_cases (h : RecordRespelled names field j j') :
    record? names j = record? names j' ∨
      ∃ xs xs', record? names j = some xs ∧ record? names j' = some xs' ∧
        FieldsMatch field names xs xs' := by
  cases h with
  | same => exact .inl rfl
  | @object fs fs' hfields =>
      rcases hfields.mapM_uniqueField names with ⟨hxs, hxs'⟩ | hmatch
      · exact .inl (hxs.trans hxs'.symm)
      · exact .inr hmatch
  | @array js js' hlength hfields =>
      unfold record?
      dsimp only
      by_cases hle : js.length ≤ names.length
      · rw [if_pos hle, if_pos (hlength ▸ hle)]
        exact .inr ⟨_, _, rfl, rfl, hfields.match_replicate hlength hle⟩
      · rw [if_neg hle, if_neg (hlength ▸ hle)]
        exact .inl rfl

theorem orDefault_eq {default : α} {name : String}
    (hvalue : ∀ j j', field name j j' → value? j' = value? j)
    {x x' : Option Json} (h : Option.Rel (field name) x x') :
    orDefault default value? x' = orDefault default value? x := by
  cases h with
  | none => rfl
  | some hjj' => exact hvalue _ _ hjj'

end Reading

/-- How the snapshots of a kind are written and read. What is written is read as the same snapshot,
also from its text in either layout, and so is what is written with some labels respelled. -/
structure RoundTrips {α : Type} (toJson : α → Json) (ofJson? : Json → Option α)
    (respelled : Json → Json → Prop) : Prop where
  value : ∀ s, ofJson? (toJson s) = some s
  compact : ∀ s, read ofJson? (toJson s).compact = .ok s
  pretty : ∀ s, read ofJson? (toJson s).pretty = .ok s
  respelled : ∀ {j j'}, respelled j j' → ofJson? j' = ofJson? j

theorem RoundTrips.of_value {α : Type} {toJson : α → Json} {ofJson? : Json → Option α}
    {respelled : Json → Json → Prop} (hreads : ∀ s, ReadsBack (toJson s))
    (hvalue : ∀ s, ofJson? (toJson s) = some s)
    (hrespelled : ∀ {j j'}, respelled j j' → ofJson? j' = ofJson? j) :
    RoundTrips toJson ofJson? respelled where
  value := hvalue
  compact s := by
    have htext := read_chars (hreads s) (hvalue s) none blank_nil
    rwa [List.append_nil] at htext
  pretty s := by
    have htext := read_chars (hreads s) (hvalue s) (some 0) blank_nil
    rwa [List.append_nil] at htext
  respelled := hrespelled

end SnapshotFormat

open SnapshotFormat

/-! ## Nondeterministic automata -/

namespace Nfa

/-- The labels of a snapshot that are no keys: the start, the accepting states and the targets. -/
def Snapshot.FieldRespelled (name : String) : Json → Json → Prop :=
  if name = "startState" then Respelled
  else if name = "acceptStates" then ItemsRespelled Respelled
  else if name = "table" then ValuesRespelled (ValuesRespelled (ItemsRespelled Respelled))
  else Eq

def Snapshot.JsonRespelled : Json → Json → Prop :=
  RecordRespelled ["startState", "acceptStates", "table"] Snapshot.FieldRespelled

theorem Snapshot.ofJson?_respelled {j j' : Json} (h : JsonRespelled j j') :
    ofJson? j' = ofJson? j := by
  unfold ofJson?
  rcases h.record?_cases with heq | ⟨xs, xs', hxs, hxs', hfields⟩
  · rw [heq]
  · rw [hxs, hxs']
    obtain _ | ⟨hstart, _ | ⟨haccepting, _ | ⟨htable, _ | _⟩⟩⟩ := hfields
    have hrows : ∀ j j', FieldRespelled "table" j j' → table? labels? j' = table? labels? j := by
      intro j j' h
      have h : ValuesRespelled (ValuesRespelled (ItemsRespelled Respelled)) j j' := h
      exact h.table?_eq fun _ _ => ItemsRespelled.labels?_eq
    simp only [Option.bind_eq_bind, Option.bind_some]
    rw [orDefault_eq (fun _ _ => Respelled.optionalLabel?_eq) hstart,
      orDefault_eq (fun _ _ => ItemsRespelled.labels?_eq) haccepting, orDefault_eq hrows htable]

end Nfa

/-! ## Deterministic automata -/

namespace Dfa

/-- The labels of a snapshot that are no keys: the accepting states and the targets. -/
def Snapshot.FieldRespelled (name : String) : Json → Json → Prop :=
  if name = "acceptStates" then ItemsRespelled Respelled
  else if name = "table" then ValuesRespelled (ValuesRespelled Respelled)
  else Eq

def Snapshot.JsonRespelled : Json → Json → Prop :=
  RecordRespelled ["acceptStates", "table"] Snapshot.FieldRespelled

theorem Snapshot.readsBack_toJson (s : Snapshot) : ReadsBack s.toJson := by
  apply ReadsBack.object
  intro f hf
  rcases List.mem_pair.1 hf with rfl | rfl
  · exact readsBack_labelsJson s.accepting
  · exact readsBack_tableJson ReadsBack.string s.table

theorem Snapshot.ofJson?_toJson (s : Snapshot) : ofJson? s.toJson = some s := by
  have hlabels := labels?_labelsJson s.accepting
  have htable : table? label? (tableJson .string s.table) = some s.table :=
    @table?_tableJson _ Json.string _ (fun _ => rfl) s.table
  simp [ofJson?, toJson, record?, uniqueField, orDefault, hlabels, htable]

theorem Snapshot.ofJson?_respelled {j j' : Json} (h : JsonRespelled j j') :
    ofJson? j' = ofJson? j := by
  unfold ofJson?
  rcases h.record?_cases with heq | ⟨xs, xs', hxs, hxs', hfields⟩
  · rw [heq]
  · rw [hxs, hxs']
    obtain _ | ⟨haccepting, _ | ⟨htable, _ | _⟩⟩ := hfields
    have hrows : ∀ j j', FieldRespelled "table" j j' → table? label? j' = table? label? j := by
      intro j j' h
      have h : ValuesRespelled (ValuesRespelled Respelled) j j' := h
      exact h.table?_eq fun _ _ => Respelled.label?_eq
    simp only [Option.bind_eq_bind, Option.bind_some]
    rw [orDefault_eq (fun _ _ => ItemsRespelled.labels?_eq) haccepting, orDefault_eq hrows htable]

end Dfa

/-! ## Generalized automata -/

namespace Gnfa

/-- The labels of a snapshot that are no keys: the start and the accepting state. The values of the
table are texts of regular expressions. -/
def Snapshot.FieldRespelled (name : String) : Json → Json → Prop :=
  if name = "startState" then Respelled
  else if name = "acceptState" then Respelled
  else Eq

def Snapshot.JsonRespelled : Json → Json → Prop :=
  RecordRespelled ["startState", "acceptState", "table"] Snapshot.FieldRespelled

theorem Snapshot.readsBack_toJson (s : Snapshot) : ReadsBack s.toJson := by
  apply ReadsBack.object
  intro f hf
  rcases List.mem_cons.1 hf with rfl | hf
  · exact .string s.start
  · rcases List.mem_pair.1 hf with rfl | rfl
    · exact .string s.accept
    · exact readsBack_tableJson ReadsBack.string s.table

theorem Snapshot.ofJson?_toJson (s : Snapshot) : ofJson? s.toJson = some s := by
  have htable : table? Json.string? (tableJson .string s.table) = some s.table :=
    @table?_tableJson _ Json.string _ (fun _ => rfl) s.table
  simp [ofJson?, toJson, record?, uniqueField, orDefault, label?, htable]

theorem Snapshot.ofJson?_respelled {j j' : Json} (h : JsonRespelled j j') :
    ofJson? j' = ofJson? j := by
  unfold ofJson?
  rcases h.record?_cases with heq | ⟨xs, xs', hxs, hxs', hfields⟩
  · rw [heq]
  · rw [hxs, hxs']
    obtain _ | ⟨hstart, _ | ⟨haccept, _ | ⟨htable, _ | _⟩⟩⟩ := hfields
    have hrows : ∀ j j', FieldRespelled "table" j j' →
        table? Json.string? j' = table? Json.string? j := by
      rintro j _ rfl
      rfl
    cases hstart with
    | none => rfl
    | some hstart =>
        cases haccept with
        | none => rfl
        | some haccept =>
            have hstart : Respelled _ _ := hstart
            have haccept : Respelled _ _ := haccept
            simp only [Option.bind_eq_bind, Option.bind_some]
            rw [hstart.label?_eq, haccept.label?_eq, orDefault_eq hrows htable]

end Gnfa

/-- Snapshots of every kind are read as they were written: tables with their rows, rows with their
entries and entries with their targets in the same order, empty ones too, and an absent start as an
absent one. Labels that are no keys may be respelled as numbers below 2⁶⁴, any of them. -/
theorem snapshots_roundTrip :
    RoundTrips Nfa.Snapshot.toJson Nfa.Snapshot.ofJson? Nfa.Snapshot.JsonRespelled ∧
    RoundTrips Dfa.Snapshot.toJson Dfa.Snapshot.ofJson? Dfa.Snapshot.JsonRespelled ∧
    RoundTrips Gnfa.Snapshot.toJson Gnfa.Snapshot.ofJson? Gnfa.Snapshot.JsonRespelled := by
  refine ⟨.of_value ?_ ?_ ?_, .of_value ?_ ?_ ?_, .of_value ?_ ?_ ?_⟩
  · exact Nfa.Snapshot.readsBack_toJson
  · exact Nfa.Snapshot.ofJson?_toJson
  · exact Nfa.Snapshot.ofJson?_respelled
  · exact Dfa.Snapshot.readsBack_toJson
  · exact Dfa.Snapshot.ofJson?_toJson
  · exact Dfa.Snapshot.ofJson?_respelled
  · exact Gnfa.Snapshot.readsBack_toJson
  · exact Gnfa.Snapshot.ofJson?_toJson
  · exact Gnfa.Snapshot.ofJson?_respelled

/-- Numbers for the labels, which are keys as strings. -/
example :
    Nfa.Snapshot.ofJson? (.object [("startState", .number "0"),
      ("acceptStates", .array [.number "1", .string "2"]),
      ("table", .object [("0", .object [("a", .array [.number "1"])]), ("1", .object [])])]) =
    some ⟨some "0", ["1", "2"], .ofList [("0", .ofList [("a", ["1"])]), ("1", .empty)]⟩ := by
  cbv

end RegularLanguages
