import RegularLanguages.Proofs.Outcome
import RegularLanguages.Regex.Reader
import RegularLanguages.Symbol

/-!
# The grammar of regular expressions

A grammar says which texts are regular expressions and which trees they have. The reader accepts the
texts of the grammar, with their trees (`Regex.parse_of_derives`), and no others
(`Regex.derives_of_parse`).

A phrase leads the reader from one group to another that holds its tree, wherever it stands. The
other way round, a group shows a derivation of the text that was read in it. A star at the start of
an alternative, or a bar at the start of a later one, breaks this off: from then on the group has
more bars than finished alternatives, and it never closes.
-/

namespace RegularLanguages.Regex

/-! ## The grammar -/

/-- The kinds of phrases, from the tightest to the whole text. -/
inductive Phrase where
  | atom
  | factor
  | sequence
  | alternation
  | whole

/-- `Derives p u t` says that the text `u` is a phrase of the kind `p`, and that its tree is `t`. -/
inductive Derives : Phrase → List Char → Regex → Prop
  | emptyWord : Derives .atom ['~'] .emptyWord
  | emptySet : Derives .atom ['∅'] .emptySet
  | char {c : Char} : Symbol.isInput c = true → Derives .atom [c] (.char c)
  | unit : Derives .atom ['(', ')'] .emptyWord
  | group {u : List Char} {t : Regex} : Derives .alternation u t →
      Derives .atom ('(' :: (u ++ [')'])) t
  | atom {u : List Char} {t : Regex} : Derives .atom u t → Derives .factor u t
  | star {u : List Char} {t : Regex} : Derives .factor u t → Derives .factor (u ++ ['*']) (.star t)
  | factor {u : List Char} {t : Regex} : Derives .factor u t → Derives .sequence u t
  | dropUnit {u v : List Char} {r : Regex} :
    Derives .sequence u .emptyWord → Derives .factor v r → Derives .sequence (u ++ v) r
  | concat {u v : List Char} {l r : Regex} :
    Derives .sequence u l → l ≠ .emptyWord → Derives .factor v r →
      Derives .sequence (u ++ v) (.concat l r)
  | sequence {u : List Char} {t : Regex} : Derives .sequence u t → Derives .alternation u t
  | union {u v : List Char} {l r : Regex} :
    Derives .sequence u l → Derives .alternation v r →
      Derives .alternation (u ++ '|' :: v) (.union l r)
  | nothing : Derives .whole [] .emptyWord
  | alternation {u : List Char} {t : Regex} : Derives .alternation u t → Derives .whole u t

variable {u v w : List Char} {c : Char} {k : Nat} {l r t : Regex}

theorem Derives.bracket (h : Derives .whole u t) : Derives .atom ('(' :: (u ++ [')'])) t := by
  cases h with
  | nothing => exact .unit
  | alternation h => exact .group h

theorem Derives.juxtapose (hl : Derives .sequence u l) (hr : Derives .factor v r) :
    Derives .sequence (u ++ v) (juxtapose l r) := by
  unfold Regex.juxtapose
  split
  · rename_i hunit
    rw [hunit] at hl
    exact .dropUnit hl hr
  · rename_i hne
    exact .concat hl hne hr

namespace Reader

variable {g g' : Group} {s s' : State}

/-! ## Phrases are read -/

theorem State.readFrom_cons (h : s.read k c = .ok s') (cs : List Char) :
    s.readFrom k (c :: cs) = s'.readFrom (k + 1) cs := by
  rw [readFrom, h]
  rfl

/-- Whether reading a text from a place on leads from a group to another, whatever is around the
group and whatever follows the text. -/
def Group.Reads (g : Group) (place : Nat) (text : List Char) (g' : Group) : Prop :=
  ∀ enclosing rest, State.readFrom ⟨g, enclosing⟩ place (text ++ rest) =
    State.readFrom ⟨g', enclosing⟩ (place + text.length) rest

theorem Group.Reads.append {g'' : Group} (hu : g.Reads k u g')
    (hv : g'.Reads (k + u.length) v g'') :
    g.Reads k (u ++ v) g'' := by
  intro enclosing rest
  rw [List.append_assoc, hu, hv, List.length_append, Nat.add_assoc]

theorem Group.reads_char (h : ∀ enclosing, State.read ⟨g, enclosing⟩ k c = .ok ⟨g', enclosing⟩) :
    g.Reads k [c] g' := by
  intro enclosing rest
  exact State.readFrom_cons (h enclosing) rest

theorem Group.reads_input (hc : Symbol.isInput c = true) : g.Reads k [c] (g.factor (.char c)) := by
  apply reads_char
  intro enclosing
  unfold State.read
  split
  all_goals first
    | rfl
    | exact absurd hc (by decide)

theorem Group.reads_bracket (h : Group.empty.Reads (k + 1) u g') (hclose : g'.close = .ok t) :
    g.Reads k ('(' :: (u ++ [')'])) (g.factor t) := by
  intro enclosing rest
  have hopen : State.read ⟨g, enclosing⟩ k '(' = .ok ⟨.empty, (k, g) :: enclosing⟩ := rfl
  have hshut : State.read ⟨g', (k, g) :: enclosing⟩ (k + 1 + u.length) ')' =
      .ok ⟨g.factor t, enclosing⟩ := by
    rw [State.read, hclose]
    rfl
  rw [List.cons_append, List.append_assoc, State.readFrom_cons hopen, h, List.singleton_append,
    State.readFrom_cons hshut, List.length_cons, List.length_append, List.length_singleton]
  congr 1
  omega

theorem Group.reads_star : (g.factor t).Reads k ['*'] (g.factor (.star t)) := by
  apply reads_char
  intro enclosing
  obtain ⟨finished, bars, current⟩ := g
  cases current <;> rfl

/-- What reading a phrase comes to. A sequence starts where no factor has been read, and an
alternation is joined to the alternatives before it. -/
def Understood : Phrase → List Char → Regex → Prop
  | .atom, u, t | .factor, u, t => ∀ (g : Group) (k : Nat), g.Reads k u (g.factor t)
  | .sequence, u, t => ∀ finished bars k, ∃ f : Factors,
    f.value = t ∧ Group.Reads ⟨finished, bars, none⟩ k u ⟨finished, bars, some f⟩
  | .alternation, u, t => ∀ finished bars k, ∃ g : Group,
    g.close = join t finished bars ∧ Group.Reads ⟨finished, bars, none⟩ k u g
  | .whole, u, t => ∃ g : Group, g.close = .ok t ∧ Group.empty.Reads 0 u g

theorem understood_of_derives {p : Phrase} (h : Derives p u t) : Understood p u t := by
  induction h with
  | emptyWord => exact fun g k => Group.reads_char fun enclosing => rfl
  | emptySet => exact fun g k => Group.reads_char fun enclosing => rfl
  | char hc => exact fun g k => Group.reads_input hc
  | unit => exact fun g k => Group.reads_bracket (u := []) (fun enclosing rest => rfl) rfl
  | group _ ih =>
      intro g k
      obtain ⟨g', hclose, hreads⟩ := ih [] [] (k + 1)
      exact Group.reads_bracket hreads hclose
  | atom _ ih => exact ih
  | star _ ih => exact fun g k => (ih g k).append Group.reads_star
  | factor _ ih =>
      intro finished bars k
      exact ⟨⟨none, _⟩, rfl, ih ⟨finished, bars, none⟩ k⟩
  | dropUnit _ _ ihu ihv =>
      intro finished bars k
      obtain ⟨f, hf, hu⟩ := ihu finished bars k
      exact ⟨⟨some f.value, _⟩, if_pos hf, hu.append (ihv ⟨finished, bars, some f⟩ _)⟩
  | concat _ hne _ ihu ihv =>
      intro finished bars k
      obtain ⟨f, rfl, hu⟩ := ihu finished bars k
      exact ⟨⟨some f.value, _⟩, if_neg hne, hu.append (ihv ⟨finished, bars, some f⟩ _)⟩
  | sequence _ ih =>
      intro finished bars k
      obtain ⟨f, rfl, hu⟩ := ih finished bars k
      exact ⟨⟨finished, bars, some f⟩, rfl, hu⟩
  | @union u v l r _ _ ihu ihv =>
      intro finished bars k
      obtain ⟨f, rfl, hu⟩ := ihu finished bars k
      obtain ⟨g, hclose, hv⟩ :=
        ihv (f.value :: finished) ((k + u.length) :: bars) (k + u.length + 1)
      have hbar : Group.Reads ⟨finished, bars, some f⟩ (k + u.length) ['|']
          ⟨f.value :: finished, (k + u.length) :: bars, none⟩ :=
            Group.reads_char fun enclosing => rfl
      exact ⟨g, hclose, hu.append (hbar.append hv)⟩
  | nothing => exact ⟨.empty, rfl, fun enclosing rest => rfl⟩
  | alternation _ ih => exact ih [] [] 0

/-! ## What was read is a phrase -/

/-- The text of finished alternatives, which are given from the right. A bar follows each. -/
inductive Alternatives : List Char → List Regex → Prop
  | nil : Alternatives [] []
  | bar {u v : List Char} {rest : List Regex} {t : Regex} :
    Alternatives u rest → Derives .sequence v t → Alternatives (u ++ (v ++ ['|'])) (t :: rest)

inductive Begun : List Char → Option Factors → Prop
  | nothing : Begun [] none
  | one {u : List Char} {t : Regex} : Derives .factor u t → Begun u (some ⟨none, t⟩)
  | more {u v : List Char} {l r : Regex} :
    Derives .sequence u l → Derives .factor v r → Begun (u ++ v) (some ⟨some l, r⟩)

theorem Begun.sequence {f : Factors} (h : Begun u (some f)) : Derives .sequence u f.value := by
  cases h with
  | one hu => exact .factor hu
  | more hu hv => exact .juxtapose hu hv

/-- `g.Shows u` says that the text `u` was read in the group `g`, and which derivations it has. -/
inductive Group.Shows : Group → List Char → Prop
  | intro {u v : List Char} {finished : List Regex} {bars : List Nat} {current : Option Factors} :
    Alternatives u finished → bars.length = finished.length → Begun v current →
      Group.Shows ⟨finished, bars, current⟩ (u ++ v)

/-- Whether a group has more bars than alternatives to put between them. -/
structure Group.Overrun (g : Group) : Prop where
  lt_length_bars : g.finished.length < g.bars.length
  finished_ne_nil : g.current = none → g.finished ≠ []

theorem Group.shows_empty : Group.empty.Shows [] := .intro .nil rfl .nothing

theorem Group.Shows.factor (h : g.Shows u) (hv : Derives .factor v r) :
    (g.factor r).Shows (u ++ v) := by
  obtain ⟨halternatives, hlength, hbegun⟩ := h
  rw [List.append_assoc]
  cases hbegun with
  | nothing => exact .intro halternatives hlength (.one hv)
  | one hu => exact .intro halternatives hlength (.more (.factor hu) hv)
  | more hl hu => exact .intro halternatives hlength (.more (.juxtapose hl hu) hv)

theorem Group.Overrun.factor (h : g.Overrun) (r : Regex) : (g.factor r).Overrun := by
  obtain ⟨finished, bars, current⟩ := g
  cases current <;> exact ⟨h.lt_length_bars, fun hnone => nomatch hnone⟩

/-- A star at the start of an alternative takes an alternative away from a bar. -/
theorem Group.Shows.star (h : g.Shows u) (hstar : g.star k = .ok g') :
    g'.Shows (u ++ ['*']) ∨ g'.Overrun := by
  obtain ⟨halternatives, hlength, hbegun⟩ := h
  rw [List.append_assoc]
  cases hbegun with
  | nothing =>
      cases halternatives with
      | nil => cases hstar
      | bar _ _ =>
          cases hstar
          right
          refine ⟨?_, fun hnone => nomatch hnone⟩
          rw [hlength]
          exact Nat.lt_succ_self _
  | one hu =>
      cases hstar
      exact .inl (.intro halternatives hlength (.one (.star hu)))
  | more hl hu =>
      cases hstar
      rw [List.append_assoc]
      exact .inl (.intro halternatives hlength (.more hl (.star hu)))

theorem Group.Overrun.star (h : g.Overrun) (hstar : g.star k = .ok g') : g'.Overrun := by
  obtain ⟨finished, bars, current⟩ := g
  have hlt := h.lt_length_bars
  cases current with
  | some f =>
      cases hstar
      exact ⟨hlt, fun hnone => nomatch hnone⟩
  | none =>
      cases finished with
      | nil => cases hstar
      | cons r rest =>
          cases hstar
          exact ⟨Nat.lt_of_succ_lt hlt, fun hnone => nomatch hnone⟩

/-- A bar right after another one has no alternative of its own. -/
theorem Group.Shows.bar (h : g.Shows u) (hbar : g.bar k = .ok g') :
    g'.Shows (u ++ ['|']) ∨ g'.Overrun := by
  obtain @⟨before, after, finished, bars, current, halternatives, hlength, hbegun⟩ := h
  cases current with
  | some f =>
      cases hbar
      left
      have hshows := Shows.intro (halternatives.bar hbegun.sequence)
        (show ((k :: bars).length = _) by rw [List.length_cons, hlength]; rfl) .nothing
      rw [List.append_nil, ← List.append_assoc] at hshows
      exact hshows
  | none =>
      cases finished with
      | nil => cases hbar
      | cons r rest =>
          cases hbar
          right
          refine ⟨?_, fun _ => List.cons_ne_nil r rest⟩
          change (r :: rest).length < bars.length + 1
          rw [hlength]
          exact Nat.lt_succ_self _

theorem Group.Overrun.bar (h : g.Overrun) (hbar : g.bar k = .ok g') : g'.Overrun := by
  obtain ⟨finished, bars, current⟩ := g
  have hlt := h.lt_length_bars
  cases current with
  | some f =>
      cases hbar
      exact ⟨Nat.succ_lt_succ hlt, fun _ => List.cons_ne_nil f.value finished⟩
  | none =>
      cases finished with
      | nil => cases hbar
      | cons r rest =>
          cases hbar
          exact ⟨Nat.lt_succ_of_lt hlt, fun _ => List.cons_ne_nil r rest⟩

/-! ## Closed groups -/

theorem length_le_of_join {finished : List Regex} {bars : List Nat}
    (h : join r finished bars = .ok t) :
    bars.length ≤ finished.length := by
  induction finished generalizing r bars with
  | nil =>
      cases bars with
      | nil => exact Nat.le_refl 0
      | cons k bars => cases h
  | cons l rest ih =>
      cases bars with
      | nil => exact Nat.zero_le _
      | cons k bars => exact Nat.succ_le_succ (ih h)

theorem Alternatives.join {finished : List Regex} {bars : List Nat} (h : Alternatives u finished)
    (hlength : bars.length = finished.length) (hv : Derives .alternation v r)
    (hjoin : Reader.join r finished bars = .ok t) : Derives .alternation (u ++ v) t := by
  induction h generalizing v r bars with
  | nil =>
      cases bars with
      | nil =>
          cases hjoin
          exact hv
      | cons k bars => cases hlength
  | @bar u w rest l _ hw ih =>
      cases bars with
      | nil => cases hlength
      | cons k bars =>
          have hunion := ih (Nat.succ.inj hlength) (.union hw hv) hjoin
          rw [List.append_assoc, List.append_assoc]
          exact hunion

theorem Group.Shows.close (h : g.Shows u) (hclose : g.close = .ok t) : Derives .whole u t := by
  obtain @⟨before, after, finished, bars, current, halternatives, hlength, hbegun⟩ := h
  cases current with
  | some f => exact .alternation (halternatives.join hlength (.sequence hbegun.sequence) hclose)
  | none =>
      cases hbegun
      cases halternatives with
      | nil =>
          cases hclose
          exact .nothing
      | @bar _ _ rest r _ _ =>
          -- The group ends with a bar, for which there is nothing on the right.
          have hle : bars.length ≤ rest.length := length_le_of_join hclose
          rw [hlength] at hle
          exact absurd hle (Nat.not_succ_le_self _)

theorem Group.Overrun.close_ne_ok (h : g.Overrun) : g.close ≠ .ok t := by
  intro hclose
  obtain ⟨finished, bars, current⟩ := g
  have hlt := h.lt_length_bars
  cases current with
  | some f => exact Nat.not_lt.2 (length_le_of_join hclose) hlt
  | none =>
      cases finished with
      | nil => exact h.finished_ne_nil rfl rfl
      | cons r rest => exact Nat.not_lt.2 (length_le_of_join hclose) (Nat.lt_of_succ_lt hlt)

/-! ## Open groups -/

inductive Around : List (Nat × Group) → List Char → Prop
  | nil : Around [] []
  | bracket {enclosing : List (Nat × Group)} {u v : List Char} {g : Group} {k : Nat} :
    Around enclosing u → g.Shows v → Around ((k, g) :: enclosing) (u ++ (v ++ ['(']))

/-- `s.Shows u` says that the text `u` was read up to the state `s`. -/
inductive State.Shows : State → List Char → Prop
  | intro {u v : List Char} {enclosing : List (Nat × Group)} {g : Group} :
    Around enclosing u → g.Shows v → State.Shows ⟨g, enclosing⟩ (u ++ v)

def State.Overrun (s : State) : Prop := s.group.Overrun ∨ ∃ e ∈ s.enclosing, e.2.Overrun

theorem State.read_cases (h : s.read k c = .ok s') :
    (c = '(' ∧ s' = ⟨.empty, (k, s.group) :: s.enclosing⟩) ∨
      (c = ')' ∧ ∃ r e rest,
        s.group.close = .ok r ∧ s.enclosing = e :: rest ∧ s' = ⟨e.2.factor r, rest⟩) ∨
      (c = '*' ∧ ∃ g, s.group.star k = .ok g ∧ s' = { s with group := g }) ∨
      (c = '|' ∧ ∃ g, s.group.bar k = .ok g ∧ s' = { s with group := g }) ∨
      ∃ r, Derives .atom [c] r ∧ s' = { s with group := s.group.factor r } := by
  unfold read at h
  split at h
  · cases h
    exact .inl ⟨rfl, rfl⟩
  · obtain ⟨r, hr, h⟩ := bind_eq_ok_iff.1 h
    split at h
    · cases h
    · rename_i place outer rest henclosing
      cases h
      exact .inr (.inl ⟨rfl, r, (place, outer), rest, hr, henclosing, rfl⟩)
  · obtain ⟨g, hg, h⟩ := bind_eq_ok_iff.1 h
    cases h
    exact .inr (.inr (.inl ⟨rfl, g, hg, rfl⟩))
  · obtain ⟨g, hg, h⟩ := bind_eq_ok_iff.1 h
    cases h
    exact .inr (.inr (.inr (.inl ⟨rfl, g, hg, rfl⟩)))
  · cases h
    exact .inr (.inr (.inr (.inr ⟨_, .emptySet, rfl⟩)))
  · cases h
    exact .inr (.inr (.inr (.inr ⟨_, .emptyWord, rfl⟩)))
  · rename_i hopen hshut hstar hbar hset hword
    cases h
    refine .inr (.inr (.inr (.inr ⟨_, .char ?_, rfl⟩)))
    simp only [Symbol.isInput, Bool.not_eq_true', Bool.or_eq_false_iff, beq_eq_false_iff_ne]
    exact ⟨⟨⟨⟨⟨hopen, hshut⟩, hstar⟩, hbar⟩, hword⟩, hset⟩

theorem State.Shows.read (h : s.Shows u) (hread : s.read k c = .ok s') :
    s'.Shows (u ++ [c]) ∨ s'.Overrun := by
  obtain @⟨before, after, enclosing, g, haround, hg⟩ := h
  rw [List.append_assoc]
  rcases State.read_cases hread with ⟨rfl, rfl⟩ | ⟨rfl, r, e, rest, hclose, henclosing, rfl⟩ |
    ⟨rfl, g', hstar, rfl⟩ | ⟨rfl, g', hbar, rfl⟩ | ⟨r, hr, rfl⟩
  · left
    have hshows := State.Shows.intro (haround.bracket (k := k) hg) Group.shows_empty
    rwa [List.append_nil] at hshows
  · left
    cases (henclosing : enclosing = _)
    cases haround with
    | bracket haround houter =>
        have hshows := State.Shows.intro haround (houter.factor (.atom (hg.close hclose).bracket))
        rw [List.append_assoc, List.append_assoc]
        exact hshows
  · rcases hg.star hstar with hg' | hover
    · exact .inl (.intro haround hg')
    · exact .inr (.inl hover)
  · rcases hg.bar hbar with hg' | hover
    · exact .inl (.intro haround hg')
    · exact .inr (.inl hover)
  · exact .inl (.intro haround (hg.factor (.atom hr)))

theorem State.Overrun.read (h : s.Overrun) (hread : s.read k c = .ok s') : s'.Overrun := by
  rcases State.read_cases hread with ⟨rfl, rfl⟩ | ⟨rfl, r, e, rest, hclose, henclosing, rfl⟩ |
    ⟨rfl, g', hstar, rfl⟩ | ⟨rfl, g', hbar, rfl⟩ | ⟨r, hr, rfl⟩
  · rcases h with h | ⟨e, he, h⟩
    · exact .inr ⟨_, List.mem_cons_self, h⟩
    · exact .inr ⟨e, List.mem_cons_of_mem _ he, h⟩
  · -- The group that is closed was not the overrun one, which is then still open.
    rcases h with h | ⟨d, hd, h⟩
    · exact absurd hclose h.close_ne_ok
    · rw [henclosing] at hd
      rcases List.mem_cons.1 hd with rfl | hd
      · exact .inl (h.factor r)
      · exact .inr ⟨d, hd, h⟩
  · exact h.imp_left fun h => h.star hstar
  · exact h.imp_left fun h => h.bar hbar
  · exact h.imp_left fun h => h.factor r

theorem State.Shows.finish (h : s.Shows u) (hfinish : s.finish = .ok t) : Derives .whole u t := by
  obtain @⟨before, after, enclosing, g, haround, hg⟩ := h
  obtain ⟨r, hclose, hr⟩ := bind_eq_ok_iff.1 hfinish
  cases haround with
  | nil =>
      cases hr
      exact hg.close hclose
  | bracket _ _ => cases hr

theorem State.Overrun.finish_ne_ok (h : s.Overrun) : s.finish ≠ .ok t := by
  intro hfinish
  obtain ⟨r, hclose, hr⟩ := bind_eq_ok_iff.1 hfinish
  rcases h with h | ⟨e, he, -⟩
  · exact h.close_ne_ok hclose
  · split at hr
    · rename_i henclosing
      rw [henclosing] at he
      exact List.not_mem_nil he
    · cases hr

theorem State.Overrun.readFrom_ne_ok (h : s.Overrun) {cs : List Char} :
    s.readFrom k cs ≠ .ok t := by
  intro hread
  induction cs generalizing s k with
  | nil => exact h.finish_ne_ok hread
  | cons c cs ih =>
      obtain ⟨s', hs', hread⟩ := bind_eq_ok_iff.1 hread
      exact ih (h.read hs') hread

/-- The text that was read and the text that follows are derived together. -/
theorem State.Shows.readFrom (h : s.Shows u) {cs : List Char} (hread : s.readFrom k cs = .ok t) :
    Derives .whole (u ++ cs) t := by
  induction cs generalizing s k u with
  | nil =>
      rw [List.append_nil]
      exact h.finish hread
  | cons c cs ih =>
      obtain ⟨s', hs', hread⟩ := bind_eq_ok_iff.1 hread
      -- A text that is read to its end never has an overrun group.
      rcases h.read hs' with h' | hover
      · rw [← List.singleton_append, ← List.append_assoc]
        exact ih h' hread
      · exact absurd hread hover.readFrom_ne_ok

end Reader

/-! ## The reader and the grammar -/

open Reader

theorem parse_of_derives {text : String} (h : Derives .whole text.toList t) :
    parse text = .ok t := by
  obtain ⟨g, hclose, hreads⟩ := understood_of_derives h
  have hread := hreads [] []
  rw [List.append_nil] at hread
  rw [parse, State.initial, hread]
  exact bind_eq_ok_iff.2 ⟨t, hclose, rfl⟩

theorem derives_of_parse {text : String} (h : parse text = .ok t) :
    Derives .whole text.toList t := by
  have hinitial : State.initial.Shows [] := .intro .nil Group.shows_empty
  exact hinitial.readFrom h

theorem Derives.unique (hl : Derives .whole u l) (hr : Derives .whole u r) : l = r := by
  rw [← String.toList_ofList (l := u)] at hl hr
  have heq := (parse_of_derives hl).symm.trans (parse_of_derives hr)
  cases heq
  rfl

/-- The reader gives the trees of the grammar, and fails on all texts that are not in it. -/
theorem parse_iff_derives (text : String) :
    (∀ t, parse text = .ok t ↔ Derives .whole text.toList t) ∧
      ((∃ e, parse text = .error e) ↔ ¬ ∃ t, Derives .whole text.toList t) := by
  refine ⟨fun t => ⟨derives_of_parse, parse_of_derives⟩, ?_⟩
  constructor
  · rintro ⟨e, he⟩ ⟨t, ht⟩
    rw [parse_of_derives ht] at he
    cases he
  · intro hnone
    cases hparse : parse text with
    | error e => exact ⟨e, rfl⟩
    | ok t => exact absurd ⟨t, derives_of_parse hparse⟩ hnone

/-- The star takes hold of the alternative before the bar, which then has nothing on its left. -/
example : parse "a|*b" = .error (.lacksOperand '|' 1) := by decide +kernel

end RegularLanguages.Regex
