import Mathlib.Tactic.IntervalCases
import RegularLanguages.Json.Printer
import RegularLanguages.Json.Reader

/-!
# What is written is read back

A value that is made of strings, arrays and objects is read from the text that is written for it, in
either layout and whatever follows it. `Json.ReadsBack` says so of one value, and is passed on from
items to arrays (`ReadsBack.array`) and from fields to objects (`ReadsBack.object`).
-/

namespace RegularLanguages.Json

/-! ## Strings -/

theorem unit?_hexDigit {k : Nat} (hk : k < 32) :
    unit? '0' '0' (hexDigit (k / 16)) (hexDigit (k % 16)) = some (.unit k) := by
  interval_cases k <;> rfl

def pieceOf (c : Char) : Piece :=
  if c.toNat < 32 ∧ c ≠ '\x08' ∧ c ≠ '\x0c' ∧ c ≠ '\n' ∧ c ≠ '\r' ∧ c ≠ '\t' then .unit c.toNat
  else .char c

theorem pieces_backslash {e c : Char} (h : unescape? e = some c) (rest : List Char) :
    pieces ('\\' :: e :: rest) = (pieces rest).map fun (ps, rest) => (.char c :: ps, rest) := by
  have hu : e ≠ 'u' := by
    rintro rfl
    cases h
  rw [pieces.eq_def]
  cases hrest : pieces rest <;> simp_all

theorem pieces_escape (c : Char) (rest : List Char) :
    pieces (escape c ++ rest) = (pieces rest).map fun (ps, rest) => (pieceOf c :: ps, rest) := by
  unfold escape
  split
  · exact pieces_backslash rfl rest
  · exact pieces_backslash rfl rest
  · exact pieces_backslash rfl rest
  · exact pieces_backslash rfl rest
  · exact pieces_backslash rfl rest
  · exact pieces_backslash rfl rest
  · exact pieces_backslash rfl rest
  · rename_i hquote hslash hb hf hn hr ht
    split
    · rename_i hlt
      have hpiece : pieceOf c = .unit c.toNat := if_pos ⟨hlt, hb, hf, hn, hr, ht⟩
      cases h : pieces rest <;> simp [pieces, unit?_hexDigit hlt, hpiece, h]
    · rename_i hge
      have hpiece : pieceOf c = .char c := if_neg fun hc => hge hc.1
      rw [hpiece, List.singleton_append, pieces.eq_def]
      cases h : pieces rest <;> simp_all

theorem pieces_flatMap_escape (cs rest : List Char) :
    pieces (cs.flatMap escape ++ '"' :: rest) = some (cs.map pieceOf, rest) := by
  induction cs with
  | nil => simp [pieces]
  | cons c cs ih =>
      rw [List.flatMap_cons, List.append_assoc, pieces_escape, ih]
      rfl

theorem joinPieces_map_pieceOf (cs : List Char) : joinPieces (cs.map pieceOf) = some cs := by
  induction cs with
  | nil => rfl
  | cons c cs ih =>
      rw [List.map_cons]
      by_cases h : c.toNat < 32 ∧ c ≠ '\x08' ∧ c ≠ '\x0c' ∧ c ≠ '\n' ∧ c ≠ '\r' ∧ c ≠ '\t'
      · have hpiece : pieceOf c = .unit c.toNat := if_pos h
        have hlow : c.toNat < 0xD800 := by omega
        rw [hpiece, joinPieces.eq_def]
        dsimp only
        rw [if_pos (.inl hlow), ih, Option.map_some, Char.ofNat_toNat]
      · have hpiece : pieceOf c = .char c := if_neg h
        rw [hpiece, joinPieces, ih, Option.map_some]

theorem pieceText?_map_pieceOf (s : String) : pieceText? (s.toList.map pieceOf) = some s := by
  rw [pieceText?, joinPieces_map_pieceOf, Option.map_some, String.ofList_toList]

/-! ## Blanks -/

/-- Characters that the reader skips between tokens. -/
def Blank (cs : List Char) : Prop := ∀ c ∈ cs, c = ' ' ∨ c = '\n' ∨ c = '\t' ∨ c = '\r'

theorem blank_nil : Blank [] := List.forall_mem_nil _

/-- A text that does not begin with such a character, whatever follows it. -/
def Solid (text : List Char) : Prop := ∀ rest, skipBlank (text ++ rest) = text ++ rest

theorem skipBlank_append {blanks : List Char} (h : Blank blanks) (cs : List Char) :
    skipBlank (blanks ++ cs) = skipBlank cs := by
  induction blanks with
  | nil => rfl
  | cons b blanks ih =>
      have hskip : skipBlank (b :: (blanks ++ cs)) = skipBlank (blanks ++ cs) := by
        unfold skipBlank
        rw [List.dropWhile_cons_of_pos]
        simpa [or_assoc] using h b List.mem_cons_self
      rw [List.cons_append, hskip]
      exact ih fun c hc => h c (List.mem_cons_of_mem b hc)

theorem Solid.append {text : List Char} (h : Solid text) (more : List Char) :
    Solid (text ++ more) := by
  intro rest
  rw [List.append_assoc]
  exact h (more ++ rest)

theorem blank_breakFor (level : Option Nat) : Blank (chars.breakFor level) := by
  intro c hc
  cases level with
  | none => exact absurd hc List.not_mem_nil
  | some level =>
      rcases List.mem_cons.1 hc with rfl | hc
      · exact .inr (.inl rfl)
      · exact .inl (List.eq_of_mem_replicate hc)

/-! ## Lists between brackets -/

section Lists

variable {α β : Type} {one : Nat → List Char → Option (β × List Char)}
  {many : Nat → List Char → Option (List β × List Char)} {closing : Char}

/-- `Reads one text v` says that `v` is read from any text that begins with the given one, as long
as the bound on the depth is twice its length. -/
def Reads (one : Nat → List Char → Option (β × List Char)) (text : List Char) (v : β) : Prop :=
  ∀ fuel rest, 2 * text.length ≤ fuel → one fuel (text ++ rest) = some (v, rest)

/-- A reader of many things reads one, and then either the closing bracket or a comma and more. -/
structure ReadsMany (one : Nat → List Char → Option (β × List Char))
    (many : Nat → List Char → Option (List β × List Char)) (closing : Char) : Prop where
  solid : Solid [closing]
  close : ∀ {fuel cs v rest rest'}, one fuel cs = some (v, rest) →
    skipBlank rest = closing :: rest' → many (fuel + 1) cs = some ([v], rest')
  comma : ∀ {fuel cs v vs rest rest' rest''}, one fuel cs = some (v, rest) →
    skipBlank rest = ',' :: rest' → many fuel (skipBlank rest') = some (vs, rest'') →
      many (fuel + 1) cs = some (v :: vs, rest'')

theorem exists_intercalate_cons (separator x : List Char) (xs : List (List Char)) :
    ∃ more, separator.intercalate (x :: xs) = x ++ more := by
  cases xs with
  | nil => exact ⟨[], by simp⟩
  | cons y ys =>
      rw [List.intercalate_cons_cons, List.append_assoc]
      exact ⟨_, rfl⟩

theorem Solid.intercalate {separator : List Char} {text : α → List Char} {xs : List α}
    (hne : xs ≠ [])
    (hsolid : ∀ x ∈ xs, Solid (text x)) : Solid ((',' :: separator).intercalate (xs.map text)) := by
  cases xs with
  | nil => exact absurd rfl hne
  | cons x xs =>
      obtain ⟨more, hmore⟩ := exists_intercalate_cons (',' :: separator) (text x) (xs.map text)
      rw [List.map_cons, hmore]
      exact (hsolid x List.mem_cons_self).append more

theorem ReadsMany.intercalate (h : ReadsMany one many closing) {separator last : List Char}
    (hseparator : Blank separator) (hlast : Blank last) {text : α → List Char} {out : α → β}
    {xs : List α} (hne : xs ≠ []) (hsolid : ∀ x ∈ xs, Solid (text x))
    (hreads : ∀ x ∈ xs, Reads one (text x) (out x)) (fuel : Nat) (rest : List Char)
    (hfuel : 2 * ((',' :: separator).intercalate (xs.map text)).length < fuel) :
    many fuel ((',' :: separator).intercalate (xs.map text) ++ (last ++ closing :: rest)) =
      some (xs.map out, rest) := by
  induction xs generalizing fuel with
  | nil => exact absurd rfl hne
  | cons x xs ih =>
      obtain ⟨fuel, rfl⟩ : ∃ k, fuel = k + 1 := ⟨fuel - 1, by omega⟩
      have hx := hreads x List.mem_cons_self
      cases xs with
      | nil =>
          rw [List.map_singleton, List.intercalate_singleton] at *
          apply h.close (hx fuel _ (by omega))
          rw [skipBlank_append hlast]
          exact h.solid rest
      | cons y ys =>
          have hlen : ((',' :: separator).intercalate ((x :: y :: ys).map text)).length =
              (text x).length + (separator.length + 1) +
                ((',' :: separator).intercalate ((y :: ys).map text)).length := by
            simp only [List.map_cons, List.intercalate_cons_cons, List.length_append,
              List.length_cons]
          have happend : ∀ cs, (',' :: separator).intercalate ((x :: y :: ys).map text) ++ cs =
              text x ++ (',' :: (separator ++
                ((',' :: separator).intercalate ((y :: ys).map text) ++ cs))) := by
            intro cs
            simp [List.intercalate_cons_cons]
          rw [happend]
          refine h.comma (hx fuel _ (by omega)) rfl ?_
          have htail := fun z hz => hsolid z (List.mem_cons_of_mem x hz)
          rw [skipBlank_append hseparator, Solid.intercalate (List.cons_ne_nil y ys) htail]
          apply ih (List.cons_ne_nil y ys) htail (fun z hz => hreads z (List.mem_cons_of_mem x hz))
          omega

theorem exists_enclose (opening closing : Char) (separator last : List Char)
    (xs : List (List Char)) :
    ∃ cs, enclose opening closing separator last xs = opening :: cs := by
  cases xs with
  | nil => exact ⟨_, rfl⟩
  | cons x xs => exact ⟨_, rfl⟩

theorem enclose_of_ne_nil (opening closing : Char) (separator last : List Char)
    {xs : List (List Char)} (h : xs ≠ []) (rest : List Char) :
    enclose opening closing separator last xs ++ rest =
      opening :: (separator ++ ((',' :: separator).intercalate xs ++
        (last ++ closing :: rest))) := by
  cases xs with
  | nil => exact absurd rfl h
  | cons x xs => simp [enclose]

theorem ReadsMany.enclose (h : ReadsMany one many closing) (opening : Char)
    {separator last : List Char}
    (hseparator : Blank separator) (hlast : Blank last) {text : α → List Char} {out : α → β} {x : α}
    {xs : List α} (hsolid : ∀ y ∈ x :: xs, Solid (text y))
    (hreads : ∀ y ∈ x :: xs, Reads one (text y) (out y)) {fuel : Nat} (rest : List Char)
    (hfuel : 2 * (Json.enclose opening closing separator last ((x :: xs).map text)).length ≤ fuel) :
    ∃ k cs more, fuel = k + 1 ∧
      Json.enclose opening closing separator last ((x :: xs).map text) ++ rest = opening :: cs ∧
        skipBlank cs = text x ++ more ∧ many k (skipBlank cs) = some ((x :: xs).map out, rest) := by
  have hne := List.cons_ne_nil x xs
  have henclose :=
    enclose_of_ne_nil opening closing separator last (List.cons_ne_nil (text x) (xs.map text))
  have hlen := congrArg List.length (henclose [])
  simp only [List.append_nil, List.length_cons, List.length_append] at hlen
  rw [List.map_cons] at hfuel
  have hskip : skipBlank (separator ++ ((',' :: separator).intercalate ((x :: xs).map text) ++
      (last ++ closing :: rest))) =
        (',' :: separator).intercalate ((x :: xs).map text) ++ (last ++ closing :: rest) := by
    rw [skipBlank_append hseparator]
    exact Solid.intercalate hne hsolid _
  obtain ⟨more, hmore⟩ := exists_intercalate_cons (',' :: separator) (text x) (xs.map text)
  refine ⟨fuel - 1, _, more ++ (last ++ closing :: rest), by omega, henclose rest, ?_, ?_⟩
  · exact hskip.trans (by rw [List.map_cons, hmore, List.append_assoc])
  · refine (congrArg (many (fuel - 1)) hskip).trans ?_
    apply h.intercalate hseparator hlast hne hsolid hreads
    rw [List.map_cons]
    omega

end Lists

/-! ## Values -/

def member (fuel : Nat) (cs : List Char) : Option ((Option String × Json) × List Char) :=
  match cs with
  | '"' :: rest => do
    let (name, rest) ← pieces rest
    match skipBlank rest with
    | ':' :: rest =>
      let (v, rest) ← value fuel (skipBlank rest)
      some ((pieceText? name, v), rest)
    | _ => none
  | _ => none

theorem readsMany_items : ReadsMany value items ']' where
  solid _ := rfl
  close hv hrest := by
    rw [items, hv]
    simp [hrest]
  comma hv hrest hvs := by
    rw [items, hv]
    simp [hrest, hvs]

theorem exists_of_member_eq_some {fuel : Nat} {cs rest : List Char} {m : Option String × Json}
    (h : member fuel cs = some (m, rest)) :
    ∃ cs' name left after v, cs = '"' :: cs' ∧ pieces cs' = some (name, left) ∧
      skipBlank left = ':' :: after ∧ value fuel (skipBlank after) = some (v, rest) ∧
      m = (pieceText? name, v) := by
  unfold member at h
  split at h
  · rename_i cs'
    obtain ⟨⟨name, left⟩, hname, h⟩ := Option.bind_eq_some_iff.1 h
    dsimp only at h
    split at h
    · rename_i after hafter
      obtain ⟨⟨v, rest'⟩, hv, heq⟩ := Option.bind_eq_some_iff.1 h
      cases heq
      exact ⟨cs', name, left, after, v, rfl, hname, hafter, hv, rfl⟩
    · cases h
  · cases h

theorem readsMany_members : ReadsMany member members '\x7d' where
  solid _ := rfl
  close hv hrest := by
    obtain ⟨cs', name, left, after, v, rfl, hname, hafter, hvalue, rfl⟩ :=
      exists_of_member_eq_some hv
    rw [members, hname]
    simp [hafter, hvalue, hrest]
  comma hv hrest hvs := by
    obtain ⟨cs', name, left, after, v, rfl, hname, hafter, hvalue, rfl⟩ :=
      exists_of_member_eq_some hv
    rw [members, hname]
    simp [hafter, hvalue, hrest, hvs]

/-- The text of a value, in either layout, is read as the value. It begins with a quote or a
bracket. -/
structure ReadsBack (j : Json) : Prop where
  begins : ∀ level, ∃ c cs, chars level j = c :: cs ∧ (c = '"' ∨ c = '[' ∨ c = '\x7b')
  reads : ∀ level, Reads value (chars level j) j

theorem ReadsBack.solid {j : Json} (h : ReadsBack j) (level : Option Nat) :
    Solid (chars level j) := by
  intro rest
  obtain ⟨c, cs, hcs, rfl | rfl | rfl⟩ := h.begins level <;>
    rw [hcs] <;> rfl

theorem ReadsBack.ne_closing {j : Json} (h : ReadsBack j) (level : Option Nat)
    (rest rest' : List Char) :
    chars level j ++ rest ≠ ']' :: rest' := by
  intro heq
  obtain ⟨c, cs, hcs, hc⟩ := h.begins level
  rw [hcs, List.cons_append, List.cons.injEq] at heq
  rw [heq.1] at hc
  revert hc
  decide

theorem pieces_quote (s : String) (rest : List Char) :
    ∃ cs, quote s ++ rest = '"' :: cs ∧ pieces cs = some (s.toList.map pieceOf, rest) := by
  refine ⟨s.toList.flatMap escape ++ '"' :: rest, ?_, pieces_flatMap_escape s.toList rest⟩
  simp [quote]

theorem ReadsBack.string (s : String) : ReadsBack (.string s) where
  begins level := ⟨'"', _, by rw [chars, quote]; rfl, .inl rfl⟩
  reads level fuel rest hfuel := by
    rw [chars] at *
    obtain ⟨fuel, rfl⟩ : ∃ k, fuel = k + 1 := ⟨fuel - 1, by simp [quote] at hfuel; omega⟩
    obtain ⟨cs, hcs, hpieces⟩ := pieces_quote s rest
    rw [hcs, value, hpieces, Option.map_some]
    dsimp only
    rw [pieceText?_map_pieceOf]
    rfl

theorem chars_array (level : Option Nat) (js : List Json) :
    chars level (.array js) = enclose '[' ']' (chars.breakFor (level.map (· + 1)))
      (chars.breakFor level) (js.map (chars (level.map (· + 1)))) := by
  have hitems : ∀ level, itemsChars level js = js.map (chars level) := by
    intro level
    induction js with
    | nil => rfl
    | cons j js ih => rw [itemsChars, ih, List.map_cons]
  rw [chars, hitems]

def fieldChars (level : Option Nat) (field : String × Json) : List Char :=
  quote field.1 ++ ((if level.isSome then [':', ' '] else [':']) ++ chars level field.2)

theorem chars_object (level : Option Nat) (fields : List (String × Json)) :
    chars level (.object fields) =
      enclose '\x7b' '\x7d' (chars.breakFor (level.map (· + 1))) (chars.breakFor level)
        (fields.map (fieldChars (level.map (· + 1)))) := by
  have hfields : ∀ level, fieldsChars level fields = fields.map (fieldChars level) := by
    intro level
    induction fields with
    | nil => rfl
    | cons field fields ih => rw [fieldsChars, ih, List.map_cons, fieldChars, List.append_assoc]
  rw [chars, hfields]

theorem ReadsBack.array {js : List Json} (hjs : ∀ j ∈ js, ReadsBack j) : ReadsBack (.array js) where
  begins level := by
    rw [chars_array]
    obtain ⟨cs, hcs⟩ := exists_enclose '[' ']' _ _ _
    exact ⟨_, _, hcs, .inr (.inl rfl)⟩
  reads level fuel rest hfuel := by
    rw [chars_array] at *
    generalize level.map (· + 1) = inner at *
    cases js with
    | nil =>
        obtain ⟨fuel, rfl⟩ : ∃ k, fuel = k + 1 := ⟨fuel - 1, by simp [enclose] at hfuel; omega⟩
        rfl
    | cons j js =>
        obtain ⟨k, cs, more, rfl, hcs, hmore, hitems⟩ :=
          readsMany_items.enclose '[' (blank_breakFor inner) (blank_breakFor level)
            (fun x hx => (hjs x hx).solid inner) (fun x hx => (hjs x hx).reads inner) rest hfuel
        rw [hcs, value]
        split
        · rename_i heq
          rw [hmore] at heq
          exact absurd heq ((hjs j List.mem_cons_self).ne_closing inner _ _)
        · rw [hitems, List.map_id']
          rfl

theorem solid_quote (s : String) (more : List Char) : Solid (quote s ++ more) := by
  intro rest
  rw [quote]
  rfl

theorem reads_member {field : String × Json} (h : ReadsBack field.2) (level : Option Nat) :
    Reads member (fieldChars level field) (some field.1, field.2) := by
  intro fuel rest hfuel
  have hlen : (chars level field.2).length ≤ (fieldChars level field).length := by
    rw [fieldChars, List.length_append, List.length_append]
    omega
  obtain ⟨cs, hcs, hpieces⟩ := pieces_quote field.1
    ((if level.isSome then [':', ' '] else [':']) ++ (chars level field.2 ++ rest))
  have hcolon : ∃ cs, skipBlank ((if level.isSome then [':', ' '] else [':']) ++
      (chars level field.2 ++ rest)) = ':' :: cs ∧ skipBlank cs = chars level field.2 ++ rest := by
    cases level with
    | none => exact ⟨_, rfl, h.solid _ rest⟩
    | some level => exact ⟨' ' :: (chars (some level) field.2 ++ rest), rfl, h.solid _ rest⟩
  obtain ⟨cs', hcs', hskip⟩ := hcolon
  have hvalue := h.reads level fuel rest (by omega)
  rw [fieldChars, List.append_assoc, List.append_assoc, hcs, member]
  simp [hpieces, hcs', hskip, hvalue, pieceText?_map_pieceOf]

theorem ofMembers_map (fields : List (String × Json)) :
    ofMembers (fields.map fun f => (some f.1, f.2)) = .object fields := by
  have hmapM : (fields.map fun f => (some f.1, f.2)).mapM (fun f =>
      f.1.map fun name => ((name : String), (f.2 : Json))) = some fields := by
    induction fields with
    | nil => rfl
    | cons f fields ih => simp [ih]
  rw [ofMembers, hmapM]

theorem ReadsBack.object {fields : List (String × Json)} (hfields : ∀ f ∈ fields, ReadsBack f.2) :
    ReadsBack (.object fields) where
  begins level := by
    rw [chars_object]
    obtain ⟨cs, hcs⟩ := exists_enclose '\x7b' '\x7d' _ _ _
    exact ⟨_, _, hcs, .inr (.inr rfl)⟩
  reads level fuel rest hfuel := by
    rw [chars_object] at *
    generalize level.map (· + 1) = inner at *
    cases fields with
    | nil =>
        obtain ⟨fuel, rfl⟩ : ∃ k, fuel = k + 1 := ⟨fuel - 1, by simp [enclose] at hfuel; omega⟩
        rfl
    | cons f fields =>
        obtain ⟨k, cs, more, rfl, hcs, hmore, hmembers⟩ :=
          readsMany_members.enclose '\x7b' (blank_breakFor inner) (blank_breakFor level)
            (fun x hx => solid_quote x.1 _) (fun x hx => reads_member (hfields x hx) inner)
            rest hfuel
        rw [hcs, value]
        split
        · rename_i heq
          rw [hmore, fieldChars, quote] at heq
          cases heq
        · rw [hmembers, Option.map_some]
          dsimp only
          rw [ofMembers_map]

/-! ## Texts -/

/-- A text in either layout is read as the value, with or without blanks after it. -/
theorem ReadsBack.parse?_chars {j : Json} (h : ReadsBack j) (level : Option Nat)
    {blanks : List Char}
    (hblanks : Blank blanks) : parse? (String.ofList (chars level j ++ blanks)) = some j := by
  have hfuel : 2 * (chars level j).length ≤
      2 * ((String.ofList (chars level j ++ blanks)).length + 1) := by
    rw [String.length_ofList, List.length_append]
    omega
  have hrest : skipBlank blanks = [] := by
    have happend := skipBlank_append hblanks []
    rwa [List.append_nil] at happend
  rw [parse?, String.toList_ofList, h.solid, h.reads level _ blanks hfuel]
  simp [hrest]

end RegularLanguages.Json
