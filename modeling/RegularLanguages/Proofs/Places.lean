import Mathlib.Data.List.Basic
import Mathlib.Data.List.Nodup
import Mathlib.Data.Set.Function
import Mathlib.Order.Interval.Set.Defs
import RegularLanguages.Index

/-!
# Places in a list

States that are listed are known by their places from then on. If a list is in order, so are the
places in it (`idxOf_lt_idxOf_iff`), and if it lists nothing twice, the places tell its values
apart.
-/

namespace RegularLanguages

theorem idxOf_lt_idxOf_iff {α : Type} [DecidableEq α] {r : α → α → Prop} [Std.Asymm r] {l : List α}
    (hl : l.Pairwise r) {x y : α} (hx : x ∈ l) (hy : y ∈ l) : l.idxOf x < l.idxOf y ↔ r x y := by
  have hxlt := List.idxOf_lt_length_of_mem hx
  have hylt := List.idxOf_lt_length_of_mem hy
  have hpairs := List.pairwise_iff_getElem.1 hl
  have hxy := hpairs _ _ hxlt hylt
  have hyx := hpairs _ _ hylt hxlt
  rw [List.getElem_idxOf, List.getElem_idxOf] at hxy hyx
  constructor
  · exact hxy
  · intro h
    by_contra hle
    rcases Nat.lt_or_eq_of_le (Nat.not_lt.1 hle) with hback | heq
    · exact asymm h (hyx hback)
    · rw [(List.idxOf_inj hy).1 heq] at h
      exact asymm h h

theorem map_idxOf {l : List Nat} (hl : l.Nodup) :
    l.map (fun q => l.idxOf q) = List.range l.length := by
  apply List.ext_getElem
  · simp
  · intro i hi _
    simp [hl.idxOf_getElem i (by simpa using hi)]

/-- The places of a list without repetition are the numbers below its length, one for each value. -/
theorem bijOn_idxOf {α : Type} [DecidableEq α] {l : List α} (hl : l.Nodup) :
    Set.BijOn (fun x => l.idxOf x) {x | x ∈ l} (Set.Iio l.length) := by
  refine ⟨fun x hx => ?_, fun x hx y _ h => ?_, fun i hi => ?_⟩
  · exact List.idxOf_lt_length_of_mem hx
  · exact (List.idxOf_inj hx).1 h
  · exact ⟨l[i], List.getElem_mem hi, hl.idxOf_getElem i hi⟩

namespace Index

variable {κ : Type} [Key κ] {l : List κ} {x y : κ}

theorem place_lt_length (hx : x ∈ l) : (ofList l).place x < l.length := by
  classical
  rw [place_ofList]
  exact List.idxOf_lt_length_iff.2 hx

theorem place_inj (hx : x ∈ l) (h : (ofList l).place x = (ofList l).place y) : x = y := by
  classical
  rw [place_ofList, place_ofList] at h
  exact (List.idxOf_inj hx).1 h

theorem place?_eq_some_place (hx : x ∈ l) : (ofList l).place? x = some ((ofList l).place x) := by
  classical
  have hsome : ((ofList l).place? x).isSome = true := by
    rw [place?_ofList, List.isSome_idxOf?]
    exact hx
  obtain ⟨i, hi⟩ := Option.isSome_iff_exists.1 hsome
  rw [place, hi]
  rfl

theorem place?_eq_some_iff (hl : l.Nodup) {j : Nat} :
    (ofList l).place? x = some j ↔ l[j]? = some x := by
  classical
  rw [place?_ofList, List.idxOf?_eq_some_iff]
  constructor
  · rintro ⟨hj, hx, -⟩
    rw [List.getElem?_eq_getElem hj, hx]
  · intro hx
    obtain ⟨hj, rfl⟩ := List.getElem?_eq_some_iff.1 hx
    refine ⟨hj, rfl, fun k hk heq => ?_⟩
    have := (List.Nodup.getElem_inj_iff hl).1 heq
    omega

theorem place_lt_place_iff {r : κ → κ → Prop} [Std.Asymm r] (hl : l.Pairwise r) (hx : x ∈ l)
    (hy : y ∈ l) :
    (ofList l).place x < (ofList l).place y ↔ r x y := by
  classical
  rw [place_ofList, place_ofList]
  exact idxOf_lt_idxOf_iff hl hx hy

theorem getElem?_place (hl : l.Nodup) (hx : x ∈ l) : l[(ofList l).place x]? = some x :=
  (place?_eq_some_iff hl).1 (place?_eq_some_place hx)

theorem bijOn_place (hl : l.Nodup) : Set.BijOn (ofList l).place {x | x ∈ l} (Set.Iio l.length) := by
  classical
  rw [funext (place_ofList l)]
  exact bijOn_idxOf hl

theorem place_range {k q : Nat} (hq : q < k) : (ofList (List.range k)).place q = q := by
  have hplace := (place?_eq_some_iff List.nodup_range).2 (List.getElem?_range hq)
  rw [place, hplace]
  rfl

end Index

end RegularLanguages
