import Mathlib.Data.List.Sort
import Mathlib.Data.Prod.Lex
import RegularLanguages.Proofs.BreadthFirst

/-!
# Searches through renamed nodes

A search that finds every node visits them by their least words, so the words that lead to the
nodes fix the visits (`Enumerates.unique`). If the nodes are renamed and the words to each node
stand in the same order after that, the search visits the renamed nodes in the same order
(`Enumerates.rename`).

Edges of one label may lead from a node to many. What the search does then depends on the order of
the targets, and a word has to name them (`withTargets`). Such words change with the names of the
nodes. But if the new names stand in the order in which the search finds the nodes, the least words
stay the least (`Least.lt_retarget`).
-/

namespace RegularLanguages.Search

/-! ## Labels that are forgotten in part -/

section Relabel

variable {α σ τ : Type} {g : τ → σ}

def relabel (g : τ → σ) (v : Visit α τ) : Visit α σ :=
  ⟨v.node, v.trail.map g, v.edges.map fun e => (g e.1, e.2)⟩

variable [Key α] {next : α → List (σ × α)} {next' : α → List (τ × α)}

def relabelLayer (g : τ → σ) (l : Layer α τ) : Layer α σ := ⟨l.known, l.fresh.map (relabel g)⟩

theorem meet_relabel (hnext : ∀ x, next x = (next' x).map fun e => (g e.1, e.2)) (trail : List τ)
    (l : Layer α τ) (e : τ × α) :
    meet next (trail.map g) (relabelLayer g l) (g e.1, e.2) =
      relabelLayer g (meet next' trail l e) := by
  unfold meet relabelLayer
  by_cases hknown : l.known.contains e.2 = true
  · rw [if_pos hknown, if_pos hknown]
  · rw [if_neg hknown, if_neg hknown, List.map_cons, relabel, hnext, List.map_cons]

theorem foldl_meet_relabel (hnext : ∀ x, next x = (next' x).map fun e => (g e.1, e.2))
    (v : Visit α τ) (l : Layer α τ) :
    (relabel g v).edges.foldl (meet next (relabel g v).trail) (relabelLayer g l) =
      relabelLayer g (v.edges.foldl (meet next' v.trail) l) := by
  rw [relabel, List.foldl_map]
  exact List.foldl_hom (relabelLayer g) (meet_relabel hnext v.trail)

theorem layerAfter_relabel (hnext : ∀ x, next x = (next' x).map fun e => (g e.1, e.2))
    (known : KeySet α) (visits : List (Visit α τ)) :
    layerAfter next known (visits.map (relabel g)) =
      relabelLayer g (layerAfter next' known visits) := by
  have hvisits : ∀ l : Layer α τ,
      visits.foldl (fun l v => (relabel g v).edges.foldl (meet next (relabel g v).trail) l)
        (relabelLayer g l) =
        relabelLayer g (visits.foldl (fun l v => v.edges.foldl (meet next' v.trail) l) l) :=
    fun l => List.foldl_hom (relabelLayer g) fun l v => foldl_meet_relabel hnext v l
  unfold layerAfter
  rw [List.foldl_map]
  exact hvisits ⟨known, []⟩

theorem explore_relabel (hnext : ∀ x, next x = (next' x).map fun e => (g e.1, e.2))
    (stop : α → Bool) (fuel : Nat) (start : α) :
    explore next stop fuel start = (explore next' stop fuel start).map (relabel g) := by
  have hfrom : ∀ (known : KeySet α) (found layer : List (Visit α τ)),
      exploreFrom next stop fuel known (found.map (relabel g)) (layer.map (relabel g)) =
        (exploreFrom next' stop fuel known found layer).map (relabel g) := by
    induction fuel with
    | zero =>
        intro known found layer
        rw [exploreFrom, exploreFrom, List.map_reverse]
    | succ fuel ih =>
        intro known found layer
        have hany : (layer.map (relabel g)).any (fun v => stop v.node) =
            layer.any fun v => stop v.node := by
          rw [List.any_map]
          rfl
        rw [exploreFrom, exploreFrom, List.isEmpty_map, hany]
        by_cases hstop : (layer.isEmpty || layer.any fun v => stop v.node) = true
        · rw [if_pos hstop, if_pos hstop, List.map_reverse]
        · rw [if_neg hstop, if_neg hstop]
          simp only [layerAfter_relabel hnext, relabelLayer]
          rw [← List.map_reverse, ← List.map_append, ih]
  unfold explore
  rw [← hfrom, hnext]
  rfl

end Relabel

/-! ## One order of visits -/

section Unique

variable {α σ : Type} [LinearOrder σ] {next : α → List (σ × α)} {start : α}
  {visits visits' : List (Visit α σ)}

theorem Enumerates.exists_least (h : Enumerates next start visits) {w : List σ} {y : α}
    (hw : Spells next start w y) : ∃ u, Least next start y u := by
  obtain ⟨v, hv, rfl⟩ := h.covers w y hw
  exact ⟨v.word, h.least v hv⟩

theorem Enumerates.mem (h : Enumerates next start visits) (h' : Enumerates next start visits')
    {v : Visit α σ} (hv : v ∈ visits) : v ∈ visits' := by
  have hleast := h.least v hv
  obtain ⟨u, hu, hnode⟩ := h'.covers v.word v.node hleast.1
  have hword := h'.least u hu
  rw [hnode] at hword
  have htrail : u.trail = v.trail := List.reverse_inj.1 (hword.unique hleast)
  have hedges : u.edges = v.edges := by
    rw [h'.edges_eq u hu, h.edges_eq v hv, hnode]
  have heq : u = v := by
    cases u
    cases v
    simp only at hnode htrail hedges
    rw [hnode, htrail, hedges]
  exact heq ▸ hu

/-- The visits are fixed, as they stand by ascending words. -/
theorem Enumerates.unique (h : Enumerates next start visits) (h' : Enumerates next start visits') :
    visits = visits' := by
  have hantisymm : Std.Antisymm fun u v : Visit α σ => List.Shortlex (· < ·) u.word v.word :=
    ⟨fun u v huv hvu => absurd hvu (asymm huv)⟩
  have hirrefl : Std.Irrefl fun u v : Visit α σ => List.Shortlex (· < ·) u.word v.word :=
    ⟨fun u => shortlex_irrefl u.word⟩
  exact h.ascending.eq_of_mem_iff h'.ascending fun v => ⟨h.mem h', h'.mem h⟩

end Unique

/-! ## Renamed nodes -/

section Rename

variable {α β σ τ : Type} {inside : α → Prop} {g : σ → τ} {f : α → β} {next : α → List (σ × α)}
  {next' : β → List (τ × β)} {x y : α}

/-- The nodes of a part that no edge leaves are renamed by `f`, and the labels on its edges by
`g`. -/
structure Carries (inside : α → Prop) (g : σ → τ) (f : α → β) (next : α → List (σ × α))
    (next' : β → List (τ × β)) : Prop where
  closed : ∀ {x a y}, inside x → (a, y) ∈ next x → inside y
  inj : ∀ {x y}, inside x → inside y → f x = f y → x = y
  mem_iff : ∀ {x b z}, inside x →
    ((b, z) ∈ next' (f x) ↔ ∃ a y, (a, y) ∈ next x ∧ g a = b ∧ f y = z)

theorem Carries.inside_of_spells (h : Carries inside g f next next') (hx : inside x) {w : List σ}
    (hw : Spells next x w y) : inside y := by
  induction hw with
  | refl => exact hx
  | step he _ ih => exact ih (h.closed hx he)

theorem Carries.spells_iff (h : Carries inside g f next next') (hx : inside x)
    {u : List τ} {z : β} :
    Spells next' (f x) u z ↔ ∃ w y, Spells next x w y ∧ w.map g = u ∧ f y = z := by
  constructor
  · intro hu
    generalize hfx : f x = o at hu
    induction hu generalizing x with
    | refl => exact ⟨[], x, .refl x, rfl, hfx⟩
    | step he _ ih =>
        rw [← hfx, h.mem_iff hx] at he
        obtain ⟨a, y, he, rfl, hfy⟩ := he
        obtain ⟨w, z, hw, rfl, hz⟩ := ih (h.closed hx he) hfy
        exact ⟨a :: w, z, .step he hw, rfl, hz⟩
  · rintro ⟨w, y, hw, rfl, rfl⟩
    induction hw with
    | refl => exact .refl _
    | step he _ ih => exact .step ((h.mem_iff hx).2 ⟨_, _, he, rfl, rfl⟩) (ih (h.closed hx he))

variable [LinearOrder σ] [LinearOrder τ]

/-- Words stay in order if the first of two is the least to its node and the second is at least as
great as the least to its own. -/
def KeepsLeast (g : σ → τ) (next : α → List (σ × α)) (start : α) : Prop :=
  ∀ {x y : α} {u v t : List σ}, Least next start x u → Least next start y v →
    ¬ List.Shortlex (· < ·) v u →
    Spells next start t y → t ≠ u → List.Shortlex (· < ·) (u.map g) (t.map g)

theorem shortlex_map {u v : List σ} (hg : StrictMono g) (h : List.Shortlex (· < ·) u v) :
    List.Shortlex (· < ·) (u.map g) (v.map g) := by
  rw [List.shortlex_def] at *
  rw [List.length_map, List.length_map]
  exact h.imp_right fun hlex => ⟨hlex.1, List.map_lt (fun _ _ hlt => hg hlt) hlex.2⟩

theorem keepsLeast_of_strictMono (hg : StrictMono g) (next : α → List (σ × α)) (start : α) :
    KeepsLeast g next start := by
  intro x y u v t hu hv hle ht hne
  apply shortlex_map hg
  rcases eq_or_shortlex (hv.2 t ht) with rfl | hvt
  · exact (eq_or_shortlex hle).resolve_left (Ne.symm hne)
  · rcases eq_or_shortlex hle with rfl | huv
    · exact hvt
    · exact shortlex_trans huv hvt

theorem keepsLeast_id (next : α → List (σ × α)) (start : α) : KeepsLeast id next start :=
  keepsLeast_of_strictMono strictMono_id next start

variable {start : α} {visits : List (Visit α σ)} {u v : List σ}

theorem KeepsLeast.shortlex (h : KeepsLeast g next start) (hu : Least next start x u)
    (hv : Least next start y v) (huv : List.Shortlex (· < ·) u v) :
    List.Shortlex (· < ·) (u.map g) (v.map g) := by
  apply h hu hv (asymm huv) hv.1
  rintro rfl
  exact shortlex_irrefl _ huv

theorem Least.rename (hu : Least next start x u) (hc : Carries inside g f next next')
    (hstart : inside start)
    (hkeeps : KeepsLeast g next start) : Least next' (f start) (f x) (u.map g) := by
  refine ⟨(hc.spells_iff hstart).2 ⟨u, x, hu.1, rfl, rfl⟩, fun t' ht' hlt => ?_⟩
  obtain ⟨t, y, ht, rfl, hy⟩ := (hc.spells_iff hstart).1 ht'
  have hnode : y = x := hc.inj (hc.inside_of_spells hstart ht) (hc.inside_of_spells hstart hu.1) hy
  rw [hnode] at ht
  by_cases heq : t = u
  · rw [heq] at hlt
    exact shortlex_irrefl _ hlt
  · exact asymm hlt (hkeeps hu hu (shortlex_irrefl u) ht heq)

def renameVisit (g : σ → τ) (f : α → β) (next' : β → List (τ × β)) (v : Visit α σ) : Visit β τ :=
  ⟨f v.node, v.trail.map g, next' (f v.node)⟩

omit [LinearOrder σ] [LinearOrder τ] in
theorem word_renameVisit (v : Visit α σ) : (renameVisit g f next' v).word = v.word.map g := by
  rw [renameVisit, Visit.word, Visit.word, List.map_reverse]

/-- The search finds the renamed nodes in the order of the nodes. -/
theorem Enumerates.rename (h : Enumerates next start visits) (hc : Carries inside g f next next')
    (hstart : inside start) (hkeeps : KeepsLeast g next start) :
    Enumerates next' (f start) (visits.map (renameVisit g f next')) := by
  refine { edges_eq := ?_, least := ?_, ascending := ?_, covers := ?_ }
  · intro v' hv'
    obtain ⟨v, -, rfl⟩ := List.mem_map.1 hv'
    rfl
  · intro v' hv'
    obtain ⟨v, hv, rfl⟩ := List.mem_map.1 hv'
    rw [word_renameVisit]
    exact (h.least v hv).rename hc hstart hkeeps
  · rw [List.pairwise_map]
    apply h.ascending.imp_of_mem
    intro u v hu hv hlt
    rw [word_renameVisit, word_renameVisit]
    exact hkeeps.shortlex (h.least u hu) (h.least v hv) hlt
  · intro t' z ht'
    obtain ⟨t, y, ht, -, rfl⟩ := (hc.spells_iff hstart).1 ht'
    obtain ⟨v, hv, rfl⟩ := h.covers t y ht
    exact ⟨_, List.mem_map_of_mem hv, rfl⟩

end Rename

/-! ## Words that name the targets -/

section Targets

variable {α β σ : Type}

/-- The edges with their targets in the labels, by label first and then by target. -/
def withTargets (next : α → List (σ × α)) (x : α) : List ((σ ×ₗ α) × α) :=
  (next x).map fun e => (toLex e, e.2)

variable {next : α → List (σ × α)} {x y z : α}

theorem mem_withTargets {e : σ ×ₗ α} :
    (e, y) ∈ withTargets next x ↔ ofLex e ∈ next x ∧ (ofLex e).2 = y := by
  rw [withTargets, List.mem_map]
  constructor
  · rintro ⟨d, hd, heq⟩
    cases heq
    exact ⟨hd, rfl⟩
  · rintro ⟨he, rfl⟩
    exact ⟨ofLex e, he, rfl⟩

theorem target_unique {w : List (σ ×ₗ α)} (hy : Spells (withTargets next) x w y)
    (hz : Spells (withTargets next) x w z) : y = z := by
  induction hy with
  | refl =>
      cases hz
      rfl
  | step he _ ih =>
      cases hz with
      | step he' hz =>
          have htarget := (mem_withTargets.1 he).2.symm.trans (mem_withTargets.1 he').2
          rw [← htarget] at hz
          exact ih hz

theorem target_eq {w : List (σ ×ₗ α)} {e : σ ×ₗ α} (h : Spells (withTargets next) x (w ++ [e]) y) :
    (ofLex e).2 = y := by
  obtain ⟨z, -, he⟩ := spells_append.1 h
  exact (mem_withTargets.1 (spells_singleton.1 he)).2

/-- The words are those of the labels, with the targets put in. -/
theorem spells_iff_withTargets {w : List σ} :
    Spells next x w y ↔
      ∃ t, Spells (withTargets next) x t y ∧ t.map (fun e => (ofLex e).1) = w := by
  constructor
  · intro hw
    induction hw with
    | refl x => exact ⟨[], .refl x, rfl⟩
    | @step x y z a w he _ ih =>
        obtain ⟨t, ht, rfl⟩ := ih
        exact ⟨toLex (a, y) :: t, .step (mem_withTargets.2 ⟨he, rfl⟩) ht, rfl⟩
  · rintro ⟨t, ht, rfl⟩
    induction ht with
    | refl => exact .refl _
    | step hmem _ ih =>
        obtain ⟨he, rfl⟩ := mem_withTargets.1 hmem
        exact .step he ih

def retarget (f : α → β) (e : σ ×ₗ α) : σ ×ₗ β := toLex ((ofLex e).1, f (ofLex e).2)

theorem Carries.withTargets {inside : α → Prop} {f : α → β} {next' : β → List (σ × β)}
    (h : Carries inside id f next next') :
    Carries inside (retarget f) f (withTargets next) (withTargets next') where
  closed hx hmem := by
    obtain ⟨he, rfl⟩ := mem_withTargets.1 hmem
    exact h.closed hx he
  inj := h.inj
  mem_iff hx := by
    rw [mem_withTargets]
    constructor
    · rintro ⟨he, rfl⟩
      obtain ⟨a, y, he, ha, hy⟩ := (h.mem_iff hx).1 he
      exact ⟨toLex (a, y), y, mem_withTargets.2 ⟨he, rfl⟩, Prod.ext ha hy, hy⟩
    · rintro ⟨e, y, hmem, rfl, rfl⟩
      obtain ⟨he, rfl⟩ := mem_withTargets.1 hmem
      exact ⟨(h.mem_iff hx).2 ⟨_, _, he, rfl, rfl⟩, rfl⟩

end Targets

/-! ## Names in the order of the search -/

section Order

variable {σ : Type} [LinearOrder σ] {u v s t : List σ}

/-- The rest does not change the order of words unless it makes the smaller one longer. -/
theorem shortlex_append (h : List.Shortlex (· < ·) u v) (hlen : s.length = t.length) :
    List.Shortlex (· < ·) (u ++ s) (v ++ t) := by
  rw [List.shortlex_def] at *
  rw [List.length_append, List.length_append]
  rcases h with h | ⟨heq, hlex⟩
  · exact .inl (by omega)
  · refine .inr ⟨by omega, ?_⟩
    induction hlex with
    | nil => simp at heq
    | cons _ ih => exact .cons (ih (by simpa using heq))
    | rel hlt => exact .rel hlt

theorem exists_first_difference (hlen : u.length = v.length) (hlex : List.Lex (· < ·) u v) :
    ∃ w a b s t, u = w ++ a :: s ∧ v = w ++ b :: t ∧ a < b := by
  induction hlex with
  | nil => simp at hlen
  | @cons a u v _ ih =>
      obtain ⟨w, b, c, s, t, rfl, rfl, hlt⟩ := ih (by simpa using hlen)
      exact ⟨a :: w, b, c, s, t, rfl, rfl, hlt⟩
  | @rel a s b t hlt => exact ⟨[], a, b, s, t, rfl, rfl, hlt⟩

variable {α : Type}

theorem least_of_append {next : α → List (σ × α)} {start x y : α} (h : Least next start y (u ++ v))
    (hu : Spells next start u x) (hv : Spells next x v y) : Least next start x u := by
  refine ⟨hu, fun w hw hlt => ?_⟩
  exact h.2 (w ++ v) (spells_append.2 ⟨x, hw, hv⟩) (shortlex_append hlt rfl)

variable {β : Type} [LinearOrder α] [LinearOrder β] {next : α → List (σ × α)} {start : α}
  {visits : List (Visit α (σ ×ₗ α))} {f : α → β}

/-- Names in the order in which a search finds the nodes keep the least words in order. -/
theorem keepsLeast_retarget (h : Enumerates (withTargets next) start visits)
    (hf : ∀ {x y u v}, Least (withTargets next) start x u → Least (withTargets next) start y v →
      List.Shortlex (· < ·) u v → f x < f y) :
    KeepsLeast (retarget f) (withTargets next) start := by
  intro x y u v t hu hv hle ht hne
  have hut : List.Shortlex (· < ·) u t := by
    simpa using keepsLeast_id (withTargets next) start hu hv hle ht hne
  rw [List.shortlex_def] at hut
  rcases hut with hlen | ⟨hlen, hlex⟩
  · apply List.Shortlex.of_length_lt
    rw [List.length_map, List.length_map]
    exact hlen
  obtain ⟨w, d, e, s, r, rfl, rfl, hde⟩ := exists_first_difference hlen hlex
  have hrest : s.length = r.length := by simpa using hlen
  suffices hlt : retarget f d < retarget f e by
    rw [List.map_append, List.map_append, List.map_cons, List.map_cons]
    apply List.Shortlex.append_left
    exact List.Shortlex.of_lex (by simp [hrest]) (.rel hlt)
  rw [Prod.Lex.lt_iff] at hde ⊢
  rcases hde with hlabel | ⟨hlabel, htarget⟩
  · exact .inl hlabel
  -- One label, two targets: they have to be found in the order in which they stand.
  refine .inr ⟨hlabel, ?_⟩
  rw [List.append_cons] at hu ht
  obtain ⟨o, hd, hs⟩ := spells_append.1 hu.1
  obtain ⟨o', he, hr⟩ := spells_append.1 ht
  obtain ⟨b, hb⟩ := h.exists_least he
  change f (ofLex d).2 < f (ofLex e).2
  rw [target_eq hd, target_eq he]
  apply hf (least_of_append hu hd hs) hb
  by_contra hnot
  rcases eq_or_shortlex hnot with rfl | hlt
  · rw [target_eq hd, target_eq he, target_unique hd hb.1] at htarget
    exact lt_irrefl o' htarget
  · -- A lesser way to the second target goes on to a word that is less than the least.
    have hless : List.Shortlex (· < ·) (b ++ r) (w ++ [d] ++ s) := shortlex_append hlt hrest.symm
    have hspells : Spells (withTargets next) start (b ++ r) y := spells_append.2 ⟨o', hb.1, hr⟩
    rw [← List.append_cons] at hless
    rcases eq_or_shortlex (hv.2 _ hspells) with rfl | hvb
    · exact hle hless
    · exact hle (shortlex_trans hvb hless)

end Order

end RegularLanguages.Search
