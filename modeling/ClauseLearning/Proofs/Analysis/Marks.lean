import Mathlib
import ClauseLearning.Analysis
import ClauseLearning.Proofs.Trail.Coherence

/-!
# The marks of conflict analysis

While the trail is resolved backwards, the marks tell which variables were met, the literals of
earlier levels among them, and how many of the current level are still to come.
-/

namespace ClauseLearning

variable {g : ImplicationGraph} {trail pending : List Literal} {n current : Nat} {m : Marks}
  {l : Literal} {v : Variable}

/-- The graph knows the literals of a trail, oldest first, that goes up to the current level. The
literals of that level have reasons, except for the first. -/
structure ImplicationGraph.Describes (g : ImplicationGraph) (trail : List Literal)
    (n current : Nat) : Prop where
  distinct : (trail.map Literal.var).Nodup
  inScope : ∀ l ∈ trail, l.var.index < n
  value : ∀ l ∈ trail, g.value l.var = some l.positive
  level_le : ∀ l ∈ trail, g.level l.var ≤ current
  monotone : trail.Pairwise fun l m => g.level l.var ≤ g.level m.var
  reasoned : ∀ earlier l later, trail = earlier ++ l :: later → g.level l.var = current →
    (∃ m ∈ earlier, g.level m.var = current) →
    ∃ reason, g.reason l.var = some reason ∧ l ∈ reason ∧ ∀ m ∈ reason, m ≠ l → m.negate ∈ earlier

namespace ImplicationGraph.Describes

theorem eq_of_var_eq (h : g.Describes trail n current) {a b : Literal} (ha : a ∈ trail)
    (hb : b ∈ trail) (hv : a.var = b.var) : a = b := by
  have hva := h.value a ha
  rw [hv, h.value b hb] at hva
  exact Literal.eq_of_var_eq hv (by simpa using hva.symm)

theorem eq_of_negate_mem (h : g.Describes trail n current) {a b : Literal} (ha : a.negate ∈ trail)
    (hb : b.negate ∈ trail) (hv : a.var = b.var) : a = b := by
  rw [← a.negate_negate, h.eq_of_var_eq ha hb hv, Literal.negate_negate]

end ImplicationGraph.Describes

namespace Marks

/-- The marks agree with each other, `pending` being the rest of the trail, latest literal first,
that is not resolved yet. -/
structure Tally (g : ImplicationGraph) (trail : List Literal) (n current : Nat)
    (pending : List Literal) (m : Marks) : Prop where
  size_seen : m.seen.size = n
  seen_iff : ∀ i, m.seen[i]? = some true ↔ i ∈ m.marked.toList.map Variable.index
  recorded_iff : ∀ l, l ∈ m.recorded ↔
    l.negate ∈ trail ∧ l.var ∈ m.marked ∧ g.level l.var ≠ 0 ∧ g.level l.var ≠ current
  distinct : (m.recorded.toList.map Literal.var).Nodup
  unresolved : m.unresolved = pending.countP fun l => l.var ∈ m.marked ∧ g.level l.var = current
  suffix : pending <:+ trail.reverse

/-- The marks with the variable of a further literal marked. -/
def mark (g : ImplicationGraph) (current : Nat) (m : Marks) (l : Literal) : Marks where
  seen := m.seen.setIfInBounds l.var.index true
  marked := m.marked.push l.var
  recorded :=
    if g.level l.var ≠ 0 ∧ g.level l.var ≠ current then m.recorded.push l else m.recorded
  unresolved := m.unresolved + if g.level l.var = current then 1 else 0

namespace Tally

theorem clear (g : ImplicationGraph) (trail : List Literal) (n current : Nat) :
    Tally g trail n current trail.reverse (Marks.clear n) where
  size_seen := by simp [Marks.clear]
  seen_iff i := by simp [Marks.clear, Array.getElem?_replicate]
  recorded_iff l := by simp [Marks.clear]
  distinct := by simp [Marks.clear]
  unresolved := by simp [Marks.clear]
  suffix := List.suffix_rfl

theorem mem_trail (h : Tally g trail n current pending m) (hl : l ∈ pending) : l ∈ trail := by
  simpa using h.suffix.subset hl

theorem lt_of_mem_marked (h : Tally g trail n current pending m) (hv : v ∈ m.marked) :
    v.index < n := by
  have hseen := (h.seen_iff v.index).2 (List.mem_map_of_mem (by simpa using hv))
  exact h.size_seen ▸ (Array.getElem?_eq_some_iff.1 hseen).1

theorem isSeen (h : Tally g trail n current pending m) (hv : v.index < n) :
    m.isSeen v = .ok (decide (v ∈ m.marked)) := by
  have hlt : v.index < m.seen.size := h.size_seen ▸ hv
  have hmem : m.seen[v.index] = true ↔ v ∈ m.marked := by
    have := h.seen_iff v.index
    rw [Array.getElem?_eq_getElem hlt, Option.some.injEq] at this
    rw [this, List.mem_map]
    constructor
    · rintro ⟨w, hw, he⟩
      obtain rfl := Variable.ext he
      simpa using hw
    · intro hv
      exact ⟨v, by simpa using hv, rfl⟩
  rw [Marks.isSeen, Array.getElem?_eq_getElem hlt]
  rw [Bool.eq_iff_iff.2 (hmem.trans decide_eq_true_iff.symm)]

theorem countP_mark (hd : (pending.map Literal.var).Nodup) (hl : l.negate ∈ pending)
    (hv : l.var ∉ m.marked) (p : Literal → Prop) [DecidablePred p] :
    (pending.countP fun k => k.var ∈ m.marked.push l.var ∧ p k) =
      (pending.countP fun k => k.var ∈ m.marked ∧ p k) + if p l.negate then 1 else 0 := by
  obtain ⟨before, after, rfl⟩ := List.append_of_mem hl
  have hother : ∀ k ∈ before ++ after, k.var ≠ l.var := by
    have hperm : ((l.negate :: (before ++ after)).map Literal.var).Nodup :=
      (List.perm_middle.map _).nodup_iff.1 hd
    intro k hk he
    exact (List.nodup_cons.1 hperm).1 (List.mem_map.2 ⟨k, hk, he⟩)
  have hsame : ∀ ks : List Literal, ks ⊆ before ++ after →
      (ks.countP fun k => k.var ∈ m.marked.push l.var ∧ p k) =
        ks.countP fun k => k.var ∈ m.marked ∧ p k := by
    intro ks hks
    refine List.countP_congr fun k hk => ?_
    simp [hother k (hks hk)]
  rw [List.countP_append, List.countP_append, List.countP_cons, List.countP_cons,
    hsame before (by simp), hsame after (by simp)]
  simp [hv]
  omega

theorem pending_distinct (hg : g.Describes trail n current)
    (h : Tally g trail n current pending m) : (pending.map Literal.var).Nodup := by
  have hrev : (trail.reverse.map Literal.var).Nodup := by
    rw [List.map_reverse, List.nodup_reverse]
    exact hg.distinct
  exact hrev.sublist (h.suffix.sublist.map _)

theorem note_of_mem (h : Tally g trail n current pending m) (hv : l.var ∈ m.marked) :
    m.note g current l = .ok m := by
  rw [Marks.note, h.isSeen (h.lt_of_mem_marked hv), decide_eq_true hv]
  rfl

theorem note_of_not_mem (h : Tally g trail n current pending m) (hlt : l.var.index < n)
    (hv : l.var ∉ m.marked) : m.note g current l = .ok (m.mark g current l) := by
  rw [Marks.note, h.isSeen hlt, decide_eq_false hv]
  by_cases hc : g.level l.var = current
  · simp [mark, bind, Except.bind, pure, Except.pure, hc]
  · by_cases h0 : g.level l.var = 0 <;> simp_all [mark, bind, Except.bind, pure, Except.pure]

theorem mark (hg : g.Describes trail n current) (h : Tally g trail n current pending m)
    (hp : l.negate ∈ pending) (hv : l.var ∉ m.marked) :
    Tally g trail n current pending (m.mark g current l) where
  size_seen := by simpa [Marks.mark] using h.size_seen
  seen_iff i := by
    have hlt : l.var.index < m.seen.size :=
      h.size_seen ▸ hg.inScope l.negate (h.mem_trail hp)
    by_cases hi : i = l.var.index
    · subst i
      simp [Marks.mark, hlt]
    · simp only [Marks.mark, Array.getElem?_setIfInBounds_ne (Ne.symm hi), h.seen_iff]
      simp [hi]
  recorded_iff k := by
    have hl : l.negate ∈ trail := h.mem_trail hp
    have hk : k.negate ∈ trail → k.var = l.var → k = l := fun hk hkl =>
      hg.eq_of_negate_mem hk hl hkl
    unfold Marks.mark
    split <;> simp [h.recorded_iff] <;> grind
  distinct := by
    have hnew : l.var ∉ m.recorded.toList.map Literal.var := by
      intro hmem
      obtain ⟨k, hk, he⟩ := List.mem_map.1 hmem
      exact hv (he ▸ ((h.recorded_iff k).1 (by simpa using hk)).2.1)
    unfold Marks.mark
    split
    · simpa [List.nodup_append, h.distinct] using hnew
    · exact h.distinct
  unresolved := by
    rw [Marks.mark, h.unresolved]
    exact (countP_mark (h.pending_distinct hg) hp hv fun k => g.level k.var = current).symm
  suffix := h.suffix

/-- Noting a literal marks its variable and nothing else. -/
theorem note (hg : g.Describes trail n current) (h : Tally g trail n current pending m)
    (hl : l.var ∈ m.marked ∨ l.negate ∈ pending) :
    ∃ m', m.note g current l = .ok m' ∧ Tally g trail n current pending m' ∧
      ∀ v, v ∈ m'.marked ↔ v ∈ m.marked ∨ v = l.var := by
  by_cases hv : l.var ∈ m.marked
  · refine ⟨m, h.note_of_mem hv, h, fun w => ⟨.inl, ?_⟩⟩
    rintro (hw | rfl)
    · exact hw
    · exact hv
  · have hp : l.negate ∈ pending := hl.resolve_left hv
    have hlt : l.var.index < n := hg.inScope l.negate (h.mem_trail hp)
    exact ⟨_, h.note_of_not_mem hlt hv, h.mark hg hp hv, by simp [Marks.mark]⟩

theorem noteAll (hg : g.Describes trail n current) (h : Tally g trail n current pending m)
    (clause : List Literal) (hl : ∀ l ∈ clause, l.var ∈ m.marked ∨ l.negate ∈ pending) :
    ∃ m', m.noteAll g current clause = .ok m' ∧ Tally g trail n current pending m' ∧
      ∀ v, v ∈ m'.marked ↔ v ∈ m.marked ∨ v ∈ clause.map Literal.var := by
  induction clause generalizing m with
  | nil => exact ⟨m, rfl, h, by simp⟩
  | cons l clause ih =>
      obtain ⟨m₁, hm₁, h₁, hmarked₁⟩ := h.note hg (hl l List.mem_cons_self)
      obtain ⟨m₂, hm₂, h₂, hmarked₂⟩ := ih h₁ fun k hk =>
        (hl k (List.mem_cons_of_mem _ hk)).imp (fun hv => (hmarked₁ _).2 (.inl hv)) id
      refine ⟨m₂, ?_, h₂, fun v => ?_⟩
      · rw [Marks.noteAll, List.foldlM_cons, hm₁]
        exact hm₂
      · rw [hmarked₂, hmarked₁, List.map_cons, List.mem_cons, or_assoc]

theorem reset (h : Tally g trail n current pending m) : m.reset = Marks.clear n := by
  have hseen : m.reset.seen = Array.replicate n false := by
    refine Array.ext_getElem? fun i => ?_
    have hget := Trail.getElem?_foldl_setIfInBounds m.marked.toList Variable.index false m.seen i
    rw [Marks.reset, ← Array.foldl_toList, hget, Array.getElem?_replicate, h.size_seen]
    simp only [← h.seen_iff]
    by_cases hi : i < n
    · have hlt : i < m.seen.size := h.size_seen ▸ hi
      cases hs : m.seen[i] <;> simp [hi, hlt, hs]
    · simp [hi, h.size_seen]
  rw [Marks.clear, ← hseen]
  rfl

end Tally

end Marks

end ClauseLearning
