import Mathlib
import ClauseLearning.Proofs.Literal
import ClauseLearning.Proofs.Ranking.Waiting

/-!
# What a ranking offers

A ranking offers every variable that is not assigned, so a decision always finds one. The keys of
the variables that wait follow the entries through bumps and rescaling.
-/

namespace ClauseLearning

namespace Ranking

variable {α : Type} {r : Ranking α} {n : Nat} {u v : Variable} {assigned : Variable → Bool}

theorem var_of_key? {k : Key α} (h : r.key? v = some k) : k.var = v := by
  obtain ⟨e, -, rfl⟩ := Option.map_eq_some_iff.1 h
  rfl

theorem key?_var {k : Key α} (h : r.key? v = some k) : r.key? k.var = some k :=
  var_of_key? h ▸ h

theorem exists_key (hv : v.index < r.entries.size) : ∃ k, r.key? v = some k := by
  simp [key?, hv]

theorem mem_known : v ∈ r.known ↔ v.index < r.entries.size := by
  simp only [known, List.mem_filterMap, List.mem_range, Variable.ofIndex?]
  constructor
  · rintro ⟨i, hi, hv⟩
    split at hv
    · cases hv
      exact hi
    · cases hv
  · intro hv
    exact ⟨v.index, hv, by rw [dif_pos v.index_lt]⟩

/-- The keys that wait are the present ones, and every variable that is not assigned waits for a
decision. -/
structure Offers (r : Ranking α) (n : Nat) (assigned : Variable → Bool) : Prop where
  size_entries : r.entries.size = n
  inStep : r.waiting.InStep r.key?
  waiting : ∀ v : Variable, v.index < n → assigned v = false → v ∈ r.waiting.vars

namespace Offers

theorem mono {assigned' : Variable → Bool} (h : r.Offers n assigned)
    (ha : ∀ v, assigned' v = false → assigned v = false) : r.Offers n assigned' :=
  { h with waiting := fun v hv hf => h.waiting v hv (ha v hf) }

/-- Only entries and waiting keys count. -/
theorem congr {r' : Ranking α} (h : r.Offers n assigned) (hentries : r'.entries = r.entries)
    (hwaiting : r'.waiting = r.waiting) : r'.Offers n assigned := by
  obtain ⟨decay, increment, entries, waiting, nonces, drawn, rescalings⟩ := r'
  obtain rfl : entries = r.entries := hentries
  obtain rfl : waiting = r.waiting := hwaiting
  exact ⟨h.size_entries, h.inStep, h.waiting⟩

theorem exists_key (h : r.Offers n assigned) (hv : v.index < n) : ∃ k, r.key? v = some k :=
  Ranking.exists_key (h.size_entries.symm ▸ hv)

end Offers

variable [Score α]

/-! ## One variable gets another entry -/

section Update

variable {change : Entry α → Entry α}

@[simp] theorem size_entries_update :
    (r.update v change).entries.size = r.entries.size := by
  unfold update
  split <;> simp

theorem key?_update_of_ne (h : u ≠ v) : (r.update v change).key? u = r.key? u := by
  have hne : v.index ≠ u.index := fun e => h (Variable.ext e.symm)
  unfold update
  split
  · rfl
  · simp [key?, Array.getElem?_setIfInBounds_ne hne]

theorem key?_update_self {k : Key α} (h : r.key? v = some k) :
    (r.update v change).key? v = some ⟨change k.toEntry, v⟩ := by
  obtain ⟨e, he, rfl⟩ := Option.map_eq_some_iff.1 h
  have hlt := (Array.getElem?_eq_some_iff.1 he).1
  rw [update, h]
  simp [key?, hlt]

theorem waiting_update {k : Key α} (h : r.key? v = some k) : (r.update v change).waiting =
    if r.waiting.has k then (r.waiting.remove k).add ⟨change k.toEntry, v⟩ else r.waiting := by
  rw [update, h]

theorem update_of_none (h : r.key? v = none) : r.update v change = r := by
  rw [update, h]

/-- The same variables wait as before, each with its present key. -/
theorem update_waiting (h : r.waiting.InStep r.key?) (v : Variable) (change : Entry α → Entry α) :
    (r.update v change).waiting.InStep (r.update v change).key? ∧
      ∀ u, u ∈ (r.update v change).waiting.vars ↔ u ∈ r.waiting.vars := by
  cases hk : r.key? v with
  | none =>
      rw [update_of_none hk]
      exact ⟨h, fun _ => Iff.rfl⟩
  | some k =>
      have hvar := var_of_key? hk
      have hkept : ∀ {w : Waiting α}, w.InStep r.key? → v ∉ w.vars →
          w.InStep (r.update v change).key? := fun hw hv =>
        hw.congr fun u hu => key?_update_of_ne (ne_of_mem_of_not_mem hu hv)
      have hremoved : v ∉ (r.waiting.remove k).vars := fun hv =>
        ((h.mem_vars_remove (key?_var hk)).1 hv).2 hvar.symm
      have hnew : (r.update v change).key? v = some ⟨change k.toEntry, v⟩ := key?_update_self hk
      rw [waiting_update hk]
      split
      · have hmem : v ∈ r.waiting.vars := hvar ▸ (h.has_iff (key?_var hk)).1 ‹_›
        have hstep := hkept (h.remove k) hremoved
        refine ⟨hstep.add hnew, fun u => (hstep.mem_vars_add hnew).trans ?_⟩
        rw [h.mem_vars_remove (key?_var hk), hvar]
        by_cases hu : u = v <;> simp [hu, hmem]
      · have hnot : v ∉ r.waiting.vars := fun hv =>
          absurd ((h.has_iff (key?_var hk)).2 (hvar.symm ▸ hv)) ‹_›
        exact ⟨hkept h hnot, fun _ => Iff.rfl⟩

end Update

namespace Offers

theorem update (h : r.Offers n assigned) (v : Variable) (change : Entry α → Entry α) :
    (r.update v change).Offers n assigned := by
  obtain ⟨hstep, hvars⟩ := update_waiting h.inStep v change
  exact ⟨by rw [size_entries_update, h.size_entries], hstep,
    fun u hu hf => (hvars u).2 (h.waiting u hu hf)⟩

/-! ## Scores -/

theorem updateAll (h : r.Offers n assigned) (vs : List Variable) (change : Entry α → Entry α) :
    (vs.foldl (fun r v => r.update v change) r).Offers n assigned := by
  induction vs generalizing r with
  | nil => exact h
  | cons v vs ih => exact ih (h.update v change)

theorem rescale (h : r.Offers n assigned) : r.rescale.Offers n assigned :=
  (h.updateAll r.known _).congr rfl rfl

theorem rescaleAt (h : r.Offers n assigned) (reached : α) :
    (r.rescaleAt reached).Offers n assigned := by
  unfold Ranking.rescaleAt
  split
  · exact h
  · exact h.rescale

theorem age (h : r.Offers n assigned) : r.age.Offers n assigned := by
  refine rescaleAt ?_ _
  exact h.congr rfl rfl

theorem bump (h : r.Offers n assigned) (hv : v.index < n) :
    ∃ r', r.bump v = .ok r' ∧ r'.Offers n assigned := by
  obtain ⟨k, hk⟩ := h.exists_key hv
  refine ⟨_, by rw [Ranking.bump, hk], rescaleAt ?_ _⟩
  exact (h.update v fun _ => ⟨k.score + r.increment, r.nonces r.drawn⟩).congr rfl rfl

theorem learn (h : r.Offers n assigned) (clause : List Literal)
    (hscope : ∀ l ∈ clause, l.var.index < n) :
    ∃ r', r.learn clause = .ok r' ∧ r'.Offers n assigned :=
  foldlM_keeps (fun (r : Ranking α) (l : Literal) => r.bump l.var)
    (fun _ _ hl hr => hr.bump hl) clause hscope h

/-! ## Variables that wait again -/

theorem insert (h : r.Offers n assigned) (hv : v.index < n) :
    ∃ r', r.insert v = .ok r' ∧ r'.Offers n fun u => assigned u && u ≠ v := by
  obtain ⟨k, hk⟩ := h.exists_key hv
  refine ⟨{ r with waiting := r.waiting.add k }, by rw [Ranking.insert, hk], h.size_entries,
    h.inStep.add (key?_var hk), fun u hu hf => (h.inStep.mem_vars_add (key?_var hk)).2 ?_⟩
  rw [var_of_key? hk]
  by_cases huv : u = v
  · exact .inl huv
  · exact .inr (h.waiting u hu (by simpa [huv] using hf))

theorem insertAll (h : r.Offers n assigned) (assigned' : Variable → Bool) (removed : List Literal)
    (hscope : ∀ l ∈ removed, l.var.index < n)
    (ha : ∀ v, assigned' v = false → v ∉ removed.map Literal.var → assigned v = false) :
    ∃ r', removed.foldlM (fun r l => r.insert l.var) r = .ok r' ∧ r'.Offers n assigned' := by
  have hstart : r.Offers n fun v => assigned' v || v ∈ removed.map Literal.var :=
    h.mono fun v hv => by
      simp only [Bool.or_eq_false_iff, decide_eq_false_iff_not] at hv
      exact ha v hv.1 hv.2
  obtain ⟨r', hr', -, hoffers⟩ := foldlM_ok (fun (r : Ranking α) (l : Literal) => r.insert l.var)
    (fun rest r₁ => (∀ l ∈ rest, l.var.index < n) ∧
      r₁.Offers n fun v => assigned' v || v ∈ rest.map Literal.var)
    (fun l rest r₁ ⟨hrest, hr₁⟩ => by
      obtain ⟨r₂, hr₂, h₂⟩ := hr₁.insert (hrest l List.mem_cons_self)
      refine ⟨r₂, hr₂, fun k hk => hrest k (List.mem_cons_of_mem _ hk), h₂.mono fun v hv => ?_⟩
      by_cases hvl : v = l.var
      · simp [hvl]
      · simpa [hvl] using hv)
    removed ⟨hscope, hstart⟩
  exact ⟨r', hr', hoffers.mono fun v hv => by simpa using hv⟩

/-! ## Taking a variable -/

/-- As long as a variable is not assigned, one is taken, and all others that are not assigned wait
still. -/
theorem take (h : r.Offers n assigned) (hv : v.index < n) (hfree : assigned v = false) :
    ∃ w r', r.take assigned = (some w, r') ∧ w.index < n ∧ assigned w = false ∧
      r'.Offers n fun u => assigned u || u = w := by
  obtain ⟨hstep, hleft, hsome, hnone⟩ := h.inStep.pop assigned
  cases htaken : (r.waiting.pop assigned).1 with
  | none =>
      have hassigned := hnone htaken v (h.waiting v hv hfree)
      rw [hfree] at hassigned
      cases hassigned
  | some w =>
      obtain ⟨hw, hwfree⟩ := hsome w htaken
      obtain ⟨k, hk, rfl⟩ := Waiting.mem_vars.1 hw
      obtain ⟨e, he, -⟩ := Option.map_eq_some_iff.1 (h.inStep.current k hk)
      refine ⟨k.var, _, Prod.ext htaken rfl, ?_, hwfree, h.size_entries, hstep, fun u hu hf => ?_⟩
      · exact h.size_entries ▸ (Array.getElem?_eq_some_iff.1 he).1
      · simp only [Bool.or_eq_false_iff, decide_eq_false_iff_not] at hf
        refine (hleft u (h.waiting u hu hf.1) hf.1).resolve_left fun e => hf.2 ?_
        exact Option.some.inj (e.symm.trans htaken)

end Offers

/-! ## The beginning -/

theorem admitAll_offers (h : r.waiting.InStep r.key?) :
    r.admitAll.Offers r.entries.size fun _ => false := by
  obtain ⟨hstep, hvars⟩ := h.addAll (r.known.filterMap r.key?) fun k hk => by
    obtain ⟨v, -, hv⟩ := List.mem_filterMap.1 hk
    exact key?_var hv
  refine ⟨rfl, hstep, fun v hv _ => (hvars v).2 (.inl ?_)⟩
  obtain ⟨k, hk⟩ := exists_key hv
  exact List.mem_map.2 ⟨k, List.mem_filterMap.2 ⟨v, mem_known.2 hv, hk⟩, var_of_key? hk⟩

theorem start_ok (occurrences : Array Nat) {decay : α} (nonces : Nat → Nat)
    (h : Score.less (Score.ofNat 0) decay ∧ ¬ Score.less (Score.ofNat 1) decay) :
    ∃ r, start occurrences decay nonces = .ok r ∧ r.Offers occurrences.size fun _ => false := by
  obtain ⟨r, hr, hempty, hsize⟩ : ∃ r, start occurrences decay nonces = .ok (admitAll r) ∧
      r.waiting = ⟨[]⟩ ∧ r.entries.size = occurrences.size :=
    ⟨_, if_pos h, rfl, Array.size_mapIdx⟩
  refine ⟨_, hr, hsize ▸ admitAll_offers ?_⟩
  rw [hempty]
  exact .empty _

end Ranking

end ClauseLearning
