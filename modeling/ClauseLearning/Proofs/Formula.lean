import Mathlib
import ClauseLearning.Formula

/-!
# Formulas

What a formula makes of the clauses that it is built from. Repeated literals are dropped, which keeps
the first occurrence of each and changes nothing for any assignment.
-/

namespace ClauseLearning

/-! ## Repeated literals -/

namespace Clause

variable {given kept ls before : List Literal} {l : Literal} {values : Array Bool}

theorem eraseDups_of_nodup {ls : List Literal} (h : ls.Nodup) : ls.eraseDups = ls := by
  induction ls with
  | nil => rfl
  | cons l ls ih =>
      obtain ⟨hl, hls⟩ := List.nodup_cons.1 h
      have hfilter : ls.filter (fun m => !m == l) = ls := by
        refine List.filter_eq_self.2 fun m hm => ?_
        have hne : m ≠ l := fun e => hl (e ▸ hm)
        simpa using hne
      rw [List.eraseDups_cons, hfilter, ih hls]

theorem appendNew_eq (ls : List Literal) :
    ∀ kept : List Literal, kept.Nodup → appendNew kept ls = (kept ++ ls).eraseDups := by
  induction ls with
  | nil =>
      intro kept h
      rw [List.append_nil, eraseDups_of_nodup h, appendNew]
  | cons l ls ih =>
      intro kept h
      rw [appendNew]
      split
      · rename_i hl
        rw [ih kept h, List.eraseDups_append, List.eraseDups_append]
        simp [List.removeAll, hl]
      · rename_i hl
        rw [ih _ (by rw [← List.concat_eq_append]; exact h.concat hl), List.append_assoc]
        rfl

/-- To drop repeated literals is to keep the first occurrence of each. -/
theorem literals_dedup (c : Clause) : c.dedup.literals = c.literals.eraseDups :=
  appendNew_eq c.literals [] List.nodup_nil

/-- The literals of a list, each once, in the order in which they first occur there. -/
structure FirstOccurrences (given kept : List Literal) : Prop where
  mem_iff : ∀ l, l ∈ kept ↔ l ∈ given
  ordered : kept.Pairwise fun l m => given.idxOf l < given.idxOf m

namespace FirstOccurrences

theorem nil : FirstOccurrences [] [] := ⟨fun _ => Iff.rfl, .nil⟩

theorem ordered_append (h : FirstOccurrences given kept) (ls : List Literal) :
    kept.Pairwise fun l m => (given ++ ls).idxOf l < (given ++ ls).idxOf m := by
  refine h.ordered.imp_of_mem fun hl hm hlm => ?_
  rw [List.idxOf_append_of_mem ((h.mem_iff _).1 hl), List.idxOf_append_of_mem ((h.mem_iff _).1 hm)]
  exact hlm

theorem repeated (h : FirstOccurrences given kept) (hl : l ∈ kept) :
    FirstOccurrences (given ++ [l]) kept where
  mem_iff m := by
    rw [h.mem_iff, List.mem_append, List.mem_singleton]
    exact ⟨.inl, fun hm => hm.elim id fun e => e ▸ (h.mem_iff l).1 hl⟩
  ordered := h.ordered_append [l]

theorem fresh (h : FirstOccurrences given kept) (hl : l ∉ kept) :
    FirstOccurrences (given ++ [l]) (kept ++ [l]) where
  mem_iff m := by rw [List.mem_append, List.mem_append, h.mem_iff]
  ordered := by
    refine List.pairwise_append.2 ⟨h.ordered_append [l], List.pairwise_singleton _ _, ?_⟩
    intro m hm _ he
    obtain rfl := List.mem_singleton.1 he
    have hm' : m ∈ given := (h.mem_iff m).1 hm
    have hl' := mt (h.mem_iff _).2 hl
    rw [List.idxOf_append_of_mem hm', List.idxOf_append_of_notMem hl']
    exact (List.idxOf_lt_length_of_mem hm').trans_le (Nat.le_add_right _ _)

theorem appendNew (h : FirstOccurrences given kept) :
    FirstOccurrences (given ++ ls) (Clause.appendNew kept ls) := by
  induction ls generalizing given kept with
  | nil => rwa [List.append_nil]
  | cons l ls ih =>
      rw [Clause.appendNew, List.append_cons]
      split
      · exact ih (h.repeated ‹_›)
      · exact ih (h.fresh ‹_›)

end FirstOccurrences

theorem firstOccurrences_dedup (c : Clause) :
    FirstOccurrences c.literals c.dedup.literals :=
  FirstOccurrences.nil.appendNew

/-! ## Evaluation -/

theorem someTrue_eq_ok (h : ∀ l ∈ ls, l.var.index < values.size) :
    someTrue values ls = .ok (decide (∃ l ∈ ls, l.eval (values[l.var.index]?.getD false) = true)) := by
  induction ls with
  | nil => simp [someTrue]
  | cons l ls ih =>
      rw [List.forall_mem_cons] at h
      have hvalue := Array.getElem?_eq_getElem h.1
      simp only [someTrue, hvalue, ih h.2, List.exists_mem_cons_iff, Option.getD_some]
      cases l.eval values[l.var.index] <;> simp

/-- Under values of all its variables, a clause is true where it holds for the assignment of these
values. -/
theorem satisfiedBy_eq_ok (c : Clause) (h : c.InScope values.size) :
    c.satisfiedBy values = .ok (decide (c.Holds fun v => values[v.index]?.getD false)) :=
  someTrue_eq_ok h

theorem someTrue_skip {value : Bool} (hvalue : values[l.var.index]? = some value)
    (hfalse : l.eval value = false) (before : List Literal) :
    someTrue values (before ++ l :: ls) = someTrue values (before ++ ls) := by
  induction before with
  | nil => simp [someTrue, hvalue, hfalse]
  | cons m before ih => simp only [List.cons_append, someTrue, ih]

/-- Evaluation comes to a literal that occurred before only if it is false. -/
theorem someTrue_repeated (hl : l ∈ before) :
    someTrue values (before ++ l :: ls) = someTrue values (before ++ ls) := by
  induction before with
  | nil => cases hl
  | cons m before ih =>
      simp only [List.cons_append, someTrue]
      rcases List.mem_cons.1 hl with rfl | hl
      · split
        · rfl
        · split
          · rfl
          · exact someTrue_skip ‹_› (Bool.eq_false_iff.2 ‹_›) before
      · rw [ih hl]

theorem someTrue_appendNew (values : Array Bool) (kept ls : List Literal) :
    someTrue values (appendNew kept ls) = someTrue values (kept ++ ls) := by
  induction ls generalizing kept with
  | nil => rw [appendNew, List.append_nil]
  | cons l ls ih =>
      rw [appendNew, ih]
      split
      · exact (someTrue_repeated ‹_›).symm
      · rw [List.append_assoc]
        rfl

theorem satisfiedBy_dedup (c : Clause) (values : Array Bool) :
    c.dedup.satisfiedBy values = c.satisfiedBy values :=
  someTrue_appendNew values [] c.literals

end Clause

/-! ## Building a formula -/

namespace Formula

variable {f g : Formula} {c : Clause} {n : Nat}

theorem eq_of_clauses (hvarCount : f.varCount = g.varCount)
    (hclauses : f.clauses.toList.map Clause.literals = g.clauses.toList.map Clause.literals) :
    f = g := by
  have hinjective : Function.Injective Clause.literals := by
    rintro ⟨c⟩ ⟨d⟩ rfl
    rfl
  have hc : f.clauses = g.clauses :=
    Array.toList_inj.1 (List.map_injective_iff.2 hinjective hclauses)
  cases f
  cases g
  cases hvarCount
  cases hc
  rfl

theorem varCount_of_add (h : f.add c = .ok g) : g.varCount = f.varCount := by
  unfold add at h
  split at h <;> cases h
  rfl

theorem clauses_of_add (h : f.add c = .ok g) : g.clauses = f.clauses.push c.dedup := by
  unfold add at h
  split at h <;> cases h
  rfl

theorem literals_of_add (h : f.add c = .ok g) : g.clauses.toList.map Clause.literals =
    f.clauses.toList.map Clause.literals ++ [c.literals.eraseDups] := by
  rw [clauses_of_add h, Array.toList_push, List.map_append, ← Clause.literals_dedup]
  rfl

theorem exists_add (h : c.InScope f.varCount) : ∃ g, f.add c = .ok g := by
  rw [add, dif_pos h]
  exact ⟨_, rfl⟩

theorem empty_eq_ok_iff :
    empty n = .ok f ↔ n ≤ Variable.maxId ∧ f.varCount = n ∧ f.clauses = #[] := by
  unfold empty
  split
  · rename_i hn
    constructor
    · intro h
      cases h
      exact ⟨hn, rfl, rfl⟩
    · rintro ⟨-, hvarCount, hclauses⟩
      exact congrArg _ (eq_of_clauses hvarCount.symm (by rw [hclauses]))
  · rename_i hn
    simp [hn]

theorem exists_addAll {cs : List Clause} (hscope : ∀ c ∈ cs, c.InScope f.varCount) :
    ∃ g, cs.foldlM add f = .ok g ∧ g.varCount = f.varCount ∧
      g.clauses.toList = f.clauses.toList ++ cs.map Clause.dedup := by
  induction cs generalizing f with
  | nil => exact ⟨f, rfl, rfl, (List.append_nil _).symm⟩
  | cons c cs ih =>
      obtain ⟨f₁, hadd⟩ := exists_add (hscope c List.mem_cons_self)
      have hvarCount := varCount_of_add hadd
      obtain ⟨g, hg, hvarCount', hclauses⟩ :=
        ih (f := f₁) fun d hd => hvarCount ▸ hscope d (List.mem_cons_of_mem c hd)
      refine ⟨g, ?_, hvarCount'.trans hvarCount, ?_⟩
      · rw [List.foldlM_cons, hadd]
        exact hg
      · rw [hclauses, clauses_of_add hadd, Array.toList_push, List.append_assoc]
        rfl

theorem exists_ofClauses {cs : List Clause} (hn : n ≤ Variable.maxId)
    (hscope : ∀ c ∈ cs, c.InScope n) :
    ∃ f, ofClauses n cs = .ok f ∧ f.varCount = n ∧ f.clauses.toList = cs.map Clause.dedup := by
  have hempty : empty n = .ok _ := dif_pos hn
  obtain ⟨-, hvarCount, hclauses⟩ := empty_eq_ok_iff.1 hempty
  obtain ⟨f, hf, hvarCount', hclauses'⟩ :=
    exists_addAll fun c hc => hvarCount.symm ▸ hscope c hc
  refine ⟨f, ?_, hvarCount'.trans hvarCount, by rw [hclauses', hclauses]; rfl⟩
  rw [ofClauses, hempty]
  exact hf

end Formula

end ClauseLearning
