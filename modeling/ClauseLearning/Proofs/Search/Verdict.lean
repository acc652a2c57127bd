import Mathlib
import ClauseLearning.Proofs.Search.Agreement
import ClauseLearning.Proofs.Search.Termination

/-!
# The truth of the verdicts

A full trail that propagation has no objection to is a model, and a clash at the root level refutes
the formula. So a search without a time limit decides satisfiability.
-/

namespace ClauseLearning

/-! ## What a full trail and a clash at the root level say -/

theorem Ready.exists_isTrue {n : Nat} {db : Database} {t : Trail} (h : Ready n db t)
    (hroot : db.Rooted t) (hhead : t.head = t.literals.size) (hc : t.isComplete = true) {k : Nat}
    {c : List Literal} (hk : db.literals? k = some c) : ∃ l ∈ c, t.IsTrue l := by
  rcases h.isTrue_or_unassigned hroot hhead hk with htrue | ⟨a, ha, -, -, -, hv, -⟩
  · exact htrue
  · obtain ⟨d, hd, rfl⟩ := Database.literals?_eq_some.1 hk
    have hscope := h.sound.inScope d (Array.mem_of_getElem? hd) a (by simpa using ha)
    have hassigned := h.coherent.isSome_of_isComplete hc hscope
    rw [hv] at hassigned
    cases hassigned

theorem Clash.not_holds {n k : Nat} {db : Database} {t : Trail} {f : Formula} (h : Clash n db t k)
    (hf : db.Represents f) (hlevel : t.level = 0) (σ : Variable → Bool) : ¬ f.Holds σ := by
  intro hσ
  obtain ⟨c, hk, hfalse, -⟩ := h.falsifies
  obtain ⟨l, hl, hlσ⟩ := hf.entailed k c hk σ hσ
  exact h.justified.not_holds_of_isFalse h.coherent (fun k c hk => hf.entailed k c hk σ hσ) hlevel
    (hfalse l hl) hlσ

theorem Trail.getD_values (t : Trail) (v : Variable) :
    t.values[v.index]?.getD false = (t.valueOf v).getD false := by
  rw [values, Array.getElem?_map, valueOf, assignment?]
  cases t.cells[v.index]? with
  | none => rfl
  | some cell => cases cell <;> rfl

theorem Model.falsified?_eq_none {m : Model} (h : ∀ c ∈ m.formula.clauses, c.Holds m.value) :
    m.falsified? = none := by
  rw [Model.falsified?, Option.map_eq_none_iff, List.find?_eq_none]
  intro e he
  have hmem := List.fst_mem_of_mem_zipIdx he
  simpa using h e.1 (by simpa using hmem)

namespace Search

variable {α : Type} {f : Formula} {s s₀ : State α} {status : Status} {clock : Nat → Instant}
  {settings : Settings α}

namespace Invariant

theorem isSome_valueOf (h : Invariant f .satisfied s) {v : Variable} (hv : v.index < f.varCount) :
    (s.trail.valueOf v).isSome :=
  h.fits.1.coherent.isSome_of_isComplete h.fits.2.2 hv

theorem holds_values (h : Invariant f .satisfied s) :
    f.Holds fun v => (s.trail.valueOf v).getD false := by
  intro c hc
  obtain ⟨k, hk⟩ := h.represents.complete c hc
  obtain ⟨hready, hhead, hcomplete⟩ := h.fits
  obtain ⟨l, hl, htrue⟩ := hready.exists_isTrue h.rooted hhead hcomplete hk
  refine ⟨l, hl, (Literal.holds_iff (σ := fun v => (s.trail.valueOf v).getD false)).2 ?_⟩
  rw [show s.trail.valueOf l.var = some l.positive from htrue]
  rfl

theorem not_holds (h : Invariant f .refuted s) (σ : Variable → Bool) : ¬ f.Holds σ := by
  obtain ⟨hlevel, k, hclash⟩ := h.fits
  exact hclash.not_holds h.represents hlevel σ

end Invariant

theorem Started.not_holds (h : Started settings f s) (hs : s.refutedAtLoad = true)
    (σ : Variable → Bool) : ¬ f.Holds σ := by
  intro hσ
  obtain ⟨c, hc, hcσ⟩ := h.loaded.refuted hs σ
  exact hcσ (hσ c (by simpa using hc))

/-! ## Outcomes -/

theorem of_outcome_satisfiable {m : Model} (h : outcome f status s = .ok (.satisfiable m)) :
    status = .satisfied ∧ m.formula = f ∧ m.values = s.trail.values := by
  cases status with
  | satisfied =>
      by_cases hsize : s.trail.values.size = f.varCount
      · simp only [outcome, Model.ofValues, hsize, dif_pos, Except.map, Except.ok.injEq,
          Outcome.satisfiable.injEq] at h
        subst h
        exact ⟨rfl, rfl, rfl⟩
      · simp [outcome, Model.ofValues, hsize, Except.map] at h
  | propagating => cases h
  | conflict k => cases h
  | deciding => cases h
  | refuted => cases h
  | interrupted => cases h

theorem of_outcome_unsatisfiable (h : outcome f status s = .ok .unsatisfiable) :
    status = .refuted := by
  cases status with
  | refuted => rfl
  | satisfied =>
      by_cases hsize : s.trail.values.size = f.varCount
      · simp [outcome, Model.ofValues, hsize, Except.map] at h
      · simp [outcome, Model.ofValues, hsize, Except.map] at h
  | propagating => cases h
  | conflict k => cases h
  | deciding => cases h
  | interrupted => cases h

theorem Invariant.outcome_ok (h : Invariant f .satisfied s) :
    ∃ m, outcome f .satisfied s = .ok (.satisfiable m) := by
  have hsize : s.trail.values.size = f.varCount := by
    rw [Trail.values, Array.size_map, h.fits.1.coherent.size_cells]
  simp [outcome, Model.ofValues, hsize, Except.map]

/-! ## Searches from the beginning -/

theorem State.status_of_begin {now : Instant} {limit : Option Duration} {deadline : Option Instant}
    (h : s.begin now limit = .ok (status, deadline)) :
    s.refutedAtLoad = true ∧ status = .refuted ∨ s.refutedAtLoad = false ∧ status = .propagating := by
  unfold State.begin at h
  split at h
  · cases h
    exact .inl ⟨‹_›, rfl⟩
  · cases hdeadline : deadline? now limit with
    | error fault => simp [hdeadline, Except.map] at h
    | ok deadline =>
        rw [hdeadline] at h
        cases h
        exact .inr ⟨Bool.eq_false_iff.2 ‹_›, rfl⟩

variable [Score α]

theorem of_solve {o : Outcome} {events : List Event}
    (h : solve clock settings f = .ok (o, events)) :
    ∃ s₀ status s, State.start settings f = .ok s₀ ∧
      s₀.search clock settings.timeLimit = .ok (status, s) ∧ outcome f status s = .ok o := by
  unfold solve at h
  cases hstart : State.start settings f with
  | error fault => simp [hstart, bind, Except.bind] at h
  | ok s₀ =>
      cases hsearch : s₀.search clock settings.timeLimit with
      | error fault => simp [hstart, hsearch, bind, Except.bind] at h
      | ok r =>
          obtain ⟨status, s⟩ := r
          cases houtcome : outcome f status s with
          | error fault => simp [hstart, hsearch, houtcome, bind, Except.bind] at h
          | ok o' =>
              simp only [hstart, hsearch, houtcome, bind, Except.bind, pure, Except.pure,
                Except.ok.injEq, Prod.mk.injEq] at h
              exact ⟨s₀, status, s, rfl, hsearch, h.1 ▸ houtcome⟩

/-- A search is refuted at load, rightly so, or it ends in a reachable state. -/
theorem reachable_of_search (hstart : State.start settings f = .ok s₀) {limit : Option Duration}
    (hs : s₀.search clock limit = .ok (status, s)) :
    (status = .refuted ∧ ∀ σ, ¬ f.Holds σ) ∨ Reachable settings f status s := by
  unfold State.search at hs
  cases hbegin : s₀.begin (clock 0) limit with
  | error fault => simp [hbegin, bind, Except.bind] at hs
  | ok r =>
      obtain ⟨status₀, deadline⟩ := r
      simp only [hbegin, bind, Except.bind] at hs
      obtain ⟨hload, rfl⟩ | ⟨hload, rfl⟩ := State.status_of_begin hbegin
      · rw [run_of_isFinal rfl] at hs
        cases hs
        exact .inl ⟨rfl, (Started.of_start hstart).2.not_holds hload⟩
      · exact .inr ((Reachable.start hstart hload).run hs)

/-- A search without a time limit ends with a verdict, however much fuel it is given. -/
theorem Started.search_ok (h : Started settings f s₀) (clock : Nat → Instant) :
    ∃ status₀ status s, s₀.begin (clock 0) none = .ok (status₀, none) ∧
      (∀ fuel, transitionBound f.varCount ≤ fuel →
        run (fun _ => false) fuel 0 status₀ s₀ = .ok (status, s)) ∧
      s₀.search clock none = .ok (status, s) ∧ (status = .satisfied ∨ status = .refuted) := by
  have hsize : s₀.trail.cells.size = f.varCount := h.loaded.ready.coherent.size_cells
  cases hload : s₀.refutedAtLoad with
  | true =>
      have hbegin : s₀.begin (clock 0) none = .ok (.refuted, none) := by simp [State.begin, hload]
      refine ⟨.refuted, .refuted, s₀, hbegin, fun _ _ => run_of_isFinal rfl, ?_, .inr rfl⟩
      simp only [State.search, hbegin, bind, Except.bind]
      exact run_of_isFinal rfl
  | false =>
      have hbegin : s₀.begin (clock 0) none = .ok (.propagating, none) := by
        simp [State.begin, hload, deadline?, Except.map]
      obtain ⟨status, s, hrun, -, hfinal⟩ := (h.invariant hload).run_final (fun _ => false) 0
        (potential_le_transitionBound f.varCount .propagating s₀)
      have hnot := (h.invariant hload).run_uninterrupted (fun _ => rfl) (by simp) hrun
      refine ⟨.propagating, status, s, hbegin, fun fuel hle => run_of_le hrun hfinal hle, ?_, ?_⟩
      · simp only [State.search, hbegin, bind, Except.bind, hsize]
        exact hrun
      · cases status <;> simp_all [Status.isFinal]

/-! ## The verdicts -/

/-- The model of a satisfiable formula gives each variable the value that it has on the trail, and
makes every clause true. -/
theorem model_of_satisfiable {m : Model} {events : List Event}
    (h : solve clock settings f = .ok (.satisfiable m, events)) :
    ∃ s₀ s, State.start settings f = .ok s₀ ∧
      s₀.search clock settings.timeLimit = .ok (.satisfied, s) ∧
      m.formula = f ∧ m.values = s.trail.values ∧
      (∀ v : Variable, v.index < f.varCount → s.trail.valueOf v = some (m.value v)) ∧
      f.Holds m.value ∧ m.falsified? = none := by
  obtain ⟨s₀, status, s, hstart, hsearch, houtcome⟩ := of_solve h
  obtain ⟨rfl, rfl, hvalues⟩ := of_outcome_satisfiable houtcome
  obtain ⟨hstatus, -⟩ | hreach := reachable_of_search hstart hsearch
  · cases hstatus
  · have hinv := hreach.invariant
    have hvalue : m.value = fun v => (s.trail.valueOf v).getD false := by
      funext v
      rw [Model.value, hvalues, Trail.getD_values]
    have hholds : m.formula.Holds m.value := hvalue ▸ hinv.holds_values
    refine ⟨s₀, s, hstart, hsearch, rfl, hvalues, fun v hv => ?_, hholds,
      Model.falsified?_eq_none hholds⟩
    obtain ⟨value, hassigned⟩ := Option.isSome_iff_exists.1 (hinv.isSome_valueOf hv)
    rw [hassigned, congrFun hvalue v, hassigned, Option.getD_some]

theorem model_of_satisfiable_sample : ∃ (m : Model) (events : List Event),
    solve (fun _ => ⟨0⟩) Sample.exact Sample.satisfiable = .ok (.satisfiable m, events) ∧
      Sample.satisfiable.Holds m.value ∧ m.falsified? = none := by
  obtain ⟨⟨o, events⟩, hsolve, ho⟩ := exists_of_any
    (x := solve (fun _ => ⟨0⟩) Sample.exact Sample.satisfiable)
    (p := fun r => match r.1 with | .satisfiable _ => true | _ => false) (by decide +kernel)
  cases o with
  | satisfiable m =>
      obtain ⟨s₀, s, -, -, -, -, -, hholds, hnone⟩ := model_of_satisfiable hsolve
      exact ⟨m, events, hsolve, hholds, hnone⟩
  | unsatisfiable => cases ho
  | unknown => cases ho

/-- No assignment satisfies a formula that the search calls unsatisfiable. -/
theorem not_holds_of_unsatisfiable {events : List Event}
    (h : solve clock settings f = .ok (.unsatisfiable, events)) (σ : Variable → Bool) :
    ¬ f.Holds σ := by
  obtain ⟨s₀, status, s, hstart, hsearch, houtcome⟩ := of_solve h
  obtain rfl := of_outcome_unsatisfiable houtcome
  obtain ⟨-, hnot⟩ | hreach := reachable_of_search hstart hsearch
  · exact hnot σ
  · exact hreach.invariant.not_holds σ

theorem not_holds_of_unsatisfiable_sample : ∃ events : List Event,
    solve (fun _ => ⟨0⟩) Sample.exact Sample.contradictory = .ok (.unsatisfiable, events) ∧
      ∀ σ, ¬ Sample.contradictory.Holds σ := by
  obtain ⟨⟨o, events⟩, hsolve, ho⟩ := exists_of_any
    (x := solve (fun _ => ⟨0⟩) Sample.exact Sample.contradictory)
    (p := fun r => match r.1 with | .unsatisfiable => true | _ => false) (by decide +kernel)
  cases o with
  | satisfiable m => cases ho
  | unsatisfiable => exact ⟨events, hsolve, fun σ => not_holds_of_unsatisfiable hsolve σ⟩
  | unknown => cases ho

/-- Without a time limit the search comes to a verdict after finitely many transitions, and it says
of every formula whether an assignment satisfies it. -/
theorem solve_decides (hdecay : DecayInRange settings) (hlimit : settings.timeLimit = none)
    (f : Formula) (clock : Nat → Instant) :
    ∃ s₀ status₀ status s o events, State.start settings f = .ok s₀ ∧
      s₀.begin (clock 0) none = .ok (status₀, none) ∧
      (∀ fuel, transitionBound f.varCount ≤ fuel →
        run (fun _ => false) fuel 0 status₀ s₀ = .ok (status, s)) ∧
      solve clock settings f = .ok (o, events) ∧
      (status = .satisfied ∧ (∃ m, o = .satisfiable m) ∧ (∃ σ, f.Holds σ) ∨
        status = .refuted ∧ o = .unsatisfiable ∧ ¬ ∃ σ, f.Holds σ) := by
  obtain ⟨s₀, hstart, hstarted⟩ := start_ok hdecay f
  obtain ⟨status₀, status, s, hbegin, hrun, hsearch, hfinal⟩ := hstarted.search_ok clock
  have hsolve : ∀ o, outcome f status s = .ok o →
      solve clock settings f = .ok (o, s.finish.journal.reverse) := by
    intro o houtcome
    simp only [solve, hstart, hlimit, hsearch, houtcome, bind, Except.bind, pure, Except.pure]
  rcases hfinal with rfl | rfl
  · obtain ⟨hstatus, -⟩ | hreach := reachable_of_search hstart hsearch
    · cases hstatus
    · have hinv := hreach.invariant
      obtain ⟨m, hm⟩ := hinv.outcome_ok
      exact ⟨s₀, status₀, _, s, _, _, hstart, hbegin, hrun, hsolve _ hm,
        .inl ⟨rfl, ⟨m, rfl⟩, ⟨_, hinv.holds_values⟩⟩⟩
  · have hnot : ¬ ∃ σ, f.Holds σ := by
      rintro ⟨σ, hσ⟩
      obtain ⟨-, hnot⟩ | hreach := reachable_of_search hstart hsearch
      · exact hnot σ hσ
      · exact hreach.invariant.not_holds σ hσ
    exact ⟨s₀, status₀, _, s, _, _, hstart, hbegin, hrun, hsolve _ rfl, .inr ⟨rfl, rfl, hnot⟩⟩

theorem solve_decides_sample : ∃ (s₀ : State Rat) (status₀ status : Status) (s : State Rat)
    (o : Outcome) (events : List Event), State.start Sample.exact Sample.contradictory = .ok s₀ ∧
      s₀.begin ⟨0⟩ none = .ok (status₀, none) ∧
      (∀ fuel, transitionBound 2 ≤ fuel →
        run (fun _ => false) fuel 0 status₀ s₀ = .ok (status, s)) ∧
      solve (fun _ => ⟨0⟩) Sample.exact Sample.contradictory = .ok (o, events) ∧
      (status = .satisfied ∧ (∃ m, o = .satisfiable m) ∧ (∃ σ, Sample.contradictory.Holds σ) ∨
        status = .refuted ∧ o = .unsatisfiable ∧ ¬ ∃ σ, Sample.contradictory.Holds σ) :=
  solve_decides (by decide) rfl Sample.contradictory fun _ => ⟨0⟩

end Search

end ClauseLearning
