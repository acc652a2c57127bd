import Mathlib
import ClauseLearning.Search.Transition
import ClauseLearning.Proofs.Ranking.Offers
import ClauseLearning.Proofs.Search.Moves

/-!
# What the transitions do

No transition fails where trail, database and heuristics are as they should be. One lemma for each
says what it leaves behind.
-/

namespace ClauseLearning

/-! ## Heuristics -/

theorem Ranking.Offers.grows {α : Type} {r : Ranking α} {n : Nat} {t t' : Trail}
    (h : r.Offers n fun v => (t.valueOf v).isSome) (hg : t.Grows t') :
    r.Offers n fun v => (t'.valueOf v).isSome := by
  refine h.mono fun v hv => ?_
  cases ha : t.assignment? v with
  | none => simp [Trail.valueOf, ha]
  | some a => simp [Trail.valueOf, hg.kept v a ha] at hv

namespace Phases

variable {p : Phases}

theorem choose_ok {v : Variable} (hv : v.index < p.saved.size) :
    ∃ value p', p.choose v = .ok (value, p') ∧ p'.saved = p.saved := by
  unfold choose
  cases p.mode with
  | random => exact ⟨_, _, rfl, rfl⟩
  | saved =>
      rw [Array.getElem?_eq_getElem hv]
      exact ⟨_, _, rfl, rfl⟩
  | positive => exact ⟨_, _, rfl, rfl⟩
  | negative => exact ⟨_, _, rfl, rfl⟩

theorem saveAll (removed : List Literal) (h : ∀ l ∈ removed, l.var.index < p.saved.size) :
    ∃ p', removed.foldlM save p = .ok p' ∧ p'.saved.size = p.saved.size := by
  obtain ⟨p', hp', -, hsize⟩ := foldlM_ok save
    (fun rest p₁ => (∀ l ∈ rest, l.var.index < p.saved.size) ∧ p₁.saved.size = p.saved.size)
    (fun l rest p₁ ⟨hrest, hp₁⟩ => by
      have hl : l.var.index < p₁.saved.size := hp₁ ▸ hrest l List.mem_cons_self
      refine ⟨_, by rw [save, dif_pos hl], fun k hk => hrest k (List.mem_cons_of_mem _ hk), ?_⟩
      simpa using hp₁)
    removed ⟨h, rfl⟩
  exact ⟨p', hp', hsize⟩

end Phases

namespace Search.State

variable {α : Type} {s s' : State α} {n k : Nat} {learnt : Learnt}

/-- The heuristics know all variables and offer those that are not assigned. -/
structure Poised (s : State α) (n : Nat) : Prop where
  offers : s.ranking.Offers n fun v => (s.trail.valueOf v).isSome
  size_saved : s.phases.saved.size = n

/-! ## Backtracking -/

theorem Poised.backtrack [Score α] (h : s.Poised n) (ht : s.trail.Coherent n) (b : Nat) :
    ∃ ranking phases, s.backtrack b =
        .ok { s with trail := (s.trail.backtrack b).2, ranking := ranking, phases := phases } ∧
      Poised { s with
        trail := (s.trail.backtrack b).2, ranking := ranking, phases := phases } n := by
  have hscope : ∀ l ∈ (s.trail.backtrack b).1, l.var.index < n := by
    intro l hl
    have hl' := List.mem_of_mem_drop (List.mem_reverse.1 hl)
    exact ht.lt_of_mem (by simpa using hl')
  obtain ⟨ranking, hranking, hoffers⟩ := h.offers.insertAll
    (fun v => ((s.trail.backtrack b).2.valueOf v).isSome) (s.trail.backtrack b).1 hscope
    fun v hv hmem => by
      rw [Trail.backtrack, List.map_reverse, List.mem_reverse] at hmem
      rwa [Trail.valueOf, Trail.assignment?_backtrack, if_neg hmem] at hv
  obtain ⟨phases, hphases, hsize⟩ := Phases.saveAll (p := s.phases)
    (s.trail.backtrack b).1 (h.size_saved.symm ▸ hscope)
  refine ⟨ranking, phases, ?_, hoffers, hsize.trans h.size_saved⟩
  simp only [State.backtrack, hranking, hphases, bind, Except.bind, pure, Except.pure]

/-! ## Propagation -/

/-- The state after propagation, and the status that tells how it ended. -/
structure Propagated (s : State α) (n : Nat) (status : Status) (s' : State α) : Prop where
  grows : s.trail.Grows s'.trail
  head : s.trail.head ≤ s'.trail.head
  contents : s'.database.contents = s.database.contents
  marks : s'.marks = s.marks
  schedule : s'.schedule = s.schedule
  poised : s'.Poised n
  statistics : s'.statistics = { s.statistics with
    propagations := s.statistics.propagations + (s'.trail.head - s.trail.head) }
  refutedAtLoad : s'.refutedAtLoad = s.refutedAtLoad
  outcome : (∃ k, status = .conflict k ∧ Clash n s'.database s'.trail k) ∨
    (status = if s'.trail.isComplete then .satisfied else .deciding) ∧
      Ready n s'.database s'.trail ∧ s'.trail.head = s'.trail.literals.size

theorem propagate_ok (hready : Ready n s.database s.trail) (h : s.Poised n) :
    ∃ status s', s.propagate = .ok (status, s') ∧ s.Propagated n status s' := by
  obtain ⟨p, hp, hprop⟩ := hready.propagate
  simp only [propagate, hp, bind, Except.bind, pure, Except.pure]
  refine ⟨_, _, rfl, ?_⟩
  refine ⟨hprop.grows, hprop.head, hprop.contents, rfl, rfl,
    ⟨h.offers.grows hprop.grows, h.size_saved⟩, rfl, rfl, ?_⟩
  cases hconflict : p.conflict with
  | none => exact .inr ⟨rfl, hprop.fixpoint hconflict⟩
  | some k => exact .inl ⟨k, rfl, hprop.clash k hconflict⟩

/-! ## Conflicts -/

variable [Score α]

theorem assertLearnt_ok (h : s.Poised n) (hclash : Clash n s.database s.trail k)
    (ha : learnt.Asserts s.graph s.trail.literals.toList s.trail.level)
    (hlevel : s.trail.level ≠ 0) :
    ∃ ranking phases c db, db.Sound n ∧ db.clauses = s.database.clauses.push c ∧
      Database.Stores c learnt.literals true ∧
      s.assertLearnt learnt = .ok { s with
        database := db, trail := s.trail.jump learnt s.database.clauses.size,
        ranking := ranking, phases := phases,
        statistics := { s.statistics with learnt := s.statistics.learnt + 1 } } ∧
      ranking.Offers n (fun v =>
        ((s.trail.jump learnt s.database.clauses.size).valueOf v).isSome) ∧
      phases.saved.size = n := by
  have hcoherent := hclash.coherent
  obtain ⟨ranking, phases, hback, hpoised⟩ := h.backtrack hcoherent learnt.backjump
  have hne : learnt.literals ≠ [] := List.cons_ne_nil _ _
  obtain ⟨c, db, hadd, hsound, hclauses, hc⟩ := hclash.sound.add hne
    (fun l hl => ha.lt_of_mem hcoherent hl) (ha.distinct.of_map _) true
  have hunassigned := ha.unassigned_backtrack hcoherent hlevel
  have hcells := ha.lt_cells_backtrack hcoherent
  refine ⟨ranking, phases, c, db, hsound, hclauses, hc, ?_,
    hpoised.offers.grows (.extend hunassigned), hpoised.size_saved⟩
  simp only [assertLearnt, hback, hadd, Trail.assign_of_unassigned hcells hunassigned, bind,
    Except.bind, pure, Except.pure, Trail.jump]

/-- The trail after a conflict, which a restart cuts down to the root level. -/
def restarted (t : Trail) (due : Bool) : Trail := if due then (t.backtrack 0).2 else t

theorem restartIfDue_ok (h : s.Poised n) (ht : s.trail.Coherent n) :
    ∃ s', s.restartIfDue = .ok s' ∧ s'.Poised n ∧ s'.database = s.database ∧
      s'.trail = restarted s.trail s.schedule.onConflict.1 ∧ s'.marks = s.marks ∧
      s'.schedule = s.schedule.onConflict.2 ∧ s'.refutedAtLoad = s.refutedAtLoad ∧
      s'.statistics = { s.statistics with
        restarts := s.statistics.restarts + s.schedule.onConflict.1.toNat } := by
  unfold restartIfDue
  split
  · rename_i schedule hdue
    rw [hdue]
    exact ⟨_, rfl, ⟨h.offers, h.size_saved⟩, rfl, rfl, rfl, rfl, rfl, rfl⟩
  · rename_i schedule hdue
    rw [hdue]
    obtain ⟨ranking, phases, hback, hpoised⟩ := Poised.backtrack (s := { s with
      schedule
      statistics := { s.statistics with restarts := s.statistics.restarts + 1 }
      journal := .restarted schedule.restarts s.statistics.conflicts schedule.interval :: s.journal })
      ⟨h.offers, h.size_saved⟩ ht 0
    exact ⟨_, hback, hpoised, rfl, rfl, rfl, rfl, rfl, rfl⟩

theorem rewardLearnt_ok (h : s.Poised n) (hscope : ∀ l ∈ learnt.literals, l.var.index < n) :
    ∃ ranking journal, s.rewardLearnt learnt =
        .ok { s with ranking := ranking, journal := journal } ∧
      Poised { s with ranking := ranking, journal := journal } n := by
  obtain ⟨ranking, hlearn, hoffers⟩ := h.offers.learn learnt.literals hscope
  simp only [rewardLearnt, hlearn, bind, Except.bind, pure, Except.pure]
  exact ⟨_, _, rfl, hoffers.age, h.size_saved⟩

/-- The state after a conflict above the root level, from which a clause was learnt. -/
structure Resolved (s : State α) (n : Nat) (learnt : Learnt) (s' : State α) : Prop where
  asserts : learnt.Asserts s.graph s.trail.literals.toList s.trail.level
  entailed : ∀ σ, (∀ k c, s.database.literals? k = some c → (Clause.mk c).Holds σ) →
    (Clause.mk learnt.literals).Holds σ
  sound : s'.database.Sound n
  stored : ∃ c, s'.database.clauses = s.database.clauses.push c ∧
    Database.Stores c learnt.literals true
  trail : s'.trail =
    restarted (s.trail.jump learnt s.database.clauses.size) s.schedule.onConflict.1
  marks : s'.marks = Marks.clear n
  schedule : s'.schedule = s.schedule.onConflict.2
  poised : s'.Poised n
  statistics : s'.statistics = { s.statistics with
    conflicts := s.statistics.conflicts + 1
    learnt := s.statistics.learnt + 1
    restarts := s.statistics.restarts + s.schedule.onConflict.1.toNat }
  refutedAtLoad : s'.refutedAtLoad = s.refutedAtLoad

theorem resolve_eq {c : List Literal} {marks : Marks} {rewarded asserted : State α}
    (hlevel : s.trail.level ≠ 0) (hc : s.database.literals? k = some c)
    (hanalyze : analyze s.graph s.trail.level c s.trail.literals.toList s.marks =
      .ok (learnt, marks))
    (hreward : State.rewardLearnt { s with
      marks := marks
      statistics := { s.statistics with conflicts := s.statistics.conflicts + 1 }
      journal := .learnt learnt.literals.length s.trail.level learnt.backjump :: s.journal }
      learnt = .ok rewarded)
    (hassert : rewarded.assertLearnt learnt = .ok asserted)
    (hrestart : asserted.restartIfDue = .ok s') : s.resolve k = .ok (.propagating, s') := by
  have hanalyze' : analyze (graph { s with statistics := { s.statistics with
      conflicts := s.statistics.conflicts + 1 } }) s.trail.level c s.trail.literals.toList s.marks =
      .ok (learnt, marks) := hanalyze
  simp only [resolve, if_neg hlevel, hc, hanalyze', bind, Except.bind, tell, hreward, hassert,
    hrestart]
  rfl

/-- The clause that is learnt is the one that analysis gives for the clause in conflict. -/
theorem resolve_learns (h : s.Poised n) (hmarks : s.marks = Marks.clear n)
    (hclash : Clash n s.database s.trail k) (hlevel : s.trail.level ≠ 0) :
    ∃ c learnt s', s.database.literals? k = some c ∧
      analyze s.graph s.trail.level c s.trail.literals.toList s.marks =
        .ok (learnt, Marks.clear n) ∧
      s.resolve k = .ok (.propagating, s') ∧ s.Resolved n learnt s' := by
  obtain ⟨c, learnt, hc, hanalyze, ha, hentailed⟩ := hclash.analyze hlevel
  obtain ⟨ranking, journal, hreward, hrewarded⟩ := rewardLearnt_ok (s := { s with
      marks := Marks.clear n
      statistics := { s.statistics with conflicts := s.statistics.conflicts + 1 }
      journal := .learnt learnt.literals.length s.trail.level learnt.backjump :: s.journal })
    ⟨h.offers, h.size_saved⟩ fun l hl => ha.lt_of_mem hclash.coherent hl
  obtain ⟨ranking', phases, d, db, hsound, hclauses, hd, hassert, hoffers, hsaved⟩ :=
    assertLearnt_ok hrewarded hclash ha hlevel
  obtain ⟨s', hrestart, hpoised, hdatabase, htrail, hmarks', hschedule, hload, hstatistics⟩ :=
    restartIfDue_ok (s := { s with
      database := db, trail := s.trail.jump learnt s.database.clauses.size,
      marks := Marks.clear n, ranking := ranking', phases := phases, journal := journal,
      statistics := { s.statistics with
        conflicts := s.statistics.conflicts + 1, learnt := s.statistics.learnt + 1 } })
      ⟨hoffers, hsaved⟩ (hclash.coherent_jump ha hlevel _)
  have hanalyze' : analyze s.graph s.trail.level c s.trail.literals.toList s.marks =
      .ok (learnt, Marks.clear n) := by
    rw [hmarks]
    exact hanalyze
  refine ⟨c, learnt, s', hc, hanalyze', resolve_eq hlevel hc hanalyze' hreward hassert hrestart, ha,
    hentailed, hdatabase ▸ hsound, ⟨d, hdatabase ▸ hclauses, hd⟩, htrail, hmarks', hschedule,
    hpoised, hstatistics, hload⟩

theorem resolve_ok (h : s.Poised n) (hmarks : s.marks = Marks.clear n)
    (hclash : Clash n s.database s.trail k) (hlevel : s.trail.level ≠ 0) :
    ∃ learnt s', s.resolve k = .ok (.propagating, s') ∧ s.Resolved n learnt s' := by
  obtain ⟨-, learnt, s', -, -, hs', hr⟩ := resolve_learns h hmarks hclash hlevel
  exact ⟨learnt, s', hs', hr⟩

theorem resolve_root (hlevel : s.trail.level = 0) : s.resolve k = .ok (.refuted, { s with
    statistics := { s.statistics with conflicts := s.statistics.conflicts + 1 } }) := by
  simp [resolve, hlevel, pure, Except.pure]

/-! ## Decisions -/

/-- The state after a decision for a literal. -/
structure Decided (s : State α) (n : Nat) (l : Literal) (s' : State α) : Prop where
  inScope : l.var.index < n
  unassigned : s.trail.valueOf l.var = none
  trail : s'.trail = s.trail.openLevel.extend l none
  database : s'.database = s.database
  marks : s'.marks = s.marks
  schedule : s'.schedule = s.schedule
  poised : s'.Poised n
  statistics : s'.statistics = { s.statistics with decisions := s.statistics.decisions + 1 }
  refutedAtLoad : s'.refutedAtLoad = s.refutedAtLoad

theorem decide_ok (ht : s.trail.Coherent n) (h : s.Poised n) {v : Variable} (hv : v.index < n)
    (hfree : s.trail.valueOf v = none) :
    ∃ l s', s.decide = .ok (.propagating, s') ∧ s.Decided n l s' ∧
      (s.ranking.take fun v => (s.trail.valueOf v).isSome).1 = some l.var := by
  obtain ⟨w, ranking, htake, hw, hwfree, hoffers⟩ := h.offers.take hv (by simp [hfree])
  obtain ⟨positive, phases, hchoose, hsaved⟩ := Phases.choose_ok (p := s.phases)
    (v := w) (h.size_saved.symm ▸ hw)
  have hunassigned : s.trail.openLevel.valueOf w = none := by
    rwa [Option.isSome_eq_false_iff, Option.isNone_iff_eq_none] at hwfree
  have hcells : w.index < s.trail.openLevel.cells.size := ht.size_cells.symm ▸ hw
  have hassign := Trail.assign_of_unassigned (l := ⟨w, positive⟩) (r := none) hcells hunassigned
  simp only [decide, htake, hchoose, hassign, bind, Except.bind, pure, Except.pure]
  refine ⟨⟨w, positive⟩, _, rfl, ⟨hw, hunassigned, rfl, rfl, rfl, rfl, ⟨?_, ?_⟩, rfl, rfl⟩, rfl⟩
  · refine hoffers.mono fun u hu => ?_
    by_cases huw : u = w
    · subst huw
      rw [Trail.isTrue_extend_self (l := ⟨u, positive⟩) hcells] at hu
      cases hu
    · rw [Trail.valueOf, Trail.assignment?_extend_of_ne huw] at hu
      have hfree : s.trail.valueOf u = none := by
        rwa [Option.isSome_eq_false_iff, Option.isNone_iff_eq_none] at hu
      simp [hfree, huw]
  · exact (congrArg Array.size hsaved).trans h.size_saved

end Search.State

end ClauseLearning
