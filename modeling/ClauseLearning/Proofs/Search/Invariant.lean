import Mathlib
import ClauseLearning.Search.Run
import ClauseLearning.Proofs.Search.Loading
import ClauseLearning.Proofs.Search.Transitions

/-!
# The invariant of the search

What holds between two transitions, by status. Every transition succeeds and keeps it, and so does
every run.
-/

namespace ClauseLearning.Search

variable {α : Type} {f : Formula} {s s' : State α} {status status' : Status} {n : Nat}

/-- What the status says of trail and database. -/
def Status.Fits (n : Nat) (db : Database) (t : Trail) : Status → Prop
  | .propagating => Ready n db t
  | .conflict k => Clash n db t k
  | .deciding => Ready n db t ∧ t.head = t.literals.size ∧ t.isComplete = false
  | .satisfied => Ready n db t ∧ t.head = t.literals.size ∧ t.isComplete = true
  | .refuted => t.level = 0 ∧ ∃ k, Clash n db t k
  | .interrupted => Ready n db t ∧ t.head = t.literals.size

theorem Status.Fits.fitting {db : Database} {t : Trail} (h : status.Fits n db t) :
    Fitting n db t := by
  cases status with
  | propagating => exact h.toFitting
  | conflict k => exact h.toFitting
  | deciding => exact h.1.toFitting
  | satisfied => exact h.1.toFitting
  | refuted => exact h.2.choose_spec.toFitting
  | interrupted => exact h.1.toFitting

/-- What holds of a search over the formula at each status. -/
structure Invariant (f : Formula) (status : Status) (s : State α) : Prop where
  represents : s.database.Represents f
  rooted : s.database.Rooted s.trail
  marks : s.marks = Marks.clear f.varCount
  poised : s.Poised f.varCount
  fits : status.Fits f.varCount s.database s.trail

/-! ## Transitions -/

/-- What a transition from a status does to the state, and the status that it leads to. -/
inductive Stepped (n : Nat) (expired : Bool) : Status → State α → Status → State α → Prop where
  | propagated {status : Status} {s s' : State α} : s.Propagated n status s' →
      Stepped n expired .propagating s status s'
  | resolved {k : Nat} {learnt : Learnt} {s s' : State α} : Clash n s.database s.trail k →
      s.trail.level ≠ 0 → s.Resolved n learnt s' → Stepped n expired (.conflict k) s .propagating s'
  | refuted {k : Nat} {s : State α} : s.trail.level = 0 → Stepped n expired (.conflict k) s .refuted
      { s with statistics := { s.statistics with conflicts := s.statistics.conflicts + 1 } }
  | decided {l : Literal} {s s' : State α} : expired = false → s.Decided n l s' →
      Stepped n expired .deciding s .propagating s'
  | interrupted {s : State α} : expired = true → Stepped n expired .deciding s .interrupted s
  | ended {status : Status} {s : State α} : status.isFinal = true →
      Stepped n expired status s status s

namespace Invariant

/-- Where a decision is due some variable is not assigned, so one is made. -/
theorem decide_ok [Score α] (h : Invariant f .deciding s) :
    ∃ l s', s.decide = .ok (.propagating, s') ∧ s.Decided f.varCount l s' ∧
      (s.ranking.take fun v => (s.trail.valueOf v).isSome).1 = some l.var := by
  obtain ⟨hready, -, hincomplete⟩ := h.fits
  obtain ⟨v, hv, hfree⟩ := hready.coherent.exists_unassigned f.varCount_le hincomplete
  exact State.decide_ok hready.coherent h.poised hv hfree

theorem step_ok [Score α] (h : Invariant f status s) (expired : Bool) :
    ∃ status' s', s.step expired status = .ok (status', s') ∧
      Stepped f.varCount expired status s status' s' := by
  cases status with
  | propagating =>
      obtain ⟨status', s', hstep, hp⟩ := State.propagate_ok h.fits h.poised
      exact ⟨status', s', hstep, .propagated hp⟩
  | conflict k =>
      by_cases hlevel : s.trail.level = 0
      · exact ⟨_, _, State.resolve_root hlevel, .refuted hlevel⟩
      · obtain ⟨learnt, s', hstep, hr⟩ := State.resolve_ok h.poised h.marks h.fits hlevel
        exact ⟨_, s', hstep, .resolved h.fits hlevel hr⟩
  | deciding =>
      cases expired with
      | true => exact ⟨_, _, rfl, .interrupted rfl⟩
      | false =>
          obtain ⟨l, s', hstep, hd, -⟩ := h.decide_ok
          exact ⟨_, s', hstep, .decided rfl hd⟩
  | satisfied => exact ⟨_, _, rfl, .ended rfl⟩
  | refuted => exact ⟨_, _, rfl, .ended rfl⟩
  | interrupted => exact ⟨_, _, rfl, .ended rfl⟩

theorem propagated (h : Invariant f .propagating s) (hp : s.Propagated f.varCount status s') :
    Invariant f status s' where
  represents := h.represents.congr hp.contents
  rooted := h.rooted.grows hp.grows hp.contents
  marks := hp.marks.trans h.marks
  poised := hp.poised
  fits := by
    obtain ⟨k, rfl, hclash⟩ | ⟨rfl, hready, hhead⟩ := hp.outcome
    · exact hclash
    · split
      · exact ⟨hready, hhead, ‹_›⟩
      · exact ⟨hready, hhead, Bool.eq_false_iff.2 ‹_›⟩

theorem decided {l : Literal} (h : Invariant f .deciding s) (hd : s.Decided f.varCount l s') :
    Invariant f .propagating s' where
  represents := hd.database ▸ h.represents
  rooted := by
    rw [hd.database, hd.trail]
    exact Database.Rooted.grows (t := s.trail.openLevel) h.rooted (.extend hd.unassigned) rfl
  marks := hd.marks.trans h.marks
  poised := hd.poised
  fits := by
    obtain ⟨hready, hhead, -⟩ := h.fits
    rw [Status.Fits, hd.database, hd.trail]
    exact hready.decide hhead hd.inScope hd.unassigned

theorem restart (h : Invariant f .propagating s) (htrail : s'.trail = (s.trail.backtrack 0).2)
    (hdatabase : s'.database = s.database) (hmarks : s'.marks = s.marks)
    (hpoised : s'.Poised f.varCount) : Invariant f .propagating s' where
  represents := hdatabase ▸ h.represents
  rooted := by
    rw [hdatabase, htrail]
    exact h.rooted.backtrack h.fits.coherent 0
  marks := hmarks.trans h.marks
  poised := hpoised
  fits := by
    rw [Status.Fits, hdatabase, htrail]
    exact h.fits.backtrack 0

theorem resolved {k : Nat} {learnt : Learnt} (h : Invariant f (.conflict k) s)
    (hlevel : s.trail.level ≠ 0) (hr : s.Resolved f.varCount learnt s') :
    Invariant f .propagating s' := by
  obtain ⟨c, hclauses, hc⟩ := hr.stored
  have hclash : Clash f.varCount s.database s.trail k := h.fits
  have hready := hclash.ready_jump hr.asserts hlevel hr.sound hclauses hc
  have hrooted := hclash.rooted_jump h.rooted hr.asserts hlevel hclauses hc
  refine ⟨h.represents.learn hclauses hc ?_ ?_ hr.asserts.distinct, ?_, hr.marks, hr.poised, ?_⟩
  · exact fun σ hσ => hr.entailed σ fun j d hd => h.represents.entailed j d hd σ hσ
  · exact fun j d hd => hr.asserts.not_subset hclash h.rooted hd
  · rw [hr.trail, State.restarted]
    split
    · exact hrooted.backtrack hready.coherent 0
    · exact hrooted
  · rw [Status.Fits, hr.trail, State.restarted]
    split
    · exact hready.backtrack 0
    · exact hready

theorem stepped {expired : Bool} (h : Invariant f status s)
    (hs : Stepped f.varCount expired status s status' s') : Invariant f status' s' := by
  cases hs with
  | propagated hp => exact h.propagated hp
  | resolved _ hlevel hr => exact h.resolved hlevel hr
  | refuted hlevel =>
      exact { h with poised := ⟨h.poised.1, h.poised.2⟩, fits := ⟨hlevel, _, h.fits⟩ }
  | decided _ hd => exact h.decided hd
  | interrupted => exact { h with fits := ⟨h.fits.1, h.fits.2.1⟩ }
  | ended => exact h

theorem step [Score α] {expired : Bool} (h : Invariant f status s)
    (hs : s.step expired status = .ok (status', s')) :
    Invariant f status' s' ∧ Stepped f.varCount expired status s status' s' := by
  obtain ⟨status₁, s₁, hs₁, hstepped⟩ := h.step_ok expired
  rw [hs] at hs₁
  cases hs₁
  exact ⟨h.stepped hstepped, hstepped⟩

/-- A run succeeds, and what each of its transitions keeps holds at its end. -/
theorem run_keeps [Score α] {P : Status → State α → Prop} (h : Invariant f status s)
    (hs : P status s) (expired : Nat → Bool)
    (hP : ∀ i {status s status' s'}, Invariant f status s → P status s →
      s.step (expired i) status = .ok (status', s') →
      Stepped f.varCount (expired i) status s status' s' → P status' s') (fuel made : Nat) :
    ∃ status' s', run expired fuel made status s = .ok (status', s') ∧ P status' s' := by
  induction fuel generalizing status s made with
  | zero => exact ⟨status, s, rfl, hs⟩
  | succ fuel ih =>
      rw [run]
      cases hfinal : status.isFinal with
      | true => exact ⟨status, s, rfl, hs⟩
      | false =>
          obtain ⟨status₁, s₁, hstep, hstepped⟩ := h.step_ok (expired made)
          rw [hstep]
          exact ih (h.stepped hstepped) (hP made h hs hstep hstepped) (made + 1)

end Invariant

/-! ## The beginning -/

theorem size_foldl_modify (ls : List Literal) (counts : Array Nat) :
    (ls.foldl (fun counts l => counts.modify l.var.index (· + 1)) counts).size = counts.size := by
  induction ls generalizing counts with
  | nil => rfl
  | cons l ls ih => simp [ih]

theorem size_occurrences (f : Formula) : f.occurrences.size = f.varCount := by
  rw [Formula.occurrences, ← Array.foldl_toList]
  suffices h : ∀ (cs : List Clause) (counts : Array Nat), (cs.foldl (fun counts c =>
      c.literals.foldl (fun counts l => counts.modify l.var.index (· + 1)) counts) counts).size =
        counts.size by
    rw [h, Array.size_replicate]
  intro cs
  induction cs with
  | nil => intro counts; rfl
  | cons c cs ih =>
      intro counts
      rw [List.foldl_cons, ih, size_foldl_modify]

variable {settings : Settings α}

/-- The state before the first transition, with all clauses taken in. -/
structure Started (settings : Settings α) (f : Formula) (s : State α) : Prop where
  loaded : Loading.Faithful f.varCount f.clauses.toList ⟨s.database, s.trail, s.refutedAtLoad⟩
  marks : s.marks = Marks.clear f.varCount
  poised : s.Poised f.varCount
  schedule : s.schedule = .start settings.restart
  statistics : s.statistics = .zero

theorem Started.invariant (h : Started settings f s) (hs : s.refutedAtLoad = false) :
    Invariant f .propagating s :=
  ⟨h.loaded.represents hs, h.loaded.rooted hs, h.marks, h.poised, h.loaded.ready⟩

variable [Score α]

/-- The decay factor is greater than zero and not greater than one. -/
def DecayInRange (settings : Settings α) : Prop :=
  Score.less (Score.ofNat 0) settings.decay ∧ ¬ Score.less (Score.ofNat 1) settings.decay

instance (settings : Settings α) : Decidable (DecayInRange settings) :=
  inferInstanceAs (Decidable (_ ∧ ¬ _))

theorem start_ok (h : DecayInRange settings) (f : Formula) :
    ∃ s, State.start settings f = .ok s ∧ Started settings f s := by
  obtain ⟨loaded, hload, hfaithful⟩ := Loading.Faithful.loadAll f
  obtain ⟨ranking, hranking, hoffers⟩ := Ranking.start_ok f.occurrences
    (Keystream.fraction (Keystream.keyOfSeed settings.seed)) h
  rw [size_occurrences] at hoffers
  simp only [State.start, hload, hranking, bind, Except.bind, pure, Except.pure]
  refine ⟨_, rfl, hfaithful, rfl, ⟨hoffers.mono fun _ _ => rfl, ?_⟩, rfl, rfl⟩
  exact Array.size_replicate

theorem Started.of_start (h : State.start settings f = .ok s) :
    DecayInRange settings ∧ Started settings f s := by
  by_cases hdecay : DecayInRange settings
  · obtain ⟨s₀, hs₀, hstarted⟩ := start_ok hdecay f
    rw [h] at hs₀
    cases hs₀
    exact ⟨hdecay, hstarted⟩
  · obtain ⟨loaded, hload, -⟩ := Loading.Faithful.loadAll f
    have hranking : Ranking.start f.occurrences settings.decay
        (Keystream.fraction (Keystream.keyOfSeed settings.seed)) = .error .decayOutOfRange :=
      if_neg hdecay
    simp only [State.start, hload, hranking, bind, Except.bind] at h
    cases h

end ClauseLearning.Search
