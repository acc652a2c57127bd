import Mathlib
import ClauseLearning.Proofs.Search.Reachable

/-!
# Saved phases

A search that keeps phases gives each decided variable the value that it had when it was last taken
back. What was taken back shows in the trails that the search has had.
-/

namespace ClauseLearning

variable {n b : Nat} {l : Literal} {v : Variable} {t t' : Trail} {trails : List Trail} {value : Bool}

namespace Trail

/-- The value that the variable had on the latest of the trails that it was taken back from. The trails
stand in order, the latest first. -/
def lastTaken (v : Variable) : List Trail → Option Bool
  | t' :: t :: trails =>
    match t.valueOf v, t'.valueOf v with
    | some value, none => some value
    | _, _ => lastTaken v (t :: trails)
  | _ => none

theorem lastTaken_of_taken (h : t.valueOf v = some value) (h' : t'.valueOf v = none) :
    lastTaken v (t' :: t :: trails) = some value := by
  simp only [lastTaken, h, h']

theorem lastTaken_of_kept (h : ∀ value, t.valueOf v = some value → t'.valueOf v = some value) :
    lastTaken v (t' :: t :: trails) = lastTaken v (t :: trails) := by
  cases hv : t.valueOf v with
  | none => simp only [lastTaken, hv]
  | some value => simp only [lastTaken, hv, h value hv]

theorem Grows.valueOf_eq (h : t.Grows t') (hv : t.valueOf v = some value) :
    t'.valueOf v = some value := by
  obtain ⟨a, ha, rfl⟩ := Option.map_eq_some_iff.1 hv
  rw [valueOf, h.kept v a ha, Option.map_some]

theorem eq_of_assign {r : Option Nat} (h : t.assign l r = .ok (some t')) :
    l.var.index < t.cells.size ∧ t.valueOf l.var = none ∧ t' = t.extend l r ∨ t' = t := by
  rcases t.unassigned_or_isTrue_or_isFalse l with hv | hv | hv
  · obtain ⟨hl, ht'⟩ := of_assign hv h
    exact .inl ⟨hl, hv, ht'⟩
  · rw [hv.assign] at h
    cases h
    exact .inr rfl
  · rw [hv.assign] at h
    cases h

/-- What is assigned stays assigned, and the trail coherent. -/
theorem Coherent.assign {r : Option Nat} (h : t.Coherent n)
    (hassign : t.assign l r = .ok (some t')) : t'.Coherent n ∧ t.Grows t' := by
  obtain ⟨hl, hv, rfl⟩ | rfl := eq_of_assign hassign
  · exact ⟨h.extend (h.size_cells ▸ hl) hv, .extend hv⟩
  · exact ⟨h, .refl _⟩

end Trail

namespace Phases

variable {p p' : Phases}

theorem choose_eq_ok_iff (hmode : p.mode = .saved) :
    p.choose v = .ok (value, p') ↔ p.saved[v.index]? = some value ∧ p' = p := by
  simp only [choose, hmode]
  cases p.saved[v.index]? <;> simp [eq_comm]

theorem save_eq_ok_iff : p.save l = .ok p' ↔ l.var.index < p.saved.size ∧
    p' = { p with saved := p.saved.setIfInBounds l.var.index l.positive } := by
  by_cases hl : l.var.index < p.saved.size
  · simp [save, hl, Array.setIfInBounds, eq_comm]
  · simp [save, hl]

/-- Where literals of distinct variables are saved, each of these variables has the value that makes
its literal true, and the others keep theirs. -/
theorem saved_of_saveAll {removed : List Literal} (h : removed.foldlM save p = .ok p')
    (hdistinct : (removed.map Literal.var).Nodup) : p'.mode = p.mode ∧
      (∀ v, v ∉ removed.map Literal.var → p'.saved[v.index]? = p.saved[v.index]?) ∧
      ∀ l ∈ removed, p'.saved[l.var.index]? = some l.positive := by
  induction removed generalizing p with
  | nil =>
      cases h
      exact ⟨rfl, fun _ _ => rfl, nofun⟩
  | cons l ls ih =>
      rw [List.foldlM_cons, bind_eq_ok_iff] at h
      obtain ⟨p₁, hsave, hrest⟩ := h
      obtain ⟨hl, rfl⟩ := save_eq_ok_iff.1 hsave
      rw [List.map_cons, List.nodup_cons] at hdistinct
      obtain ⟨hmode, hother, hsaved⟩ := ih hrest hdistinct.2
      refine ⟨hmode, fun v hv => ?_, fun m hm => ?_⟩
      · rw [List.map_cons, List.mem_cons, not_or] at hv
        have hindex : l.var.index ≠ v.index := fun heq => hv.1 (Variable.ext heq.symm)
        rw [hother v hv.2, Array.getElem?_setIfInBounds_ne hindex]
      · rcases List.mem_cons.1 hm with rfl | hm
        · rw [hother _ hdistinct.1, Array.getElem?_setIfInBounds_self_of_lt hl]
        · exact hsaved m hm

end Phases

namespace Search

variable {α : Type} {settings : Settings α} {f : Formula} {s s' : State α} {status status' : Status}

/-! ## What the transitions do to trail and phases -/

namespace State

theorem phases_of_propagate (h : s.propagate = .ok (status, s')) : s'.phases = s.phases := by
  obtain ⟨p, -, hs'⟩ := bind_eq_ok_iff.1 h
  cases hs'
  rfl

variable [Score α] {learnt : Learnt} {k : Nat}

theorem of_backtrack (h : s.backtrack b = .ok s') : s'.trail = (s.trail.backtrack b).2 ∧
    (s.trail.backtrack b).1.foldlM Phases.save s.phases = .ok s'.phases := by
  obtain ⟨ranking, -, h⟩ := bind_eq_ok_iff.1 h
  obtain ⟨phases, hphases, hs'⟩ := bind_eq_ok_iff.1 h
  cases hs'
  exact ⟨rfl, hphases⟩

theorem of_rewardLearnt (h : s.rewardLearnt learnt = .ok s') :
    s'.trail = s.trail ∧ s'.phases = s.phases := by
  obtain ⟨ranking, -, hs'⟩ := bind_eq_ok_iff.1 h
  cases hs'
  exact ⟨rfl, rfl⟩

theorem of_assertLearnt (h : s.assertLearnt learnt = .ok s') : ∃ jumped number,
    s.backtrack learnt.backjump = .ok jumped ∧
      jumped.trail.assign learnt.asserting (some number) = .ok (some s'.trail) ∧
      s'.phases = jumped.phases := by
  obtain ⟨jumped, hjump, h⟩ := bind_eq_ok_iff.1 h
  obtain ⟨⟨number, database⟩, -, h⟩ := bind_eq_ok_iff.1 h
  obtain ⟨assigned, hassign, h⟩ := bind_eq_ok_iff.1 h
  cases assigned with
  | none => cases h
  | some trail =>
      cases h
      exact ⟨jumped, number, hjump, hassign, rfl⟩

theorem of_decide (h : s.decide = .ok (.propagating, s')) : ∃ l : Literal,
    s.phases.choose l.var = .ok (l.positive, s'.phases) ∧
      s.trail.openLevel.assign l none = .ok (some s'.trail) := by
  unfold decide at h
  split at h
  · cases h
  · rename_i v ranking htake
    obtain ⟨⟨positive, phases⟩, hchoose, h⟩ := bind_eq_ok_iff.1 h
    obtain ⟨assigned, hassign, h⟩ := bind_eq_ok_iff.1 h
    cases assigned with
    | none => cases h
    | some trail =>
        cases h
        exact ⟨⟨v, positive⟩, hchoose, hassign⟩

/-- A decision takes the saved phase of its variable. -/
theorem Decided.saved (hd : s.Decided n l s') (hmode : s.phases.mode = .saved)
    (h : s.decide = .ok (.propagating, s')) :
    s.phases.saved[l.var.index]? = some l.positive := by
  obtain ⟨m, hchoose, hassign⟩ := of_decide h
  have hm : m = l := by
    obtain ⟨-, -, htrail⟩ | htrail := Trail.eq_of_assign hassign
    · have hpush := congrArg Trail.literals (htrail.symm.trans hd.trail)
      exact (Array.push_eq_push.1 hpush).1
    · have hsize := congrArg (·.literals.size) (htrail.symm.trans hd.trail)
      simp at hsize
  subst hm
  exact ((Phases.choose_eq_ok_iff hmode).1 hchoose).1

/-- The states between which a conflict above the root level is resolved: behind the jump, with the
asserting literal true, and behind the restart if one is due. -/
def ResolvesThrough (s : State α) (k : Nat) (jumped asserted s' : State α) : Prop :=
  ∃ c learnt marks rewarded, s.database.literals? k = some c ∧
    analyze s.graph s.trail.level c s.trail.literals.toList s.marks = .ok (learnt, marks) ∧
    State.rewardLearnt { s with
      marks
      statistics := { s.statistics with conflicts := s.statistics.conflicts + 1 }
      journal := .learnt learnt.literals.length s.trail.level learnt.backjump :: s.journal }
      learnt = .ok rewarded ∧
    rewarded.backtrack learnt.backjump = .ok jumped ∧ rewarded.assertLearnt learnt = .ok asserted ∧
    asserted.restartIfDue = .ok s'

/-- To resolve a conflict above the root level is to pass through these states. -/
theorem resolve_eq_ok_iff (hlevel : s.trail.level ≠ 0) :
    s.resolve k = .ok (status, s') ↔
      status = .propagating ∧ ∃ jumped asserted, s.ResolvesThrough k jumped asserted s' := by
  constructor
  · intro h
    simp only [resolve, if_neg hlevel] at h
    split at h
    · cases h
    · rename_i c hc
      obtain ⟨⟨learnt, marks⟩, hanalyze, h⟩ := bind_eq_ok_iff.1 h
      obtain ⟨rewarded, hreward, h⟩ := bind_eq_ok_iff.1 h
      obtain ⟨asserted, hassert, h⟩ := bind_eq_ok_iff.1 h
      obtain ⟨s₁, hrestart, h⟩ := bind_eq_ok_iff.1 h
      cases h
      obtain ⟨jumped, -, hjump, -⟩ := of_assertLearnt hassert
      exact ⟨rfl, jumped, asserted, c, learnt, marks, rewarded, hc, hanalyze, hreward, hjump,
        hassert, hrestart⟩
  · rintro ⟨rfl, jumped, asserted, c, learnt, marks, rewarded, hc, hanalyze, hreward, -, hassert,
      hrestart⟩
    exact resolve_eq hlevel hc hanalyze hreward hassert hrestart

end State

/-! ## What the phases remember -/

/-- Decisions follow the saved values, and these are the values that the variables had when they were
last taken back. -/
structure State.Remembers (s : State α) (n : Nat) (trails : List Trail) : Prop where
  mode : s.phases.mode = .saved
  latest : trails.head? = some s.trail
  saved : ∀ v : Variable, v.index < n →
    s.phases.saved[v.index]? = some ((Trail.lastTaken v trails).getD false)

namespace State.Remembers

theorem congr (h : s.Remembers n trails) (htrail : s'.trail = s.trail)
    (hphases : s'.phases = s.phases) : s'.Remembers n trails where
  mode := by rw [hphases, h.mode]
  latest := by rw [htrail, h.latest]
  saved v hv := by rw [hphases, h.saved v hv]

theorem exists_eq_cons (h : s.Remembers n trails) : ∃ earlier, trails = s.trail :: earlier := by
  cases trails with
  | nil => cases h.latest
  | cons t earlier =>
      cases h.latest
      exact ⟨earlier, rfl⟩

/-- A trail that keeps all assignments changes nothing. -/
theorem grow (h : s.Remembers n trails)
    (hkept : ∀ v value, s.trail.valueOf v = some value → s'.trail.valueOf v = some value)
    (hphases : s'.phases = s.phases) : s'.Remembers n (s'.trail :: trails) := by
  obtain ⟨earlier, rfl⟩ := h.exists_eq_cons
  refine ⟨by rw [hphases, h.mode], rfl, fun v hv => ?_⟩
  rw [hphases, h.saved v hv, Trail.lastTaken_of_kept (hkept v)]

theorem stay (h : s.Remembers n trails) (htrail : s'.trail = s.trail)
    (hphases : s'.phases = s.phases) : s'.Remembers n (s'.trail :: trails) :=
  h.grow (fun v value hv => by rw [htrail, hv]) hphases

variable [Score α] {learnt : Learnt} {k : Nat}

theorem backtrack (h : s.Remembers n trails) (ht : s.trail.Coherent n)
    (hback : s.backtrack b = .ok s') : s'.Remembers n (s'.trail :: trails) := by
  obtain ⟨earlier, rfl⟩ := h.exists_eq_cons
  obtain ⟨htrail, hphases⟩ := of_backtrack hback
  have hdistinct : ((s.trail.backtrack b).1.map Literal.var).Nodup := by
    rw [Trail.backtrack, List.map_reverse, List.nodup_reverse, List.map_drop]
    exact ht.distinct.sublist (List.drop_sublist _ _)
  have hvalue : ∀ v, s'.trail.valueOf v =
      if v ∈ (s.trail.backtrack b).1.map Literal.var then none else s.trail.valueOf v := by
    intro v
    rw [htrail, Trail.valueOf, Trail.assignment?_backtrack, Trail.backtrack, List.map_reverse]
    simp only [List.mem_reverse]
    split <;> rfl
  obtain ⟨hmode, hother, hsaved⟩ := Phases.saved_of_saveAll hphases hdistinct
  refine ⟨hmode.trans h.mode, rfl, fun v hv => ?_⟩
  by_cases hmem : v ∈ (s.trail.backtrack b).1.map Literal.var
  · obtain ⟨l, hl, rfl⟩ := List.mem_map.1 hmem
    have htrue : l ∈ s.trail.literals := by
      simpa using List.mem_of_mem_drop (List.mem_reverse.1 hl)
    rw [hsaved l hl, Trail.lastTaken_of_taken (ht.isTrue_of_mem l htrue)
      ((hvalue l.var).trans (if_pos hmem)), Option.getD_some]
  · rw [hother v hmem, h.saved v hv, Trail.lastTaken_of_kept]
    intro value hkept
    rw [hvalue, if_neg hmem, hkept]

/-- The variable of the asserting literal may be taken back twice, by the jump and by a restart. So the
trail between the two counts. -/
theorem assertLearnt {jumped : State α} (h : s.Remembers n trails) (ht : s.trail.Coherent n)
    (hjump : s.backtrack learnt.backjump = .ok jumped) (hassert : s.assertLearnt learnt = .ok s') :
    s'.Remembers n (s'.trail :: jumped.trail :: trails) ∧ s'.trail.Coherent n := by
  have hjumped := h.backtrack ht hjump
  obtain ⟨jumped', number, hjump', hassign, hphases⟩ := of_assertLearnt hassert
  cases hjump.symm.trans hjump'
  have hcoherent : jumped.trail.Coherent n := by
    rw [(of_backtrack hjump).1]
    exact ht.backtrack learnt.backjump
  obtain ⟨hcoherent', hgrows⟩ := hcoherent.assign hassign
  exact ⟨hjumped.grow (fun v value hv => hgrows.valueOf_eq hv) hphases, hcoherent'⟩

theorem restartIfDue (h : s.Remembers n trails) (ht : s.trail.Coherent n)
    (hrestart : s.restartIfDue = .ok s') : s'.Remembers n (s'.trail :: trails) := by
  unfold State.restartIfDue at hrestart
  split at hrestart
  · cases hrestart
    exact h.stay rfl rfl
  · rename_i schedule hdue
    have hcounted : State.Remembers { s with
        schedule
        statistics := { s.statistics with restarts := s.statistics.restarts + 1 }
        journal := .restarted schedule.restarts s.statistics.conflicts schedule.interval ::
          s.journal } n trails := h.congr rfl rfl
    exact hcounted.backtrack ht hrestart

theorem resolve {jumped asserted : State α} (h : s.Remembers n trails) (ht : s.trail.Coherent n)
    (hresolve : s.ResolvesThrough k jumped asserted s') :
    s'.Remembers n (s'.trail :: asserted.trail :: jumped.trail :: trails) := by
  obtain ⟨c, learnt, marks, rewarded, -, -, hreward, hjump, hassert, hrestart⟩ := hresolve
  obtain ⟨htrail, hphases⟩ := of_rewardLearnt hreward
  have hrewarded : rewarded.Remembers n trails := h.congr htrail hphases
  have hcoherent : rewarded.trail.Coherent n := by
    rw [htrail]
    exact ht
  obtain ⟨hasserted, hcoherent'⟩ := hrewarded.assertLearnt hcoherent hjump hassert
  exact hasserted.restartIfDue hcoherent' hrestart

omit [Score α] in
theorem assign {r : Option Nat} (h : s.Remembers n trails) (ht : s.trail.Coherent n)
    (hassign : s.trail.openLevel.assign l r = .ok (some s'.trail))
    (hphases : s'.phases = s.phases) : s'.Remembers n (s'.trail :: trails) :=
  h.grow (fun _ _ hv => (ht.openLevel.assign hassign).2.valueOf_eq hv) hphases

end State.Remembers

/-! ## The trails of a search -/

variable [Score α]

/-- The trails that a search has had up to a state, the latest first. Most transitions have one, and to
resolve a conflict above the root level has three: behind the jump, with the asserting literal true, and
behind the restart if one is due. -/
inductive Traced (settings : Settings α) (f : Formula) : List Trail → Status → State α → Prop where
  | start {s : State α} : State.start settings f = .ok s → s.refutedAtLoad = false →
      Traced settings f [s.trail] .propagating s
  | step {trails : List Trail} {status status' : Status} {s s' : State α} (expired : Bool) :
      Traced settings f trails status s → (∀ k, status = .conflict k → s.trail.level = 0) →
      s.step expired status = .ok (status', s') → Traced settings f (s'.trail :: trails) status' s'
  | resolve {trails : List Trail} {k : Nat} {s jumped asserted s' : State α} :
      Traced settings f trails (.conflict k) s → s.trail.level ≠ 0 →
      s.ResolvesThrough k jumped asserted s' →
      Traced settings f (s'.trail :: asserted.trail :: jumped.trail :: trails) .propagating s'
  | decide {trails : List Trail} {s : State α} {l : Literal} {t : Trail} :
      Traced settings f trails .deciding s →
      s.trail.valueOf l.var = none → s.trail.openLevel.assign l none = .ok (some t) →
      Traced settings f (t :: trails) .propagating { s with
        trail := t
        statistics := { s.statistics with decisions := s.statistics.decisions + 1 }
        journal := .decided l t.level :: s.journal }
  | restart {trails : List Trail} {s s' : State α} : Traced settings f trails .propagating s →
      s.backtrack 0 = .ok s' → Traced settings f (s'.trail :: trails) .propagating s'
  | resume {trails : List Trail} {s : State α} : Traced settings f trails .interrupted s →
      Traced settings f trails .propagating s

theorem Reachable.exists_traced (h : Reachable settings f status s) :
    ∃ trails, Traced settings f trails status s := by
  induction h with
  | start hs hload => exact ⟨_, .start hs hload⟩
  | @step status status' s s' expired _ hs ih =>
      obtain ⟨trails, h⟩ := ih
      by_cases hconflict : ∀ k, status = .conflict k → s.trail.level = 0
      · exact ⟨_, .step expired h hconflict hs⟩
      · push Not at hconflict
        obtain ⟨k, rfl, hlevel⟩ := hconflict
        obtain ⟨rfl, jumped, asserted, hresolve⟩ := (State.resolve_eq_ok_iff hlevel).1 hs
        exact ⟨_, .resolve h hlevel hresolve⟩
  | decide _ hfree hassign ih =>
      obtain ⟨trails, h⟩ := ih
      exact ⟨_, .decide h hfree hassign⟩
  | restart _ hback ih =>
      obtain ⟨trails, h⟩ := ih
      exact ⟨_, .restart h hback⟩
  | resume _ ih =>
      obtain ⟨trails, h⟩ := ih
      exact ⟨_, .resume h⟩

namespace Traced

theorem reachable (h : Traced settings f trails status s) : Reachable settings f status s := by
  induction h with
  | start hs hload => exact .start hs hload
  | step expired _ _ hs ih => exact ih.step expired hs
  | resolve _ hlevel hresolve ih =>
      exact ih.step false ((State.resolve_eq_ok_iff hlevel).2 ⟨rfl, _, _, hresolve⟩)
  | decide _ hfree hassign ih => exact ih.decide hfree hassign
  | restart _ hback ih => exact ih.restart hback
  | resume _ ih => exact ih.resume

theorem coherent (h : Traced settings f trails status s) : s.trail.Coherent f.varCount :=
  h.reachable.invariant.fits.fitting.coherent

theorem remembers_start (hmode : settings.polarity = .saved) (h : State.start settings f = .ok s) :
    s.Remembers f.varCount [s.trail] := by
  obtain ⟨loaded, -, h⟩ := bind_eq_ok_iff.1 h
  obtain ⟨ranking, -, h⟩ := bind_eq_ok_iff.1 h
  cases h
  exact ⟨hmode, rfl, fun v hv => by simp [Phases.start, Trail.lastTaken, hv]⟩

theorem remembers (hmode : settings.polarity = .saved) (h : Traced settings f trails status s) :
    s.Remembers f.varCount trails := by
  induction h with
  | start hs => exact remembers_start hmode hs
  | step expired h hconflict hs ih =>
      cases (h.reachable.invariant.step hs).2 with
      | propagated hp =>
          exact ih.grow (fun _ _ hv => hp.grows.valueOf_eq hv) (State.phases_of_propagate hs)
      | resolved _ hlevel => exact absurd (hconflict _ rfl) hlevel
      | refuted => exact ih.stay rfl rfl
      | decided hexpired =>
          subst hexpired
          obtain ⟨l, hchoose, hassign⟩ := State.of_decide hs
          exact ih.assign h.coherent hassign ((Phases.choose_eq_ok_iff ih.mode).1 hchoose).2
      | interrupted => exact ih.stay rfl rfl
      | ended => exact ih.stay rfl rfl
  | resolve h _ hresolve ih => exact ih.resolve h.coherent hresolve
  | decide h _ hassign ih => exact ih.assign h.coherent hassign rfl
  | restart h hback ih => exact ih.backtrack h.coherent hback
  | resume _ ih => exact ih

end Traced

/-- A search that keeps phases decides each variable the way it was when it was last taken back, or
negatively if it never was. -/
theorem reachable_decides_saved (hmode : settings.polarity = .saved)
    (h : Reachable settings f .deciding s) :
    (∃ trails, Traced settings f trails .deciding s) ∧
      ∀ trails, Traced settings f trails .deciding s → ∃ l s', s.decide = .ok (.propagating, s') ∧
        s.Decided f.varCount l s' ∧ l.positive = (Trail.lastTaken l.var trails).getD false := by
  refine ⟨h.exists_traced, fun trails htraced => ?_⟩
  have hremembers := htraced.remembers hmode
  obtain ⟨l, s', hdecide, hd, -⟩ := h.invariant.decide_ok
  have hsaved := hd.saved hremembers.mode hdecide
  rw [hremembers.saved l.var hd.inScope] at hsaved
  exact ⟨l, s', hdecide, hd, (Option.some.inj hsaved).symm⟩

/-- The first variable was forced to be true and taken back by the jump. -/
theorem reachable_decides_saved_forced : ∃ (s s' : State Rat) (trails : List Trail),
    Traced { Sample.exact with restart := .fixed 1, polarity := .saved } Sample.forcing
        trails .deciding s ∧
      s.decide = .ok (.propagating, s') ∧ s'.trail.literals.back? = some (Sample.literal 0 true) ∧
      Trail.lastTaken (Sample.literal 0 true).var trails = some true := by
  obtain ⟨s, hs, hlast⟩ := Sample.exists_reachable_of
    { Sample.exact with restart := .fixed 1, polarity := .saved } Sample.forcing 5 .deciding
    (fun s => s.decide.toOption.any
      fun r => r.2.trail.literals.back? = some (Sample.literal 0 true)) (by decide +kernel)
  obtain ⟨⟨trails, htraced⟩, hall⟩ := reachable_decides_saved rfl hs
  obtain ⟨l, s', hdecide, hd, hpositive⟩ := hall trails htraced
  have hback : s'.trail.literals.back? = some (Sample.literal 0 true) := by
    simpa [hdecide, Except.toOption] using hlast
  obtain rfl : l = Sample.literal 0 true := by
    simpa [hd.trail] using hback
  refine ⟨s, s', trails, htraced, hdecide, hback, ?_⟩
  cases htaken : Trail.lastTaken (Sample.literal 0 true).var trails with
  | none =>
      rw [htaken] at hpositive
      cases hpositive
  | some value =>
      rw [htaken] at hpositive
      exact congrArg some hpositive.symm

end Search

end ClauseLearning
