import Mathlib
import ClauseLearning.Proofs.Search.Verdict

/-!
# Interruptions

A search that the time limit interrupted may be called again. It goes on where it stopped: but for
the propagation with which it begins, and which finds nothing to do, it passes through the states
of a search that is never interrupted.
-/

namespace ClauseLearning.Search

variable {α : Type} {settings : Settings α} {f : Formula} {s s' s₀ : State α}
  {status status' : Status} {c d : List (Status × State α)} {expired : Nat → Bool}
  {fuel fuel' made made' n : Nat}

/-! ## Courses with interruptions -/

/-- The first course is the second one with interruptions. An interruption comes where a decision is
due; then the course ends, or the search is taken up again and finds the same decision due after a
propagation. Each time the state is the same. -/
inductive Pausing : List (Status × State α) → List (Status × State α) → Prop where
  | nil : Pausing [] []
  | cons (e : Status × State α) {c d : List (Status × State α)} : Pausing c d →
      Pausing (e :: c) (e :: d)
  | stop (s : State α) : Pausing [(.deciding, s), (.interrupted, s)] [(.deciding, s)]
  | resume {s : State α} {c d : List (Status × State α)} : Pausing ((.deciding, s) :: c) d →
      Pausing ((.deciding, s) :: (.interrupted, s) :: (.propagating, s) :: (.deciding, s) :: c) d

namespace Pausing

theorem refl (c : List (Status × State α)) : Pausing c c := by
  induction c with
  | nil => exact .nil
  | cons e c ih => exact .cons e ih

theorem append_left (p : List (Status × State α)) (h : Pausing c d) : Pausing (p ++ c) (p ++ d) := by
  induction p with
  | nil => exact h
  | cons e p ih => exact .cons e ih

theorem getLast?_eq (h : Pausing c d) (hc : c.getLast? = some (status, s))
    (hstatus : status ≠ .interrupted) : d.getLast? = some (status, s) := by
  induction h with
  | nil => exact hc
  | @cons e c d h ih =>
      cases c with
      | nil =>
          cases h
          exact hc
      | cons e' c =>
          rw [List.getLast?_cons_cons] at hc
          rw [List.getLast?_cons, ih hc, Option.getD_some]
  | stop s' =>
      cases hc
      exact absurd rfl hstatus
  | resume _ ih => exact ih hc

end Pausing

/-! ## The courses of runs -/

theorem Stepped.refutedAtLoad {b : Bool} (h : Stepped n b status s status' s') :
    s'.refutedAtLoad = s.refutedAtLoad := by
  cases h with
  | propagated hp => exact hp.refutedAtLoad
  | resolved _ _ hr => exact hr.refutedAtLoad
  | refuted => rfl
  | decided _ hd => exact hd.refutedAtLoad
  | interrupted => rfl
  | ended => rfl

variable [Score α]

/-- The states that a run passes through, from the first one to the last. -/
def course (expired : Nat → Bool) : (fuel made : Nat) → Status → State α → List (Status × State α)
  | 0, _, status, s => [(status, s)]
  | fuel + 1, made, status, s =>
    (status, s) ::
      if status.isFinal then []
      else
        match s.step (expired made) status with
        | .error _ => []
        | .ok (status, s) => course expired fuel (made + 1) status s

/-- Where a call of the search begins. -/
def State.entry (s : State α) : Status := if s.refutedAtLoad then .refuted else .propagating

/-- The states that one call of the search passes through, given the answers of its clock. -/
def State.courseOfCall (s : State α) (expired : Nat → Bool) : List (Status × State α) :=
  course expired (transitionBound s.trail.cells.size) 0 s.entry s

/-- The states that a search passes through which is called again after each interruption, given
the answers of the clock for each call. -/
def courseOfCalls : List (Nat → Bool) → State α → List (Status × State α)
  | [], _ => []
  | expired :: calls, s =>
    s.courseOfCall expired ++
      match (s.courseOfCall expired).getLast? with
      | some (.interrupted, s') => courseOfCalls calls s'
      | _ => []

theorem course_eq_cons (expired : Nat → Bool) (fuel made : Nat) (status : Status) (s : State α) :
    ∃ c, course expired fuel made status s = (status, s) :: c := by
  cases fuel with
  | zero => exact ⟨_, rfl⟩
  | succ fuel => exact ⟨_, rfl⟩

theorem course_of_isFinal (hfinal : status.isFinal = true) :
    course expired fuel made status s = [(status, s)] := by
  cases fuel with
  | zero => rfl
  | succ fuel => rw [course, if_pos hfinal]

theorem course_of_step (fuel : Nat) (hfinal : status.isFinal = false)
    (hstep : s.step (expired made) status = .ok (status', s')) :
    course expired (fuel + 1) made status s =
      (status, s) :: course expired fuel (made + 1) status' s' := by
  rw [course, if_neg (by simp [hfinal]), hstep]

theorem getLast?_course {r : Status × State α} (hrun : run expired fuel made status s = .ok r) :
    (course expired fuel made status s).getLast? = some r := by
  induction fuel generalizing status s made with
  | zero =>
      cases hrun
      rfl
  | succ fuel ih =>
      rw [run] at hrun
      cases hfinal : status.isFinal with
      | true =>
          rw [if_pos hfinal] at hrun
          cases hrun
          rw [course_of_isFinal hfinal, List.getLast?_singleton]
      | false =>
          rw [if_neg (by simp [hfinal])] at hrun
          cases hstep : s.step (expired made) status with
          | error fault => simp [hstep] at hrun
          | ok next =>
              obtain ⟨status', s'⟩ := next
              rw [hstep] at hrun
              obtain ⟨rest, hrest⟩ := course_eq_cons expired fuel (made + 1) status' s'
              rw [course_of_step fuel hfinal hstep, hrest, List.getLast?_cons_cons, ← hrest]
              exact ih hrun

/-! ## Calls of the search -/

theorem State.search_eq {clock : Nat → Instant} {limit : Option Duration}
    {deadline : Option Instant} (hbegin : s.begin (clock 0) limit = .ok (status, deadline)) :
    s.search clock limit = run (fun made => isExpired deadline (clock (made + 1)))
      (transitionBound s.trail.cells.size) 0 s.entry s := by
  have hentry : status = s.entry := by
    obtain ⟨hload, rfl⟩ | ⟨hload, rfl⟩ := State.status_of_begin hbegin
    · simp [entry, hload]
    · simp [entry, hload]
  simp only [search, hbegin, bind, Except.bind, hentry]

theorem State.getLast?_courseOfCall {clock : Nat → Instant} {limit : Option Duration}
    {r : Status × State α} (hsearch : s.search clock limit = .ok r) :
    ∃ status deadline, s.begin (clock 0) limit = .ok (status, deadline) ∧
      (s.courseOfCall fun made => isExpired deadline (clock (made + 1))).getLast? = some r := by
  cases hbegin : s.begin (clock 0) limit with
  | error fault => simp [search, hbegin, bind, Except.bind] at hsearch
  | ok entry =>
      obtain ⟨status, deadline⟩ := entry
      rw [State.search_eq hbegin] at hsearch
      exact ⟨status, deadline, rfl, getLast?_course hsearch⟩

/-- A course with what the calls add that follow if it ends with an interruption. -/
def resumed (calls : List (Nat → Bool)) (c : List (Status × State α)) : List (Status × State α) :=
  c ++
    match c.getLast? with
    | some (.interrupted, s) => courseOfCalls calls s
    | _ => []

theorem courseOfCalls_cons (expired : Nat → Bool) (calls : List (Nat → Bool)) (s : State α) :
    courseOfCalls (expired :: calls) s = resumed calls (s.courseOfCall expired) := rfl

theorem resumed_cons (calls : List (Nat → Bool)) (e e' : Status × State α) :
    resumed calls (e :: e' :: c) = e :: resumed calls (e' :: c) := by
  rw [resumed, List.getLast?_cons_cons]
  rfl

theorem resumed_of_ended (calls : List (Nat → Bool)) (hlast : c.getLast? = some (status, s))
    (hstatus : status ≠ .interrupted) : resumed calls c = c := by
  rw [resumed, hlast]
  split
  · simp_all
  · rw [List.append_nil]

theorem resumed_of_interrupted (calls : List (Nat → Bool)) (p : List (Status × State α))
    (s : State α) : resumed calls (p ++ [(.deciding, s), (.interrupted, s)]) =
      p ++ (.deciding, s) :: (.interrupted, s) :: courseOfCalls calls s := by
  simp [resumed]

theorem State.step_eq (s : State α) {b : Bool} (h : ¬ (status = .deciding ∧ b = true)) :
    s.step b status = s.step false status := by
  cases status with
  -- The only status in which the clock is read.
  | deciding =>
      have hb : b = false := by simpa using h
      rw [hb]
  | propagating => rfl
  | conflict k => rfl
  | satisfied => rfl
  | refuted => rfl
  | interrupted => rfl

namespace Invariant

omit [Score α] in
/-- Where a decision is due there is nothing to propagate. -/
theorem propagate_of_deciding (h : Invariant f .deciding s) : s.propagate = .ok (.deciding, s) := by
  obtain ⟨-, hhead, hincomplete⟩ := h.fits
  have hnone : s.trail.next? = none := by simp [Trail.next?, hhead]
  have hpropagate : s.database.propagate s.trail = .ok ⟨none, s.database, s.trail⟩ := by
    rw [Database.propagate]
    split
    · rfl
    · simp_all
  simp [State.propagate, hpropagate, hincomplete, bind, Except.bind, pure, Except.pure]

/-- Up to its end or its interruption a run follows the run that is never interrupted. -/
theorem course_follows (h : Invariant f status s) (hload : s.refutedAtLoad = false)
    (hstatus : status ≠ .interrupted) (expired : Nat → Bool) (made made' : Nat)
    (hfuel : potential f.varCount status s ≤ fuel)
    (hfuel' : potential f.varCount status s ≤ fuel') :
    course expired fuel made status s = course (fun _ => false) fuel' made' status s ∨
      ∃ p s' rest made'', course expired fuel made status s =
          p ++ [(.deciding, s'), (.interrupted, s')] ∧
        course (fun _ => false) fuel' made' status s =
          p ++ course (fun _ => false) rest made'' .deciding s' ∧
        potential f.varCount .deciding s' ≤ rest ∧ Invariant f .deciding s' ∧
        s'.refutedAtLoad = false := by
  induction fuel generalizing status s made fuel' made' with
  | zero =>
      have hfinal := isFinal_of_potential_eq_zero (Nat.le_zero.1 hfuel)
      exact .inl (by rw [course_of_isFinal hfinal, course_of_isFinal hfinal])
  | succ fuel ih =>
      cases hfinal : status.isFinal with
      | true => exact .inl (by rw [course_of_isFinal hfinal, course_of_isFinal hfinal])
      | false =>
          by_cases hstop : status = .deciding ∧ expired made = true
          · obtain ⟨rfl, hexpired⟩ := hstop
            have hstep : s.step (expired made) .deciding = .ok (.interrupted, s) := by
              rw [State.step, hexpired, if_pos rfl]
            refine .inr ⟨[], s, fuel', made', ?_, rfl, hfuel', h, hload⟩
            rw [course_of_step fuel hfinal hstep, course_of_isFinal rfl, List.nil_append]
          · obtain ⟨status₁, s₁, hstep, hstepped⟩ := h.step_ok false
            have hlt := h.potential_lt hfinal hstepped
            obtain ⟨fuel', rfl⟩ := Nat.exists_eq_succ_of_ne_zero (n := fuel') (by omega)
            rw [course_of_step fuel hfinal ((s.step_eq hstop).trans hstep),
              course_of_step fuel' hfinal hstep]
            have hfuel₁ : potential f.varCount status₁ s₁ ≤ fuel' := by omega
            have hnext := ih (h.stepped hstepped) (hstepped.refutedAtLoad.trans hload)
              (hstepped.ne_interrupted hstatus) (made + 1) (made' + 1) (by omega) hfuel₁
            obtain heq | ⟨p, s', rest, made'', hp, hrest, hinv⟩ := hnext
            · exact .inl (by rw [heq])
            · exact .inr ⟨(status, s) :: p, s', rest, made'', by rw [hp]; rfl, by rw [hrest]; rfl,
                hinv⟩

/-- Called again where a decision was due, the search finds the same decision due. -/
theorem courseOfCall_eq (h : Invariant f .deciding s) (hload : s.refutedAtLoad = false)
    (expired : Nat → Bool) : ∃ fuel, potential f.varCount .deciding s ≤ fuel ∧
      s.courseOfCall expired = (.propagating, s) :: course expired fuel 1 .deciding s := by
  have hsize : s.trail.cells.size = f.varCount := h.fits.fitting.coherent.size_cells
  have hbound := potential_le_transitionBound f.varCount .propagating s
  have hpotential : potential f.varCount .propagating s = potential f.varCount .deciding s + 1 := rfl
  obtain ⟨fuel, hfuel⟩ := Nat.exists_eq_succ_of_ne_zero (n := transitionBound f.varCount) (by omega)
  refine ⟨fuel, by omega, ?_⟩
  have hentry : s.entry = .propagating := by simp [State.entry, hload]
  rw [State.courseOfCall, hsize, hentry, hfuel]
  exact course_of_step fuel rfl h.propagate_of_deciding

theorem getLast?_course_uninterrupted (h : Invariant f status s) (hstatus : status ≠ .interrupted)
    (hfuel : potential f.varCount status s ≤ fuel) (made : Nat) :
    ∃ status' s', (course (fun _ => false) fuel made status s).getLast? = some (status', s') ∧
      status' ≠ .interrupted := by
  obtain ⟨status', s', hrun, -, -⟩ := h.run_final (fun _ => false) made hfuel
  exact ⟨status', s', getLast?_course hrun, h.run_uninterrupted (fun _ => rfl) hstatus hrun⟩

/-- A run and the calls that follow it go on with the course that was interrupted. -/
theorem resumed_pauses (h : Invariant f status s) (hload : s.refutedAtLoad = false)
    (hstatus : status ≠ .interrupted) (expired : Nat → Bool) (calls : List (Nat → Bool))
    (made made' : Nat) (hfuel : potential f.varCount status s ≤ fuel)
    (hfuel' : potential f.varCount status s ≤ fuel') :
    ∃ c, Pausing (resumed calls (course expired fuel made status s)) c ∧
      c <+: course (fun _ => false) fuel' made' status s ∧
      (c = course (fun _ => false) fuel' made' status s ∨
        ∃ s', (resumed calls (course expired fuel made status s)).getLast? =
          some (.interrupted, s')) := by
  -- On the number of calls: an interruption leaves one less.
  induction hcalls : calls.length using Nat.strongRecOn
    generalizing calls status s expired fuel fuel' made made' with
  | ind k ih =>
      obtain heq | ⟨p, s', rest, made'', hp, hcourse, hrest, h', hload'⟩ :=
        h.course_follows hload hstatus expired made made' hfuel hfuel'
      -- The run comes to the end.
      · obtain ⟨status', s', hlast, hstatus'⟩ :=
          h.getLast?_course_uninterrupted hstatus hfuel' made'
        rw [heq, resumed_of_ended calls hlast hstatus']
        exact ⟨_, .refl _, List.prefix_rfl, .inl rfl⟩
      -- The run is interrupted, and taken up by the next call if there is one.
      · rw [hp, hcourse, resumed_of_interrupted]
        cases calls with
        | nil =>
            obtain ⟨later, hlater⟩ := course_eq_cons (fun _ => false) rest made'' .deciding s'
            have hprefix : [(.deciding, s')] <+: course (fun _ => false) rest made'' .deciding s' :=
              hlater ▸ List.prefix_append [_] later
            exact ⟨_, (Pausing.stop s').append_left p, (List.prefix_append_right_inj p).2 hprefix,
              .inr ⟨s', by simp [courseOfCalls]⟩⟩
        | cons expired' calls =>
            obtain ⟨fuel₁, hfuel₁, hcall⟩ := h'.courseOfCall_eq hload' expired'
            obtain ⟨c, hpausing, hprefix, hend⟩ := ih calls.length (by simp [← hcalls]) h' hload'
              (by simp) expired' calls 1 made'' hfuel₁ hrest rfl
            obtain ⟨first, hfirst⟩ := course_eq_cons expired' fuel₁ 1 .deciding s'
            rw [courseOfCalls_cons, hcall, hfirst, resumed_cons]
            rw [hfirst] at hpausing hend
            refine ⟨p ++ c, (Pausing.resume hpausing).append_left p,
              (List.prefix_append_right_inj p).2 hprefix, hend.imp (congrArg (p ++ ·)) ?_⟩
            rintro ⟨s'', hs''⟩
            exact ⟨s'', by simp [List.getLast?_cons, hs'']⟩

end Invariant

/-! ## Verdicts -/

theorem solve_eq {clock : Nat → Instant} (hstart : State.start settings f = .ok s₀)
    (hsearch : s₀.search clock settings.timeLimit = .ok (status, s)) :
    solve clock settings f = (outcome f status s).map (·, s.finish.journal.reverse) := by
  simp only [solve, hstart, hsearch, bind, Except.bind, pure, Except.pure]
  cases outcome f status s <;> rfl

omit [Score α] in
theorem Started.entry_eq (h : Started settings f s₀) :
    s₀.entry = .refuted ∨
      s₀.entry = .propagating ∧ s₀.refutedAtLoad = false ∧ Invariant f .propagating s₀ := by
  cases hload : s₀.refutedAtLoad with
  | true => exact .inl (by simp [State.entry, hload])
  | false => exact .inr ⟨by simp [State.entry, hload], rfl, h.invariant hload⟩

theorem Started.courseOfCalls_pauses (h : Started settings f s₀) (calls : List (Nat → Bool)) :
    ∃ c, Pausing (courseOfCalls calls s₀) c ∧ c <+: s₀.courseOfCall (fun _ => false) ∧
      ∀ status s, (courseOfCalls calls s₀).getLast? = some (status, s) → status ≠ .interrupted →
        c = s₀.courseOfCall fun _ => false := by
  cases calls with
  | nil => exact ⟨[], .nil, List.nil_prefix, by simp [courseOfCalls]⟩
  | cons expired calls =>
      rw [courseOfCalls_cons, State.courseOfCall, State.courseOfCall]
      obtain hentry | ⟨hentry, hload, hinv⟩ := h.entry_eq
      · rw [hentry, course_of_isFinal rfl, course_of_isFinal rfl,
          resumed_of_ended calls rfl (by simp)]
        exact ⟨_, .refl _, List.prefix_rfl, fun _ _ _ _ => rfl⟩
      · have hsize : s₀.trail.cells.size = f.varCount := hinv.fits.coherent.size_cells
        have hfuel : potential f.varCount .propagating s₀ ≤ transitionBound s₀.trail.cells.size :=
          hsize ▸ potential_le_transitionBound _ _ _
        obtain ⟨c, hpausing, hprefix, hend⟩ :=
          hinv.resumed_pauses hload (by simp) expired calls 0 0 hfuel hfuel
        rw [hentry]
        refine ⟨c, hpausing, hprefix, fun status s hlast hstatus => ?_⟩
        obtain hc | ⟨s', hs'⟩ := hend
        · exact hc
        · cases hlast.symm.trans hs'
          exact absurd rfl hstatus

/-- A search that comes to a verdict within its time limit comes to the same state without one. -/
theorem Started.search_eq (h : Started settings f s₀) {clock : Nat → Instant}
    {limit : Option Duration} (hsearch : s₀.search clock limit = .ok (status, s))
    (hstatus : status ≠ .interrupted) (clock' : Nat → Instant) :
    s₀.search clock' none = .ok (status, s) := by
  obtain ⟨-, deadline, -, hlast⟩ := State.getLast?_courseOfCall hsearch
  obtain ⟨c, hpausing, -, hend⟩ := h.courseOfCalls_pauses [_]
  rw [courseOfCalls_cons, resumed_of_ended [] hlast hstatus] at hpausing hend
  obtain ⟨status₀, status', s', hbegin, -, hsearch', -⟩ := h.search_ok clock'
  have hlast' := getLast?_course ((State.search_eq hbegin).symm.trans hsearch')
  have hsame := hend status s hlast hstatus ▸ hpausing.getLast?_eq hlast hstatus
  rw [hsearch', ← Option.some.inj (hlast'.symm.trans hsame)]

/-- Interruptions change nothing but where a search pauses. However often it is interrupted and
called again, it passes through the states of the search that is never interrupted, and it comes to
the same end if it comes to one. A search that gives an answer within its time limit gives the same
answer without one. -/
theorem interrupted_course (hstart : State.start settings f = .ok s₀) :
    (∀ calls, ∃ c, Pausing (courseOfCalls calls s₀) c ∧ c <+: s₀.courseOfCall (fun _ => false) ∧
      ∀ status s, (courseOfCalls calls s₀).getLast? = some (status, s) → status ≠ .interrupted →
        c = s₀.courseOfCall (fun _ => false) ∧
          (s₀.courseOfCall fun _ => false).getLast? = some (status, s)) ∧
    (∀ (s : State α) limit clock r, s.search clock limit = .ok r → ∃ status deadline,
      s.begin (clock 0) limit = .ok (status, deadline) ∧
        (s.courseOfCall fun made => isExpired deadline (clock (made + 1))).getLast? = some r) ∧
    ∀ clock clock' o events, solve clock settings f = .ok (o, events) → o ≠ .unknown →
      solve clock' { settings with timeLimit := none } f = .ok (o, events) := by
  have hstarted := (Started.of_start hstart).2
  refine ⟨fun calls => ?_, fun _ _ _ _ hsearch => State.getLast?_courseOfCall hsearch, ?_⟩
  · obtain ⟨c, hpausing, hprefix, hend⟩ := hstarted.courseOfCalls_pauses calls
    refine ⟨c, hpausing, hprefix, fun status s hlast hstatus => ?_⟩
    have hc := hend status s hlast hstatus
    exact ⟨hc, hc ▸ hpausing.getLast?_eq hlast hstatus⟩
  · intro clock clock' o events hsolve ho
    obtain ⟨s₁, status, s, hstart', hsearch, houtcome⟩ := of_solve hsolve
    rw [hstart] at hstart'
    cases hstart'
    have hstatus : status ≠ .interrupted := by
      rintro rfl
      cases houtcome
      exact ho rfl
    rw [solve_eq hstart hsearch] at hsolve
    rw [← hsolve]
    exact solve_eq hstart (hstarted.search_eq hsearch hstatus clock')

/-- A search that is interrupted twice at its first decision and called a third time. -/
theorem interrupted_course_sample : ∃ (s₀ s : State Rat),
    State.start Sample.exact Sample.satisfiable = .ok s₀ ∧
      (courseOfCalls [fun _ => true, fun _ => true, fun _ => false] s₀).getLast? =
        some (.satisfied, s) ∧
      (courseOfCalls [fun _ => true, fun _ => true, fun _ => false] s₀).length = 12 ∧
      Pausing (courseOfCalls [fun _ => true, fun _ => true, fun _ => false] s₀)
        (s₀.courseOfCall fun _ => false) ∧
      (s₀.courseOfCall fun _ => false).getLast? = some (.satisfied, s) := by
  obtain ⟨s₀, hstart, hs₀⟩ := exists_of_any
    (x := State.start Sample.exact Sample.satisfiable)
    (p := fun s₀ =>
      ((courseOfCalls [fun _ => true, fun _ => true, fun _ => false] s₀).getLast?.any
        fun r => r.1 = .satisfied) &&
      (courseOfCalls [fun _ => true, fun _ => true, fun _ => false] s₀).length = 12)
    (by decide +kernel)
  simp only [Bool.and_eq_true, Option.any_eq_true, decide_eq_true_eq] at hs₀
  obtain ⟨⟨⟨status, s⟩, hlast, rfl⟩, hlength⟩ := hs₀
  obtain ⟨hcourses, -⟩ := interrupted_course hstart
  obtain ⟨c, hpausing, -, hend⟩ := hcourses [fun _ => true, fun _ => true, fun _ => false]
  obtain ⟨rfl, hlast'⟩ := hend .satisfied s hlast (by simp)
  exact ⟨s₀, s, hstart, hlast, hlength, hpausing, hlast'⟩

end ClauseLearning.Search
