import Mathlib
import ClauseLearning.Proofs.CommandLine.Values
import ClauseLearning.Proofs.Dimacs.Faults
import ClauseLearning.Proofs.Ranking.Order
import ClauseLearning.Proofs.Search.Interruption
import ClauseLearning.Proofs.Search.Safety

/-!
# Faults of the command line

Of all that arguments can ask for, only a time limit can break a contract: as a span of seconds beyond
64 bits while the arguments are read, or as a deadline beyond the range of the clock when the search
begins.
-/

namespace ClauseLearning

namespace CommandLine

variable {value : String} {fault : Fault} {o o' : Options} {setting : Setting}
  {arguments before rest : List String}

/-! ## Reading -/

/-- The value of a time limit is a number of seconds that a span cannot hold. -/
def IsTooLong (value : String) : Prop :=
  ∃ seconds, readSeconds? value = some seconds ∧ (Word.limit : ℚ) ≤ Text.magnitude seconds

theorem startsWith_help : "--help".startsWith "--" = true := by decide +kernel

namespace Options

theorem extend_setting (o : Options) (setting : Setting) (value : String) (rest : List String) :
    o.extend (setting.name :: value :: rest) = o.set setting value >>= fun o => o.extend rest := by
  rw [extend.eq_def]
  simp only [setting.startsWith_name, setting.name_ne_help, setting.ofName?_name, if_true, if_false]
  cases o.set setting value <;> rfl

theorem set_eq_fault_iff : o.set setting value = .error (.fault fault) ↔
    setting = .timeout ∧ fault = .timeOverflow ∧ IsTooLong value := by
  cases setting with
  | restart | polarity | decay | seed =>
      simp only [set]
      split <;> simp
  | timeout =>
      simp only [set, IsTooLong]
      cases hvalue : readSeconds? value with
      | none => simp
      | some seconds =>
          simp only [Option.some.injEq, exists_eq_left', true_and]
          rw [← durationOfSeconds_eq_error_iff]
          cases durationOfSeconds seconds <;>
            simp [Failure.ofFault, bind, Except.bind, pure, Except.pure]

theorem extend_help (o : Options) (rest : List String) :
    o.extend ("--help" :: rest) = { o with help := true }.extend rest := by
  rw [extend.eq_def]
  simp only [startsWith_help, if_true]

theorem extend_path {argument : String} (hargument : argument.startsWith "--" = false)
    (hpath : o.path = none) (rest : List String) :
    o.extend (argument :: rest) = { o with path := some argument }.extend rest := by
  rw [extend.eq_def]
  simp [hargument, hpath]

/-- Arguments are read up to a result. -/
inductive Reads : Options → List String → Options → Prop
  | nil {o : Options} : Reads o [] o
  | help {o o' : Options} {rest : List String} : Reads { o with help := true } rest o' →
      Reads o ("--help" :: rest) o'
  | setting {o o₁ o' : Options} {setting : Setting} {value : String} {rest : List String} :
      o.set setting value = .ok o₁ → Reads o₁ rest o' → Reads o (setting.name :: value :: rest) o'
  | path {o o' : Options} {argument : String} {rest : List String} :
      argument.startsWith "--" = false → o.path = none →
      Reads { o with path := some argument } rest o' → Reads o (argument :: rest) o'

theorem Reads.extend_append (h : Reads o before o') (rest : List String) :
    o.extend (before ++ rest) = o'.extend rest := by
  induction h with
  | nil => rfl
  | help _ ih => rw [List.cons_append, extend_help, ih]
  | setting hset _ ih => rw [List.cons_append, List.cons_append, extend_setting, hset, ← ih]; rfl
  | path hargument hpath _ ih => rw [List.cons_append, extend_path hargument hpath, ih]

/-- Reading ends with a result, with an error, or at a time limit that is too long. -/
inductive Ends (o : Options) (arguments : List String) : Except (Failure OptionError) Options → Prop
  | ok {o' : Options} : Reads o arguments o' → Ends o arguments (.ok o')
  | error (e : OptionError) : Ends o arguments (.error (.error e))
  | tooLong {o' : Options} {before rest : List String} {value : String} : Reads o before o' →
      arguments = before ++ Setting.timeout.name :: value :: rest → IsTooLong value →
      Ends o arguments (.error (.fault .timeOverflow))

theorem Ends.after {o₁ : Options} {r : Except (Failure OptionError) Options} (h : Ends o₁ rest r)
    (group : List String) (hgroup : ∀ before o', Reads o₁ before o' → Reads o (group ++ before) o') :
    Ends o (group ++ rest) r := by
  cases h with
  | ok h => exact .ok (hgroup _ _ h)
  | error e => exact .error e
  | tooLong h hsplit hlong =>
      rw [hsplit, ← List.append_assoc]
      exact .tooLong (hgroup _ _ h) rfl hlong

theorem extend_ends (o : Options) (arguments : List String) :
    Ends o arguments (o.extend arguments) := by
  induction o, arguments using extend.induct with
  | case1 o => exact .ok .nil
  | case2 o rest _ ih =>
      rw [extend_help]
      exact ih.after ["--help"] fun _ _ => .help
  | case3 o argument rest hargument hhelp hname =>
      rw [extend.eq_def]
      simp only [hargument, hhelp, hname, if_true, if_false]
      exact .error _
  | case4 o argument hargument hhelp setting hname =>
      rw [extend.eq_def]
      simp only [hargument, hhelp, hname, if_true, if_false]
      exact .error _
  | case5 o argument _ _ setting value rest hname e hset =>
      cases Setting.name_of_ofName? hname
      rw [extend_setting, hset]
      cases e with
      | error e => exact .error e
      | fault fault =>
          obtain ⟨rfl, rfl, hlong⟩ := set_eq_fault_iff.1 hset
          exact .tooLong .nil rfl hlong
  | case6 o argument _ _ setting value rest hname o₁ hset ih =>
      cases Setting.name_of_ofName? hname
      rw [extend_setting, hset]
      exact ih.after [setting.name, value] fun _ _ => .setting hset
  | case7 o argument rest hargument hpath ih =>
      rw [Bool.not_eq_true] at hargument
      rw [extend_path hargument hpath]
      exact ih.after [argument] fun _ _ => .path hargument hpath
  | case8 o argument rest hargument path hpath =>
      rw [extend.eq_def]
      simp only [hargument, hpath]
      exact .error _

theorem extend_eq_ok_iff : o.extend arguments = .ok o' ↔ Reads o arguments o' := by
  constructor
  · intro h
    have hends := extend_ends o arguments
    rw [h] at hends
    cases hends with
    | ok h => exact h
  · intro h
    rw [← List.append_nil arguments, h.extend_append, extend]

theorem extend_eq_fault_iff : o.extend arguments = .error (.fault fault) ↔
    fault = .timeOverflow ∧ ∃ before value rest,
      arguments = before ++ Setting.timeout.name :: value :: rest ∧
        (∃ o', o.extend before = .ok o') ∧ IsTooLong value := by
  constructor
  · intro h
    have hends := extend_ends o arguments
    rw [h] at hends
    cases hends with
    | tooLong hreads hsplit hlong =>
        exact ⟨rfl, _, _, _, hsplit, ⟨_, extend_eq_ok_iff.2 hreads⟩, hlong⟩
  · rintro ⟨rfl, before, value, rest, rfl, ⟨o', h⟩, hlong⟩
    rw [(extend_eq_ok_iff.1 h).extend_append, extend_setting, set_eq_fault_iff.2 ⟨rfl, rfl, hlong⟩]
    rfl

/-! ## What is accepted -/

/-- The settings are within what a search can be started with. -/
structure Accepted (o : Options) : Prop where
  decay : Search.DecayInRange o.settings
  limit : ∀ limit, o.settings.timeLimit = some limit → limit.seconds < Word.limit

theorem accepted_initial : initial.Accepted where
  decay := by decide +kernel
  limit _ h := by cases h

theorem readDecay?_inRange {decay : Float} (h : readDecay? value = some decay) :
    Score.less (Score.ofNat 0) decay = true ∧ ¬ Score.less (Score.ofNat 1) decay = true := by
  obtain ⟨-, hpos, hle⟩ := readDecay?_eq_some_iff.1 h
  exact ⟨decide_eq_true hpos, Bool.eq_false_iff.1 (Score.not_less_of_le hle)⟩

theorem Accepted.set (h : o.Accepted) (hset : o.set setting value = .ok o') : o'.Accepted := by
  cases setting with
  | restart | polarity | seed =>
      simp only [Options.set] at hset
      split at hset <;> cases hset
      exact ⟨h.decay, h.limit⟩
  | decay =>
      simp only [Options.set] at hset
      split at hset <;> cases hset
      exact ⟨readDecay?_inRange ‹_›, h.limit⟩
  | timeout =>
      simp only [Options.set] at hset
      split at hset
      · cases hset
      · obtain ⟨limit, hlimit, hset⟩ := bind_eq_ok_iff.1 hset
        cases hset
        refine ⟨h.decay, fun limit' hlimit' => ?_⟩
        cases hlimit'
        exact seconds_lt_of_durationOfSeconds (Failure.ofFault_eq_ok_iff.1 hlimit)

theorem Reads.accepted (hreads : Reads o arguments o') (h : o.Accepted) : o'.Accepted := by
  induction hreads with
  | nil => exact h
  | help _ ih => exact ih ⟨h.decay, h.limit⟩
  | setting hset _ ih => exact ih (h.set hset)
  | path _ _ _ ih => exact ih ⟨h.decay, h.limit⟩

@[simp] theorem decay_settingsFor (o : Options) (drawn : UInt64) :
    (o.settingsFor drawn).decay = o.settings.decay := by
  unfold settingsFor
  split <;> rfl

@[simp] theorem timeLimit_settingsFor (o : Options) (drawn : UInt64) :
    (o.settingsFor drawn).timeLimit = o.settings.timeLimit := by
  unfold settingsFor
  split <;> rfl

theorem Accepted.decayInRange (h : o.Accepted) (drawn : UInt64) :
    Search.DecayInRange (o.settingsFor drawn) := by
  have := h.decay
  simpa only [Search.DecayInRange, decay_settingsFor] using this

end Options

end CommandLine

/-! ## Deadlines -/

namespace Search

variable {α : Type} {s : State α} {now : Instant} {limit : Option Duration} {fault : Fault}

theorem after_eq_error_iff {d : Duration} : now.after d = .error fault ↔ fault = .timeOverflow ∧
    0x8000000000000000 ≤ (now.nanoseconds + d.nanoseconds) / Duration.nanosecondsPerSecond := by
  unfold Instant.after
  split
  · simp only [reduceCtorEq, false_iff, not_and, Nat.not_le]
    exact fun _ => ‹_›
  · rw [Except.error.injEq, eq_comm, and_iff_left (Nat.not_lt.1 ‹_›)]

theorem State.begin_eq_error_iff : s.begin now limit = .error fault ↔
    fault = .timeOverflow ∧ s.refutedAtLoad = false ∧ ∃ d, limit = some d ∧
      0x8000000000000000 ≤ (now.nanoseconds + d.nanoseconds) / Duration.nanosecondsPerSecond := by
  cases hload : s.refutedAtLoad with
  | true => simp [State.begin, hload]
  | false =>
      cases limit with
      | none => simp [State.begin, hload, deadline?, Except.map]
      | some d =>
          have hbegin : s.begin now (some d) = .error fault ↔ now.after d = .error fault := by
            simp only [State.begin, hload, deadline?]
            cases now.after d <;> simp [Except.map]
          rw [hbegin, after_eq_error_iff]
          simp

variable [Score α] {settings : Settings α} {f : Formula} {clock : Nat → Instant}

/-- A search that has begun does not fault. -/
theorem solve_eq_error_iff (hstart : State.start settings f = .ok s) :
    solve clock settings f = .error fault ↔
      s.begin (clock 0) settings.timeLimit = .error fault := by
  obtain ⟨-, hstarted⟩ := Started.of_start hstart
  cases hbegin : s.begin (clock 0) settings.timeLimit with
  | error fault' => simp [solve, hstart, State.search, hbegin, bind, Except.bind]
  | ok entry =>
      obtain ⟨status₀, deadline⟩ := entry
      obtain ⟨⟨status, s'⟩, hrun⟩ := hstarted.run_ok hbegin
        (fun made => isExpired deadline (clock (made + 1))) (transitionBound s.trail.cells.size)
      have hsearch : s.search clock settings.timeLimit = .ok (status, s') := by
        simp only [State.search, hbegin, bind, Except.bind]
        exact hrun
      obtain ⟨o, houtcome⟩ : ∃ o, outcome f status s' = .ok o := by
        cases status with
        | satisfied =>
            obtain ⟨h, -⟩ | hreach := reachable_of_search hstart hsearch
            · cases h
            · obtain ⟨m, hm⟩ := hreach.invariant.outcome_ok
              exact ⟨_, hm⟩
        | _ => exact ⟨_, rfl⟩
      rw [solve_eq hstart hsearch, houtcome]
      simp [Except.map]

end Search

namespace CommandLine

/-- Arguments break a contract only by a time limit: while they are read by one of 64 bits of seconds
or more, and when a search begins by one that takes the deadline out of the range of the clock. -/
theorem arguments_fault_by_timeLimit (arguments : List String) :
    (∀ fault, Options.parse arguments = .error (.fault fault) ↔ fault = .timeOverflow ∧
      ∃ before value rest, arguments = before ++ Setting.timeout.name :: value :: rest ∧
        (∃ o, Options.parse before = .ok o) ∧ IsTooLong value) ∧
    ∀ o, Options.parse arguments = .ok o →
      (∀ limit, o.settings.timeLimit = some limit → limit.seconds < Word.limit) ∧
      ∀ (drawn : UInt64) (f : Formula), ∃ s, Search.State.start (o.settingsFor drawn) f = .ok s ∧
        (∀ now fault, s.begin now o.settings.timeLimit = .error fault ↔
          fault = .timeOverflow ∧ s.refutedAtLoad = false ∧ ∃ limit, o.settings.timeLimit = some limit ∧
            0x8000000000000000 ≤
              (now.nanoseconds + limit.nanoseconds) / Duration.nanosecondsPerSecond) ∧
        ∀ clock fault, Search.solve clock (o.settingsFor drawn) f = .error fault ↔
          s.begin (clock 0) o.settings.timeLimit = .error fault := by
  refine ⟨fun fault => Options.extend_eq_fault_iff, fun o hparse => ?_⟩
  have haccepted := (Options.extend_eq_ok_iff.1 hparse).accepted Options.accepted_initial
  refine ⟨haccepted.limit, fun drawn f => ?_⟩
  obtain ⟨s, hstart, -⟩ := Search.start_ok (haccepted.decayInRange drawn) f
  refine ⟨s, hstart, fun now fault => Search.State.begin_eq_error_iff, fun clock fault => ?_⟩
  rw [Search.solve_eq_error_iff hstart, Options.timeLimit_settingsFor]

/-- A deadline that no clock reaches is accepted, and ends in a fault when the search begins. -/
theorem arguments_fault_by_timeLimit_deadline : ∃ o, Options.parse ["--timeout", "1e19"] = .ok o ∧
    ∀ (drawn : UInt64) (f : Formula), ∃ s, Search.State.start (o.settingsFor drawn) f = .ok s ∧
      (s.refutedAtLoad = false → ∀ now,
        s.begin now o.settings.timeLimit = .error .timeOverflow) := by
  have hlimit : ((Options.parse ["--timeout", "1e19"]).toOption.map fun o => o.settings.timeLimit) =
      some (some (.ofSeconds 10000000000000000000)) := by decide +kernel
  cases hparse : Options.parse ["--timeout", "1e19"] with
  | error e => simp [hparse, Except.toOption] at hlimit
  | ok o =>
      have hlimit : o.settings.timeLimit = some (.ofSeconds 10000000000000000000) := by
        simpa [hparse, Except.toOption] using hlimit
      obtain ⟨-, hstarts⟩ := (arguments_fault_by_timeLimit ["--timeout", "1e19"]).2 o hparse
      refine ⟨o, rfl, fun drawn f => ?_⟩
      obtain ⟨s, hstart, hbegin, -⟩ := hstarts drawn f
      refine ⟨s, hstart, fun hload now => (hbegin now _).2 ⟨rfl, hload, _, hlimit, ?_⟩⟩
      simp only [Duration.ofSeconds, Duration.nanosecondsPerSecond]
      omega

/-- A time limit that is finite and not below zero ends in a fault. -/
theorem parse_hundred_quintillion_seconds : (readSeconds? "1e20").isSome ∧
    Options.parse ["--timeout", "1e20"] = .error (.fault .timeOverflow) := by
  refine ⟨by decide +kernel, ?_⟩
  have hfault : (match Options.parse ["--timeout", "1e20"] with
      | .error (.fault fault) => some fault
      | _ => none) = some .timeOverflow := by decide +kernel
  split at hfault
  · cases hfault
    assumption
  · cases hfault

end CommandLine

end ClauseLearning
