import Mathlib
import ClauseLearning.CommandLine.Options
import ClauseLearning.Proofs.Restart.WrittenPolicy
import ClauseLearning.Proofs.Text.Binary64

/-!
# Values on the command line

What a text stands for as the value of a setting: a policy in its written form, a mode by its word, a
factor within `(0, 1]`, an unsigned number, or a time in seconds. An option sets its setting to what
the text stands for. A text that stands for nothing fails for a reason.
-/

namespace ClauseLearning

/-! ## Words for modes -/

namespace Polarity

variable {text : String} {mode : Polarity}

def word : Polarity → String
  | random => "random"
  | saved => "saved"
  | positive => "positive"
  | negative => "negative"

theorem parse_word (mode : Polarity) : parse mode.word = .ok mode := by
  cases mode <;> rfl

theorem parse_of_ne_word (h : ∀ mode : Polarity, text ≠ mode.word) : parse text = .error ⟨text⟩ := by
  have hrandom : text ≠ "random" := h random
  have hsaved : text ≠ "saved" := h saved
  have hpositive : text ≠ "positive" := h positive
  have hnegative : text ≠ "negative" := h negative
  rw [parse, if_neg hrandom, if_neg hsaved, if_neg hpositive, if_neg hnegative]

theorem parse_eq_ok_iff : parse text = .ok mode ↔ text = mode.word := by
  constructor
  · intro h
    by_cases hword : ∃ mode' : Polarity, text = mode'.word
    · obtain ⟨mode', rfl⟩ := hword
      rw [parse_word] at h
      cases h
      rfl
    · rw [parse_of_ne_word (not_exists.1 hword)] at h
      cases h
  · rintro rfl
    exact parse_word mode

end Polarity

namespace CommandLine

variable {text : String} {x : Float} {d : Duration} {fault : Fault} {s s' : Setting}

/-! ## Spans of seconds -/

open Duration in
/-- Rounding to nanoseconds does not carry a span across the bound. -/
theorem fits_iff_of_whole_or_small {numerator denominator : Nat} (hpos : 0 < denominator)
    (h : denominator = 1 ∨ numerator < 2 * Text.leadingBit * denominator) :
    Text.roundQuotient (numerator * nanosecondsPerSecond) denominator / nanosecondsPerSecond <
      Word.limit ↔ numerator < Word.limit * denominator := by
  cases h with
  | inl hone =>
      subst hone
      rw [Text.roundQuotient_one, Nat.mul_div_cancel _ (by decide), Nat.mul_one]
  | inr hsmall =>
      have hround := Text.roundQuotient_le (numerator * nanosecondsPerSecond) denominator
      have hquotient : numerator * nanosecondsPerSecond / denominator <
          2 * Text.leadingBit * nanosecondsPerSecond := by
        rw [Nat.div_lt_iff_lt_mul hpos, Nat.mul_right_comm]
        exact Nat.mul_lt_mul_of_pos_right hsmall (by decide)
      have hlimit : 2 * Text.leadingBit < Word.limit := by decide
      constructor
      · intro _
        exact hsmall.trans (Nat.mul_lt_mul_of_pos_right hlimit hpos)
      · intro _
        rw [Nat.div_lt_iff_lt_mul (by decide)]
        calc _ ≤ 2 * Text.leadingBit * nanosecondsPerSecond := hround.trans hquotient
          _ < Word.limit * nanosecondsPerSecond := Nat.mul_lt_mul_of_pos_right hlimit (by decide)

theorem nanoseconds_fit_iff (x : Float) :
    Text.roundQuotient ((Text.doubleQuotient x).1 * Duration.nanosecondsPerSecond)
        (Text.doubleQuotient x).2 / Duration.nanosecondsPerSecond < Word.limit ↔
      Text.magnitude x < Word.limit := by
  have hpos : (0 : ℚ) < (Text.doubleQuotient x).2 := Nat.cast_pos.2 (Text.doubleQuotient_pos x)
  rw [fits_iff_of_whole_or_small (Text.doubleQuotient_pos x)
    (Text.doubleQuotient_whole_or_small x), Text.magnitude, div_lt_iff₀ hpos]
  exact_mod_cast Iff.rfl

theorem durationOfSeconds_eq_error_iff : durationOfSeconds x = .error fault ↔
    fault = .timeOverflow ∧ (Word.limit : ℚ) ≤ Text.magnitude x := by
  rw [← not_lt, ← nanoseconds_fit_iff]
  simp only [durationOfSeconds]
  split
  · exact iff_of_false nofun fun h => h.2 ‹_›
  · rw [Except.error.injEq, eq_comm, and_iff_left ‹_›]

theorem durationOfSeconds_eq_ok_iff : durationOfSeconds x = .ok d ↔ Text.magnitude x < Word.limit ∧
    Text.IsNearest d.nanoseconds (Text.magnitude x * Duration.nanosecondsPerSecond) := by
  have hnearest := Text.isNearest_roundQuotient
    ((Text.doubleQuotient x).1 * Duration.nanosecondsPerSecond) (Text.doubleQuotient_pos x)
  rw [Nat.cast_mul, mul_div_right_comm] at hnearest
  rw [← nanoseconds_fit_iff]
  simp only [durationOfSeconds]
  split
  · rw [Except.ok.injEq, and_iff_right ‹_›]
    constructor
    · rintro rfl
      exact hnearest
    · intro hd
      exact congrArg Duration.mk (hnearest.unique hd)
  · exact iff_of_false nofun fun h => absurd h.1 ‹_›

theorem seconds_lt_of_durationOfSeconds (h : durationOfSeconds x = .ok d) :
    d.seconds < Word.limit := by
  simp only [durationOfSeconds] at h
  split at h
  · cases h
    assumption
  · cases h

/-! ## Numbers -/

theorem readDecay?_eq_some_iff :
    readDecay? text = some x ↔ Text.readDouble? text.toList = some x ∧ 0 < x ∧ x ≤ 1 := by
  unfold readDecay?
  cases Text.readDouble? text.toList <;> grind

/-- The text is a number of seconds, finite and not below 0. -/
def IsSeconds (text : String) (x : Float) : Prop :=
  Text.readDouble? text.toList = some x ∧ x.isFinite = true ∧ 0 ≤ x

theorem readSeconds?_eq_some_iff : readSeconds? text = some x ↔ IsSeconds text x := by
  unfold readSeconds? IsSeconds
  cases Text.readDouble? text.toList <;> grind

theorem IsSeconds.magnitude_eq (h : IsSeconds text x) :
    Text.magnitude x = Text.number x.toModel.unpack :=
  Text.magnitude_eq h.2.1 h.2.2

/-- The span is that of so many seconds, to the nearest nanosecond. -/
def IsSpan (x : Float) (d : Duration) : Prop :=
  Text.number x.toModel.unpack < Word.limit ∧
    Text.IsNearest d.nanoseconds (Text.number x.toModel.unpack * Duration.nanosecondsPerSecond)

theorem IsSeconds.isSpan_iff (h : IsSeconds text x) : durationOfSeconds x = .ok d ↔ IsSpan x d := by
  rw [durationOfSeconds_eq_ok_iff, h.magnitude_eq]
  rfl

/-! ## Names of settings -/

namespace Setting

theorem ofName?_name (s : Setting) : ofName? s.name = some s := by
  cases s <;> rfl

theorem name_of_ofName? {name : String} (h : ofName? name = some s) : s.name = name := by
  simpa using List.find?_some h

theorem startsWith_name (s : Setting) : s.name.startsWith "--" = true := by
  cases s <;> decide +kernel

theorem name_ne_help (s : Setting) : s.name ≠ "--help" := by
  cases s <;> decide

theorem name_injective (h : s.name = s'.name) : s = s' := by
  have hread := ofName?_name s
  rw [h, ofName?_name] at hread
  exact (Option.some.inj hread).symm

/-! ## Values of settings -/

/-- What the setting can be set to. -/
abbrev Value : Setting → Type
  | restart => Restart.Policy
  | polarity => Polarity
  | decay => Float
  | seed => UInt64
  | timeout => Option Duration

/-- The value of a setting that no option sets. -/
def default : (s : Setting) → s.Value
  | restart => .geometric 50
  | polarity => .random
  | decay => 0.95
  | seed => 0
  | timeout => none

/-- The text stands for the value of the setting. -/
def Denotes : (s : Setting) → String → s.Value → Prop
  | restart, text, policy => Restart.Policy.Denotes text policy
  | polarity, text, mode => text = mode.word
  | decay, text, x => Text.readDouble? text.toList = some x ∧ 0 < x ∧ x ≤ 1
  | seed, text, n => Text.IsUnsigned text.toList n.toNat
  | timeout, text, limit => ∃ x d, limit = some d ∧ IsSeconds text x ∧ IsSpan x d

/-- Why a text stands for no value of a setting. -/
inductive Misread : Setting → String → Failure OptionError → Prop
  | policy {text : String} {cause : Restart.Policy.ParseError} :
      Restart.Policy.Misread text cause →
      Misread restart text (.error (.invalidPolicy restart.name (.restart cause)))
  | mode {text : String} : (∀ mode : Polarity, text ≠ mode.word) →
      Misread polarity text (.error (.invalidPolicy polarity.name (.polarity ⟨text⟩)))
  | number {s : Setting} {text : String} : s = decay ∨ s = seed → (∀ v, ¬ s.Denotes text v) →
      Misread s text (.error (.invalidValue s.name text))
  | seconds {text : String} : (∀ x, ¬ IsSeconds text x) →
      Misread timeout text (.error (.invalidValue timeout.name text))
  | tooLong {text : String} {x : Float} : IsSeconds text x →
      (Word.limit : ℚ) ≤ Text.number x.toModel.unpack →
      Misread timeout text (.fault .timeOverflow)

/-- The value that is read from a text, if there is one. -/
def read? : (s : Setting) → String → Option s.Value
  | restart, text => (Restart.Policy.parse text).toOption
  | polarity, text => (Polarity.parse text).toOption
  | decay, text => readDecay? text
  | seed, text => (Text.readDecimal text.toList).toOption.map UInt64.ofNat
  | timeout, text => (readSeconds? text).bind fun x => (durationOfSeconds x).toOption.map some

/-- A value is read exactly from the texts that stand for it. -/
theorem read?_eq_some_iff {v : s.Value} : s.read? text = some v ↔ s.Denotes text v := by
  cases s with
  | restart => exact toOption_eq_some_iff.trans Restart.Policy.parse_eq_ok_iff
  | polarity => exact toOption_eq_some_iff.trans Polarity.parse_eq_ok_iff
  | decay => exact readDecay?_eq_some_iff
  | seed =>
      simp only [read?, Denotes, Option.map_eq_some_iff, toOption_eq_some_iff,
        Text.readDecimal_eq_ok_iff]
      constructor
      · rintro ⟨n, ⟨hlimit, hn⟩, rfl⟩
        rwa [UInt64.toNat_ofNat_of_lt' hlimit]
      · intro hv
        exact ⟨_, ⟨UInt64.toNat_lt v, hv⟩, UInt64.ofNat_toNat⟩
  | timeout =>
      simp only [read?, Denotes, Option.bind_eq_some_iff, Option.map_eq_some_iff,
        toOption_eq_some_iff, readSeconds?_eq_some_iff]
      constructor
      · rintro ⟨x, hx, d, hd, rfl⟩
        exact ⟨x, d, rfl, hx, hx.isSpan_iff.1 hd⟩
      · rintro ⟨x, d, rfl, hx, hd⟩
        exact ⟨x, hx, d, hx.isSpan_iff.2 hd, rfl⟩

instance (s : Setting) (text : String) : Decidable (∃ v, s.Denotes text v) :=
  decidable_of_iff ((s.read? text).isSome = true) <| by
    rw [Option.isSome_iff_exists]
    exact exists_congr fun v => read?_eq_some_iff

theorem Denotes.unique {v v' : s.Value} (h : s.Denotes text v) (h' : s.Denotes text v') : v = v' :=
  Option.some.inj ((read?_eq_some_iff.2 h).symm.trans (read?_eq_some_iff.2 h'))

/-- The usage message names these defaults. -/
theorem denotes_default : restart.Denotes "geometric:50" restart.default ∧
    polarity.Denotes "random" polarity.default ∧ decay.Denotes "0.95" decay.default := by
  refine ⟨read?_eq_some_iff.1 ?_, rfl, read?_eq_some_iff.1 ?_⟩
  · decide +kernel
  · decide +kernel

theorem exists_misread (h : ∀ v, ¬ s.Denotes text v) : ∃ e, s.Misread text e := by
  cases s with
  | restart =>
      obtain ⟨p, hp⟩ | ⟨cause, hcause⟩ := Restart.Policy.denotes_or_misread text
      · exact absurd hp (h p)
      · exact ⟨_, .policy hcause⟩
  | polarity => exact ⟨_, .mode h⟩
  | decay => exact ⟨_, .number (.inl rfl) h⟩
  | seed => exact ⟨_, .number (.inr rfl) h⟩
  | timeout =>
      by_cases hseconds : ∃ x, IsSeconds text x
      · obtain ⟨x, hx⟩ := hseconds
        cases hduration : durationOfSeconds x with
        | ok d => exact absurd ⟨x, d, rfl, hx, hx.isSpan_iff.1 hduration⟩ (h (some d))
        | error fault =>
            have hlimit := (durationOfSeconds_eq_error_iff.1 hduration).2
            exact ⟨_, .tooLong hx (hx.magnitude_eq ▸ hlimit)⟩
      · exact ⟨_, .seconds (not_exists.1 hseconds)⟩

end Setting

/-! ## Settings of options -/

namespace Options

variable {o o' : Options} {v : s.Value} {e : Failure OptionError}

/-- What a setting is set to. -/
def get (o : Options) : (s : Setting) → s.Value
  | .restart => o.settings.restart
  | .polarity => o.settings.polarity
  | .decay => o.settings.decay
  | .seed => o.settings.seed
  | .timeout => o.settings.timeLimit

/-- The options with a setting set anew. -/
def put (o : Options) : (s : Setting) → s.Value → Options
  | .restart, restart => { o with settings := { o.settings with restart } }
  | .polarity, polarity => { o with settings := { o.settings with polarity } }
  | .decay, decay => { o with settings := { o.settings with decay } }
  | .seed, seed => { o with settings := { o.settings with seed }, seedGiven := true }
  | .timeout, timeLimit => { o with settings := { o.settings with timeLimit } }

theorem get_initial (s : Setting) : initial.get s = s.default := by
  cases s <;> rfl

theorem get_put_self (o : Options) (v : s.Value) : (o.put s v).get s = v := by
  cases s <;> rfl

theorem get_put_of_ne (o : Options) (h : s' ≠ s) (v : s.Value) : (o.put s v).get s' = o.get s' := by
  cases s <;> cases s' <;> first | rfl | exact absurd rfl h

@[simp] theorem path_put (o : Options) (v : s.Value) : (o.put s v).path = o.path := by
  cases s <;> rfl

@[simp] theorem help_put (o : Options) (v : s.Value) : (o.put s v).help = o.help := by
  cases s <;> rfl

theorem seedGiven_put (o : Options) (v : s.Value) :
    (o.put s v).seedGiven = true ↔ s = .seed ∨ o.seedGiven = true := by
  cases s <;> simp [put]

theorem ext_get (hget : ∀ s, o.get s = o'.get s) (hseed : o.seedGiven = o'.seedGiven)
    (hpath : o.path = o'.path) (hhelp : o.help = o'.help) : o = o' := by
  obtain ⟨⟨restart, polarity, decay, seed, timeLimit⟩, seedGiven, path, help⟩ := o
  obtain ⟨⟨restart', polarity', decay', seed', timeLimit'⟩, seedGiven', path', help'⟩ := o'
  cases hget .restart
  cases hget .polarity
  cases hget .decay
  cases hget .seed
  cases hget .timeout
  cases hseed
  cases hpath
  cases hhelp
  rfl

theorem set_of_denotes (h : s.Denotes text v) : o.set s text = .ok (o.put s v) := by
  have hread := Setting.read?_eq_some_iff.2 h
  cases s with
  | restart => simp only [set, toOption_eq_some_iff.1 hread, put]
  | polarity => simp only [set, toOption_eq_some_iff.1 hread, put]
  | decay => simp only [set, show readDecay? text = some v from hread, put]
  | seed =>
      obtain ⟨seed, hseed, rfl⟩ := Option.map_eq_some_iff.1 hread
      simp only [set, toOption_eq_some_iff.1 hseed, put]
  | timeout =>
      obtain ⟨x, d, rfl, hx, hd⟩ := h
      simp only [set, readSeconds?_eq_some_iff.2 hx, hx.isSpan_iff.2 hd, put]
      rfl

theorem set_of_misread (h : s.Misread text e) : o.set s text = .error e := by
  cases h with
  | policy h => simp only [set, h.parse_eq]
  | mode h => simp only [set, Polarity.parse_of_ne_word h]
  | number hs h =>
      have hread : s.read? text = none :=
        Option.eq_none_iff_forall_ne_some.2 fun v hv => h v (Setting.read?_eq_some_iff.1 hv)
      rcases hs with rfl | rfl
      · simp only [set, show readDecay? text = none from hread]
      · obtain ⟨cause, hcause⟩ := toOption_eq_none_iff.1 (Option.map_eq_none_iff.1 hread)
        simp only [set, hcause]
  | seconds h =>
      have hread : readSeconds? text = none :=
        Option.eq_none_iff_forall_ne_some.2 fun x hx => h x (readSeconds?_eq_some_iff.1 hx)
      simp only [set, hread]
  | tooLong hx hlimit =>
      have hfault := durationOfSeconds_eq_error_iff.2 ⟨rfl, hx.magnitude_eq ▸ hlimit⟩
      simp only [set, readSeconds?_eq_some_iff.2 hx, hfault]
      rfl

end Options

end CommandLine

end ClauseLearning
