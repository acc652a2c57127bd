import Mathlib
import ClauseLearning.Proofs.Ranking.Offers
import ClauseLearning.Proofs.Ranking.Order

/-!
# Bounds on scores

With numbers that do not round, one division by the limit brings a score back below it, and so it does
with the increment as long as the decay factor is not below one over the limit. Below that the
increment grows faster than it is divided.
-/

namespace ClauseLearning.Ranking

variable {α : Type} {r : Ranking α} {n : Nat} {v : Variable}

theorem nodup_known : r.known.Nodup := by
  refine List.Nodup.filterMap (fun i j v hi hj => ?_) List.nodup_range
  simp only [Variable.ofIndex?, Option.mem_def, Option.dite_none_right_eq_some] at hi hj
  obtain ⟨_, hi⟩ := hi
  obtain ⟨_, hj⟩ := hj
  cases hi
  cases hj
  rfl

theorem key?_eq_none_of_notMem_known (h : v ∉ r.known) : r.key? v = none := by
  rw [mem_known] at h
  simp [key?, Nat.le_of_not_lt h]

variable [Score α]

/-! ## Rescaling -/

section Update

variable {change : Entry α → Entry α}

theorem key?_updateAll (change : Entry α → Entry α) {vs : List Variable} (h : vs.Nodup) :
    (vs.foldl (fun r v => r.update v change) r).key? v =
      if v ∈ vs then (r.key? v).map fun k => ⟨change k.toEntry, v⟩ else r.key? v := by
  induction vs generalizing r with
  | nil => simp
  | cons u vs ih =>
      obtain ⟨hu, hvs⟩ := List.nodup_cons.1 h
      rw [List.foldl_cons, ih hvs]
      by_cases huv : v = u
      · subst huv
        cases hk : r.key? v with
        | none => simp [hu, update_of_none hk, hk]
        | some k => simp [hu, key?_update_self hk]
      · simp [huv, key?_update_of_ne huv]

/-- Only entries and what waits change. -/
theorem update_frame (r : Ranking α) (v : Variable) (change : Entry α → Entry α) :
    ∃ entries waiting, r.update v change = { r with entries := entries, waiting := waiting } := by
  unfold update
  split
  · exact ⟨r.entries, r.waiting, rfl⟩
  · exact ⟨_, _, rfl⟩

theorem decay_update : (r.update v change).decay = r.decay := by
  obtain ⟨_, _, h⟩ := update_frame r v change
  rw [h]

theorem increment_update : (r.update v change).increment = r.increment := by
  obtain ⟨_, _, h⟩ := update_frame r v change
  rw [h]

end Update

theorem rescale_frame (r : Ranking α) : ∃ entries waiting, r.rescale =
    { r with entries := entries, waiting := waiting, increment := r.increment / Score.limit,
             rescalings := r.rescalings + 1 } := by
  let divide (e : Entry α) : Entry α := { e with score := e.score / Score.limit }
  obtain ⟨entries, waiting, hall⟩ : ∃ entries waiting,
      r.known.foldl (fun r v => r.update v divide) r =
        { r with entries := entries, waiting := waiting } := by
    refine List.foldlRecOn r.known _ (motive := fun r' : Ranking α => ∃ entries waiting,
      r' = { r with entries := entries, waiting := waiting }) ⟨r.entries, r.waiting, rfl⟩ ?_
    rintro _ ⟨entries, waiting, rfl⟩ v -
    obtain ⟨entries', waiting', h⟩ := update_frame
      { r with entries := entries, waiting := waiting } v divide
    exact ⟨entries', waiting', h⟩
  refine ⟨entries, waiting, ?_⟩
  exact congrArg (fun r' : Ranking α => { r' with
    increment := r.increment / Score.limit, rescalings := r.rescalings + 1 }) hall

/-- Each score is divided once. -/
theorem key?_rescale : r.rescale.key? v =
    (r.key? v).map fun k => ⟨{ k.toEntry with score := k.score / Score.limit }, v⟩ := by
  let divide (e : Entry α) : Entry α := { e with score := e.score / Score.limit }
  have hkey : r.rescale.key? v = (r.known.foldl (fun r v => r.update v divide) r).key? v := rfl
  rw [hkey, key?_updateAll divide nodup_known]
  split
  · rfl
  · rw [key?_eq_none_of_notMem_known ‹_›]
    rfl

theorem size_entries_rescale : r.rescale.entries.size = r.entries.size :=
  List.foldlRecOn r.known _ (motive := fun r' : Ranking α => r'.entries.size = r.entries.size) rfl
    fun _ h _ _ => size_entries_update.trans h

theorem decay_rescale : r.rescale.decay = r.decay := by
  obtain ⟨_, _, h⟩ := rescale_frame r
  rw [h]

/-! ## Operations -/

/-- What is done with a ranking. -/
inductive Operation where
  | learn (clause : List Literal)
  | age
  | insert (v : Variable)
  | take (assigned : Variable → Bool)

/-- The operation is about the first `n` variables. -/
def Operation.InScope (n : Nat) : Operation → Prop
  | learn clause => ∀ l ∈ clause, l.var.index < n
  | age => True
  | insert v => v.index < n
  | take _ => True

def perform (r : Ranking α) : Operation → Except Fault (Ranking α)
  | .learn clause => r.learn clause
  | .age => .ok r.age
  | .insert v => r.insert v
  | .take assigned => .ok (r.take assigned).2

/-! ## Numbers that do not round -/

variable {q : Ranking Rat} {b decay : Rat}

theorem limit_eq : (Score.limit : Rat) = 10 ^ 100 := by
  norm_num [Score.limit, Score.ofNat]

theorem limit_pos : (0 : Rat) < Score.limit := by
  rw [limit_eq]
  positivity

theorem add_limit_le : (Score.limit : Rat) + Score.limit ≤ Score.limit * Score.limit := by
  norm_num [limit_eq]

theorem limit_le_mul_limit : (Score.limit : Rat) ≤ Score.limit * Score.limit :=
  (le_add_of_nonneg_left limit_pos.le).trans add_limit_le

theorem less_iff {a b : Rat} : Score.less a b = true ↔ a < b := decide_eq_true_iff

/-- The increment and all scores are below the number. -/
structure Within (q : Ranking Rat) (n : Nat) (decay b : Rat) : Prop where
  size_entries : q.entries.size = n
  decay : q.decay = decay
  nonneg : 0 ≤ q.increment
  increment_lt : q.increment < b
  score_lt : ∀ v k, q.key? v = some k → k.score < b

namespace Within

theorem mono {c : Rat} (h : q.Within n decay b) (hbc : b ≤ c) : q.Within n decay c :=
  { h with
    increment_lt := h.increment_lt.trans_le hbc
    score_lt := fun v k hk => (h.score_lt v k hk).trans_le hbc }

theorem rescale (h : q.Within n decay (b * Score.limit)) : q.rescale.Within n decay b := by
  refine ⟨size_entries_rescale.trans h.size_entries, decay_rescale.trans h.decay,
    div_nonneg h.nonneg limit_pos.le, (div_lt_iff₀ limit_pos).2 h.increment_lt, fun v k hk => ?_⟩
  rw [key?_rescale] at hk
  obtain ⟨old, hold, rfl⟩ := Option.map_eq_some_iff.1 hk
  exact (div_lt_iff₀ limit_pos).2 (h.score_lt v old hold)

/-- Below the square of the limit one division is enough. -/
theorem rescaleAt {reached : Rat} (h : q.Within n decay (Score.limit * Score.limit))
    (hless : reached < Score.limit → q.Within n decay Score.limit) :
    (q.rescaleAt reached).Within n decay Score.limit := by
  unfold Ranking.rescaleAt
  split
  · exact hless (less_iff.1 ‹_›)
  · exact h.rescale

theorem update (h : q.Within n decay b) (v : Variable) {score : Rat} (hscore : score < b)
    (nonce : Nat) : (q.update v fun _ => ⟨score, nonce⟩).Within n decay b := by
  refine ⟨size_entries_update.trans h.size_entries, decay_update.trans h.decay, ?_, ?_,
    fun u k hk => ?_⟩
  · exact increment_update (r := q) ▸ h.nonneg
  · exact increment_update (r := q) ▸ h.increment_lt
  · by_cases huv : u = v
    · subst huv
      cases hold : q.key? u with
      | none =>
          rw [update_of_none hold] at hk
          exact h.score_lt u k hk
      | some old =>
          rw [key?_update_self hold] at hk
          cases hk
          exact hscore
    · rw [key?_update_of_ne huv] at hk
      exact h.score_lt u k hk

/-- Only entries, the increment and the decay factor count. -/
theorem congr {q' : Ranking Rat} (h : q.Within n decay b) (hentries : q'.entries = q.entries)
    (hincrement : q'.increment = q.increment) (hdecay : q'.decay = q.decay) :
    q'.Within n decay b where
  size_entries := hentries ▸ h.size_entries
  decay := hdecay.trans h.decay
  nonneg := hincrement ▸ h.nonneg
  increment_lt := hincrement ▸ h.increment_lt
  score_lt v k hk := h.score_lt v k (by rw [← hk, key?, key?, hentries])

theorem bump (h : q.Within n decay Score.limit) (hv : v.index < n) :
    ∃ q', q.bump v = .ok q' ∧ q'.Within n decay Score.limit := by
  obtain ⟨k, hk⟩ := exists_key (h.size_entries.symm ▸ hv)
  refine ⟨_, by rw [Ranking.bump, hk], ?_⟩
  have hscore : k.score + q.increment < Score.limit * Score.limit :=
    (add_lt_add (h.score_lt v k hk) h.increment_lt).trans_le add_limit_le
  -- Only the raised score can have reached the limit, so it alone decides.
  apply rescaleAt
  · exact ((h.mono limit_le_mul_limit).update v hscore _).congr rfl rfl rfl
  · intro hless
    exact (h.update v hless _).congr rfl rfl rfl

theorem learn (h : q.Within n decay Score.limit) (clause : List Literal)
    (hscope : ∀ l ∈ clause, l.var.index < n) :
    ∃ q', q.learn clause = .ok q' ∧ q'.Within n decay Score.limit :=
  foldlM_keeps (fun (q : Ranking Rat) (l : Literal) => q.bump l.var)
    (fun _ _ hl hq => hq.bump hl) clause hscope h

theorem age (h : q.Within n decay Score.limit) (hdecay : 1 / Score.limit ≤ decay) :
    q.age.Within n decay Score.limit := by
  have hpos : 0 < decay := (one_div_pos.2 limit_pos).trans_le hdecay
  have hincrement : q.increment / q.decay < Score.limit * Score.limit := by
    rw [h.decay, div_lt_iff₀ hpos, mul_assoc]
    refine h.increment_lt.trans_le (le_mul_of_one_le_right limit_pos.le ?_)
    exact (div_le_iff₀' limit_pos).1 hdecay
  have hnonneg : 0 ≤ q.increment / q.decay := div_nonneg h.nonneg (h.decay ▸ hpos.le)
  apply rescaleAt
  · exact ⟨h.size_entries, h.decay, hnonneg, hincrement, (h.mono limit_le_mul_limit).score_lt⟩
  · intro hless
    exact ⟨h.size_entries, h.decay, hnonneg, hless, h.score_lt⟩

theorem perform (h : q.Within n decay Score.limit) (hdecay : 1 / Score.limit ≤ decay)
    {op : Operation} (hop : op.InScope n) :
    ∃ q', q.perform op = .ok q' ∧ q'.Within n decay Score.limit := by
  cases op with
  | learn clause => exact h.learn clause hop
  | age => exact ⟨_, rfl, h.age hdecay⟩
  | insert v =>
      obtain ⟨k, hk⟩ := exists_key (h.size_entries.symm ▸ hop)
      refine ⟨{ q with waiting := q.waiting.add k }, ?_, h.congr rfl rfl rfl⟩
      rw [Ranking.perform, insert, hk]
  | take assigned => exact ⟨_, rfl, h.congr rfl rfl rfl⟩

end Within

/-! ## Decay below one over the limit -/

/-- Even where everything is divided, the increment has grown by the decay factor. -/
theorem le_increment_age (hnonneg : 0 ≤ q.increment) (hdecay : 0 < q.decay) :
    q.increment * (1 / (q.decay * Score.limit)) ≤ q.age.increment ∧ q.age.decay = q.decay := by
  have hdivided : q.increment * (1 / (q.decay * Score.limit)) =
      q.increment / q.decay / Score.limit := by
    rw [mul_one_div, div_div]
  rw [hdivided, Ranking.age, Ranking.rescaleAt]
  split
  · refine ⟨div_le_self (div_nonneg hnonneg hdecay.le) ?_, rfl⟩
    norm_num [limit_eq]
  · exact ⟨le_rfl, decay_rescale⟩

theorem le_increment_ages (hnonneg : 0 ≤ q.increment) (hdecay : 0 < q.decay) (k : Nat) :
    ∃ q', (List.replicate k Operation.age).foldlM perform q = .ok q' ∧
      q.increment * (1 / (q.decay * Score.limit)) ^ k ≤ q'.increment := by
  induction k generalizing q with
  | zero => exact ⟨q, rfl, by simp⟩
  | succ k ih =>
      obtain ⟨hgrown, hkept⟩ := le_increment_age hnonneg hdecay
      have hfactor : 0 ≤ 1 / (q.decay * Score.limit) :=
        one_div_nonneg.2 (mul_nonneg hdecay.le limit_pos.le)
      have hnonneg' : 0 ≤ q.age.increment := (mul_nonneg hnonneg hfactor).trans hgrown
      obtain ⟨q', hq', hle⟩ := ih hnonneg' (hkept ▸ hdecay)
      refine ⟨q', hq', le_trans ?_ hle⟩
      rw [hkept, pow_succ', ← mul_assoc]
      exact mul_le_mul_of_nonneg_right hgrown (pow_nonneg hfactor k)

/-! ## Whole runs -/

theorem less_of_pos_of_le (hpos : 0 < decay) (hle : decay ≤ 1) :
    Score.less (Score.ofNat 0) decay ∧ ¬ Score.less (Score.ofNat 1) decay :=
  ⟨less_iff.2 hpos, fun h => hle.not_gt (less_iff.1 h)⟩

theorem start_within {occurrences : Array Nat} (hcounts : ∀ n ∈ occurrences, n < 10 ^ 100)
    (hpos : 0 < decay) (hle : decay ≤ 1) (nonces : Nat → Nat) :
    ∃ q, start occurrences decay nonces = .ok q ∧ q.increment = 1 ∧
      q.Within occurrences.size decay Score.limit := by
  refine ⟨_, if_pos (less_of_pos_of_le hpos hle), rfl, Array.size_mapIdx, rfl, zero_le_one, ?_, fun v k hk => ?_⟩
  · change (1 : Rat) < Score.limit
    norm_num [limit_eq]
  · obtain ⟨e, he, rfl⟩ := Option.map_eq_some_iff.1 hk
    obtain ⟨count, hcount, rfl⟩ := Option.map_eq_some_iff.1 (Array.getElem?_mapIdx.symm.trans he)
    have hlt : (count : Rat) < 10 ^ 100 := by
      exact_mod_cast hcounts count (Array.mem_of_getElem? hcount)
    rw [limit_eq]
    exact hlt

/-- The increment and the score of each variable are below the limit. -/
def Bounded (q : Ranking Rat) : Prop :=
  q.increment < Score.limit ∧ ∀ v k, q.key? v = some k → k.score < Score.limit

/-- From occurrences below the limit, whatever is done, increment and scores stay below it for the
decay factors from one over the limit on, and for no others. -/
theorem run_bounded_iff {occurrences : Array Nat} (hcounts : ∀ n ∈ occurrences, n < 10 ^ 100)
    (hpos : 0 < decay) (hle : decay ≤ 1) (nonces : Nat → Nat) :
    (∀ ops : List Operation, (∀ op ∈ ops, op.InScope occurrences.size) →
      ∃ q q', start occurrences decay nonces = .ok q ∧ ops.foldlM perform q = .ok q' ∧ q'.Bounded) ↔
    1 / 10 ^ 100 ≤ decay := by
  obtain ⟨q, hstart, hone, hwithin⟩ := start_within hcounts hpos hle nonces
  rw [← limit_eq]
  constructor
  · intro h
    by_contra hlt
    have hfactor : 1 < 1 / (decay * Score.limit) :=
      one_lt_one_div (mul_pos hpos limit_pos) ((lt_div_iff₀ limit_pos).1 (lt_of_not_ge hlt))
    obtain ⟨k, hk⟩ := pow_unbounded_of_one_lt (Score.limit : Rat) hfactor
    obtain ⟨q', hq', hgrown⟩ := le_increment_ages hwithin.nonneg (hwithin.decay ▸ hpos) k
    rw [hone, one_mul, hwithin.decay] at hgrown
    obtain ⟨_, _, hstart', hages, hbounded⟩ := h (List.replicate k .age) fun op hop => by
      rw [List.eq_of_mem_replicate hop]
      trivial
    cases hstart.symm.trans hstart'
    cases hq'.symm.trans hages
    exact absurd hbounded.1 (hk.trans_le hgrown).not_gt
  · intro hdecay ops hops
    obtain ⟨q', hq', h'⟩ := foldlM_keeps (J := fun q => q.Within occurrences.size decay Score.limit)
      perform (fun _ _ hop hq => hq.perform hdecay hop) ops hops hwithin
    exact ⟨q, q', hstart, hq', h'.increment_lt, h'.score_lt⟩

/-- The increment reaches the limit at the second aging and is divided. -/
theorem run_bounded_sample : ∃ q q', start #[0, 0] (1 / 10 ^ 50 : Rat) id = .ok q ∧
    [.learn [⟨⟨0, by decide⟩, true⟩], .age, .age, .learn [⟨⟨1, by decide⟩, true⟩]].foldlM perform q =
      .ok q' ∧ q'.Bounded := by
  have hcounts : ∀ n ∈ #[0, 0], n < 10 ^ 100 := by simp
  refine (run_bounded_iff hcounts (by norm_num) (by norm_num) id).2 (by norm_num) _ fun op hop => ?_
  simp only [List.mem_cons, List.not_mem_nil, or_false] at hop
  rcases hop with rfl | rfl | rfl | rfl <;> simp [Operation.InScope]

/-- One aging can raise the increment by more than two divisions by the limit take back. -/
theorem run_unbounded_sample : ∃ q q', start #[0] (1 / 10 ^ 305 : Rat) id = .ok q ∧
    [.age, .learn [⟨⟨0, by decide⟩, true⟩]].foldlM perform q = .ok q' ∧
      q'.increment = 10 ^ 105 ∧ q'.activities = #[10 ^ 105] ∧ ¬ q'.Bounded := by
  have hrun : (start #[0] (1 / 10 ^ 305 : Rat) id).toOption.any (fun q =>
      ([.age, .learn [⟨⟨0, by decide⟩, true⟩]].foldlM perform q).toOption.any fun q' =>
        q'.increment = 10 ^ 105 && q'.activities = #[10 ^ 105]) = true := by
    decide +kernel
  obtain ⟨q, hq, hrun⟩ := exists_of_any hrun
  obtain ⟨q', hq', hvalues⟩ := exists_of_any hrun
  simp only [Bool.and_eq_true, decide_eq_true_eq] at hvalues
  refine ⟨q, q', hq, hq', hvalues.1, hvalues.2, fun h => ?_⟩
  have hlt := h.1
  rw [hvalues.1, limit_eq] at hlt
  norm_num at hlt

end ClauseLearning.Ranking
