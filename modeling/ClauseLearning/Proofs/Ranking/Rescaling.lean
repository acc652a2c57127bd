import Mathlib
import ClauseLearning.Proofs.Ranking.Bounds

/-!
# Rescaling does not show

Beside the ranking stands one that never divides its numbers: it keeps the history of its bumps, and a
score is a sum over them. With numbers that do not round both take the same variables, and the numbers
of the one are those of the other divided by one power of the limit.
-/

namespace ClauseLearning.Ranking

/-! ## A ranking without rescaling -/

/-- A ranking that never rescales, as the history of what was done with it. -/
structure Unscaled where
  occurrences : Array Nat
  decay : Rat
  nonces : Nat → Nat
  /-- The variables that were bumped, the latest first, each with the number of agings before it. -/
  bumps : List (Variable × Nat)
  agings : Nat
  waiting : List Variable

namespace Unscaled

/-- At first all variables wait. -/
def start (occurrences : Array Nat) (decay : Rat) (nonces : Nat → Nat) : Unscaled where
  occurrences := occurrences
  decay := decay
  nonces := nonces
  bumps := []
  agings := 0
  waiting := (List.range occurrences.size).filterMap Variable.ofIndex?

/-- What a bump counts for after so many agings. -/
def increment (u : Unscaled) (agings : Nat) : Rat := (1 / u.decay) ^ agings

/-- The occurrences of the variable and the increments of its bumps. -/
def score (u : Unscaled) (v : Variable) : Rat :=
  u.occurrences.getD v.index 0 + ((u.bumps.filter (·.1 = v)).map fun b => u.increment b.2).sum

/-- The number of nonces drawn before the last one for the variable. Each of the first `n` variables
draws one at the start, in order, and then each bump one for its variable. -/
def drawnBefore (n : Nat) (v : Variable) : List (Variable × Nat) → Nat
  | [] => v.index
  | b :: earlier => if b.1 = v then n + earlier.length else drawnBefore n v earlier

def nonce (u : Unscaled) (v : Variable) : Nat :=
  u.nonces (drawnBefore u.occurrences.size v u.bumps)

/-- Variables rank by score, then by nonce, then by index. -/
def rank (u : Unscaled) (v : Variable) : Rat ×ₗ Nat ×ₗ Nat :=
  toLex (u.score v, toLex (u.nonce v, v.index))

/-- Takes the highest ranked variable that is not assigned. Only lower ones go on waiting. -/
def take (u : Unscaled) (assigned : Variable → Bool) : Option Variable × Unscaled :=
  let best := (u.waiting.filter fun v => !assigned v).argmax u.rank
  (best, { u with waiting := u.waiting.filter fun w => best.any fun v => u.rank w < u.rank v })

/-- Performs an operation; gives what it takes. -/
def perform (u : Unscaled) : Operation → List (Option Variable) × Unscaled
  | .learn clause =>
    ([], { u with bumps := clause.foldl (fun bumps l => (l.var, u.agings) :: bumps) u.bumps })
  | .age => ([], { u with agings := u.agings + 1 })
  | .insert v => ([], { u with waiting := u.waiting.insert v })
  | .take assigned => ([(u.take assigned).1], (u.take assigned).2)

/-- Performs operations in order; gives what they take, in order. -/
def performAll (u : Unscaled) : List Operation → List (Option Variable) × Unscaled
  | [] => ([], u)
  | op :: ops =>
    let (taken, next) := u.perform op
    let (later, last) := next.performAll ops
    (taken ++ later, last)

variable {u : Unscaled} {v w : Variable}

theorem occurrences_perform (u : Unscaled) (op : Operation) :
    (u.perform op).2.occurrences = u.occurrences := by
  cases op <;> rfl

theorem occurrences_performAll (u : Unscaled) (ops : List Operation) :
    (u.performAll ops).2.occurrences = u.occurrences := by
  induction ops generalizing u with
  | nil => rfl
  | cons op ops ih => exact (ih _).trans (u.occurrences_perform op)

theorem rank_injective (u : Unscaled) : Function.Injective u.rank := fun v w h => by
  have hrank := congrArg (fun p => (ofLex (ofLex p).2).2) h
  exact Variable.ext hrank

/-- The bump counts for its variable and for no other. -/
theorem score_bump (u : Unscaled) (v w : Variable) :
    score { u with bumps := (v, u.agings) :: u.bumps } w =
      u.score w + if w = v then u.increment u.agings else 0 := by
  by_cases h : w = v
  · subst h
    simp [score, increment]
    ring
  · simp [score, increment, h, Ne.symm h]

theorem nonce_bump (u : Unscaled) (v w : Variable) :
    nonce { u with bumps := (v, u.agings) :: u.bumps } w =
      if w = v then u.nonces (u.occurrences.size + u.bumps.length) else u.nonce w := by
  by_cases h : w = v
  · simp [nonce, drawnBefore, h]
  · simp [nonce, drawnBefore, h, Ne.symm h]

theorem take_eq_some_iff {assigned : Variable → Bool} : (u.take assigned).1 = some v ↔
    (v ∈ u.waiting ∧ assigned v = false) ∧
      ∀ w ∈ u.waiting, assigned w = false → u.rank w ≤ u.rank v := by
  simp only [take, List.argmax_eq_some_iff, List.mem_filter, Bool.not_eq_true']
  constructor
  · rintro ⟨hv, hmax, -⟩
    exact ⟨hv, fun w hw hfree => hmax w ⟨hw, hfree⟩⟩
  · rintro ⟨hv, hmax⟩
    refine ⟨hv, fun w hw => hmax w hw.1 hw.2, fun w hw hle => ?_⟩
    -- No other variable ranks alike, so the first of the best is the only one.
    rw [u.rank_injective (le_antisymm hle (hmax w hw.1 hw.2))]

theorem mem_waiting_take {assigned : Variable → Bool} : w ∈ (u.take assigned).2.waiting ↔
    w ∈ u.waiting ∧ ∃ v, (u.take assigned).1 = some v ∧ u.rank w < u.rank v := by
  simp [take, Option.any_eq_true]

end Unscaled

/-! ## Taking by rank -/

theorem Key.outranks_iff_lt {a b : Key Rat} : a.outranks b = true ↔
    toLex (b.score, toLex (b.nonce, b.var.index)) < toLex (a.score, toLex (a.nonce, a.var.index)) := by
  have hless : Score.less a.score b.score = false ↔ b.score ≤ a.score :=
    Bool.eq_false_iff.trans (less_iff.not.trans not_lt)
  rw [Key.outranks_iff, less_iff, hless]
  simp only [Prod.Lex.toLex_lt_toLex]
  constructor
  · rintro (hlt | ⟨hle, hnonce⟩)
    · exact .inl hlt
    · exact hle.lt_or_eq.imp_right fun heq => ⟨heq, hnonce⟩
  · rintro (hlt | ⟨heq, hnonce⟩)
    · exact .inl hlt
    · exact .inr ⟨heq.le, hnonce⟩

namespace Waiting.InStep

variable {w : Waiting Rat} {current : Variable → Option (Key Rat)} {β : Type} [LinearOrder β]
  {rank : Variable → β} {v : Variable}

/-- The highest ranked variable that is not assigned is taken, and only lower ones go on waiting. -/
theorem pop_ranked (h : w.InStep current) (hinjective : Function.Injective rank)
    (hrank : ∀ k ∈ w.keys, ∀ j ∈ w.keys, k.outranks j = true ↔ rank j.var < rank k.var)
    (assigned : Variable → Bool) :
    (∀ v, (w.pop assigned).1 = some v ↔ (v ∈ w.vars ∧ assigned v = false) ∧
        ∀ u ∈ w.vars, assigned u = false → rank u ≤ rank v) ∧
      ∀ u, u ∈ (w.pop assigned).2.vars ↔
        u ∈ w.vars ∧ ∃ v, (w.pop assigned).1 = some v ∧ rank u < rank v := by
  have hmax {w : Waiting Rat} {k : Key Rat} (htop : w.top? = some k)
      (hrank : ∀ k ∈ w.keys, ∀ j ∈ w.keys, k.outranks j = true ↔ rank j.var < rank k.var) :
      ∀ u ∈ w.vars, rank u ≤ rank k.var := by
    intro u hu
    obtain ⟨j, hj, rfl⟩ := mem_vars.1 hu
    have hnot := top?_max Score.orderedOn_rat (fun _ _ => trivial) htop j hj
    rw [← Bool.not_eq_true, hrank j hj k (top?_mem htop)] at hnot
    exact not_lt.1 hnot
  fun_induction w.pop assigned with
  | case1 w htop => simp [vars, top?_eq_none.1 htop]
  | case2 w k htop hassigned ih =>
      have hk := h.current k (top?_mem htop)
      have hsub : ∀ j ∈ (w.remove k).keys, j ∈ w.keys := fun j hj => List.mem_of_mem_filter hj
      obtain ⟨htaken, hleft⟩ := ih (h.remove k) fun j hj i hi => hrank j (hsub j hj) i (hsub i hi)
      have hfree : ∀ u, (u ∈ (w.remove k).vars ∧ assigned u = false) ↔
          u ∈ w.vars ∧ assigned u = false := by
        intro u
        rw [h.mem_vars_remove hk, and_assoc]
        refine and_congr_right fun _ => and_iff_right_of_imp ?_
        rintro hu rfl
        cases hu.symm.trans hassigned
      have htaken' : ∀ v, ((w.remove k).pop assigned).1 = some v ↔
          (v ∈ w.vars ∧ assigned v = false) ∧
            ∀ u ∈ w.vars, assigned u = false → rank u ≤ rank v := by
        intro v
        rw [htaken, hfree]
        refine and_congr_right fun _ => forall_congr' fun u => ?_
        rw [← and_imp, ← and_imp, hfree]
      refine ⟨htaken', fun u => ?_⟩
      rw [hleft, h.mem_vars_remove hk, and_assoc]
      refine and_congr_right fun _ => and_iff_right_of_imp ?_
      -- The key that is dropped ranks above the variable that is taken.
      rintro ⟨v, hv, hlt⟩ rfl
      exact absurd hlt (not_lt.2 (hmax htop hrank v ((htaken' v).1 hv).1.1))
  | case3 w k htop hassigned =>
      have hk := h.current k (top?_mem htop)
      have hmem := mem_vars.2 ⟨k, top?_mem htop, rfl⟩
      have hle := hmax htop hrank
      refine ⟨fun v => ⟨?_, ?_⟩, fun u => ?_⟩
      · rintro hv
        cases hv
        exact ⟨⟨hmem, Bool.eq_false_iff.2 hassigned⟩, fun u hu _ => hle u hu⟩
      · rintro ⟨⟨hv, -⟩, hbest⟩
        rw [hinjective (le_antisymm (hle v hv) (hbest k.var hmem (Bool.eq_false_iff.2 hassigned)))]
      · rw [h.mem_vars_remove hk]
        refine and_congr_right fun hu => ?_
        simp [lt_iff_le_and_ne, hle u hu, hinjective.ne_iff]

end Waiting.InStep

/-! ## What an operation leaves alone -/

section Frame

variable {α : Type} [Score α] {r : Ranking α} {v : Variable}

/-- The same variables wait as before, each with its present key. -/
theorem rescale_waiting (h : r.waiting.InStep r.key?) :
    r.rescale.waiting.InStep r.rescale.key? ∧
      ∀ v, v ∈ r.rescale.waiting.vars ↔ v ∈ r.waiting.vars := by
  let divide (e : Entry α) : Entry α := { e with score := e.score / Score.limit }
  have hall := List.foldlRecOn r.known (fun r v => r.update v divide)
    (motive := fun r' : Ranking α => r'.waiting.InStep r'.key? ∧
      ∀ v, v ∈ r'.waiting.vars ↔ v ∈ r.waiting.vars) ⟨h, fun _ => Iff.rfl⟩
    fun r' ⟨hstep, hvars⟩ v _ => by
      obtain ⟨hstep', hvars'⟩ := update_waiting hstep v divide
      exact ⟨hstep', fun u => (hvars' u).trans (hvars u)⟩
  exact ⟨hall.1.congr fun _ _ => rfl, hall.2⟩

end Frame

/-! ## Both rankings side by side -/

/-- The ranking holds the numbers of the other one divided by one power of the limit, and the same
variables wait in both. -/
structure Follows (q : Ranking Rat) (u : Unscaled) : Prop where
  size_entries : q.entries.size = u.occurrences.size
  decay : q.decay = u.decay
  nonces : q.nonces = u.nonces
  drawn : q.drawn = u.occurrences.size + u.bumps.length
  increment : q.increment = u.increment u.agings / Score.limit ^ q.rescalings
  key : ∀ v : Variable, v.index < u.occurrences.size →
    q.key? v = some ⟨⟨u.score v / Score.limit ^ q.rescalings, u.nonce v⟩, v⟩
  inStep : q.waiting.InStep q.key?
  waiting : ∀ v, v ∈ q.waiting.vars ↔ v ∈ u.waiting

namespace Follows

variable {q : Ranking Rat} {u : Unscaled} {v : Variable}

theorem lt_of_key? (h : q.Follows u) {k : Key Rat} (hk : q.key? v = some k) :
    v.index < u.occurrences.size := by
  obtain ⟨e, he, -⟩ := Option.map_eq_some_iff.1 hk
  exact h.size_entries ▸ (Array.getElem?_eq_some_iff.1 he).1

theorem rescale (h : q.Follows u) : q.rescale.Follows u := by
  obtain ⟨hinStep, hwaiting⟩ := rescale_waiting h.inStep
  have hkey : ∀ v : Variable, v.index < u.occurrences.size → q.rescale.key? v =
      some ⟨⟨u.score v / Score.limit ^ (q.rescalings + 1), u.nonce v⟩, v⟩ := by
    intro v hv
    rw [key?_rescale, h.key v hv, Option.map_some, div_div, ← pow_succ]
  have hsize := size_entries_rescale.trans h.size_entries
  have hincrement : q.increment / Score.limit =
      u.increment u.agings / Score.limit ^ (q.rescalings + 1) := by
    rw [h.increment, div_div, ← pow_succ]
  obtain ⟨entries, waiting, hframe⟩ := rescale_frame q
  rw [hframe] at hinStep hwaiting hkey hsize ⊢
  exact ⟨hsize, h.decay, h.nonces, h.drawn, hincrement, hkey, hinStep,
    fun v => (hwaiting v).trans (h.waiting v)⟩

theorem rescaleAt (h : q.Follows u) (reached : Rat) : (q.rescaleAt reached).Follows u := by
  unfold Ranking.rescaleAt
  split
  · exact h
  · exact h.rescale

theorem bump (h : q.Follows u) (hv : v.index < u.occurrences.size) :
    ∃ q', q.bump v = .ok q' ∧ q'.Follows { u with bumps := (v, u.agings) :: u.bumps } := by
  have hkey := h.key v hv
  refine ⟨_, by rw [Ranking.bump, hkey], rescaleAt ?_ _⟩
  let change : Entry Rat → Entry Rat := fun _ =>
    ⟨u.score v / Score.limit ^ q.rescalings + q.increment, q.nonces q.drawn⟩
  obtain ⟨hinStep, hwaiting⟩ := update_waiting h.inStep v change
  have hsize : (q.update v change).entries.size = u.occurrences.size :=
    size_entries_update.trans h.size_entries
  have hkeys : ∀ w : Variable, w.index < u.occurrences.size → (q.update v change).key? w =
      some ⟨⟨Unscaled.score { u with bumps := (v, u.agings) :: u.bumps } w /
        Score.limit ^ q.rescalings, Unscaled.nonce { u with bumps := (v, u.agings) :: u.bumps } w⟩,
        w⟩ := by
    intro w hw
    rw [u.score_bump, u.nonce_bump]
    by_cases hwv : w = v
    · subst hwv
      rw [key?_update_self hkey, if_pos rfl, if_pos rfl, add_div, ← h.increment, ← h.drawn,
        ← h.nonces]
    · rw [key?_update_of_ne hwv, h.key w hw, if_neg hwv, if_neg hwv, add_zero]
  have hdrawn : q.drawn + 1 = u.occurrences.size + ((v, u.agings) :: u.bumps).length := by
    rw [h.drawn, List.length_cons, Nat.add_assoc]
  obtain ⟨entries, waiting, hframe⟩ := update_frame q v change
  rw [hframe] at hinStep hwaiting hkeys hsize
  have hraised : (q.update v fun _ =>
      ⟨u.score v / Score.limit ^ q.rescalings + q.increment, q.nonces q.drawn⟩) =
      { q with entries := entries, waiting := waiting } := hframe
  rw [hraised]
  exact ⟨hsize, h.decay, h.nonces, hdrawn, h.increment, hkeys, hinStep,
    fun w => (hwaiting w).trans (h.waiting w)⟩

theorem learn (h : q.Follows u) (clause : List Literal)
    (hscope : ∀ l ∈ clause, l.var.index < u.occurrences.size) :
    ∃ q', q.learn clause = .ok q' ∧ q'.Follows (u.perform (.learn clause)).2 := by
  induction clause generalizing q u with
  | nil => exact ⟨q, rfl, h⟩
  | cons l clause ih =>
      obtain ⟨hl, hclause⟩ := List.forall_mem_cons.1 hscope
      obtain ⟨q₁, hq₁, h₁⟩ := h.bump hl
      obtain ⟨q', hq', h'⟩ := ih h₁ hclause
      refine ⟨q', ?_, h'⟩
      rw [Ranking.learn, List.foldlM_cons, hq₁]
      exact hq'

theorem age (h : q.Follows u) : q.age.Follows { u with agings := u.agings + 1 } := by
  apply rescaleAt
  have hincrement : q.increment / q.decay =
      u.increment (u.agings + 1) / Score.limit ^ q.rescalings := by
    rw [h.increment, h.decay, Unscaled.increment, Unscaled.increment, pow_succ, div_right_comm,
      mul_one_div]
  exact ⟨h.size_entries, h.decay, h.nonces, h.drawn, hincrement, h.key, h.inStep, h.waiting⟩

theorem insert (h : q.Follows u) (hv : v.index < u.occurrences.size) :
    ∃ q', q.insert v = .ok q' ∧ q'.Follows { u with waiting := u.waiting.insert v } := by
  have hkey := h.key v hv
  let k : Key Rat := ⟨⟨u.score v / Score.limit ^ q.rescalings, u.nonce v⟩, v⟩
  refine ⟨{ q with waiting := q.waiting.add k }, by rw [Ranking.insert, hkey], h.size_entries,
    h.decay, h.nonces, h.drawn, h.increment, h.key, h.inStep.add hkey, fun w => ?_⟩
  rw [h.inStep.mem_vars_add hkey, List.mem_insert_iff, h.waiting]

/-- The common divisor does not change how variables rank. -/
theorem outranks_iff (h : q.Follows u) {k j : Key Rat} (hk : k ∈ q.waiting.keys)
    (hj : j ∈ q.waiting.keys) : k.outranks j = true ↔ u.rank j.var < u.rank k.var := by
  have hentry : ∀ k ∈ q.waiting.keys,
      k.score = u.score k.var / Score.limit ^ q.rescalings ∧ k.nonce = u.nonce k.var := by
    intro k hk
    have hcurrent := h.inStep.current k hk
    have hkey := hcurrent.symm.trans (h.key k.var (h.lt_of_key? hcurrent))
    exact ⟨congrArg (·.score) (Option.some.inj hkey), congrArg (·.nonce) (Option.some.inj hkey)⟩
  obtain ⟨hscore, hnonce⟩ := hentry k hk
  obtain ⟨hscore', hnonce'⟩ := hentry j hj
  have hpos : (0 : Rat) < Score.limit ^ q.rescalings := pow_pos limit_pos _
  rw [Key.outranks_iff_lt, hscore, hnonce, hscore', hnonce']
  simp only [Unscaled.rank, Prod.Lex.toLex_lt_toLex, div_lt_div_iff_of_pos_right hpos,
    div_left_inj' hpos.ne']

theorem take (h : q.Follows u) (assigned : Variable → Bool) :
    (q.take assigned).1 = (u.take assigned).1 ∧
      (q.take assigned).2.Follows (u.take assigned).2 := by
  obtain ⟨htaken, hleft⟩ := h.inStep.pop_ranked u.rank_injective
    (fun k hk j hj => h.outranks_iff hk hj) assigned
  obtain ⟨hinStep, -⟩ := h.inStep.pop assigned
  have hsame : (q.take assigned).1 = (u.take assigned).1 := by
    apply Option.ext
    intro v
    rw [Unscaled.take_eq_some_iff]
    simp only [← h.waiting]
    exact htaken v
  refine ⟨hsame, h.size_entries, h.decay, h.nonces, h.drawn, h.increment, h.key, hinStep, ?_⟩
  intro v
  rw [Unscaled.mem_waiting_take, ← hsame, ← h.waiting]
  exact hleft v

end Follows

/-! ## Runs -/

/-- What an operation takes. -/
def taken {α : Type} [Score α] (r : Ranking α) : Operation → List (Option Variable)
  | .take assigned => [(r.take assigned).1]
  | .learn _ | .age | .insert _ => []

/-- Performs operations in order; gives what they take, in order. -/
def performAll {α : Type} [Score α] (r : Ranking α) :
    List Operation → Except Fault (List (Option Variable) × Ranking α)
  | [] => .ok ([], r)
  | op :: ops => do
    let next ← r.perform op
    let (later, last) ← next.performAll ops
    pure (r.taken op ++ later, last)

namespace Follows

variable {q : Ranking Rat} {u : Unscaled}

theorem perform (h : q.Follows u) {op : Operation} (hop : op.InScope u.occurrences.size) :
    ∃ q', q.perform op = .ok q' ∧ q.taken op = (u.perform op).1 ∧
      q'.Follows (u.perform op).2 := by
  cases op with
  | learn clause =>
      obtain ⟨q', hq', h'⟩ := h.learn clause hop
      exact ⟨q', hq', rfl, h'⟩
  | age => exact ⟨q.age, rfl, rfl, h.age⟩
  | insert v =>
      obtain ⟨q', hq', h'⟩ := h.insert hop
      exact ⟨q', hq', rfl, h'⟩
  | take assigned =>
      obtain ⟨hsame, h'⟩ := h.take assigned
      exact ⟨_, rfl, congrArg (fun v => [v]) hsame, h'⟩

theorem performAll (h : q.Follows u) {ops : List Operation}
    (hops : ∀ op ∈ ops, op.InScope u.occurrences.size) :
    ∃ q', q.performAll ops = .ok ((u.performAll ops).1, q') ∧ q'.Follows (u.performAll ops).2 := by
  induction ops generalizing q u with
  | nil => exact ⟨q, rfl, h⟩
  | cons op ops ih =>
      obtain ⟨hop, hops⟩ := List.forall_mem_cons.1 hops
      obtain ⟨q₁, hq₁, htaken, h₁⟩ := h.perform hop
      obtain ⟨q', hq', h'⟩ := ih h₁ (u.occurrences_perform op ▸ hops)
      refine ⟨q', ?_, h'⟩
      rw [Ranking.performAll, hq₁, htaken]
      simp only [bind, Except.bind, hq']
      rfl

theorem start {occurrences : Array Nat} {decay : Rat} (hpos : 0 < decay) (hle : decay ≤ 1)
    (nonces : Nat → Nat) : ∃ q, start occurrences decay nonces = .ok q ∧
      q.Follows (.start occurrences decay nonces) := by
  have hdecay := less_of_pos_of_le hpos hle
  obtain ⟨q, hq, hoffers⟩ := start_ok occurrences nonces hdecay
  refine ⟨q, hq, ?_⟩
  have hwaiting : ∀ v, v ∈ q.waiting.vars ↔ v ∈ q.known := by
    intro v
    rw [mem_known]
    constructor
    · intro hv
      obtain ⟨k, hk, rfl⟩ := Waiting.mem_vars.1 hv
      obtain ⟨e, he, -⟩ := Option.map_eq_some_iff.1 (hoffers.inStep.current k hk)
      exact (Array.getElem?_eq_some_iff.1 he).1
    · intro hv
      exact hoffers.waiting v (hoffers.size_entries ▸ hv) rfl
  have hsize := hoffers.size_entries
  have hinStep := hoffers.inStep
  cases hq.symm.trans (if_pos hdecay)
  refine ⟨hsize, rfl, rfl, rfl, ?_, ?_, hinStep, ?_⟩
  · simp [admitAll, Unscaled.increment, Unscaled.start, Score.ofNat]
  · intro v hv
    have hv : v.index < occurrences.size := hv
    simp [admitAll, key?, Unscaled.start, Unscaled.score, Unscaled.nonce, Unscaled.drawnBefore,
      Score.ofNat, hv]
  · intro v
    rw [hwaiting, known, hsize]
    rfl

end Follows

/-- Whatever is done, the ranking takes the variables that one without rescaling takes, in the same
order. The increment and all scores are those of the other divided by one power of the limit. -/
theorem performAll_as_unscaled {occurrences : Array Nat} {decay : Rat} (hpos : 0 < decay)
    (hle : decay ≤ 1) (nonces : Nat → Nat) {ops : List Operation}
    (hops : ∀ op ∈ ops, op.InScope occurrences.size) :
    ∃ q taken q' u k, start occurrences decay nonces = .ok q ∧
      q.performAll ops = .ok (taken, q') ∧
      (Unscaled.start occurrences decay nonces).performAll ops = (taken, u) ∧
      q'.increment = u.increment u.agings / (10 ^ 100) ^ k ∧
      ∀ v : Variable, v.index < occurrences.size →
        q'.activities[v.index]? = some (u.score v / (10 ^ 100) ^ k) := by
  obtain ⟨q, hstart, hfollows⟩ := Follows.start hpos hle nonces
  obtain ⟨q', hq', h'⟩ := hfollows.performAll hops
  refine ⟨q, _, q', _, q'.rescalings, hstart, hq', rfl, limit_eq ▸ h'.increment, ?_⟩
  intro v hv
  have hsize := congrArg Array.size ((Unscaled.start occurrences decay nonces).occurrences_performAll ops)
  obtain ⟨e, he, hkey⟩ := Option.map_eq_some_iff.1 (h'.key v (hsize.symm ▸ hv))
  rw [activities, Array.getElem?_map, he, Option.map_some, ← limit_eq]
  exact congrArg (fun k : Key Rat => some k.score) hkey

/-- Two bumps with two agings between them, then two decisions. -/
def Sample.operations : List Operation :=
  [.learn [⟨⟨0, by decide⟩, true⟩], .age, .age, .learn [⟨⟨1, by decide⟩, true⟩],
    .take fun _ => false, .take fun _ => false]

/-- The increment reaches the limit at the second aging, so everything is divided before the second
bump. -/
theorem performAll_as_unscaled_sample : ∃ q q' k, start #[3, 2] (1 / 10 ^ 50 : Rat) id = .ok q ∧
    q.performAll Sample.operations = .ok ([some ⟨1, by decide⟩, some ⟨0, by decide⟩], q') ∧
      q'.increment = 10 ^ 100 / (10 ^ 100) ^ k ∧
      q'.activities[0]? = some (4 / (10 ^ 100) ^ k) ∧
      q'.activities[1]? = some ((2 + 10 ^ 100) / (10 ^ 100) ^ k) := by
  have hscope : ∀ op ∈ Sample.operations, op.InScope 2 := by
    simp [Sample.operations, Operation.InScope]
  obtain ⟨q, taken, q', u, k, hq, hq', hu, hincrement, hscores⟩ :=
    @performAll_as_unscaled #[3, 2] (1 / 10 ^ 50) (by norm_num) (by norm_num) id _ hscope
  have hvalues : taken = [some ⟨1, by decide⟩, some ⟨0, by decide⟩] ∧
      u.increment u.agings = 10 ^ 100 ∧ u.score ⟨0, by decide⟩ = 4 ∧
      u.score ⟨1, by decide⟩ = 2 + 10 ^ 100 := by
    obtain ⟨rfl, rfl⟩ := Prod.mk.inj hu
    decide +kernel
  obtain ⟨rfl, hinc, hfirst, hsecond⟩ := hvalues
  refine ⟨q, q', k, hq, hq', hinc ▸ hincrement, ?_, ?_⟩
  · exact hfirst ▸ hscores ⟨0, by decide⟩ (by decide)
  · exact hsecond ▸ hscores ⟨1, by decide⟩ (by decide)

end ClauseLearning.Ranking
