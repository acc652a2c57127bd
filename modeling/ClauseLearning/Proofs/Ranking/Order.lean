import Mathlib
import ClauseLearning.Proofs.Literal
import ClauseLearning.Proofs.Ranking.Waiting

/-!
# The order of the keys

Where scores are ordered, so are keys, and nonces and variables decide between equal scores. The key
that is taken is then the highest of those that may be taken. Rational numbers are ordered,
and so are floating point numbers unless one of them is not a number.
-/

namespace ClauseLearning

/-- Comparison orders the scores for which the condition holds, except for ties. -/
structure Score.OrderedOn {α : Type} [Score α] (p : α → Prop) : Prop where
  asymm : ∀ a b, p a → p b → Score.less a b = true → Score.less b a = false
  split : ∀ a b c, p a → p b → p c → Score.less a c = true →
    Score.less a b = true ∨ Score.less b c = true

theorem Score.OrderedOn.mono {α : Type} [Score α] {p q : α → Prop} (h : Score.OrderedOn p)
    (hq : ∀ a, q a → p a) : Score.OrderedOn q where
  asymm a b ha hb := h.asymm a b (hq a ha) (hq b hb)
  split a b c ha hb hc := h.split a b c (hq a ha) (hq b hb) (hq c hc)

namespace Score

/-! ## Rational scores -/

/-- Rational numbers count activity without rounding. -/
instance : Score Rat where
  ofNat n := n
  less a b := decide (a < b)

theorem orderedOn_rat : Score.OrderedOn fun _ : Rat => True where
  asymm _ _ _ _ h := decide_eq_false (not_lt.2 (le_of_lt (of_decide_eq_true h)))
  split a b _ _ _ _ h := (lt_or_ge a b).imp decide_eq_true fun hle =>
    decide_eq_true (hle.trans_lt (of_decide_eq_true h))

/-! ## Floating point scores -/

open Float.Model

/-- Where a number stands: by sign and size class, then by exponent and mantissa. -/
def place : UnpackedFloat → ℤ ×ₗ ℤ ×ₗ ℤ
  | .infinity .negative => toLex (-2, toLex (0, 0))
  | .finite .negative m e _ => toLex (-1, toLex (-e, -m))
  | .notANumber | .zero _ => toLex (0, toLex (0, 0))
  | .finite .positive m e _ => toLex (1, toLex (e, m))
  | .infinity .positive => toLex (2, toLex (0, 0))

theorem lt_iff_place {a b : UnpackedFloat} (ha : a.isNaN = false) (hb : b.isNaN = false) :
    a.lt b = true ↔ place a < place b := by
  rcases a with s | _ | s | ⟨s, m, e, hm⟩ <;> rcases b with s' | _ | s' | ⟨s', m', e', hm'⟩ <;>
    simp [UnpackedFloat.isNaN] at ha hb <;> cases s <;> cases s' <;>
    simp [UnpackedFloat.lt, UnpackedFloat.compare, place, Prod.Lex.lt_iff]
  · rfl
  · rw [Ordering.then_eq_gt, Int.compare_eq_gt, Int.compare_eq_eq, Nat.compare_eq_gt]
  · rw [Ordering.then_eq_lt, Int.compare_eq_lt, Int.compare_eq_eq, Nat.compare_eq_lt]

theorem less_iff_place {a b : Float} (ha : a.isNaN = false) (hb : b.isNaN = false) :
    Score.less a b = true ↔ place a.toModel.unpack < place b.toModel.unpack := by
  have hless : Score.less a b = true ↔ a.toModel.unpack.lt b.toModel.unpack = true :=
    decide_eq_true_iff.trans decide_eq_true_iff
  exact hless.trans (lt_iff_place ha hb)

theorem compare_swap (a b : UnpackedFloat) : b.compare a = (a.compare b).map Ordering.swap := by
  rcases a with ⟨_ | _⟩ | _ | ⟨_ | _⟩ | ⟨_ | _, m, e, hm⟩ <;>
    rcases b with ⟨_ | _⟩ | _ | ⟨_ | _⟩ | ⟨_ | _, m', e', hm'⟩ <;>
    simp [UnpackedFloat.compare, Ordering.swap_then, Int.compare_swap, Nat.compare_swap]
  all_goals rfl

theorem not_less_of_le {a b : Float} (h : a ≤ b) : Score.less b a = false := by
  have hle : a.toModel.unpack.le b.toModel.unpack = true := decide_eq_true_iff.1 h
  have hless : Score.less b a = true ↔ b.toModel.unpack.lt a.toModel.unpack = true :=
    decide_eq_true_iff.trans decide_eq_true_iff
  rw [← Bool.not_eq_true, hless, UnpackedFloat.lt, compare_swap a.toModel.unpack]
  rw [UnpackedFloat.le] at hle
  cases hcompare : a.toModel.unpack.compare b.toModel.unpack with
  | none => simp
  | some o => cases o <;> simp [hcompare] at hle ⊢

theorem orderedOn_float : Score.OrderedOn fun x : Float => x.isNaN = false where
  asymm a b ha hb h := by
    rw [← Bool.not_eq_true, less_iff_place hb ha, not_lt]
    exact le_of_lt ((less_iff_place ha hb).1 h)
  split a b c ha hb hc h := by
    rw [less_iff_place ha hb, less_iff_place hb hc]
    exact (lt_or_ge _ _).imp_right fun hle => hle.trans_lt ((less_iff_place ha hc).1 h)

end Score

namespace Ranking

variable {α : Type} [Score α] {p : α → Prop} {a b c : Key α}

/-! ## Keys -/

namespace Key

theorem outranks_iff : a.outranks b = true ↔ Score.less b.score a.score = true ∨
    Score.less a.score b.score = false ∧
      (b.nonce < a.nonce ∨ b.nonce = a.nonce ∧ b.var.index < a.var.index) := by
  simp [outranks]

/-- Keys of different variables never tie. -/
theorem outranks_total (h : a.var ≠ b.var) : a.outranks b = true ∨ b.outranks a = true := by
  have hindex : a.var.index ≠ b.var.index := fun e => h (Variable.ext e)
  rw [outranks_iff, outranks_iff]
  cases Score.less b.score a.score <;> cases Score.less a.score b.score <;> simp
  omega

theorem outranks_asymm (h : Score.OrderedOn p) (ha : p a.score) (hb : p b.score)
    (hab : a.outranks b = true) : b.outranks a = false := by
  rw [← Bool.not_eq_true, outranks_iff]
  rcases outranks_iff.1 hab with hless | ⟨hless, hnonce⟩
  · have := h.asymm _ _ hb ha hless
    simp [hless, this]
  · simp only [hless, Bool.false_eq_true, false_or, not_and]
    omega

theorem outranks_irrefl (h : Score.OrderedOn p) (ha : p a.score) : a.outranks a = false :=
  Bool.eq_false_iff.2 fun hself =>
    Bool.eq_false_iff.1 (outranks_asymm h ha ha hself) hself

theorem outranks_split (h : Score.OrderedOn p) (ha : p a.score) (hb : p b.score) (hc : p c.score)
    (hac : a.outranks c = true) : a.outranks b = true ∨ b.outranks c = true := by
  simp only [outranks_iff] at hac ⊢
  by_cases hba : Score.less b.score a.score = true
  · exact .inl (.inl hba)
  by_cases hcb : Score.less c.score b.score = true
  · exact .inr (.inl hcb)
  -- The score of `b` is neither below that of `a` nor above that of `c`, so all three tie.
  have hca : Score.less c.score a.score ≠ true := fun hca =>
    (h.split _ _ _ hc hb ha hca).elim hcb hba
  obtain ⟨hac, hnonce⟩ := hac.resolve_left hca
  have hab : Score.less a.score b.score = false := Bool.eq_false_iff.2 fun hab =>
    (h.split _ _ _ ha hc hb hab).elim (by simp [hac]) hcb
  have hbc : Score.less b.score c.score = false := Bool.eq_false_iff.2 fun hbc =>
    (h.split _ _ _ hb ha hc hbc).elim hba (by simp [hac])
  simp only [hab, hbc, true_and]
  omega

theorem not_outranks_trans (h : Score.OrderedOn p) (ha : p a.score) (hb : p b.score)
    (hc : p c.score) (hab : a.outranks b = false) (hbc : b.outranks c = false) :
    a.outranks c = false :=
  Bool.eq_false_iff.2 fun hac => (outranks_split h ha hb hc hac).elim
    (Bool.eq_false_iff.1 hab) (Bool.eq_false_iff.1 hbc)

/-- The higher of two keys is outranked by neither. -/
theorem higher_max (h : Score.OrderedOn p) (ha : p a.score) (hb : p b.score) :
    a.outranks (a.higher b) = false ∧ b.outranks (a.higher b) = false := by
  unfold higher
  split
  · exact ⟨outranks_asymm h hb ha ‹_›, outranks_irrefl h hb⟩
  · exact ⟨outranks_irrefl h ha, Bool.eq_false_iff.2 ‹_›⟩

theorem foldl_higher_max (h : Score.OrderedOn p) (rest : List (Key α)) (first : Key α)
    (hp : ∀ k ∈ first :: rest, p k.score) :
    ∀ k ∈ first :: rest, k.outranks (rest.foldl higher first) = false := by
  induction rest generalizing first with
  | nil =>
      intro k hk
      obtain rfl := List.mem_singleton.1 hk
      exact outranks_irrefl h (hp k hk)
  | cons j rest ih =>
      have hfirst := hp first List.mem_cons_self
      have hj := hp j (List.mem_cons_of_mem _ List.mem_cons_self)
      have hp' : ∀ k ∈ first.higher j :: rest, p k.score := by
        intro k hk
        rcases List.mem_cons.1 hk with rfl | hk
        · rcases first.higher_eq j with he | he <;> rw [he] <;> assumption
        · exact hp k (List.mem_cons_of_mem _ (List.mem_cons_of_mem _ hk))
      have hmax := ih (first.higher j) hp'
      have hlow : ∀ k : Key α, p k.score → k.outranks (first.higher j) = false →
          k.outranks ((j :: rest).foldl higher first) = false := fun k hk hkh =>
        not_outranks_trans h hk (hp' _ List.mem_cons_self)
          (hp' _ (Waiting.foldl_higher_mem (first.higher j) rest)) hkh (hmax _ List.mem_cons_self)
      obtain ⟨hfirst', hj'⟩ := higher_max h hfirst hj
      intro k hk
      rcases List.mem_cons.1 hk with rfl | hk
      · exact hlow k hfirst hfirst'
      · rcases List.mem_cons.1 hk with rfl | hk
        · exact hlow k hj hj'
        · exact hmax k (List.mem_cons_of_mem _ hk)

end Key

/-! ## The highest key -/

namespace Waiting

variable {w : Waiting α} {v : Variable} {assigned : Variable → Bool}

theorem top?_max (h : Score.OrderedOn p) (hp : ∀ k ∈ w.keys, p k.score) (htop : w.top? = some a) :
    ∀ k ∈ w.keys, k.outranks a = false := by
  unfold top? at htop
  split at htop
  · cases htop
  · rename_i first rest hkeys
    rw [hkeys, ← Option.some.inj htop]
    exact Key.foldl_higher_max h rest first (hkeys ▸ hp)

/-- No key of a variable that is not assigned outranks the one that is taken. -/
theorem pop_max (h : Score.OrderedOn p) (hp : ∀ k ∈ w.keys, p k.score)
    (hpop : (w.pop assigned).1 = some v) :
    ∃ top ∈ w.keys, top.var = v ∧ ∀ k ∈ w.keys, assigned k.var = false → k.outranks top = false := by
  fun_induction w.pop assigned with
  | case1 w htop => cases hpop
  | case2 w k htop hassigned ih =>
      have hsub : ∀ j ∈ (w.remove k).keys, j ∈ w.keys := fun j hj => List.mem_of_mem_filter hj
      obtain ⟨top, hmem, hvar, hmax⟩ := ih (fun j hj => hp j (hsub j hj)) hpop
      refine ⟨top, hsub top hmem, hvar, fun j hj hfree => hmax j ?_ hfree⟩
      refine List.mem_filter.2 ⟨hj, ?_⟩
      rw [Bool.not_eq_true', ← Bool.not_eq_true]
      intro hsame
      rw [var_eq_of_same hsame, hassigned] at hfree
      cases hfree
  | case3 w k htop hassigned =>
      cases hpop
      exact ⟨k, top?_mem htop, rfl, fun j hj _ => top?_max h hp htop j hj⟩

end Waiting

end Ranking

end ClauseLearning
