import Mathlib
import ClauseLearning.Proofs.Search.Reachable
import ClauseLearning.Proofs.Trail.Checkpoint

/-!
# Conflicts that are resolved

To resolve a conflict is to cut the trail, to store one clause and to make one literal true behind the
cut, where propagation goes on. A restart cuts once more: a learnt unit stands at the root level and
stays, and so does everything else that was assigned there.
-/

namespace ClauseLearning

variable {db : Database} {t t' : Trail} {n k b number : Nat} {l : Literal} {v : Variable}
  {learnt : Learnt}

/-! ## Cutting the trail -/

namespace Trail

/-- The literals of the levels up to the given one, in order. -/
def upTo (t : Trail) (b : Nat) : List Literal :=
  t.literals.toList.filter fun l => t.levelOf l.var ≤ b

/-- The trail is the other one without the levels above the given one, perhaps with a literal behind
it that a clause forced at this level. Propagation goes on behind the cut. -/
structure CutTo (t : Trail) (b : Nat) (forced : Option (Literal × Nat)) (t' : Trail) : Prop where
  isPrefix : t.upTo b <+: t.literals.toList
  literals : t'.literals.toList = t.upTo b ++ (forced.map Prod.fst).toList
  starts : t'.starts.toList = t.starts.toList.take b
  level : t'.level = b
  head : t'.head = (t.upTo b).length
  kept : ∀ v, (∀ l number, forced = some (l, number) → v ≠ l.var) →
    t'.assignment? v = (t.assignment? v).filter (·.level ≤ b)
  forced : ∀ l number, forced = some (l, number) →
    t'.assignment? l.var = some ⟨l.positive, b, some number⟩

theorem Coherent.upTo_eq_take (h : t.Coherent n) (b : Nat) :
    t.upTo b = t.literals.toList.take (t.lengthAt b) := by
  have hkept : ∀ l ∈ t.literals.toList.take (t.lengthAt b), t.levelOf l.var ≤ b := by
    intro l hl
    rw [← toList_backtrack, Array.mem_toList_iff, h.mem_backtrack] at hl
    exact hl.2
  have hremoved : ∀ l ∈ t.literals.toList.drop (t.lengthAt b), ¬ t.levelOf l.var ≤ b := by
    intro l hl
    exact Nat.not_le_of_lt (h.mem_removed_iff.1 (List.mem_map_of_mem hl))
  rw [upTo]
  conv_lhs => rw [← List.take_append_drop (t.lengthAt b) t.literals.toList]
  rw [List.filter_append, List.filter_eq_self.2 (by simpa using hkept),
    List.filter_eq_nil_iff.2 (by simpa using hremoved), List.append_nil]

theorem Coherent.assignment?_backtrack_eq (h : t.Coherent n) (b : Nat) (v : Variable) :
    (t.backtrack b).2.assignment? v = (t.assignment? v).filter (·.level ≤ b) := by
  cases ha : t.assignment? v with
  | none => simp [assignment?_backtrack, ha]
  | some a =>
      have hlevel : t.levelOf v = a.level := by simp [levelOf, ha]
      by_cases hb : a.level ≤ b
      · rw [h.assignment?_backtrack_of_le (hlevel.trans_le hb), ha]
        exact (Option.filter_some_pos (by simpa using hb)).symm
      · rw [h.assignment?_backtrack_of_lt (hlevel.symm ▸ Nat.lt_of_not_le hb)]
        exact (Option.filter_some_neg (by simpa using hb)).symm

/-- Below the current level propagation is done, so a cut leaves nothing to propagate. -/
theorem CutTo.backtrack (h : Fitting n db t) (hb : b < t.level) :
    t.CutTo b none (t.backtrack b).2 := by
  have hcoherent := h.coherent
  have hlength := hcoherent.lengthAt_le b
  have htake := hcoherent.upTo_eq_take b
  refine ⟨?_, ?_, toList_starts_backtrack t b, ?_, ?_, ?_, ?_⟩
  · rw [htake]
    exact List.take_prefix _ _
  · simp [htake, toList_backtrack]
  · rw [level_backtrack]
    omega
  · have := h.settled b hb
    rw [htake, head_backtrack, List.length_take, Array.length_toList]
    omega
  · intro v _
    exact hcoherent.assignment?_backtrack_eq b v
  · intro l number hl
    cases hl

theorem CutTo.extend (h : t.CutTo b none t') (hl : l.var.index < t'.cells.size) (number : Nat) :
    t.CutTo b (some (l, number)) (t'.extend l (some number)) where
  isPrefix := h.isPrefix
  literals := by simp [h.literals]
  starts := h.starts
  level := h.level
  head := h.head
  kept v hv := by
    rw [assignment?_extend_of_ne (hv l number rfl)]
    apply h.kept
    simp
  forced m number' hm := by
    cases hm
    rw [assignment?_extend_self hl, h.level]

end Trail

/-! ## Cuts after a conflict -/

/-- The jump leads to a trail that propagation takes up at the asserting literal. -/
theorem Clash.cutTo_jump (h : Clash n db t k)
    (ha : learnt.Asserts (.ofTrail t db) t.literals.toList t.level) (hlevel : t.level ≠ 0)
    (number : Nat) :
    t.CutTo learnt.backjump (some (learnt.asserting, number)) (t.jump learnt number) :=
  (Trail.CutTo.backtrack h.toFitting (ha.backjump_lt hlevel)).extend
    (ha.lt_cells_backtrack h.coherent) number

/-- The learnt clause forces its literal at the root level exactly if it is a unit clause. -/
theorem Learnt.Asserts.backjump_eq_zero_iff {g : ImplicationGraph} {trail : List Literal}
    {current : Nat} (h : learnt.Asserts g trail current) :
    learnt.backjump = 0 ↔ learnt.others = [] := by
  rw [h.backjump_eq]
  cases hothers : learnt.others with
  | nil => simp
  | cons l rest =>
      have := (h.level_others l (by simp [hothers])).1
      simpa using this

/-- A restart forgets the jump if it did not lead to the root level. -/
theorem Clash.backtrack_jump (h : Clash n db t k)
    (ha : learnt.Asserts (.ofTrail t db) t.literals.toList t.level) (hlevel : t.level ≠ 0)
    (hb : learnt.backjump ≠ 0) (number : Nat) :
    ((t.jump learnt number).backtrack 0).2 = (t.backtrack 0).2 := by
  have hcoherent := h.coherent
  have hpos := Nat.pos_of_ne_zero hlevel
  have hroot : (t.backtrack 0).2.level = 0 := by simp
  -- All that the jump changes lies above the root level.
  have hsince : (t.backtrack 0).2.Since (t.jump learnt number) := by
    apply Trail.Since.extend
    · apply Trail.Since.backtrack (.backtrack_self hcoherent hpos) hcoherent
      rw [hroot]
      exact Nat.pos_of_ne_zero hb
    · exact ha.lt_cells_backtrack hcoherent
    · exact ha.unassigned_backtrack hcoherent hlevel
  have hrestore := congrArg Prod.snd hsince.restore
  rw [hroot] at hrestore
  rw [hrestore]
  have hsettled := h.settled 0 hpos
  have hmono := hcoherent.lengthAt_mono (Nat.zero_le learnt.backjump)
  have hhead : min (t.jump learnt number).head (t.backtrack 0).2.literals.size =
      (t.backtrack 0).2.head := by
    rw [hcoherent.size_backtrack, Trail.jump, Trail.head_extend, Trail.head_backtrack,
      Trail.head_backtrack]
    omega
  rw [hhead]

theorem Clash.cutTo_restart (h : Clash n db t k)
    (ha : learnt.Asserts (.ofTrail t db) t.literals.toList t.level) (hlevel : t.level ≠ 0)
    (number : Nat) :
    t.CutTo 0 (if learnt.others = [] then some (learnt.asserting, number) else none)
      ((t.jump learnt number).backtrack 0).2 := by
  by_cases hothers : learnt.others = []
  · have hroot := ha.backjump_eq_zero_iff.2 hothers
    have hcut := h.cutTo_jump ha hlevel number
    rw [hroot] at hcut
    rw [if_pos hothers, (h.coherent_jump ha hlevel number).backtrack_of_level_le hcut.level.le]
    exact hcut
  · have hb : learnt.backjump ≠ 0 := fun hb => hothers (ha.backjump_eq_zero_iff.1 hb)
    rw [if_neg hothers, h.backtrack_jump ha hlevel hb]
    exact .backtrack h.toFitting (Nat.pos_of_ne_zero hlevel)

/-! ## Assignments at the root level -/

/-- What is assigned at the root level of the one trail is so on the other. -/
def Trail.KeepsRoot (t t' : Trail) : Prop :=
  ∀ v a, t.assignment? v = some a → a.level = 0 → t'.assignment? v = some a

namespace Trail.KeepsRoot

theorem refl (t : Trail) : t.KeepsRoot t := fun _ _ h _ => h

theorem trans {t'' : Trail} (h : t.KeepsRoot t') (h' : t'.KeepsRoot t'') : t.KeepsRoot t'' :=
  fun v a ha hroot => h' v a (h v a ha hroot) hroot

theorem of_grows (h : t.Grows t') : t.KeepsRoot t' := fun v a ha _ => h.kept v a ha

theorem backtrack (h : t.Coherent n) (b : Nat) : t.KeepsRoot (t.backtrack b).2 := by
  intro v a ha hroot
  simp [h.assignment?_backtrack_eq, ha, hroot]

end Trail.KeepsRoot

namespace Search

variable {α : Type} {settings : Settings α} {f : Formula} {s s' : State α} {status status' : Status}

theorem Stepped.keepsRoot {expired : Bool} (h : Invariant f status s)
    (hs : Stepped f.varCount expired status s status' s') : s.trail.KeepsRoot s'.trail := by
  cases hs with
  | propagated hp => exact .of_grows hp.grows
  | resolved hclash hlevel hr =>
      have hjump : s.trail.KeepsRoot (s.trail.jump _ s.database.clauses.size) :=
        (Trail.KeepsRoot.backtrack hclash.coherent _).trans
          (.of_grows (.extend (hr.asserts.unassigned_backtrack hclash.coherent hlevel)))
      rw [hr.trail, State.restarted]
      split
      · exact hjump.trans (.backtrack (hclash.coherent_jump hr.asserts hlevel _) 0)
      · exact hjump
  | refuted => exact .refl _
  | decided _ hd =>
      rw [hd.trail]
      intro v a ha _
      exact Trail.assignment?_extend_of_some (t := s.trail.openLevel) hd.unassigned ha
  | interrupted => exact .refl _
  | ended => exact .refl _

variable [Score α]

theorem Invariant.run_keepsRoot (h : Invariant f status s) (expired : Nat → Bool) (fuel made : Nat) :
    ∃ status' s', Search.run expired fuel made status s = .ok (status', s') ∧
      s.trail.KeepsRoot s'.trail := by
  refine h.run_keeps (P := fun _ s' => s.trail.KeepsRoot s'.trail) (.refl _) expired ?_ fuel made
  intro i status s₁ status' s' h₁ hs₁ _ hstepped
  exact hs₁.trans (hstepped.keepsRoot h₁)

/-! ## What resolving a conflict leaves behind -/

/-- The clause was learnt and stored, the trail was cut, and the clause forces its literal behind the
cut. After a restart this is so only if the clause is a unit clause. -/
structure State.Learns (s : State α) (learnt : Learnt) (s' : State α) : Prop where
  stored : ∃ c, s'.database.clauses = s.database.clauses.push c ∧
    c.literals.toList = learnt.literals ∧ c.learnt = true
  backjump_lt : learnt.backjump < s.trail.level
  backjump_eq_zero_iff : learnt.backjump = 0 ↔ learnt.others = []
  jumped : s.schedule.onConflict.1 = false → s.trail.CutTo learnt.backjump
    (some (learnt.asserting, s.database.clauses.size)) s'.trail
  restarted : s.schedule.onConflict.1 = true → s.trail.CutTo 0
    (if learnt.others = [] then some (learnt.asserting, s.database.clauses.size) else none) s'.trail

omit [Score α] in
theorem State.Resolved.learns (h : s.Resolved n learnt s') (hclash : Clash n s.database s.trail k)
    (hlevel : s.trail.level ≠ 0) : s.Learns learnt s' := by
  obtain ⟨c, hclauses, hc⟩ := h.stored
  refine ⟨⟨c, hclauses, hc.literals, hc.learnt⟩, h.asserts.backjump_lt hlevel,
    h.asserts.backjump_eq_zero_iff, ?_, ?_⟩
  · intro hdue
    rw [h.trail, hdue]
    exact hclash.cutTo_jump h.asserts hlevel _
  · intro hdue
    rw [h.trail, hdue]
    exact hclash.cutTo_restart h.asserts hlevel _

/-- A conflict at the root level ends the search and changes nothing. Above it the clause that
analysis gives is stored and forces its literal behind the cut. And what was assigned at the root
level stays so until the end of the search. -/
theorem reachable_resolves (h : Reachable settings f status s) :
    (∀ k, status = .conflict k → s.trail.level = 0 → s.resolve k = .ok (.refuted, { s with
      statistics := { s.statistics with conflicts := s.statistics.conflicts + 1 } })) ∧
    (∀ k, status = .conflict k → s.trail.level ≠ 0 → ∃ c learnt s',
      s.database.literals? k = some c ∧
      analyze s.graph s.trail.level c s.trail.literals.toList s.marks =
        .ok (learnt, Marks.clear f.varCount) ∧
      s.resolve k = .ok (.propagating, s') ∧ s.Learns learnt s') ∧
    ∀ expired fuel made, ∃ status' s', Search.run expired fuel made status s = .ok (status', s') ∧
      s.trail.KeepsRoot s'.trail := by
  refine ⟨?_, ?_, ?_⟩
  · intro k _ hlevel
    exact State.resolve_root hlevel
  · rintro k rfl hlevel
    have hclash : Clash f.varCount s.database s.trail k := h.invariant.fits
    obtain ⟨c, learnt, s', hc, hanalyze, hresolve, hr⟩ :=
      State.resolve_learns h.invariant.poised h.invariant.marks hclash hlevel
    exact ⟨c, learnt, s', hc, hanalyze, hresolve, hr.learns hclash hlevel⟩
  · intro expired fuel made
    exact h.invariant.run_keepsRoot expired fuel made

theorem reachable_resolves_conflict : ∃ (s s' : State Rat) (learnt : Learnt),
    Reachable Sample.exact Sample.satisfiable (.conflict 2) s ∧ s.trail.level = 1 ∧
      s.resolve 2 = .ok (.propagating, s') ∧ s.Learns learnt s' := by
  obtain ⟨s, hs, hlevel⟩ := Sample.exists_reachable Sample.satisfiable 3 (.conflict 2)
    (fun s => s.trail.level = 1) (by decide +kernel)
  simp only [decide_eq_true_eq] at hlevel
  obtain ⟨-, habove, -⟩ := reachable_resolves hs
  obtain ⟨-, learnt, s', -, -, hresolve, hlearns⟩ := habove 2 rfl (by omega)
  exact ⟨s, s', learnt, hs, hlevel, hresolve, hlearns⟩

end Search

end ClauseLearning
