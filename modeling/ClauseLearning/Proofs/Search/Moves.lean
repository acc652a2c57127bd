import Mathlib
import ClauseLearning.Proofs.Search.Conflict

/-!
# Moves of the search

Restarts, decisions and backjumps leave trail and database ready for propagation, since the watches
need no care when assignments are taken back.
-/

namespace ClauseLearning

variable {db : Database} {t : Trail} {n k b : Nat} {l : Literal} {learnt : Learnt}

/-! ## Backtracking -/

/-- A watch that is false after backtracking was so before, and its companion stays true. -/
theorem Database.Obeys.backtrack {due due' : Literal → Nat → Prop} (h : db.Obeys t due)
    (ht : t.Coherent n)
    (hdue : ∀ w k, due' w k → t.IsFalse w → t.levelOf w.var ≤ b → due w k) :
    db.Obeys (t.backtrack b).2 due' := by
  intro k c hc hsize w o hw hd hf
  obtain ⟨hwf, hwb⟩ := ht.isTrue_backtrack.1 (Trail.isTrue_negate.2 hf)
  rw [Literal.var_negate] at hwb
  obtain ⟨ho, hle⟩ := h k c hc hsize w o hw (hdue w k hd (Trail.isTrue_negate.1 hwf) hwb)
    (Trail.isTrue_negate.1 hwf)
  have hob : t.levelOf o.var ≤ b := hle.trans hwb
  refine ⟨ht.isTrue_backtrack.2 ⟨ho, hob⟩, ?_⟩
  rw [ht.levelOf_backtrack hob, ht.levelOf_backtrack hwb]
  exact hle

theorem Database.Rooted.backtrack (h : db.Rooted t) (ht : t.Coherent n) (b : Nat) :
    db.Rooted (t.backtrack b).2 := by
  intro k l hk
  obtain ⟨htrue, hlevel⟩ := h k l hk
  have hle : t.levelOf l.var ≤ b := hlevel ▸ Nat.zero_le b
  exact ⟨ht.isTrue_backtrack.2 ⟨htrue, hle⟩, by rw [ht.levelOf_backtrack hle, hlevel]⟩

theorem Database.Rooted.grows {t' : Trail} {db' : Database} (h : db.Rooted t) (ht : t.Grows t')
    (hc : db'.contents = db.contents) : db'.Rooted t' := by
  intro k l hk
  rw [literals?_congr hc] at hk
  obtain ⟨htrue, hlevel⟩ := h k l hk
  exact ⟨ht.isTrue htrue, by rw [ht.levelOf_eq htrue, hlevel]⟩

theorem Database.Rooted.push {db' : Database} {c : StoredClause} (h : db.Rooted t)
    (hclauses : db'.clauses = db.clauses.push c)
    (hc : ∀ l, c.literals.toList = [l] → t.IsTrue l ∧ t.levelOf l.var = 0) : db'.Rooted t := by
  intro k l hk
  rw [literals?_push hclauses] at hk
  split at hk
  · exact hc l (by simpa using hk)
  · exact h k l hk

theorem Fitting.backtrack (h : Fitting n db t) (b : Nat) : Fitting n db (t.backtrack b).2 where
  coherent := h.coherent.backtrack b
  sound := h.sound
  justified := h.justified.backtrack h.coherent b
  settled c hc := by
    rw [Trail.level_backtrack] at hc
    rw [h.coherent.lengthAt_backtrack, Trail.head_backtrack, Nat.min_eq_left (by omega)]
    exact Nat.le_min.2 ⟨h.settled c (by omega), h.coherent.lengthAt_mono (by omega)⟩

theorem Ready.backtrack (h : Ready n db t) (b : Nat) : Ready n db (t.backtrack b).2 where
  toFitting := h.toFitting.backtrack b
  obeys := h.obeys.backtrack h.coherent fun w _ hd _ _ => by
    rw [Trail.taken, Trail.toList_backtrack, List.take_take, Trail.head_backtrack] at hd
    exact List.take_subset_take_left _ (by omega) hd

/-- Below a clash the watches are obeyed. -/
theorem Clash.backtrack (h : Clash n db t k) (hb : b < t.level) : Ready n db (t.backtrack b).2 where
  toFitting := h.toFitting.backtrack b
  obeys := h.obeys.backtrack h.coherent fun _ _ _ _ hle => Nat.lt_of_le_of_lt hle hb

/-! ## Decisions -/

theorem Ready.decide (h : Ready n db t) (hhead : t.head = t.literals.size) (hl : l.var.index < n)
    (hv : t.valueOf l.var = none) : Ready n db (t.openLevel.extend l none) where
  coherent := h.coherent.openLevel.extend hl hv
  sound := h.sound
  justified := h.justified.decide h.coherent hl hv
  settled b hb := by
    rw [Trail.level_extend] at hb
    rw [Trail.lengthAt_extend_of_lt hb, Trail.lengthAt_openLevel, Trail.head_extend]
    exact (h.coherent.lengthAt_le b).trans_eq hhead.symm
  obeys := by
    have hobeys : db.Obeys t.openLevel fun w _ => w.negate ∈ t.openLevel.taken := h.obeys
    have hext := hobeys.extend (l := l) (r := none) h.coherent.openLevel hv fun w k hd =>
      Trail.mem_of_mem_taken hd
    rwa [← h.coherent.openLevel.taken_extend (l := l) (r := none)] at hext

/-! ## Backjumps -/

namespace Learnt.Asserts

variable (h : learnt.Asserts (.ofTrail t db) t.literals.toList t.level)

include h

theorem levelOf_le_of_mem (hl : l ∈ learnt.literals) (hne : l ≠ learnt.asserting) :
    t.levelOf l.var ≤ learnt.backjump :=
  h.highest l ((List.mem_cons.1 hl).resolve_left hne)

theorem isFalse_backtrack (ht : t.Coherent n) (hl : l ∈ learnt.literals)
    (hne : l ≠ learnt.asserting) : (t.backtrack learnt.backjump).2.IsFalse l := by
  have hle := h.levelOf_le_of_mem hl hne
  exact ht.isTrue_backtrack.2 ⟨Trail.isTrue_negate.2 (h.isFalse_of_mem ht hl), hle⟩

theorem unassigned_backtrack (ht : t.Coherent n) (hlevel : t.level ≠ 0) :
    (t.backtrack learnt.backjump).2.valueOf learnt.asserting.var = none := by
  rw [Trail.valueOf, ht.assignment?_backtrack_of_lt]
  · rfl
  · exact (h.backjump_lt hlevel).trans_eq h.level_asserting.symm

/-- A clause with other literals has one that became false at the level of the jump. -/
theorem exists_at_backjump (hb : learnt.backjump ≠ 0) :
    ∃ m ∈ learnt.literals, m ≠ learnt.asserting ∧ t.levelOf m.var = learnt.backjump := by
  have hb' := h.backjump_eq
  cases hothers : learnt.others with
  | nil =>
      rw [hothers] at hb'
      exact absurd hb' hb
  | cons m rest =>
      have hm : m ∈ learnt.others := by simp [hothers]
      rw [hothers] at hb'
      refine ⟨m, List.mem_cons_of_mem _ hm, ?_, hb'.symm⟩
      rintro rfl
      have := (h.level_others _ hm).2
      rw [h.level_asserting] at this
      exact absurd this (Nat.lt_irrefl _)

theorem lt_of_mem (ht : t.Coherent n) (hl : l ∈ learnt.literals) : l.var.index < n :=
  ht.size_cells ▸ Trail.lt_of_valueOf (h.isFalse_of_mem ht hl)

theorem level_backtrack (hlevel : t.level ≠ 0) :
    (t.backtrack learnt.backjump).2.level = learnt.backjump := by
  have := h.backjump_lt hlevel
  rw [Trail.level_backtrack]
  omega

end Learnt.Asserts

/-- The trail after a backjump, with the asserting literal forced by the clause of the number. -/
def Trail.jump (t : Trail) (learnt : Learnt) (number : Nat) : Trail :=
  (t.backtrack learnt.backjump).2.extend learnt.asserting (some number)

theorem Clash.coherent_jump (h : Clash n db t k)
    (ha : learnt.Asserts (.ofTrail t db) t.literals.toList t.level) (hlevel : t.level ≠ 0)
    (number : Nat) : (t.jump learnt number).Coherent n :=
  (h.coherent.backtrack _).extend (ha.lt_of_mem h.coherent List.mem_cons_self)
    (ha.unassigned_backtrack h.coherent hlevel)

namespace Learnt.Asserts

variable (h : learnt.Asserts (.ofTrail t db) t.literals.toList t.level) (ht : t.Coherent n)

include h ht

theorem lt_cells_backtrack :
    learnt.asserting.var.index < (t.backtrack learnt.backjump).2.cells.size := by
  rw [Trail.size_cells_backtrack, ht.size_cells]
  exact h.lt_of_mem ht List.mem_cons_self

theorem isTrue_jump (number : Nat) : (t.jump learnt number).IsTrue learnt.asserting :=
  Trail.isTrue_extend_self (h.lt_cells_backtrack ht)

theorem levelOf_jump (hlevel : t.level ≠ 0) (number : Nat) :
    (t.jump learnt number).levelOf learnt.asserting.var = learnt.backjump := by
  rw [Trail.jump, Trail.levelOf_extend_self (h.lt_cells_backtrack ht), h.level_backtrack hlevel]

theorem levelOf_jump_of_ne (hlevel : t.level ≠ 0) (number : Nat) (hl : l ∈ learnt.literals)
    (hne : l ≠ learnt.asserting) : (t.jump learnt number).levelOf l.var = t.levelOf l.var := by
  have hgrows := Trail.Grows.extend (r := some number) (h.unassigned_backtrack ht hlevel)
  have hlevel := hgrows.levelOf_eq (Trail.isTrue_negate.2 (h.isFalse_backtrack ht hl hne))
  rw [Literal.var_negate] at hlevel
  rw [Trail.jump, hlevel, ht.levelOf_backtrack (h.levelOf_le_of_mem hl hne)]

end Learnt.Asserts

/-- Of the watches of the learnt clause the first is true after the jump, and the second became
false at the level of the jump. -/
theorem Clash.obeys_learnt (h : Clash n db t k)
    (ha : learnt.Asserts (.ofTrail t db) t.literals.toList t.level) (hlevel : t.level ≠ 0)
    {c : StoredClause} {number : Nat} (hc : Database.Stores c learnt.literals true)
    (hsize : 2 ≤ c.literals.size) {w o : Literal} (hw : c.WatchPair w o)
    (hf : (t.jump learnt number).IsFalse w) :
    (t.jump learnt number).IsTrue o ∧
      (t.jump learnt number).levelOf o.var ≤ (t.jump learnt number).levelOf w.var := by
  have htrue := ha.isTrue_jump h.coherent number
  rw [← Array.length_toList, hc.literals] at hsize
  cases hothers : learnt.others with
  | nil => simp [Learnt.literals, hothers] at hsize
  | cons m rest =>
      have hmem : m ∈ learnt.literals := by simp [Learnt.literals, hothers]
      obtain ⟨hfirst, hsecond⟩ :=
        hc.watched learnt.asserting m rest (by simp [Learnt.literals, hothers])
      rcases hw with ⟨h₁, -⟩ | ⟨h₁, h₂⟩
      · rw [← h₁, hfirst] at hf
        exact absurd hf htrue.not_isFalse
      · obtain rfl : learnt.asserting = o := hfirst.symm.trans h₁
        obtain rfl : m = w := hsecond.symm.trans h₂
        have hb := ha.backjump_eq
        rw [hothers] at hb
        have hne : m ≠ learnt.asserting := by
          rintro rfl
          exact htrue.not_isFalse hf
        refine ⟨htrue, Nat.le_of_eq ?_⟩
        rw [ha.levelOf_jump h.coherent hlevel, ha.levelOf_jump_of_ne h.coherent hlevel _ hmem hne]
        exact hb

theorem Clash.ready_jump (h : Clash n db t k)
    (ha : learnt.Asserts (.ofTrail t db) t.literals.toList t.level) (hlevel : t.level ≠ 0)
    {db' : Database} {c : StoredClause} (hsound : db'.Sound n)
    (hclauses : db'.clauses = db.clauses.push c) (hc : Database.Stores c learnt.literals true) :
    Ready n db' (t.jump learnt db.clauses.size) := by
  have hready := h.backtrack (ha.backjump_lt hlevel)
  have hunassigned := ha.unassigned_backtrack h.coherent hlevel
  have hscope := ha.lt_of_mem h.coherent (l := learnt.asserting) List.mem_cons_self
  have hjump := ha.level_backtrack hlevel
  have hnew : db'.literals? db.clauses.size = some learnt.literals :=
    (Database.literals?_push_self hclauses).trans (congrArg some hc.literals)
  refine ⟨⟨h.coherent_jump ha hlevel _, hsound, ?_, fun b hb => ?_⟩, ?_⟩
  · have hjustified := hready.justified.mono fun _ _ => Database.literals?_push_of_some hclauses
    refine hjustified.extend hready.coherent hscope hunassigned hnew List.mem_cons_self
      (fun m hm hne => ha.isFalse_backtrack h.coherent hm hne) ?_
    by_cases hb : learnt.backjump = 0
    · exact .inl (hjump.trans hb)
    · obtain ⟨m, hm, hne, hmlevel⟩ := ha.exists_at_backjump hb
      refine .inr ⟨m, hm, hne, ?_⟩
      rw [h.coherent.levelOf_backtrack (Nat.le_of_eq hmlevel), hmlevel, hjump]
  · rw [Trail.jump, Trail.level_extend] at hb
    rw [Trail.jump, Trail.lengthAt_extend_of_lt hb, Trail.head_extend]
    exact hready.settled b hb
  · have hold := hready.obeys.extend (l := learnt.asserting) (r := some db.clauses.size)
      hready.coherent hunassigned fun w k hd => Trail.mem_of_mem_taken hd
    rw [← hready.coherent.taken_extend (l := learnt.asserting)
      (r := some db.clauses.size)] at hold
    intro j d hd hsize w o hw hdue hf
    rw [hclauses, Array.getElem?_push] at hd
    split at hd
    · cases hd
      exact h.obeys_learnt ha hlevel hc hsize hw hf
    · exact hold j d hd hsize w o hw hdue hf

/-- A learnt unit clause is true at the root level from then on. -/
theorem Clash.rooted_jump (h : Clash n db t k) (hroot : db.Rooted t)
    (ha : learnt.Asserts (.ofTrail t db) t.literals.toList t.level) (hlevel : t.level ≠ 0)
    {db' : Database} {c : StoredClause} (hclauses : db'.clauses = db.clauses.push c)
    (hc : Database.Stores c learnt.literals true) :
    db'.Rooted (t.jump learnt db.clauses.size) := by
  have hgrows := Trail.Grows.extend (r := some db.clauses.size)
    (ha.unassigned_backtrack h.coherent hlevel)
  refine ((hroot.backtrack h.coherent _).grows hgrows rfl).push hclauses fun l hl => ?_
  rw [hc.literals, Learnt.literals, List.cons.injEq] at hl
  obtain ⟨rfl, hothers⟩ := hl
  refine ⟨ha.isTrue_jump h.coherent _, (ha.levelOf_jump h.coherent hlevel _).trans ?_⟩
  rw [ha.backjump_eq, hothers]
  rfl

end ClauseLearning
