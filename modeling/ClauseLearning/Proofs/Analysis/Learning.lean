import Mathlib
import ClauseLearning.Proofs.Analysis.Marks

/-!
# Learning from a conflict

Conflict analysis ends at a clause that is false on the trail, has one literal of the current level
and follows from the clauses that it was resolved from.
-/

namespace ClauseLearning

variable {g : ImplicationGraph} {trail pending earlier conflict : List Literal} {n current : Nat}
  {m : Marks} {l : Literal} {σ : Variable → Bool}

/-! ## The literal of the highest level -/

/-- The position and the level belong to a literal of the highest level, if there is any. -/
def Tops (g : ImplicationGraph) (ls : List Literal) : Option (Nat × Nat) → Prop
  | none => ls = []
  | some (i, b) => (∃ l, ls[i]? = some l ∧ g.level l.var = b) ∧ ∀ l ∈ ls, g.level l.var ≤ b

theorem highestLevel?_tops (g : ImplicationGraph) (ls : List Literal) :
    Tops g ls (highestLevel? g ls) := by
  induction ls using List.reverseRecOn with
  | nil => rfl
  | append_singleton ls l ih =>
      rw [highestLevel?, List.zipIdx_append, List.foldl_append]
      change Tops g _ ((([l] : List Literal).zipIdx (0 + ls.length)).foldl _ (highestLevel? g ls))
      cases hbest : highestLevel? g ls with
      | none =>
          rw [hbest] at ih
          obtain rfl : ls = [] := ih
          simp [Tops]
      | some best =>
          obtain ⟨i, b⟩ := best
          rw [hbest] at ih
          obtain ⟨⟨k, hk, hb⟩, hle⟩ := ih
          have hi := (List.getElem?_eq_some_iff.1 hk).1
          simp only [List.zipIdx_cons, List.zipIdx_nil, List.foldl_cons, List.foldl_nil]
          split
          · refine ⟨⟨k, by rw [List.getElem?_append_left hi, hk], hb⟩, fun p hp => ?_⟩
            rcases List.mem_append.1 hp with hp | hp
            · exact hle p hp
            · obtain rfl := List.mem_singleton.1 hp
              omega
          · refine ⟨⟨l, by simp, rfl⟩, fun p hp => ?_⟩
            rcases List.mem_append.1 hp with hp | hp
            · have := hle p hp
              omega
            · rw [List.mem_singleton.1 hp]

namespace Learnt

/-- The clause jumps back to the highest level of its other literals, of which the first has it. -/
structure Headed (g : ImplicationGraph) (learnt : Learnt) : Prop where
  backjump_eq : learnt.backjump = (learnt.others.head?.map fun l => g.level l.var).getD 0
  highest : ∀ l ∈ learnt.others, g.level l.var ≤ learnt.backjump

theorem rotateLeft_perm (ls : List Literal) (k : Nat) : (ls.rotateLeft k).Perm ls := by
  simp only [List.rotateLeft]
  split
  · exact .refl ls
  · conv_rhs => rw [← List.take_append_drop (k % ls.length) ls]
    exact List.perm_append_comm

theorem ofRecorded_spec (g : ImplicationGraph) (asserting : Literal) (recorded : Array Literal) :
    (ofRecorded g asserting recorded).asserting = asserting ∧
      (ofRecorded g asserting recorded).others.Perm recorded.toList ∧
      (ofRecorded g asserting recorded).Headed g := by
  have hperm := rotateLeft_perm recorded.toList 1
  have htops := highestLevel?_tops g (recorded.toList.rotateLeft 1)
  rw [ofRecorded]
  generalize recorded.toList.rotateLeft 1 = others at *
  cases hbest : highestLevel? g others with
  | none =>
      rw [hbest] at htops
      obtain rfl : others = [] := htops
      exact ⟨rfl, hperm, rfl, by simp⟩
  | some best =>
      obtain ⟨i, b⟩ := best
      rw [hbest] at htops
      obtain ⟨⟨k, hk, hb⟩, hle⟩ := htops
      obtain ⟨hi, rfl⟩ := List.getElem?_eq_some_iff.1 hk
      have hpos : 0 < others.length := by omega
      have hswap : (others.toArray.swapIfInBounds 0 i).toList.Perm others := by
        rw [Array.swapIfInBounds, dif_pos (by simpa using hpos), dif_pos (by simpa using hi)]
        exact (Array.swap_perm _ _).toList
      refine ⟨rfl, hswap.trans hperm, ?_, fun l hl => hle l (hswap.mem_iff.1 hl)⟩
      rw [List.head?_eq_getElem?, Array.getElem?_toList, Array.swapIfInBounds,
        dif_pos (by simpa using hpos), dif_pos (by simpa using hi)]
      by_cases h0 : i = 0
      · subst h0
        simp [hb, hpos]
      · simp [hb, hpos, h0]

/-- The clause is false on the trail, its asserting literal alone since the current level. -/
structure Asserts (g : ImplicationGraph) (trail : List Literal) (current : Nat) (learnt : Learnt) :
    Prop extends Headed g learnt where
  isFalse : ∀ l ∈ learnt.literals, l.negate ∈ trail
  distinct : (learnt.literals.map Literal.var).Nodup
  level_asserting : g.level learnt.asserting.var = current
  level_others : ∀ l ∈ learnt.others, g.level l.var ≠ 0 ∧ g.level l.var < current

theorem Asserts.backjump_lt {learnt : Learnt} (h : learnt.Asserts g trail current)
    (hcurrent : current ≠ 0) : learnt.backjump < current := by
  rw [h.backjump_eq]
  cases hothers : learnt.others with
  | nil => exact Nat.pos_of_ne_zero hcurrent
  | cons l rest => exact (h.level_others l (by simp [hothers])).2

end Learnt

/-! ## Resolution backwards along the trail -/

/-- The assignment makes the reasons of the current level true, and the literals of the root
level. -/
structure ImplicationGraph.Respects (g : ImplicationGraph) (trail : List Literal) (current : Nat)
    (σ : Variable → Bool) : Prop where
  reasons : ∀ l ∈ trail, g.level l.var = current → ∀ reason, g.reason l.var = some reason →
    (Clause.mk reason).Holds σ
  root : ∀ l ∈ trail, g.level l.var = 0 → l.Holds σ

namespace Marks

/-- The assignment makes a literal true that was met false on the trail and was not resolved. -/
def Open (g : ImplicationGraph) (trail : List Literal) (current : Nat) (pending : List Literal)
    (m : Marks) (σ : Variable → Bool) : Prop :=
  ∃ l : Literal, l.Holds σ ∧ l.negate ∈ trail ∧ l.var ∈ m.marked ∧ g.level l.var ≠ 0 ∧
    (g.level l.var = current → l.negate ∈ pending)

/-- What it takes to resolve the latest pending literal: it is marked, and so are the variables of its
reason afterwards. Another literal of the current level was marked before. -/
structure Resolved (g : ImplicationGraph) (current : Nat) (l : Literal) (earlier : List Literal)
    (reason : List Literal) (m m' : Marks) : Prop where
  marked : l.var ∈ m.marked
  level : g.level l.var = current
  reason_eq : g.reason l.var = some reason
  isFalse : ∀ k ∈ reason, k ≠ l → k.negate ∈ earlier
  other : ∃ k ∈ earlier, k.var ∈ m.marked ∧ g.level k.var = current
  marked_iff : ∀ v, v ∈ m'.marked ↔ v ∈ m.marked ∨ v ∈ reason.map Literal.var

/-- What the walk back along the trail keeps, when it passes over a literal and when it resolves
one. -/
structure Kept (g : ImplicationGraph) (trail : List Literal) (n current : Nat)
    (J : List Literal → Marks → Prop) : Prop where
  skip : ∀ l earlier m, Tally g trail n current (l :: earlier) m → l.var ∉ m.marked →
    0 < m.unresolved → J (l :: earlier) m → J earlier m
  resolve : ∀ l earlier reason m m', Tally g trail n current (l :: earlier) m →
    Resolved g current l earlier reason m m' → J (l :: earlier) m → J earlier m'

namespace Tally

theorem split (h : Tally g trail n current (l :: earlier) m) :
    ∃ later, trail = earlier.reverse ++ l :: later := by
  obtain ⟨later, hlater⟩ := h.suffix
  refine ⟨later.reverse, ?_⟩
  rw [← List.reverse_reverse trail, ← hlater]
  simp

theorem tail_suffix (h : Tally g trail n current (l :: earlier) m) : earlier <:+ trail.reverse :=
  (List.suffix_cons l earlier).trans h.suffix

theorem unresolved_pos_iff (h : Tally g trail n current pending m) :
    0 < m.unresolved ↔ ∃ l ∈ pending, l.var ∈ m.marked ∧ g.level l.var = current := by
  simp [h.unresolved, List.countP_pos_iff]

/-- The latest pending literal is of the current level if any is. -/
theorem head_level (hg : g.Describes trail n current) (h : Tally g trail n current (l :: earlier) m)
    (hpos : 0 < m.unresolved) : g.level l.var = current := by
  obtain ⟨k, hk, -, hlevel⟩ := h.unresolved_pos_iff.1 hpos
  have hle := hg.level_le l (h.mem_trail List.mem_cons_self)
  rcases List.mem_cons.1 hk with rfl | hk
  · exact hlevel
  · obtain ⟨later, hlater⟩ := h.split
    have hmono := hg.monotone
    rw [hlater, List.pairwise_append] at hmono
    have := hmono.2.2 k (by simpa using hk) l List.mem_cons_self
    omega

theorem skip (h : Tally g trail n current (l :: earlier) m) (hl : l.var ∉ m.marked) :
    Tally g trail n current earlier m :=
  { h with
    unresolved := by rw [h.unresolved, List.countP_cons_of_neg (by simp [hl])]
    suffix := h.tail_suffix }

theorem unresolved_cons (h : Tally g trail n current (l :: earlier) m) (hl : l.var ∈ m.marked)
    (hlevel : g.level l.var = current) : m.unresolved =
      (earlier.countP fun k => k.var ∈ m.marked ∧ g.level k.var = current) + 1 := by
  rw [h.unresolved, List.countP_cons_of_pos (by simp [hl, hlevel])]

theorem resolve (h : Tally g trail n current (l :: earlier) m) {unresolved : Nat}
    (hu : unresolved = earlier.countP fun k => k.var ∈ m.marked ∧ g.level k.var = current) :
    Tally g trail n current earlier { m with unresolved := unresolved } :=
  { h with
    unresolved := hu
    suffix := h.tail_suffix }

theorem asserts (hg : g.Describes trail n current)
    (h : Tally g trail n current (l :: earlier) m) (hlevel : g.level l.var = current) :
    (Learnt.ofRecorded g l.negate m.recorded).Asserts g trail current := by
  obtain ⟨hasserting, hperm, hheaded⟩ := Learnt.ofRecorded_spec g l.negate m.recorded
  have hrecorded : ∀ k ∈ (Learnt.ofRecorded g l.negate m.recorded).others,
      k.negate ∈ trail ∧ g.level k.var ≠ 0 ∧ g.level k.var < current := by
    intro k hk
    obtain ⟨ht, -, h0, hc⟩ := (h.recorded_iff k).1 (by simpa using hperm.mem_iff.1 hk)
    exact ⟨ht, h0, Nat.lt_of_le_of_ne (hg.level_le k.negate ht) hc⟩
  refine ⟨hheaded, fun k hk => ?_, ?_, by rw [hasserting]; exact hlevel, fun k hk =>
    (hrecorded k hk).2⟩
  · rcases List.mem_cons.1 hk with rfl | hk
    · rw [hasserting, Literal.negate_negate]
      exact h.mem_trail List.mem_cons_self
    · exact (hrecorded k hk).1
  · rw [Learnt.literals, hasserting, List.map_cons, List.nodup_cons, (hperm.map _).nodup_iff]
    refine ⟨fun hmem => ?_, h.distinct⟩
    obtain ⟨k, hk, he⟩ := List.mem_map.1 hmem
    have hlt := (hrecorded k hk).2.2
    rw [he, Literal.var_negate, hlevel] at hlt
    exact absurd hlt (Nat.lt_irrefl _)

/-- At the implication point no other literal of the current level is open. -/
theorem holds_learnt (h : Tally g trail n current (l :: earlier) m) (hl : l.var ∈ m.marked)
    (hlevel : g.level l.var = current) (hone : m.unresolved = 1)
    (hopen : m.Open g trail current (l :: earlier) σ) :
    (Clause.mk (Learnt.ofRecorded g l.negate m.recorded).literals).Holds σ := by
  obtain ⟨hasserting, hperm, -⟩ := Learnt.ofRecorded_spec g l.negate m.recorded
  obtain ⟨k, hkσ, ht, hv, h0, hpending⟩ := hopen
  by_cases hc : g.level k.var = current
  · refine ⟨k, ?_, hkσ⟩
    rcases List.mem_cons.1 (hpending hc) with hkl | hk
    · rw [Learnt.literals, hasserting, ← hkl, Literal.negate_negate]
      exact List.mem_cons_self
    · have hzero := h.unresolved_cons hl hlevel
      rw [hone, right_eq_add, List.countP_eq_zero] at hzero
      exact absurd (decide_eq_true ⟨hv, hc⟩) (hzero k.negate hk)
  · have hr : k ∈ m.recorded := (h.recorded_iff k).2 ⟨ht, hv, h0, hc⟩
    exact ⟨k, List.mem_cons_of_mem _ (hperm.mem_iff.2 (by simpa using hr)), hkσ⟩

theorem holds_noted (hσ : g.Respects trail current σ) {m' : Marks} {reason : List Literal}
    (h : Tally g trail n current (l :: earlier) m)
    (hr : Resolved g current l earlier reason m m')
    (hopen : m.Open g trail current (l :: earlier) σ) : m'.Open g trail current earlier σ := by
  have hearlier : earlier ⊆ trail := fun k hk => h.mem_trail (List.mem_cons_of_mem _ hk)
  obtain ⟨k, hkσ, ht, hv, h0, hpending⟩ := hopen
  by_cases hkl : k.negate = l
  -- The open literal is the negation of the one resolved, so another one of the reason holds.
  · obtain ⟨p, hp, hpσ⟩ :=
      hσ.reasons l (h.mem_trail List.mem_cons_self) hr.level reason hr.reason_eq
    have hpl : p ≠ l := by
      rintro rfl
      exact Literal.holds_negate.1 (hkl ▸ hpσ : k.negate.Holds σ) hkσ
    have hneg := hr.isFalse p hp hpl
    refine ⟨p, hpσ, hearlier hneg, (hr.marked_iff _).2 (.inr (List.mem_map_of_mem hp)),
      fun h0 => ?_, fun _ => hneg⟩
    exact Literal.holds_negate.1 (hσ.root p.negate (hearlier hneg) h0) hpσ
  · refine ⟨k, hkσ, ht, (hr.marked_iff _).2 (.inl hv), h0, fun hc => ?_⟩
    exact (List.mem_cons.1 (hpending hc)).resolve_left hkl

theorem open_skipped (hl : l.var ∉ m.marked) (hopen : m.Open g trail current (l :: earlier) σ) :
    m.Open g trail current earlier σ := by
  obtain ⟨k, hkσ, ht, hv, h0, hpending⟩ := hopen
  refine ⟨k, hkσ, ht, hv, h0, fun hc => (List.mem_cons.1 (hpending hc)).resolve_left ?_⟩
  rintro rfl
  exact hl hv

/-- While other literals of the current level are to come, the latest has a reason to note. -/
theorem noteReason (hg : g.Describes trail n current) (h : Tally g trail n current (l :: earlier) m)
    (hl : l.var ∈ m.marked) (hlevel : g.level l.var = current) {u : Nat}
    (hu : m.unresolved = u + 2) : ∃ reason m',
      Marks.noteAll g current { m with unresolved := u + 1 } reason = .ok m' ∧
      Tally g trail n current earlier m' ∧ Resolved g current l earlier reason m m' := by
  obtain ⟨later, hsplit⟩ := h.split
  have hcount := h.unresolved_cons hl hlevel
  have hresolve := h.resolve (show u + 1 = _ by omega)
  obtain ⟨k, hk, hkv, hkc⟩ := hresolve.unresolved_pos_iff.1 (Nat.succ_pos u)
  obtain ⟨reason, hreason, -, hfalse⟩ := hg.reasoned _ l later hsplit hlevel
    ⟨k, by simpa using hk, hkc⟩
  simp only [List.mem_reverse] at hfalse
  have hmet : ∀ p ∈ reason, p.var ∈ m.marked ∨ p.negate ∈ earlier := by
    intro p hp
    by_cases hpl : p = l
    · exact .inl (hpl ▸ hl)
    · exact .inr (hfalse p hp hpl)
  obtain ⟨m', hm', h', hmarked⟩ := hresolve.noteAll hg reason hmet
  exact ⟨reason, m', hm', h', hl, hlevel, hreason, hfalse, ⟨k, hk, hkv, hkc⟩, hmarked⟩

/-- The walk ends at a marked literal, the last of the current level that is open. -/
theorem resolveBack (hg : g.Describes trail n current) {J : List Literal → Marks → Prop}
    (hJ : Kept g trail n current J) (h : Tally g trail n current pending m)
    (hpos : 0 < m.unresolved) (hm : J pending m) : ∃ l earlier m',
      Tally g trail n current (l :: earlier) m' ∧ l.var ∈ m'.marked ∧ m'.unresolved = 1 ∧
      J (l :: earlier) m' ∧ ClauseLearning.resolveBack g current m pending =
        .ok (.ofRecorded g l.negate m'.recorded, Marks.clear n) := by
  induction pending generalizing m with
  | nil =>
      rw [h.unresolved, List.countP_nil] at hpos
      cases hpos
  | cons l earlier ih =>
      have ht := h.mem_trail List.mem_cons_self
      have hseen := h.isSeen (hg.inScope l ht)
      rw [ClauseLearning.resolveBack, hseen]
      by_cases hv : l.var ∈ m.marked
      · have hlevel := h.head_level hg hpos
        simp only [decide_eq_true hv, bind, Except.bind, if_true]
        cases hu : m.unresolved with
        | zero => omega
        | succ u =>
            cases u with
            -- The last one is the implication point.
            | zero =>
                refine ⟨l, earlier, m, h, hv, hu, hm, ?_⟩
                simp only [hg.value l ht, h.reset]
                rfl
            | succ u =>
                obtain ⟨reason, m', hm', h', hr⟩ := h.noteReason hg hv hlevel hu
                obtain ⟨k, hk, hkv, hkc⟩ := hr.other
                have hpos' : 0 < m'.unresolved :=
                  h'.unresolved_pos_iff.2 ⟨k, hk, (hr.marked_iff _).2 (.inl hkv), hkc⟩
                simp only [hr.reason_eq, hm']
                exact ih h' hpos' (hJ.resolve l earlier reason m m' h hr hm)
      · rw [decide_eq_false hv]
        exact ih (h.skip hv) hpos (hJ.skip l earlier m h hv hpos hm)

end Tally

end Marks

/-! ## Analysis of a conflict -/

section Analyze

variable (hg : g.Describes trail n current) (hcurrent : current ≠ 0)
  (hfalse : ∀ l ∈ conflict, l.negate ∈ trail) (hlevel : ∃ l ∈ conflict, g.level l.var = current)

include hg hcurrent hfalse hlevel

/-- What holds when the clause in conflict is marked, and is kept, holds at the implication point. -/
theorem analyze_ends {J : List Literal → Marks → Prop} (hJ : Marks.Kept g trail n current J)
    (hstart : ∀ m : Marks, (∀ v, v ∈ m.marked ↔ v ∈ conflict.map Literal.var) →
      J trail.reverse m) :
    ∃ l earlier m, Marks.Tally g trail n current (l :: earlier) m ∧ l.var ∈ m.marked ∧
      m.unresolved = 1 ∧ J (l :: earlier) m ∧
      analyze g current conflict trail (Marks.clear n) =
        .ok (.ofRecorded g l.negate m.recorded, Marks.clear n) := by
  obtain ⟨m, hm, h, hmarked⟩ := (Marks.Tally.clear g trail n current).noteAll hg conflict
    fun l hl => .inr (by simpa using hfalse l hl)
  have hclause : ∀ v, v ∈ m.marked ↔ v ∈ conflict.map Literal.var := by
    simpa [Marks.clear] using hmarked
  have hpos : 0 < m.unresolved := by
    obtain ⟨l, hl, hc⟩ := hlevel
    have hv : l.var ∈ m.marked := (hclause _).2 (List.mem_map_of_mem hl)
    exact h.unresolved_pos_iff.2 ⟨l.negate, by simpa using hfalse l hl, hv, hc⟩
  rw [analyze, if_neg hcurrent, hm]
  exact h.resolveBack hg hJ hpos (hstart m hclause)

/-- A clause that is false on the trail, not without the current level, leads to a learnt clause
that asserts a literal and follows from it. -/
theorem analyze_spec :
    ∃ learnt, analyze g current conflict trail (Marks.clear n) = .ok (learnt, Marks.clear n) ∧
      learnt.Asserts g trail current ∧
      ∀ σ, g.Respects trail current σ → (Clause.mk conflict).Holds σ →
        (Clause.mk learnt.literals).Holds σ := by
  have hkept : Marks.Kept g trail n current fun pending m => ∀ σ, g.Respects trail current σ →
      (Clause.mk conflict).Holds σ → m.Open g trail current pending σ :=
    ⟨fun l earlier m _ hv _ hopen σ hσ hc => Marks.Tally.open_skipped hv (hopen σ hσ hc),
      fun l earlier reason m m' h hr hopen σ hσ hc => h.holds_noted hσ hr (hopen σ hσ hc)⟩
  obtain ⟨l, earlier, m, h, hv, hone, hopen, hanalyze⟩ :=
    analyze_ends hg hcurrent hfalse hlevel hkept fun m hmarked σ hσ ⟨l, hl, hlσ⟩ => by
      have ht := hfalse l hl
      refine ⟨l, hlσ, ht, (hmarked _).2 (List.mem_map_of_mem hl), fun h0 => ?_, fun _ => ?_⟩
      · exact Literal.holds_negate.1 (hσ.root l.negate ht h0) hlσ
      · simpa using ht
  have hl := h.head_level hg (by omega)
  exact ⟨_, hanalyze, h.asserts hg hl, fun σ hσ hc => h.holds_learnt hv hl hone (hopen σ hσ hc)⟩

end Analyze

end ClauseLearning
