import Mathlib
import ClauseLearning.Proofs.Analysis.Learning

/-!
# The first unique implication point

Within the current level, variables imply each other through their reasons, and some of them clash
in a clause. Conflict analysis ends at the last variable of the trail that lies on all paths from the
decision to the clash. While it walks back, what is marked leads to the clash through what was passed
already, and whatever was passed is avoided by some path.
-/

namespace ClauseLearning

variable {g : ImplicationGraph} {trail conflict pending earlier later : List Literal}
  {n current : Nat} {m m' : Marks} {d l : Literal} {u v : Variable} {path : List Variable}

namespace ImplicationGraph

/-- Both variables are of the current level, and the first stands in the reason of the second. -/
structure Implies (g : ImplicationGraph) (current : Nat) (u v : Variable) : Prop where
  source : g.level u = current
  target : g.level v = current
  ne : u ≠ v
  reason : ∃ reason, g.reason v = some reason ∧ u ∈ reason.map Literal.var

/-- The path leads from its first variable to the conflict, each variable implying the next. -/
inductive Leads (g : ImplicationGraph) (current : Nat) (conflict : List Literal) :
    Variable → List Variable → Prop where
  | last {v : Variable} : v ∈ conflict.map Literal.var → g.level v = current →
      Leads g current conflict v [v]
  | step {u v : Variable} {path : List Variable} : g.Implies current u v →
      Leads g current conflict v path → Leads g current conflict u (u :: path)

/-- The literal is the last of the trail that lies on all paths from the decision to the conflict. -/
structure FirstPoint (g : ImplicationGraph) (trail : List Literal) (current : Nat)
    (conflict : List Literal) (d l : Literal) : Prop where
  exists_path : ∃ path, g.Leads current conflict d.var path
  mem : ∀ path, g.Leads current conflict d.var path → l.var ∈ path
  avoided : ∃ earlier later, trail = earlier ++ l :: later ∧
    ∀ k ∈ later, ∃ path, g.Leads current conflict d.var path ∧ k.var ∉ path

/-- The decision is the first literal of the current level, and all others of the level have another
one in their reasons. -/
structure Rooted (g : ImplicationGraph) (trail : List Literal) (current : Nat) (d : Literal) :
    Prop where
  first : (trail.find? fun l => g.level l.var = current) = some d
  linked : ∀ earlier l later, trail = earlier ++ l :: later → g.level l.var = current →
    (∃ k ∈ earlier, g.level k.var = current) →
    ∃ reason, g.reason l.var = some reason ∧ ∃ k ∈ reason, k ≠ l ∧ g.level k.var = current

theorem Rooted.mem_of_level (h : g.Rooted trail current d) (hsplit : trail = earlier ++ l :: later)
    (hlevel : g.level l.var = current) : d ∈ earlier ++ [l] := by
  have hfirst := h.first
  rw [hsplit, List.find?_append] at hfirst
  cases hfind : earlier.find? fun l => g.level l.var = current with
  | none =>
      rw [hfind] at hfirst
      obtain rfl : l = d := by simpa [hlevel] using hfirst
      exact List.mem_append_right _ List.mem_cons_self
  | some k =>
      rw [hfind] at hfirst
      obtain rfl : k = d := by simpa using hfirst
      exact List.mem_append_left _ (List.mem_of_find?_eq_some hfind)

namespace Describes

variable (hg : g.Describes trail n current)

include hg

theorem ne_of_mem (hsplit : trail = earlier ++ l :: later) {k : Literal} (hk : k ∈ earlier) :
    k.var ≠ l.var := by
  have hd := hg.distinct
  rw [hsplit, List.map_append, List.map_cons, List.nodup_append] at hd
  exact hd.2.2 _ (List.mem_map_of_mem hk) _ List.mem_cons_self

theorem implies (hsplit : trail = earlier ++ l :: later) {reason : List Literal} {k : Literal}
    (hreason : g.reason l.var = some reason) (hk : k ∈ reason) (hfalse : k.negate ∈ earlier)
    (hkl : g.level k.var = current) (hl : g.level l.var = current) :
    g.Implies current k.var l.var :=
  ⟨hkl, hl, hg.ne_of_mem hsplit (k := k.negate) hfalse, reason, hreason, List.mem_map_of_mem hk⟩

/-- What leads to the conflict is led to by the decision, through earlier variables. -/
theorem leads_of_decision (hd : g.Rooted trail current d) (hsplit : trail = earlier ++ l :: later)
    (hlevel : g.level l.var = current) (hpath : g.Leads current conflict l.var path) :
    ∃ before, g.Leads current conflict d.var (before ++ path) ∧
      ∀ v ∈ before, v ∈ earlier.map Literal.var := by
  -- On the number of literals before: the one that implies this one may be any of them.
  induction hsize : earlier.length using Nat.strongRecOn generalizing earlier l later path with
  | ind size ih =>
      by_cases hearlier : ∃ k ∈ earlier, g.level k.var = current
      · obtain ⟨reason, hreason, k, hk, hkl, hklevel⟩ := hd.linked _ l later hsplit hlevel hearlier
        obtain ⟨reason', hreason', -, hfalse⟩ := hg.reasoned _ l later hsplit hlevel hearlier
        obtain rfl : reason' = reason := by simpa [hreason] using hreason'.symm
        obtain ⟨before, after, rfl⟩ := List.append_of_mem (hfalse k hk hkl)
        have himplies := hg.implies hsplit hreason hk (hfalse k hk hkl) hklevel hlevel
        obtain ⟨start, hstart, hbefore⟩ := ih before.length (by simp [← hsize])
          (l := k.negate) (by simpa using hsplit) hklevel (.step himplies hpath) rfl
        refine ⟨start ++ [k.var], by simpa using hstart, fun v hv => ?_⟩
        rcases List.mem_append.1 hv with hv | hv
        · have := hbefore v hv
          simp_all
        · simp_all
      -- The literal is the first of its level, which is the decision.
      · have hlevel' : g.level d.var = current := by simpa using List.find?_some hd.first
        obtain rfl : d = l := by
          rcases List.mem_append.1 (hd.mem_of_level hsplit hlevel) with hmem | hmem
          · exact absurd ⟨d, hmem, hlevel'⟩ hearlier
          · exact List.mem_singleton.1 hmem
        exact ⟨[], hpath, by simp⟩

end Describes

end ImplicationGraph

namespace Marks

/-- What the marks know of the paths to the conflict. -/
structure Toward (g : ImplicationGraph) (trail : List Literal) (current : Nat)
    (conflict : List Literal) (d : Literal) (pending : List Literal) (m : Marks) : Prop where
  clause : ∀ v ∈ conflict.map Literal.var, v ∈ m.marked
  reasons : ∀ l ∈ trail, l ∉ pending → l.var ∈ m.marked → ∀ reason, g.reason l.var = some reason →
    ∀ k ∈ reason, k.var ∈ m.marked
  leads : ∀ v ∈ m.marked, g.level v = current →
    ∃ path, g.Leads current conflict v (v :: path) ∧ ∀ l ∈ pending, l.var ∉ path
  avoided : ∀ l ∈ trail, l ∉ pending →
    ∃ path, g.Leads current conflict d.var path ∧ l.var ∉ path

/-- Reasons are noted before what they forced is passed, so nothing that was passed is marked
later. -/
theorem Resolved.marked_of_passed (hg : g.Describes trail n current)
    (h : Tally g trail n current (l :: earlier) m) {reason : List Literal}
    (hr : Resolved g current l earlier reason m m') {k : Literal} (hk : k ∈ trail)
    (hpassed : k ∉ earlier) (hv : k.var ∈ m'.marked) : k.var ∈ m.marked := by
  rcases (hr.marked_iff _).1 hv with hv | hv
  · exact hv
  · obtain ⟨p, hp, he⟩ := List.mem_map.1 hv
    by_cases hpl : p = l
    · rw [← he, hpl]
      exact hr.marked
    · have hneg := hr.isFalse p hp hpl
      have hkp := hg.eq_of_var_eq hk (h.mem_trail (List.mem_cons_of_mem l hneg)) he.symm
      exact absurd (hkp ▸ hneg) hpassed

namespace Toward

theorem start (hmarked : ∀ v, v ∈ m.marked ↔ v ∈ conflict.map Literal.var) :
    Toward g trail current conflict d trail.reverse m where
  clause v hv := (hmarked v).2 hv
  reasons _ hl hp := absurd (List.mem_reverse.2 hl) hp
  leads v hv hlevel := ⟨[], .last ((hmarked v).1 hv) hlevel, fun _ _ => List.not_mem_nil⟩
  avoided _ hl hp := absurd (List.mem_reverse.2 hl) hp

variable (hg : g.Describes trail n current) (hd : g.Rooted trail current d)

include hg hd

/-- A marked variable of the current level that is to come has a path that avoids what is passed. -/
theorem avoid (h : Tally g trail n current (l :: earlier) m)
    (ht : Toward g trail current conflict d (l :: earlier) m)
    (hother : ∃ k ∈ earlier, k.var ∈ m.marked ∧ g.level k.var = current) {p : Literal}
    (hp : p ∈ trail) (hpassed : p ∉ earlier) :
    ∃ path, g.Leads current conflict d.var path ∧ p.var ∉ path := by
  by_cases hpl : p = l
  · subst hpl
    obtain ⟨k, hk, hv, hlevel⟩ := hother
    obtain ⟨later, hsplit⟩ := h.split
    obtain ⟨path, hpath, havoids⟩ := ht.leads k.var hv hlevel
    obtain ⟨before, after, hearlier⟩ := List.append_of_mem (List.mem_reverse.2 hk)
    have hsplit' : trail = before ++ k :: (after ++ p :: later) := by simp [hsplit, hearlier]
    obtain ⟨start, hstart, hbefore⟩ := hg.leads_of_decision hd hsplit' hlevel hpath
    -- It comes to the marked variable through earlier ones and goes on through what was passed.
    refine ⟨start ++ k.var :: path, hstart, fun hmem => ?_⟩
    rcases List.mem_append.1 hmem with hmem | hmem
    · obtain ⟨q, hq, he⟩ := List.mem_map.1 (hbefore _ hmem)
      exact hg.ne_of_mem hsplit (by simp [hearlier, hq]) he
    · rcases List.mem_cons.1 hmem with he | hmem
      · exact hg.ne_of_mem hsplit (List.mem_reverse.2 hk) he.symm
      · exact havoids p List.mem_cons_self hmem
  · exact ht.avoided p hp (by simp [hpl, hpassed])

theorem skip (h : Tally g trail n current (l :: earlier) m) (hl : l.var ∉ m.marked)
    (hpos : 0 < m.unresolved) (ht : Toward g trail current conflict d (l :: earlier) m) :
    Toward g trail current conflict d earlier m where
  clause := ht.clause
  reasons p hp hpassed hv := by
    refine ht.reasons p hp (fun hmem => ?_) hv
    rcases List.mem_cons.1 hmem with rfl | hmem
    · exact hl hv
    · exact hpassed hmem
  leads v hv hlevel := by
    obtain ⟨path, hpath, havoids⟩ := ht.leads v hv hlevel
    exact ⟨path, hpath, fun p hp => havoids p (List.mem_cons_of_mem _ hp)⟩
  avoided _ hp hpassed := ht.avoid hg hd h ((h.skip hl).unresolved_pos_iff.1 hpos) hp hpassed

theorem resolve (h : Tally g trail n current (l :: earlier) m) {reason : List Literal}
    (hr : Resolved g current l earlier reason m m')
    (ht : Toward g trail current conflict d (l :: earlier) m) :
    Toward g trail current conflict d earlier m' where
  clause v hv := (hr.marked_iff v).2 (.inl (ht.clause v hv))
  reasons p hp hpassed hv reason' hreason' k hk := by
    by_cases hpl : p = l
    · subst hpl
      obtain rfl : reason' = reason := by simpa [hr.reason_eq] using hreason'.symm
      exact (hr.marked_iff _).2 (.inr (List.mem_map_of_mem hk))
    · have hold := hr.marked_of_passed hg h hp hpassed hv
      have hpassed' : p ∉ l :: earlier := by simp [hpl, hpassed]
      exact (hr.marked_iff _).2 (.inl (ht.reasons p hp hpassed' hold reason' hreason' k hk))
  leads v hv hlevel := by
    by_cases hold : v ∈ m.marked
    · obtain ⟨path, hpath, havoids⟩ := ht.leads v hold hlevel
      exact ⟨path, hpath, fun p hp => havoids p (List.mem_cons_of_mem _ hp)⟩
    -- What the reason adds leads to the conflict through the literal that is resolved.
    · obtain ⟨k, hk, rfl⟩ := List.mem_map.1 (((hr.marked_iff v).1 hv).resolve_left hold)
      have hkl : k ≠ l := fun e => hold (e ▸ hr.marked)
      obtain ⟨later, hsplit⟩ := h.split
      obtain ⟨path, hpath, havoids⟩ := ht.leads l.var hr.marked hr.level
      have himplies := hg.implies hsplit hr.reason_eq hk
        (List.mem_reverse.2 (hr.isFalse k hk hkl)) hlevel hr.level
      refine ⟨l.var :: path, .step himplies hpath, fun p hp hmem => ?_⟩
      rcases List.mem_cons.1 hmem with he | hmem
      · exact hg.ne_of_mem hsplit (List.mem_reverse.2 hp) he
      · exact havoids p (List.mem_cons_of_mem _ hp) hmem
  avoided _ hp hpassed := ht.avoid hg hd h hr.other hp hpassed

theorem kept : Kept g trail n current (Toward g trail current conflict d) where
  skip _ _ _ h hl hpos ht := ht.skip hg hd h hl hpos
  resolve _ _ _ _ _ h hr ht := ht.resolve hg hd h hr

end Toward

/-! ## The end of the walk -/

section Point

variable (h : Tally g trail n current (l :: earlier) m) (hl : l.var ∈ m.marked)
  (hone : m.unresolved = 1) (hlevel : g.level l.var = current)

include h hl hone hlevel

theorem Tally.eq_or_passed {p : Literal} (hv : p.var ∈ m.marked) (hc : g.level p.var = current) :
    p = l ∨ p ∉ l :: earlier := by
  have hzero := h.unresolved_cons hl hlevel
  rw [hone, right_eq_add, List.countP_eq_zero] at hzero
  by_cases hpl : p = l
  · exact .inl hpl
  · refine .inr fun hmem => ?_
    exact hzero p ((List.mem_cons.1 hmem).resolve_left hpl) (decide_eq_true ⟨hv, hc⟩)

variable (hg : g.Describes trail n current) (hfalse : ∀ l ∈ conflict, l.negate ∈ trail)
  (ht : Toward g trail current conflict d (l :: earlier) m)

include hg hfalse ht

/-- Every path to the conflict goes through the literal or begins behind it. -/
theorem Toward.mem_or_passed (hpath : g.Leads current conflict v path) :
    l.var ∈ path ∨ ∃ p ∈ trail, p.var = v ∧ p ∉ l :: earlier ∧ p.var ∈ m.marked := by
  induction hpath with
  | last hv hc =>
      obtain ⟨k, hk, rfl⟩ := List.mem_map.1 hv
      have hmarked : k.negate.var ∈ m.marked := ht.clause _ hv
      rcases h.eq_or_passed hl hone hlevel hmarked hc with rfl | hpassed
      · exact .inl List.mem_cons_self
      · exact .inr ⟨k.negate, hfalse k hk, rfl, hpassed, hmarked⟩
  | step himplies _ ih =>
      rcases ih with hmem | ⟨p, hp, rfl, hpassed, hv⟩
      · exact .inl (List.mem_cons_of_mem _ hmem)
      · obtain ⟨reason, hreason, hu⟩ := himplies.reason
        obtain ⟨k, hk, rfl⟩ := List.mem_map.1 hu
        obtain ⟨later, hsplit⟩ := h.split
        have hlater : p ∈ later := by
          rw [hsplit] at hp
          simp_all
        obtain ⟨before, after, rfl⟩ := List.append_of_mem hlater
        obtain ⟨reason', hreason', -, hbefore⟩ := hg.reasoned (earlier.reverse ++ l :: before) p
          after (by simp [hsplit]) himplies.target ⟨l, by simp, hlevel⟩
        obtain rfl : reason' = reason := by simpa [hreason] using hreason'.symm
        have hneg := hbefore k hk fun e => himplies.ne (congrArg Literal.var e)
        have hmarked : k.negate.var ∈ m.marked := ht.reasons p hp hpassed hv _ hreason k hk
        -- The variable before it on the path was marked with the reason, so it is not to come.
        rcases h.eq_or_passed hl hone hlevel hmarked himplies.source with he | hpassed
        · exact .inl (he ▸ List.mem_cons_self)
        · refine .inr ⟨k.negate, ?_, rfl, hpassed, hmarked⟩
          rw [hsplit]
          simp_all

variable (hd : g.Rooted trail current d)

include hd

theorem Toward.firstPoint : g.FirstPoint trail current conflict d l := by
  obtain ⟨later, hsplit⟩ := h.split
  constructor
  · obtain ⟨path, hpath, -⟩ := ht.leads l.var hl hlevel
    obtain ⟨before, hbefore, -⟩ := hg.leads_of_decision hd hsplit hlevel hpath
    exact ⟨_, hbefore⟩
  · intro path hpath
    refine (ht.mem_or_passed h hl hone hlevel hg hfalse hpath).resolve_right ?_
    rintro ⟨p, hp, he, hpassed, -⟩
    have hpending := hd.mem_of_level hsplit hlevel
    have hdt : d ∈ trail := List.mem_of_find?_eq_some hd.first
    obtain rfl := hg.eq_of_var_eq hp hdt he
    exact hpassed (by simpa [or_comm] using hpending)
  · refine ⟨_, later, hsplit, fun k hk => ht.avoided k (by simp [hsplit, hk]) fun hmem => ?_⟩
    have hd := List.Nodup.of_map Literal.var hg.distinct
    rw [hsplit] at hd
    grind

end Point

end Marks

/-- The asserting literal negates the first unique implication point. -/
theorem analyze_firstPoint (hg : g.Describes trail n current) (hd : g.Rooted trail current d)
    (hcurrent : current ≠ 0) (hfalse : ∀ l ∈ conflict, l.negate ∈ trail)
    (hlevel : ∃ l ∈ conflict, g.level l.var = current) :
    ∃ learnt, analyze g current conflict trail (Marks.clear n) = .ok (learnt, Marks.clear n) ∧
      g.FirstPoint trail current conflict d learnt.asserting.negate := by
  obtain ⟨l, earlier, m, h, hl, hone, ht, hanalyze⟩ := analyze_ends hg hcurrent hfalse hlevel
    (Marks.Toward.kept hg hd) fun m hmarked => Marks.Toward.start hmarked
  obtain ⟨hasserting, -, -⟩ := Learnt.ofRecorded_spec g l.negate m.recorded
  have hpoint := ht.firstPoint h hl hone (h.head_level hg (by omega)) hg hfalse hd
  refine ⟨_, hanalyze, ?_⟩
  rw [hasserting, Literal.negate_negate]
  exact hpoint

end ClauseLearning
