import Mathlib
import ClauseLearning.Search.State
import ClauseLearning.Proofs.Database.Contents
import ClauseLearning.Proofs.Search.Moves

/-!
# Loading a formula

Loading stores the clauses that are not empty, in order, and makes unit clauses true at the root
level. It refutes only formulas that no assignment satisfies.
-/

namespace ClauseLearning

variable {db db' : Database} {t : Trail} {n : Nat} {l : Literal}

/-- Before propagation has taken up any literal a clause may be stored at will. -/
theorem Ready.store {d : StoredClause} (h : Ready n db t) (hhead : t.head = 0)
    (hsound : db'.Sound n) (hclauses : db'.clauses = db.clauses.push d) : Ready n db' t where
  coherent := h.coherent
  sound := hsound
  justified := h.justified.mono fun _ _ => Database.literals?_push_of_some hclauses
  settled := h.settled
  obeys k c hc hsize w o hw hd := by simp [Trail.taken, hhead] at hd

theorem Ready.force (h : Ready n db t) (hlevel : t.level = 0) (hhead : t.head = 0) {k : Nat}
    (hk : db.literals? k = some [l]) (hl : l.var.index < n) (hv : t.valueOf l.var = none) :
    Ready n db (t.extend l (some k)) where
  coherent := h.coherent.extend hl hv
  sound := h.sound
  justified := h.justified.extend h.coherent hl hv hk List.mem_cons_self
    (fun m hm hne => absurd (List.mem_singleton.1 hm) hne) (.inl hlevel)
  settled b hb := by
    rw [Trail.level_extend, hlevel] at hb
    cases hb
  obeys k c hc hsize w o hw hd := by simp [Trail.taken, hhead] at hd

namespace Search

namespace Loading

variable {s : Loading} {loaded : List Clause} {c : Clause}

/-- What the clauses taken in have left behind. -/
structure Faithful (n : Nat) (loaded : List Clause) (s : Loading) : Prop where
  ready : Ready n s.database s.trail
  level : s.trail.level = 0
  head : s.trail.head = 0
  contents : s.database.contents.toList =
    (loaded.filter (·.literals ≠ [])).map fun c => (c.literals.toArray, false)
  nonempty : s.refuted = false → ∀ c ∈ loaded, c.literals ≠ []
  rooted : s.refuted = false → s.database.Rooted s.trail
  refuted : s.refuted = true → ∀ σ, ∃ c ∈ loaded, ¬ c.Holds σ

namespace Faithful

theorem start (n : Nat) : (Loading.start n).Faithful n [] where
  ready := {
    coherent := .start n
    sound := .empty n
    justified := .start n
    settled := fun b hb => by simp [Loading.start, Trail.level, Trail.start] at hb
    obeys := fun k c hc => by simp [Loading.start, Database.empty] at hc }
  level := rfl
  head := rfl
  contents := by simp [Loading.start, Database.contents, Database.empty]
  nonempty := by simp
  rooted _ k l hk := by simp [Loading.start, Database.literals?, Database.empty] at hk
  refuted h := by cases h

theorem literals?_iff (h : s.Faithful n loaded) {ls : List Literal} :
    (∃ k, s.database.literals? k = some ls) ↔ ls ≠ [] ∧ Clause.mk ls ∈ loaded := by
  have hmem : (∃ k, s.database.literals? k = some ls) ↔
      ∃ e ∈ s.database.contents.toList, e.1.toList = ls := by
    simp only [Database.literals?_eq_contents, Option.map_eq_some_iff, Array.mem_toList_iff,
      Array.mem_iff_getElem?]
    constructor
    · rintro ⟨k, e, he, hls⟩
      exact ⟨e, ⟨k, he⟩, hls⟩
    · rintro ⟨e, ⟨k, he⟩, hls⟩
      exact ⟨k, e, he, hls⟩
  rw [hmem, h.contents]
  simp only [List.mem_map, List.mem_filter, decide_not, Bool.not_eq_true', decide_eq_false_iff_not]
  constructor
  · rintro ⟨_, ⟨c, ⟨hc, hne⟩, rfl⟩, rfl⟩
    exact ⟨hne, hc⟩
  · rintro ⟨hne, hc⟩
    exact ⟨_, ⟨⟨ls⟩, ⟨hc, hne⟩, rfl⟩, rfl⟩

theorem holds_of_literals? (h : s.Faithful n loaded) {σ : Variable → Bool}
    (hσ : ∀ c ∈ loaded, c.Holds σ) {k : Nat} {ls : List Literal}
    (hk : s.database.literals? k = some ls) : (Clause.mk ls).Holds σ :=
  hσ _ (h.literals?_iff.1 ⟨k, hk⟩).2

theorem refuted_append (h : s.Faithful n loaded) (hs : s.refuted = true) (σ : Variable → Bool) :
    ∃ d ∈ loaded ++ [c], ¬ d.Holds σ := by
  obtain ⟨d, hd, hσ⟩ := h.refuted hs σ
  exact ⟨d, List.mem_append_left _ hd, hσ⟩

theorem contents_push (h : s.Faithful n loaded) {d : StoredClause} (hne : c.literals ≠ [])
    (hclauses : db'.clauses = s.database.clauses.push d)
    (hd : Database.Stores d c.literals false) : db'.contents.toList =
      ((loaded ++ [c]).filter (·.literals ≠ [])).map fun c => (c.literals.toArray, false) := by
  have hlits : d.literals = c.literals.toArray := by rw [← hd.literals]
  rw [Database.contents_push hclauses, Array.toList_push, h.contents]
  simp [hne, hlits, hd.learnt]

theorem load_empty (h : s.Faithful n loaded) (hc : c.literals = []) :
    ∃ s', s.load c = .ok s' ∧ s'.Faithful n (loaded ++ [c]) := by
  refine ⟨{ s with refuted := true }, by rw [load, hc], ?_⟩
  refine ⟨h.ready, h.level, h.head, by simp [h.contents, hc], by simp, by simp, fun _ σ => ?_⟩
  exact ⟨c, by simp, by simp [Clause.Holds, hc]⟩

/-- A clause was stored, and the trail followed it. -/
theorem stored {d : StoredClause} (h : s.Faithful n loaded) (hne : c.literals ≠ [])
    (hclauses : db'.clauses = s.database.clauses.push d)
    (hd : Database.Stores d c.literals false) (hready : Ready n db' t) (hlevel : t.level = 0)
    (hhead : t.head = 0) (hgrows : s.trail.Grows t)
    (hunit : ∀ l, c.literals = [l] → t.IsTrue l ∧ t.levelOf l.var = 0) :
    Faithful n (loaded ++ [c]) ⟨db', t, s.refuted⟩ where
  ready := hready
  level := hlevel
  head := hhead
  contents := h.contents_push hne hclauses hd
  nonempty hs e he := by
    rcases List.mem_append.1 he with he | he
    · exact h.nonempty hs e he
    · exact List.mem_singleton.1 he ▸ hne
  rooted hs := ((h.rooted hs).grows hgrows rfl).push hclauses fun l hl =>
    hunit l (hd.literals.symm.trans hl)
  refuted hs σ := h.refuted_append hs σ

theorem load_unit (h : s.Faithful n loaded) (hc : c.literals = [l]) (hl : l.var.index < n) :
    ∃ s', s.load c = .ok s' ∧ s'.Faithful n (loaded ++ [c]) := by
  have hne : c.literals ≠ [] := by simp [hc]
  obtain ⟨d, db', hadd, hsound, hclauses, hd⟩ := h.ready.sound.add_unit hl false
  have hready := h.ready.store h.head hsound hclauses
  have hunit : ∀ {t' : Trail}, t'.IsTrue l → t'.levelOf l.var = 0 →
      ∀ m, c.literals = [m] → t'.IsTrue m ∧ t'.levelOf m.var = 0 := by
    intro t' htrue hlevel m hm
    obtain rfl : l = m := by simpa using hc.symm.trans hm
    exact ⟨htrue, hlevel⟩
  rw [← hc] at hd
  rcases s.trail.unassigned_or_isTrue_or_isFalse l with hv | htrue | hfalse
  · have hcells : l.var.index < s.trail.cells.size := h.ready.coherent.size_cells ▸ hl
    have hnew : db'.literals? s.database.clauses.size = some [l] := by
      rw [Database.literals?_push_self hclauses, hd.literals, hc]
    refine ⟨⟨db', s.trail.extend l (some s.database.clauses.size), s.refuted⟩, ?_, ?_⟩
    · simp [load, hc, hadd, bind, Except.bind, Trail.assign_of_unassigned hcells hv, pure,
        Except.pure]
    · refine h.stored hne hclauses hd (hready.force h.level h.head hnew hl hv) h.level h.head
        (.extend hv) (hunit (Trail.isTrue_extend_self hcells) ?_)
      rw [Trail.levelOf_extend_self hcells, h.level]
  · have hle := h.ready.coherent.levelOf_le (h.ready.coherent.isTrue_iff.1 htrue)
    refine ⟨⟨db', s.trail, s.refuted⟩, ?_, ?_⟩
    · simp [load, hc, hadd, bind, Except.bind, htrue.assign, pure, Except.pure]
    · exact h.stored hne hclauses hd hready h.level h.head (.refl _)
        (hunit htrue (Nat.le_zero.1 (h.level ▸ hle)))
  · refine ⟨⟨db', s.trail, true⟩, ?_, ?_⟩
    · simp [load, hc, hadd, bind, Except.bind, hfalse.assign, pure, Except.pure]
    · refine ⟨hready, h.level, h.head, h.contents_push hne hclauses hd, by simp, by simp,
        fun _ σ => ?_⟩
      -- An assignment that satisfied all of them would make the literal and its negation true.
      by_contra hσ
      simp only [not_exists, not_and, not_not] at hσ
      obtain ⟨m, hm, hmσ⟩ := hσ c (by simp)
      rw [hc, List.mem_singleton] at hm
      have hloaded : ∀ e ∈ loaded, e.Holds σ := fun e he => hσ e (List.mem_append_left _ he)
      exact h.ready.justified.not_holds_of_isFalse h.ready.coherent
        (fun k ls hk => h.holds_of_literals? hloaded hk) h.level hfalse (hm ▸ hmσ)

theorem load_longer (h : s.Faithful n loaded) (hne : c.literals ≠ []) (hunit : ∀ l, c.literals ≠ [l])
    (hscope : c.InScope n) (hnodup : c.literals.Nodup) :
    ∃ s', s.load c = .ok s' ∧ s'.Faithful n (loaded ++ [c]) := by
  obtain ⟨d, db', hadd, hsound, hclauses, hd⟩ := h.ready.sound.add hne hscope hnodup false
  refine ⟨⟨db', s.trail, s.refuted⟩, ?_, ?_⟩
  · unfold load
    split
    · exact absurd ‹_› hne
    · exact absurd ‹_› (hunit _)
    · rw [hadd]
      rfl
  · exact h.stored hne hclauses hd (h.ready.store h.head hsound hclauses) h.level h.head (.refl _)
      fun l hl => absurd hl (hunit l)

theorem load (h : s.Faithful n loaded) (hscope : c.InScope n) (hnodup : c.literals.Nodup) :
    ∃ s', s.load c = .ok s' ∧ s'.Faithful n (loaded ++ [c]) := by
  by_cases hne : c.literals = []
  · exact h.load_empty hne
  · by_cases hunit : ∃ l, c.literals = [l]
    · obtain ⟨l, hl⟩ := hunit
      exact h.load_unit hl (hscope l (by simp [hl]))
    · exact h.load_longer hne (fun l hl => hunit ⟨l, hl⟩) hscope hnodup

theorem loadAll (f : Formula) : ∃ s, f.clauses.foldlM Loading.load (.start f.varCount) = .ok s ∧
    s.Faithful f.varCount f.clauses.toList := by
  obtain ⟨s, hs, loaded, hloaded, hfaithful⟩ := foldlM_ok Loading.load
    (fun rest s => ∃ loaded, loaded ++ rest = f.clauses.toList ∧
      s.Faithful f.varCount loaded)
    (fun c rest s ⟨loaded, hloaded, hs⟩ => by
      have hc : c ∈ f.clauses := by
        rw [← Array.mem_toList_iff, ← hloaded]
        simp
      obtain ⟨s', hs', h'⟩ := hs.load (f.inScope c hc) (f.nodup c hc)
      exact ⟨s', hs', loaded ++ [c], by rw [← hloaded, List.append_assoc]; rfl, h'⟩)
    f.clauses.toList ⟨[], rfl, .start f.varCount⟩
  rw [List.append_nil] at hloaded
  exact ⟨s, by rw [← Array.foldlM_toList]; exact hs, hloaded ▸ hfaithful⟩

theorem original (h : s.Faithful n loaded) : ∀ e ∈ s.database.contents.toList, e.2 = false := by
  rw [h.contents]
  simp

theorem represents {f : Formula} (h : s.Faithful f.varCount f.clauses.toList)
    (hs : s.refuted = false) : s.database.Represents f := by
  refine ⟨fun k c hk σ hσ => ?_, fun c hc => ?_, ?_, fun e he hlearnt => ?_⟩
  · exact h.holds_of_literals? (fun c hc => hσ c (by simpa using hc)) hk
  · have hmem : c ∈ f.clauses.toList := by simpa using hc
    exact h.literals?_iff.2 ⟨h.nonempty hs c hmem, hmem⟩
  · refine List.pairwise_of_forall_mem_list fun d _ e he hlearnt => ?_
    rw [h.original e he] at hlearnt
    cases hlearnt
  · rw [h.original e (by simpa using he)] at hlearnt
    cases hlearnt

end Faithful

end Loading

end Search

end ClauseLearning
