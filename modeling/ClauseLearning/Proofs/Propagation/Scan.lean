import Mathlib
import ClauseLearning.Proofs.Propagation.Visit
import ClauseLearning.Proofs.Trail.Justification

/-!
# Scanning a row

While a row is scanned, the clauses that were not visited yet may break their watches, and the row
stands beside the database. One lemma for each reaction of a clause says that the invariant of the
scan is kept.
-/

namespace ClauseLearning

variable {db : Database} {t t' : Trail} {n : Nat} {c : StoredClause} {f : Literal} {k i : Nat}
  {row : Array Nat}

namespace Database

/-! ## Rows without an entry -/

theorem push_dropEntry (h : i < row.size) :
    (dropEntry row i h).push row[i] = row.swap i (row.size - 1) h (by omega) := by
  refine Array.ext ?_ fun j h₁ h₂ => ?_
  · simp [dropEntry]
    omega
  · simp only [dropEntry, Array.getElem_push, Array.getElem_pop, Array.getElem_swap]
    grind

theorem dropEntry_perm (h : i < row.size) :
    (dropEntry row i h).toList.Perm (row.toList.eraseIdx i) := by
  have hlt : i < row.toList.length := by simpa using h
  have hlast : row.size - 1 < row.size := by omega
  have hswap : (row.swap i (row.size - 1) h hlast).toList.Perm row.toList :=
    (Array.swap_perm h hlast).toList
  rw [← push_dropEntry h, Array.toList_push] at hswap
  have hcons := hswap.trans (List.getElem_cons_eraseIdx_perm hlt).symm
  exact ((List.perm_append_singleton _ _).symm.trans hcons).cons_inv

theorem cons_dropEntry_perm (h : i < row.size) :
    (row[i] :: (dropEntry row i h).toList).Perm row.toList :=
  ((dropEntry_perm h).cons _).trans (List.getElem_cons_eraseIdx_perm (by simpa using h))

theorem take_dropEntry (h : i < row.size) :
    (dropEntry row i h).toList.take i = row.toList.take i := by
  refine List.ext_getElem (by simp [dropEntry]; omega) fun j h₁ h₂ => ?_
  simp only [List.length_take, Array.length_toList] at h₁ h₂
  simp only [List.getElem_take, Array.getElem_toList, dropEntry, Array.getElem_pop,
    Array.getElem_swap]
  grind

theorem drop_dropEntry_perm (h : i < row.size) :
    ((dropEntry row i h).toList.drop i).Perm (row.toList.drop (i + 1)) := by
  have hperm := dropEntry_perm h
  rw [List.eraseIdx_eq_take_drop_succ, ← List.take_append_drop i (dropEntry row i h).toList,
    take_dropEntry h] at hperm
  exact (List.perm_append_left_iff _).1 hperm

theorem mem_drop_iff (h : i < row.size) :
    k ∈ row.toList.drop i ↔ k = row[i] ∨ k ∈ row.toList.drop (i + 1) := by
  rw [List.drop_eq_getElem_cons (by simpa using h), List.mem_cons, Array.getElem_toList]

theorem Sound.lists_dropEntry {l : Literal} (h : db.Sound n) (hrow : db.rows[l.code]? = some row)
    (hi : i < row.size) (hw : ¬ c.Watches l) : db.Lists row[i] c l (dropEntry row i hi) := by
  obtain ⟨hn, hiff⟩ := h.listed l row hrow
  have hperm := cons_dropEntry_perm hi
  obtain ⟨hnot, hn'⟩ := List.nodup_cons.1 (hperm.nodup_iff.2 hn)
  refine ⟨hn', fun j => ?_⟩
  have hmem : j ∈ row ↔ j = row[i] ∨ j ∈ dropEntry row i hi := by
    simpa using (hperm.mem_iff (a := j)).symm
  rw [← hiff, hmem]
  by_cases hj : j = row[i]
  · subst j
    simpa [hw] using hnot
  · simp [hj]

/-! ## Obedience to the watches -/

/-- A watched literal for which this is due and that is false has a true companion, which became
true at no higher level. -/
def Obeys (db : Database) (t : Trail) (due : Literal → Nat → Prop) : Prop :=
  ∀ k c, db.clauses[k]? = some c → 2 ≤ c.literals.size → ∀ w o, c.WatchPair w o → due w k →
    t.IsFalse w → t.IsTrue o ∧ t.levelOf o.var ≤ t.levelOf w.var

variable {due due' : Literal → Nat → Prop}

theorem Obeys.mono (h : db.Obeys t due) (hdue : ∀ w k, due' w k → t.IsFalse w → due w k) :
    db.Obeys t due' :=
  fun k c hc hsize w o hw hd hf => h k c hc hsize w o hw (hdue w k hd hf) hf

theorem Obeys.store (h : db.Obeys t due) (hk : k < db.clauses.size)
    (hdue : ∀ w j, j ≠ k → due' w j → due w j)
    (hnew : 2 ≤ c.literals.size → ∀ w o, c.WatchPair w o → due' w k → t.IsFalse w →
      t.IsTrue o ∧ t.levelOf o.var ≤ t.levelOf w.var) : (db.store k c).Obeys t due' := by
  intro j d hd hsize w o hw hdw hf
  rw [getElem?_clauses_store hk] at hd
  split at hd
  · subst j
    cases hd
    exact hnew hsize w o hw hdw hf
  · exact h j d hd hsize w o hw (hdue w j ‹_› hdw) hf

theorem Obeys.extend {l : Literal} {r : Option Nat} (h : db.Obeys t due) (ht : t.Coherent n)
    (hv : t.valueOf l.var = none) (hdue : ∀ w k, due w k → w.negate ∈ t.literals) :
    db.Obeys (t.extend l r) due := by
  intro k c hc hsize w o hw hd hf
  have hf' := ht.isFalse_iff.2 (hdue w k hd)
  obtain ⟨ho, hle⟩ := h k c hc hsize w o hw hd hf'
  have hmo := ht.isTrue_iff.1 ho
  have hmw := ht.isFalse_iff.1 hf'
  refine ⟨?_, ?_⟩
  · rw [Trail.IsTrue, Trail.valueOf, ht.assignment?_extend_of_mem hv hmo]
    exact ho
  · rw [ht.levelOf_extend_of_mem hv hmo]
    exact hle.trans_eq (ht.levelOf_extend_of_mem hv hmw).symm

end Database

/-! ## Rows beside the database -/

/-- A row was taken out of the database, and its clauses react to their watched literal `f`, which is
false. -/
structure Reading (n : Nat) (db : Database) (t : Trail) (f : Literal) (row : Array Nat) : Prop where
  coherent : t.Coherent n
  sound : (db.setRow f row).Sound n
  isFalse : t.IsFalse f

namespace Reading

theorem inScope (h : Reading n db t f row) : f.var.index < n :=
  h.coherent.size_cells ▸ Trail.lt_of_valueOf h.isFalse

theorem exists_row (h : Reading n db t f row) {l : Literal} (hl : l.var.index < n) :
    ∃ row', db.rows[l.code]? = some row' := by
  have hsize := h.sound.size_rows
  rw [Database.size_rows_setRow] at hsize
  exact ⟨_, Array.getElem?_eq_getElem (hsize ▸ Literal.code_lt_iff.2 hl)⟩

theorem listed (h : Reading n db t f row) :
    row.toList.Nodup ∧ ∀ k, k ∈ row ↔ db.Watches k f := by
  obtain ⟨row', hrow'⟩ := h.exists_row h.inScope
  exact h.sound.listed f row (Database.getElem?_rows_setRow_self hrow')

theorem watches (h : Reading n db t f row) (hi : i < row.size) :
    ∃ hk : row[i] < db.clauses.size, db.clauses[row[i]].Watches f := by
  obtain ⟨c, hc, hw⟩ := (h.listed.2 _).1 (Array.getElem_mem hi)
  obtain ⟨hk, rfl⟩ := Array.getElem?_eq_some_iff.1 hc
  exact ⟨hk, hw⟩

/-- The clause at the position, with the false literal as its second watch. -/
structure Target (n : Nat) (db : Database) (f : Literal) (k : Nat) (c : StoredClause) : Prop where
  lt : k < db.clauses.size
  eq : c = db.clauses[k].withSecond f
  second : c.secondWatched = f
  two_le : 2 ≤ c.literals.size
  apart : c.first ≠ c.second
  nodup : c.literals.toList.Nodup
  inScope : ∀ l ∈ c.literals, l.var.index < n

theorem target (h : Reading n db t f row) (hi : i < row.size) :
    ∃ c, Target n db f row[i] c := by
  obtain ⟨hk, hw⟩ := h.watches hi
  have hmem : db.clauses[row[i]] ∈ (db.setRow f row).clauses := Array.getElem_mem hk
  refine ⟨_, hk, rfl, StoredClause.secondWatched_withSecond hw.2, ?_, ?_, ?_, ?_⟩
  · rw [StoredClause.literals_withSecond]; exact hw.1
  · exact StoredClause.withSecond_apart (h.sound.apart _ hmem hw.1)
  · rw [StoredClause.literals_withSecond]; exact h.sound.nodup _ hmem
  · rw [StoredClause.literals_withSecond]; exact h.sound.inScope _ hmem

namespace Target

theorem literals_eq (hc : Target n db f k c) : c.literals = (getElem db.clauses k hc.lt).literals :=
  (congrArg StoredClause.literals hc.eq).trans (StoredClause.literals_withSecond _ _)

theorem learnt_eq (hc : Target n db f k c) : c.learnt = (getElem db.clauses k hc.lt).learnt :=
  (congrArg StoredClause.learnt hc.eq).trans (StoredClause.learnt_withSecond _ _)

theorem firstWatched_ne (hc : Target n db f k c) : c.firstWatched ≠ f :=
  hc.second ▸ StoredClause.firstWatched_ne_secondWatched hc.nodup hc.apart

theorem contents_store (hc : Target n db f k c) : (db.store k c).contents = db.contents :=
  Database.contents_store hc.lt hc.literals_eq hc.learnt_eq

theorem literals? (hc : Target n db f k c) : db.literals? k = some c.literals.toList := by
  rw [Database.literals?_eq_some]
  exact ⟨_, Array.getElem?_eq_getElem hc.lt, by rw [hc.literals_eq]⟩

theorem sound_store (hc : Target n db f k c) (h : (db.setRow f row).Sound n) :
    ((db.store k c).setRow f row).Sound n := by
  refine h.exchange (k := k) (c := c) hc.lt hc.literals_eq (fun _ => hc.apart) fun l => ?_
  exact (iff_of_eq (congrArg (·.Watches l) hc.eq)).trans StoredClause.watches_withSecond

theorem watchPair_iff (hc : Target n db f k c) {w o : Literal} :
    c.WatchPair w o ↔ (getElem db.clauses k hc.lt).WatchPair w o :=
  (iff_of_eq (congrArg (·.WatchPair w o) hc.eq)).trans StoredClause.watchPair_withSecond

theorem getElem_ne_first (hc : Target n db f k c) {p : Nat} (hp : p < c.literals.size)
    (h : p ≠ c.first) : c.literals[p] ≠ c.firstWatched := fun e =>
  h (StoredClause.eq_of_getElem_eq hc.nodup hp c.first_lt e)

theorem getElem_ne_second (hc : Target n db f k c) {p : Nat} (hp : p < c.literals.size)
    (h : p ≠ c.second) : c.literals[p] ≠ f := fun e =>
  h (StoredClause.eq_of_getElem_eq hc.nodup hp c.second_lt (e.trans hc.second.symm))

theorem watches_iff (hc : Target n db f k c) {l : Literal} :
    (db.setRow f row).Watches k l ↔ c.firstWatched = l ∨ f = l := by
  have hget : (db.setRow f row).clauses[k]? = some (getElem db.clauses k hc.lt) :=
    Array.getElem?_eq_getElem hc.lt
  have hiff := iff_of_eq (congrArg (·.Watches l) hc.eq)
  rw [StoredClause.watches_withSecond] at hiff
  simp only [Database.Watches, hget, Option.some.injEq, exists_eq_left']
  rw [← hiff, StoredClause.Watches, hc.second]
  simp [hc.two_le]

theorem watchPair (hc : Target n db f k c) {w o : Literal} (hw : c.WatchPair w o) :
    w = f ∧ o = c.firstWatched ∨ w = c.firstWatched ∧ o = f := by
  rcases hw with ⟨rfl, rfl⟩ | ⟨rfl, rfl⟩
  · exact .inr ⟨rfl, hc.second⟩
  · exact .inl ⟨hc.second, rfl⟩

end Target

/-! ### The reactions -/

/-- A clause stays in the row as it is satisfied, or in conflict. -/
theorem store (h : Reading n db t f row) (hc : Target n db f k c) :
    Reading n (db.store k c) t f row :=
  ⟨h.coherent, hc.sound_store h.sound, h.isFalse⟩

theorem forces (h : Reading n db t f row) (hc : Target n db f k c)
    (hv : t.valueOf c.firstWatched.var = none) :
    Reading n (db.store k c) (t.extend c.firstWatched (some k)) f row := by
  have hscope := hc.inScope c.firstWatched (by simpa using c.firstWatched_mem)
  exact ⟨h.coherent.extend hscope hv, hc.sound_store h.sound,
    (Trail.Grows.extend hv).isTrue (Trail.isTrue_negate.2 h.isFalse)⟩

theorem sound_moves (h : Reading n db t f row) (hi : i < row.size) (hc : Target n db f row[i] c)
    {p : Nat} (hp : p < c.literals.size) {row' : Array Nat} (h₁ : p ≠ c.first) (h₂ : p ≠ c.second)
    (hrow' : db.rows[c.literals[p].code]? = some row') :
    ((((db.store row[i] (c.moveSecond p hp)).setRow c.literals[p] (row'.push row[i])).setRow f
      (Database.dropEntry row i hi)).Sound n) := by
  have hmf := hc.getElem_ne_second hp h₂
  have hm₁ := hc.getElem_ne_first hp h₁
  have hnew : ∀ l, (c.moveSecond p hp).Watches l ↔ c.firstWatched = l ∨ c.literals[p] = l := by
    simp [StoredClause.Watches, hc.two_le]
  refine h.sound.replace (k := row[i]) (c := c.moveSecond p hp) ?_
    (Database.getElem?_clauses_store hc.lt _) hc.inScope hc.nodup (fun _ => h₁.symm)
    fun l row'' hrow'' => ?_
  · simpa [Database.store] using h.sound.size_rows
  by_cases hlf : l = f
  · subst l
    obtain ⟨old, hold⟩ := h.exists_row h.inScope
    have hold' : ((db.store row[i] (c.moveSecond p hp)).setRow c.literals[p]
        (row'.push row[i])).rows[f.code]? = some old :=
      (Database.getElem?_rows_setRow_of_ne hmf.symm).trans hold
    rw [Database.getElem?_rows_setRow_self hold'] at hrow''
    cases hrow''
    refine h.sound.lists_dropEntry (Database.getElem?_rows_setRow_self hold) hi ?_
    simp [hnew, hmf, hc.firstWatched_ne]
  · rw [Database.getElem?_rows_setRow_of_ne hlf] at hrow''
    by_cases hlm : l = c.literals[p]
    · subst l
      have hold : (db.store row[i] (c.moveSecond p hp)).rows[c.literals[p].code]? = some row' :=
        hrow'
      rw [Database.getElem?_rows_setRow_self hold] at hrow''
      cases hrow''
      refine h.sound.lists_push ((Database.getElem?_rows_setRow_of_ne hmf).trans hrow') ?_ ?_
      · simp [hc.watches_iff, hm₁.symm, hmf.symm]
      · simp [hnew]
    · rw [Database.getElem?_rows_setRow_of_ne hlm] at hrow''
      refine h.sound.lists_same ((Database.getElem?_rows_setRow_of_ne hlf).trans hrow'') ?_
      simp [hnew, hc.watches_iff, Ne.symm hlf, Ne.symm hlm]

theorem moves (h : Reading n db t f row) (hi : i < row.size) (hc : Target n db f row[i] c)
    {p : Nat} (hp : p < c.literals.size) {row' : Array Nat} (h₁ : p ≠ c.first) (h₂ : p ≠ c.second)
    (hrow' : db.rows[c.literals[p].code]? = some row') :
    Reading n ((db.store row[i] (c.moveSecond p hp)).setRow c.literals[p] (row'.push row[i])) t f
      (Database.dropEntry row i hi) :=
  ⟨h.coherent, h.sound_moves hi hc hp h₁ h₂ hrow', h.isFalse⟩

end Reading

/-! ## Scanning a whole row -/

/-- A scan succeeded, and what holds where it went through the row or met a clause in conflict. -/
structure Scanned (db : Database) (t : Trail) (p : Propagation) (done : Database → Trail → Prop)
    (clash : Database → Trail → Nat → Prop) : Prop where
  grows : t.Grows p.trail
  head : p.trail.head = t.head
  contents : p.database.contents = db.contents
  done : p.conflict = none → done p.database p.trail
  clash : ∀ k, p.conflict = some k → clash p.database p.trail k

theorem Scanned.trans {db' : Database} {p : Propagation} {done : Database → Trail → Prop}
    {clash : Database → Trail → Nat → Prop} (hg : t.Grows t') (hh : t'.head = t.head)
    (hc : db'.contents = db.contents) (h : Scanned db' t' p done clash) :
    Scanned db t p done clash :=
  ⟨hg.trans h.grows, h.head.trans hh, h.contents.trans hc, h.done, h.clash⟩

theorem Scanned.imp {p : Propagation} {done done' : Database → Trail → Prop}
    {clash clash' : Database → Trail → Nat → Prop} (h : Scanned db t p done clash)
    (hdone : ∀ db t, done db t → done' db t) (hclash : ∀ db t k, clash db t k → clash' db t k) :
    Scanned db t p done' clash' :=
  ⟨h.grows, h.head, h.contents, fun hp => hdone _ _ (h.done hp),
    fun k hk => hclash _ _ k (h.clash k hk)⟩

namespace Reading

theorem visited (h : Reading n db t f row) (hi : i < row.size)
    {x : Except Fault (Reaction × Database × Trail)} (hx : db.visit t f row[i] = x) :
    ∃ c r db' t', x = .ok (r, db', t') ∧ Target n db f row[i] c ∧
      db.Visited t row[i] c r db' t' := by
  obtain ⟨c, hc⟩ := h.target hi
  obtain ⟨r, db', t', hv, hout⟩ := Database.visit_spec h.coherent hc.lt hc.eq hc.second h.isFalse
    hc.inScope fun l hl => h.exists_row (hc.inScope l hl)
  exact ⟨c, r, db', t', hx.symm.trans hv, hc, hout⟩

theorem Target.frame {c : StoredClause} {k : Nat} {r : Reaction} {db' : Database}
    (hc : Target n db f k c) (hv : db.Visited t k c r db' t') :
    db'.contents = db.contents ∧ t.Grows t' ∧ t'.head = t.head := by
  cases hv with
  | satisfied => exact ⟨hc.contents_store, .refl t, rfl⟩
  | forces hv => exact ⟨hc.contents_store, .extend hv, rfl⟩
  | moves p hp row => exact ⟨Database.contents_store hc.lt hc.literals_eq hc.learnt_eq, .refl t, rfl⟩
  | conflicts => exact ⟨hc.contents_store, .refl t, rfl⟩

/-- An invariant of the scan that each reaction of a clause keeps, at the position where the scan
goes on, is kept by the whole scan. -/
theorem scan {I : Database → Trail → Array Nat → Nat → Prop}
    {C : Database → Trail → Array Nat → Nat → Prop}
    (hread : ∀ {db t row i}, I db t row i → Reading n db t f row)
    (hstays : ∀ {db t row i c db' t'} (hi : i < row.size), I db t row i → Target n db f row[i] c →
      db.Visited t row[i] c .stays db' t' → I db' t' row (i + 1))
    (hmoves : ∀ {db t row i c db' t'} (hi : i < row.size), I db t row i → Target n db f row[i] c →
      db.Visited t row[i] c .moves db' t' → I db' t' (Database.dropEntry row i hi) i)
    (hconflicts : ∀ {db t row i c db' t'} (hi : i < row.size), I db t row i →
      Target n db f row[i] c → db.Visited t row[i] c .conflicts db' t' → C db' t' row row[i])
    (h : I db t row i) :
    ∃ row' p, db.scan t f row i = .ok (row', p) ∧
      Scanned db t p (fun db t => ∃ i, row'.size ≤ i ∧ I db t row' i) fun db t k =>
        C db t row' k := by
  fun_induction db.scan t f row i with
  | case1 db t row i hi fault hv =>
      obtain ⟨c, r, db', t', hfault, -⟩ := (hread h).visited hi hv
      cases hfault
  | case2 db t row i hi db' t' hv ih =>
      obtain ⟨c, r, _, _, ⟨⟩, hc, hout⟩ := (hread h).visited hi hv
      obtain ⟨hcontents, hgrows, hhead⟩ := hc.frame hout
      obtain ⟨row', p, hp, hs⟩ := ih (hstays hi h hc hout)
      exact ⟨row', p, hp, hs.trans hgrows hhead hcontents⟩
  | case3 db t row i hi db' t' hv ih =>
      obtain ⟨c, r, _, _, ⟨⟩, hc, hout⟩ := (hread h).visited hi hv
      obtain ⟨hcontents, hgrows, hhead⟩ := hc.frame hout
      obtain ⟨row', p, hp, hs⟩ := ih (hmoves hi h hc hout)
      exact ⟨row', p, hp, hs.trans hgrows hhead hcontents⟩
  | case4 db t row i hi db' t' hv =>
      obtain ⟨c, r, _, _, ⟨⟩, hc, hout⟩ := (hread h).visited hi hv
      obtain ⟨hcontents, hgrows, hhead⟩ := hc.frame hout
      refine ⟨_, _, rfl, hgrows, hhead, hcontents, by simp, fun _ hk => ?_⟩
      cases hk
      exact hconflicts hi h hc hout
  | case5 db t row i hi =>
      exact ⟨_, _, rfl, .refl t, rfl, rfl, fun _ => ⟨i, Nat.le_of_not_lt hi, h⟩, by simp⟩

end Reading

/-! ## The invariant of a scan -/

/-- The literals that propagation has taken up. -/
def Trail.taken (t : Trail) : List Literal := t.literals.toList.take t.head

theorem Trail.mem_of_mem_taken {l : Literal} (h : l ∈ t.taken) : l ∈ t.literals := by
  simpa using List.mem_of_mem_take h

theorem Trail.Coherent.taken_extend {l : Literal} {r : Option Nat} (h : t.Coherent n) :
    (t.extend l r).taken = t.taken := by
  have := h.head_le
  simp [Trail.taken, List.take_append_of_le_length, this]

/-- Literals below the current level were taken up if the levels below it were. -/
theorem Trail.Coherent.mem_taken (h : t.Coherent n) (hs : ∀ b < t.level, t.lengthAt b ≤ t.head)
    {l : Literal} (hl : l ∈ t.literals) (hlevel : t.levelOf l.var < t.level) : l ∈ t.taken := by
  obtain ⟨i, hi, rfl⟩ := Array.mem_iff_getElem.1 hl
  have hlt := (h.cut _ i hi).1 (Nat.le_refl _)
  have hle := hs _ hlevel
  exact List.mem_take_iff_getElem.2 ⟨i, by simp only [Array.length_toList]; omega, by simp⟩

/-- All literals of the clause are false, two of them since the current level. -/
structure Falsifies (t : Trail) (c : List Literal) : Prop where
  isFalse : ∀ l ∈ c, t.IsFalse l
  two : ∃ a ∈ c, ∃ b ∈ c, a ≠ b ∧ t.levelOf a.var = t.level ∧ t.levelOf b.var = t.level

/-- The clauses of a row react to their watched literal `f`, those before position `i` did. -/
structure Scanning (n : Nat) (db : Database) (t : Trail) (f : Literal) (row : Array Nat) (i : Nat) :
    Prop where
  coherent : t.Coherent n
  sound : (db.setRow f row).Sound n
  justified : t.Justified db.literals?
  taken : f.negate ∈ t.taken
  level : t.levelOf f.var = t.level
  settled : ∀ b < t.level, t.lengthAt b ≤ t.head
  obeys : db.Obeys t fun w k => w.negate ∈ t.taken ∧ ¬ (w = f ∧ k ∈ row.toList.drop i)

namespace Scanning

open Reading (Target)

theorem reading (h : Scanning n db t f row i) : Reading n db t f row where
  coherent := h.coherent
  sound := h.sound
  isFalse := h.coherent.isFalse_iff.2 (Trail.mem_of_mem_taken h.taken)

/-- What the visited clause obeyed, its other watched literal obeys still. -/
theorem not_isFalse_of_taken (h : Scanning n db t f row i) (hc : Target n db f k c)
    (ht : c.firstWatched.negate ∈ t.taken) : ¬ t.IsFalse c.firstWatched := by
  intro hf
  have hw : (getElem db.clauses k hc.lt).WatchPair c.firstWatched f :=
    hc.watchPair_iff.1 (.inl ⟨rfl, hc.second⟩)
  have htwo : 2 ≤ (getElem db.clauses k hc.lt).literals.size := hc.literals_eq ▸ hc.two_le
  have hobeys := h.obeys k _ (Array.getElem?_eq_getElem hc.lt) htwo _ _ hw
    ⟨ht, fun e => hc.firstWatched_ne e.1⟩ hf
  exact hobeys.1.not_isFalse h.reading.isFalse

/-! ## The four reactions -/

theorem satisfied (h : Scanning n db t f row i) (hi : i < row.size)
    (hc : Target n db f row[i] c) (htrue : t.IsTrue c.firstWatched) :
    Scanning n (db.store row[i] c) t f row (i + 1) where
  coherent := h.coherent
  sound := hc.sound_store h.sound
  justified := by
    rw [Database.literals?_congr hc.contents_store]
    exact h.justified
  taken := h.taken
  level := h.level
  settled := h.settled
  obeys := by
    refine h.obeys.store hc.lt (fun w j hj hd => ⟨hd.1, fun e => hd.2 ⟨e.1, ?_⟩⟩)
      fun _ w o hw hd hf => ?_
    · exact ((Database.mem_drop_iff hi).1 e.2).resolve_left hj
    · rcases hc.watchPair hw with ⟨rfl, rfl⟩ | ⟨rfl, rfl⟩
      · exact ⟨htrue, h.level ▸ h.coherent.levelOf_le (h.coherent.isTrue_iff.1 htrue)⟩
      · exact absurd hf htrue.not_isFalse

theorem forces (h : Scanning n db t f row i) (hi : i < row.size) (hc : Target n db f row[i] c)
    (hv : t.valueOf c.firstWatched.var = none)
    (hrest : ∀ m ∈ c.literals, m ≠ c.firstWatched → t.IsFalse m) :
    Scanning n (db.store row[i] c) (t.extend c.firstWatched (some row[i])) f row (i + 1) := by
  have hmem : c.firstWatched ∈ c.literals := by simpa using c.firstWatched_mem
  have hmemf : f ∈ c.literals := by simpa [hc.second] using c.secondWatched_mem
  have hscope := hc.inScope _ hmem
  have hlevelf : (t.extend c.firstWatched (some row[i])).levelOf f.var = t.level := by
    rw [← h.level]
    exact h.coherent.levelOf_extend_of_mem (m := f.negate) hv (Trail.mem_of_mem_taken h.taken)
  have hcoherent := h.coherent.extend (r := some row[i]) hscope hv
  refine ⟨hcoherent, hc.sound_store h.sound, ?_, ?_, hlevelf, fun b hb => ?_, ?_⟩
  · rw [Database.literals?_congr hc.contents_store]
    refine h.justified.extend h.coherent hscope hv hc.literals? (by simpa using hmem)
      (by simpa using hrest) (.inr ⟨f, by simpa using hmemf, ?_, h.level⟩)
    exact hc.firstWatched_ne.symm
  · rw [h.coherent.taken_extend]
    exact h.taken
  · rw [Trail.lengthAt_extend_of_lt (t := t) hb]
    exact h.settled b hb
  · rw [h.coherent.taken_extend]
    refine Database.Obeys.store (h.obeys.extend h.coherent hv fun w k hd =>
      Trail.mem_of_mem_taken hd.1) hc.lt (fun w j hj hd => ⟨hd.1, fun e => hd.2 ⟨e.1, ?_⟩⟩)
      fun _ w o hw hd hf => ?_
    · exact ((Database.mem_drop_iff hi).1 e.2).resolve_left hj
    · have htrue := Trail.isTrue_extend_self (t := t) (r := some row[i])
        (h.coherent.size_cells ▸ hscope)
      rcases hc.watchPair hw with ⟨rfl, rfl⟩ | ⟨rfl, rfl⟩
      · exact ⟨htrue, hlevelf ▸ hcoherent.levelOf_le (hcoherent.isTrue_iff.1 htrue)⟩
      · exact absurd hf htrue.not_isFalse

theorem moves (h : Scanning n db t f row i) (hi : i < row.size) (hc : Target n db f row[i] c)
    {p : Nat} (hp : p < c.literals.size) {row' : Array Nat} (h₁ : p ≠ c.first) (h₂ : p ≠ c.second)
    (hnf : ¬ t.IsFalse c.literals[p]) (hrow' : db.rows[c.literals[p].code]? = some row') :
    Scanning n ((db.store row[i] (c.moveSecond p hp)).setRow c.literals[p] (row'.push row[i])) t f
      (Database.dropEntry row i hi) i where
  coherent := h.coherent
  sound := h.reading.sound_moves hi hc hp h₁ h₂ hrow'
  justified := by
    have hcontents : (db.store row[i] (c.moveSecond p hp)).contents = db.contents :=
      Database.contents_store hc.lt hc.literals_eq hc.learnt_eq
    exact Database.literals?_congr hcontents ▸ h.justified
  taken := h.taken
  level := h.level
  settled := h.settled
  obeys := by
    refine h.obeys.store (c := c.moveSecond p hp) hc.lt
      (fun w j hj hd => ⟨hd.1, fun e => hd.2 ⟨e.1, ?_⟩⟩) fun _ w o hw hd hf => ?_
    · exact (Database.drop_dropEntry_perm hi).mem_iff.2
        (((Database.mem_drop_iff hi).1 e.2).resolve_left hj)
    · rcases hw with ⟨rfl, rfl⟩ | ⟨rfl, rfl⟩
      · exact absurd hf (h.not_isFalse_of_taken (c := c) hc hd.1)
      · exact absurd hf hnf

/-- On a conflict the position stays. -/
theorem conflicts (h : Scanning n db t f row i) (hi : i < row.size) (hc : Target n db f row[i] c) :
    Scanning n (db.store row[i] c) t f row i where
  coherent := h.coherent
  sound := hc.sound_store h.sound
  justified := by
    rw [Database.literals?_congr hc.contents_store]
    exact h.justified
  taken := h.taken
  level := h.level
  settled := h.settled
  obeys := by
    refine h.obeys.store hc.lt (fun w j hj hd => hd) fun _ w o hw hd hf => ?_
    rcases hc.watchPair hw with ⟨rfl, rfl⟩ | ⟨rfl, rfl⟩
    · exact absurd ⟨rfl, (Database.mem_drop_iff hi).2 (.inl rfl)⟩ hd.2
    · exact absurd hf (h.not_isFalse_of_taken hc hd.1)

/-- Both watched literals of a clause in conflict became false at the current level. -/
theorem falsifies (h : Scanning n db t f row i) (hc : Target n db f k c)
    (hfalse : ∀ m ∈ c.literals, t.IsFalse m) : Falsifies t c.literals.toList where
  isFalse := by simpa using hfalse
  two := by
    have hfirst := hfalse c.firstWatched (by simpa using c.firstWatched_mem)
    have hlit := h.coherent.isFalse_iff.1 hfirst
    have hle := h.coherent.levelOf_le hlit
    refine ⟨f, hc.second ▸ c.secondWatched_mem, c.firstWatched, c.firstWatched_mem,
      hc.firstWatched_ne.symm, h.level, ?_⟩
    by_contra hne
    exact h.not_isFalse_of_taken hc
      (h.coherent.mem_taken h.settled hlit (Nat.lt_of_le_of_ne hle hne)) hfirst

/-- A scan ends with the whole row visited, or at a clause that the current level falsified. -/
theorem scan (h : Scanning n db t f row i) :
    ∃ row' p, db.scan t f row i = .ok (row', p) ∧
      Scanned db t p (fun db t => Scanning n db t f row' row'.size) fun db t k =>
        (∃ i, Scanning n db t f row' i) ∧ ∃ c, db.literals? k = some c ∧ Falsifies t c := by
  obtain ⟨row', p, hp, hs⟩ := Reading.scan (I := fun db t row i => Scanning n db t f row i)
    (C := fun db t row k =>
      (∃ i, Scanning n db t f row i) ∧ ∃ c, db.literals? k = some c ∧ Falsifies t c)
    (fun h => h.reading)
    (fun hi h hc hout => by
      cases hout with
      | satisfied htrue => exact h.satisfied hi hc htrue
      | forces hnone hrest => exact h.forces hi hc hnone hrest)
    (fun hi h hc hout => by
      cases hout with
      | moves p hp row' h₁ h₂ _ hnf hrow' => exact h.moves hi hc hp h₁ h₂ hnf hrow')
    (fun hi h hc hout => by
      cases hout with
      | conflicts hfalse =>
          refine ⟨⟨_, h.conflicts hi hc⟩, _, ?_, h.falsifies hc hfalse⟩
          rw [Database.literals?_congr hc.contents_store]
          exact hc.literals?)
    h
  refine ⟨row', p, hp, hs.imp (fun db t => ?_) fun _ _ _ h => h⟩
  rintro ⟨i, hi, h⟩
  exact { h with obeys := h.obeys.mono fun w k hd _ =>
    ⟨hd.1, fun e => by simp [List.drop_eq_nil_of_le hi] at e⟩ }

end Scanning

end ClauseLearning
