import Mathlib
import ClauseLearning.Database
import ClauseLearning.Proofs.Literal

/-!
# Watch lists

The rows of a sound database list each clause of two or more literals under its two watched
literals, once each, and list nothing else.
-/

namespace ClauseLearning

/-! ## Watched literals of a clause -/

namespace StoredClause

variable {c : StoredClause} {l m : Literal}

/-- The clause watches the literal. Clauses of one literal watch nothing. -/
def Watches (c : StoredClause) (l : Literal) : Prop :=
  2 ≤ c.literals.size ∧ (c.firstWatched = l ∨ c.secondWatched = l)

/-- The literals are the two watched ones, in either order. -/
def WatchPair (c : StoredClause) (l m : Literal) : Prop :=
  c.firstWatched = l ∧ c.secondWatched = m ∨ c.firstWatched = m ∧ c.secondWatched = l

theorem firstWatched_mem (c : StoredClause) : c.firstWatched ∈ c.literals.toList := by
  simp [firstWatched]

theorem secondWatched_mem (c : StoredClause) : c.secondWatched ∈ c.literals.toList := by
  simp [secondWatched]

theorem eq_of_getElem_eq (hn : c.literals.toList.Nodup) {i j : Nat} (hi : i < c.literals.size)
    (hj : j < c.literals.size) (h : c.literals[i] = c.literals[j]) : i = j := by
  have hi' : i < c.literals.toList.length := by simpa using hi
  have hj' : j < c.literals.toList.length := by simpa using hj
  have h' : c.literals.toList[i] = c.literals.toList[j] := by simpa using h
  exact (List.Nodup.getElem_inj_iff hn).1 h'

theorem firstWatched_ne_secondWatched (hn : c.literals.toList.Nodup) (h : c.first ≠ c.second) :
    c.firstWatched ≠ c.secondWatched := by
  intro he
  exact h (eq_of_getElem_eq hn c.first_lt c.second_lt he)

theorem exists_eq_singleton (c : StoredClause) (h : ¬ 2 ≤ c.literals.size) :
    ∃ l, c.literals.toList = [l] := by
  have := c.first_lt
  exact List.length_eq_one_iff.1 (by rw [Array.length_toList]; omega)

@[simp] theorem literals_withSecond (c : StoredClause) (l : Literal) :
    (c.withSecond l).literals = c.literals := by
  unfold withSecond
  split <;> rfl

@[simp] theorem learnt_withSecond (c : StoredClause) (l : Literal) :
    (c.withSecond l).learnt = c.learnt := by
  unfold withSecond
  split <;> rfl

theorem withSecond_apart (h : c.first ≠ c.second) :
    (c.withSecond l).first ≠ (c.withSecond l).second := by
  unfold withSecond
  split
  · exact h.symm
  · exact h

theorem watchPair_withSecond {a b : Literal} :
    (c.withSecond l).WatchPair a b ↔ c.WatchPair a b := by
  unfold withSecond WatchPair
  split
  · change c.secondWatched = a ∧ c.firstWatched = b ∨ c.secondWatched = b ∧ c.firstWatched = a ↔ _
    tauto
  · rfl

theorem watches_withSecond : (c.withSecond l).Watches m ↔ c.Watches m := by
  unfold withSecond Watches
  split
  · exact and_congr_right fun _ => or_comm
  · rfl

theorem secondWatched_withSecond (h : c.firstWatched = l ∨ c.secondWatched = l) :
    (c.withSecond l).secondWatched = l := by
  unfold withSecond
  split
  · assumption
  · exact h.resolve_left ‹_›

@[simp] theorem literals_moveSecond (c : StoredClause) (p : Nat) (hp : p < c.literals.size) :
    (c.moveSecond p hp).literals = c.literals := rfl

@[simp] theorem firstWatched_moveSecond (c : StoredClause) (p : Nat) (hp : p < c.literals.size) :
    (c.moveSecond p hp).firstWatched = c.firstWatched := rfl

@[simp] theorem secondWatched_moveSecond (c : StoredClause) (p : Nat) (hp : p < c.literals.size) :
    (c.moveSecond p hp).secondWatched = c.literals[p] := rfl

end StoredClause

/-! ## Soundness -/

namespace Database

variable {db : Database} {n : Nat} {l m : Literal}

def Watches (db : Database) (k : Nat) (l : Literal) : Prop :=
  ∃ c, db.clauses[k]? = some c ∧ c.Watches l

theorem Watches.lt {k : Nat} (h : db.Watches k l) : k < db.clauses.size := by
  obtain ⟨c, hc, -⟩ := h
  exact (Array.getElem?_eq_some_iff.1 hc).1

/-- The clauses are over the first `n` variables, and the row of a literal lists once each clause
that watches it. -/
structure Sound (db : Database) (n : Nat) : Prop where
  size_rows : db.rows.size = 2 * n
  inScope : ∀ c ∈ db.clauses, ∀ l ∈ c.literals, l.var.index < n
  nodup : ∀ c ∈ db.clauses, c.literals.toList.Nodup
  apart : ∀ c ∈ db.clauses, 2 ≤ c.literals.size → c.first ≠ c.second
  listed : ∀ l row, db.rows[l.code]? = some row →
    row.toList.Nodup ∧ ∀ k, k ∈ row ↔ db.Watches k l

theorem row_of_getElem? {row : Array Nat} (h : db.rows[l.code]? = some row) :
    db.row l = .ok row := by
  simp [Database.row, h]

theorem Sound.exists_row (h : db.Sound n) (hl : l.var.index < n) :
    ∃ row, db.rows[l.code]? = some row := by
  have hlt : l.code < db.rows.size := h.size_rows ▸ Literal.code_lt_iff.2 hl
  exact ⟨_, Array.getElem?_eq_getElem hlt⟩

theorem watch_of_getElem? {row : Array Nat} {k : Nat} (h : db.rows[l.code]? = some row) :
    db.watch l k = .ok (db.setRow l (row.push k)) := by
  rw [watch, row_of_getElem? h]
  rfl

@[simp] theorem clauses_setRow (row : Array Nat) : (db.setRow l row).clauses = db.clauses := rfl

@[simp] theorem size_rows_setRow (row : Array Nat) :
    (db.setRow l row).rows.size = db.rows.size := by
  simp [setRow]

theorem getElem?_rows_setRow_of_ne {row : Array Nat} (h : m ≠ l) :
    (db.setRow l row).rows[m.code]? = db.rows[m.code]? := by
  have hcode : l.code ≠ m.code := fun e => h (Literal.code_injective e.symm)
  simp [setRow, Array.getElem?_setIfInBounds_ne hcode]

theorem getElem?_rows_setRow_self {row row' : Array Nat} (h : db.rows[l.code]? = some row) :
    (db.setRow l row').rows[l.code]? = some row' := by
  have hlt := (Array.getElem?_eq_some_iff.1 h).1
  simp [setRow, hlt]

/-- The row lists what watches the literal once the clause stands under the number. -/
def Lists (db : Database) (k : Nat) (c : StoredClause) (l : Literal) (row : Array Nat) : Prop :=
  row.toList.Nodup ∧ ∀ j, j ∈ row ↔ j ≠ k ∧ db.Watches j l ∨ j = k ∧ c.Watches l

namespace Sound

variable {k : Nat} {c : StoredClause} {row : Array Nat}

theorem lists_same (h : db.Sound n) (hrow : db.rows[l.code]? = some row)
    (hw : c.Watches l ↔ db.Watches k l) : db.Lists k c l row := by
  obtain ⟨hn, hiff⟩ := h.listed l row hrow
  refine ⟨hn, fun j => ?_⟩
  rw [hiff, hw]
  by_cases hj : j = k
  · simp [hj]
  · simp [hj]

theorem lists_push (h : db.Sound n) (hrow : db.rows[l.code]? = some row) (hold : ¬ db.Watches k l)
    (hw : c.Watches l) : db.Lists k c l (row.push k) := by
  obtain ⟨hn, hiff⟩ := h.listed l row hrow
  have hfresh : k ∉ row := by rwa [hiff]
  refine ⟨?_, fun j => ?_⟩
  · simpa [List.nodup_append, hn] using fun a ha => ne_of_mem_of_not_mem ha (by simpa using hfresh)
  · rw [Array.mem_push, hiff]
    by_cases hj : j = k
    · simp [hj, hw]
    · simp [hj]

theorem empty (n : Nat) : (Database.empty n).Sound n where
  size_rows := by simp [Database.empty]
  inScope c hc := by simp [Database.empty] at hc
  nodup c hc := by simp [Database.empty] at hc
  apart c hc := by simp [Database.empty] at hc
  listed l row hrow := by
    simp only [Database.empty, Array.getElem?_replicate] at hrow
    split at hrow
    · cases hrow
      simp [Database.empty, Watches]
    · cases hrow

/-- A clause may be stored or exchanged if the rows follow. -/
theorem replace (h : db.Sound n) {db' : Database} {k : Nat} {c : StoredClause}
    (hsize : db'.rows.size = 2 * n)
    (hget : ∀ j, db'.clauses[j]? = if j = k then some c else db.clauses[j]?)
    (hscope : ∀ l ∈ c.literals, l.var.index < n) (hnodup : c.literals.toList.Nodup)
    (hapart : 2 ≤ c.literals.size → c.first ≠ c.second)
    (hrows : ∀ l row, db'.rows[l.code]? = some row → db.Lists k c l row) : db'.Sound n := by
  have hmem : ∀ d ∈ db'.clauses, d = c ∨ d ∈ db.clauses := by
    intro d hd
    obtain ⟨j, hj⟩ := Array.mem_iff_getElem?.1 hd
    rw [hget] at hj
    split at hj
    · exact .inl (by simpa using hj.symm)
    · exact .inr (Array.mem_of_getElem? hj)
  refine ⟨hsize, fun d hd => ?_, fun d hd => ?_, fun d hd => ?_, fun l row hrow => ?_⟩
  · rcases hmem d hd with rfl | hd
    · exact hscope
    · exact h.inScope d hd
  · rcases hmem d hd with rfl | hd
    · exact hnodup
    · exact h.nodup d hd
  · rcases hmem d hd with rfl | hd
    · exact hapart
    · exact h.apart d hd
  · obtain ⟨hn, hiff⟩ := hrows l row hrow
    refine ⟨hn, fun j => (hiff j).trans ?_⟩
    unfold Watches
    rw [hget]
    by_cases hj : j = k <;> simp [hj]

end Sound

/-! ## The clauses without their watches -/

/-- What is stored, apart from the watches. -/
def contents (db : Database) : Array (Array Literal × Bool) :=
  db.clauses.map fun c => (c.literals, c.learnt)

theorem literals?_eq_contents (k : Nat) :
    db.literals? k = db.contents[k]?.map fun e => e.1.toList := by
  simp [literals?, contents, Function.comp_def]

theorem literals?_congr {db' : Database} (h : db'.contents = db.contents) :
    db'.literals? = db.literals? := by
  funext k
  rw [literals?_eq_contents, literals?_eq_contents, h]

theorem learntCount_eq_contents : db.learntCount = db.contents.countP (·.2) := by
  simp [learntCount, contents, Array.countP_map, Function.comp_def]

theorem literals?_eq_some {lits : List Literal} {k : Nat} :
    db.literals? k = some lits ↔ ∃ c, db.clauses[k]? = some c ∧ c.literals.toList = lits := by
  simp [literals?]

theorem lt_of_literals? {lits : List Literal} {k : Nat} (h : db.literals? k = some lits) :
    k < db.clauses.size := by
  obtain ⟨c, hc, -⟩ := literals?_eq_some.1 h
  exact (Array.getElem?_eq_some_iff.1 hc).1

/-- The database with another clause under a number. -/
def store (db : Database) (k : Nat) (c : StoredClause) : Database :=
  { db with clauses := db.clauses.setIfInBounds k c }

theorem store_eq {k : Nat} (hk : k < db.clauses.size) (c : StoredClause) :
    ({ db with clauses := db.clauses.set k c } : Database) = db.store k c := by
  simp [store, Array.setIfInBounds, hk]

theorem getElem?_clauses_store {k : Nat} (hk : k < db.clauses.size) (c : StoredClause) (j : Nat) :
    (db.store k c).clauses[j]? = if j = k then some c else db.clauses[j]? := by
  simp only [store, Array.getElem?_setIfInBounds, eq_comm (a := k)]
  split <;> simp_all

theorem contents_store {k : Nat} (hk : k < db.clauses.size) {c : StoredClause}
    (hlits : c.literals = db.clauses[k].literals) (hlearnt : c.learnt = db.clauses[k].learnt) :
    (db.store k c).contents = db.contents := by
  refine Array.ext_getElem? fun j => ?_
  simp only [contents, Array.getElem?_map, getElem?_clauses_store hk]
  split
  · subst j; simp [hk, hlits, hlearnt]
  · rfl

/-- A clause may be exchanged for one with the same literals and the same watches. -/
theorem Sound.exchange (h : db.Sound n) {k : Nat} (hk : k < db.clauses.size) {c : StoredClause}
    (hlits : c.literals = db.clauses[k].literals) (hapart : 2 ≤ c.literals.size → c.first ≠ c.second)
    (hwatch : ∀ l, c.Watches l ↔ db.clauses[k].Watches l) :
    (db.store k c).Sound n := by
  have hmem := Array.getElem_mem hk
  refine h.replace (k := k) (c := c) h.size_rows (fun j => ?_) (hlits ▸ h.inScope _ hmem)
    (hlits ▸ h.nodup _ hmem) hapart fun l row hrow => ?_
  · exact getElem?_clauses_store hk c j
  · refine h.lists_same hrow ((hwatch l).trans ?_)
    simp [Watches, hk]

/-! ## Storing clauses -/

/-- What a database stores of a new clause. -/
structure Stores (c : StoredClause) (lits : List Literal) (learnt : Bool) : Prop where
  literals : c.literals.toList = lits
  learnt : c.learnt = learnt
  watched : ∀ a b rest, lits = a :: b :: rest → c.firstWatched = a ∧ c.secondWatched = b

theorem literals?_push {db' : Database} {c : StoredClause}
    (hclauses : db'.clauses = db.clauses.push c) (k : Nat) :
    db'.literals? k = if k = db.clauses.size then some c.literals.toList else db.literals? k := by
  simp only [literals?, hclauses, Array.getElem?_push]
  split <;> rfl

theorem literals?_push_of_some {db' : Database} {c : StoredClause} {k : Nat} {lits : List Literal}
    (hclauses : db'.clauses = db.clauses.push c) (h : db.literals? k = some lits) :
    db'.literals? k = some lits := by
  rw [literals?_push hclauses, if_neg (Nat.ne_of_lt (lt_of_literals? h)), h]

theorem literals?_push_self {db' : Database} {c : StoredClause}
    (hclauses : db'.clauses = db.clauses.push c) :
    db'.literals? db.clauses.size = some c.literals.toList := by
  rw [literals?_push hclauses, if_pos rfl]

namespace Sound

theorem not_watches_size : ¬ db.Watches db.clauses.size l := fun hw =>
  absurd hw.lt (Nat.lt_irrefl _)

/-- Rows that list the new clause where it watches, and else what they listed before. -/
theorem push (h : db.Sound n) {db' : Database} {c : StoredClause}
    (hsize : db'.rows.size = 2 * n) (hclauses : db'.clauses = db.clauses.push c)
    (hscope : ∀ l ∈ c.literals, l.var.index < n) (hnodup : c.literals.toList.Nodup)
    (hapart : 2 ≤ c.literals.size → c.first ≠ c.second)
    (hrows : ∀ l row', db'.rows[l.code]? = some row' → ∃ row, db.rows[l.code]? = some row ∧
      (c.Watches l ∧ row' = row.push db.clauses.size ∨ ¬ c.Watches l ∧ row' = row)) :
    db'.Sound n := by
  refine h.replace (k := db.clauses.size) (c := c) hsize (fun j => ?_) hscope hnodup hapart
    fun l row' hrow' => ?_
  · rw [hclauses, Array.getElem?_push]
  · obtain ⟨row, hrow, ⟨hw, rfl⟩ | ⟨hw, rfl⟩⟩ := hrows l row' hrow'
    · exact h.lists_push hrow not_watches_size hw
    · exact h.lists_same hrow (iff_of_false hw not_watches_size)

theorem add_unit (h : db.Sound n) (hl : l.var.index < n) (learnt : Bool) :
    ∃ c db', db.add [l] learnt = .ok (db.clauses.size, db') ∧ db'.Sound n ∧
      db'.clauses = db.clauses.push c ∧ Stores c [l] learnt := by
  refine ⟨.unit l learnt, _, rfl, ?_, rfl, rfl, rfl, by simp⟩
  refine h.push h.size_rows rfl ?_ (by simp [StoredClause.unit]) ?_ fun m row hrow => ?_
  · simpa [StoredClause.unit] using hl
  · simp [StoredClause.unit]
  · exact ⟨row, hrow, .inr ⟨by simp [StoredClause.Watches, StoredClause.unit], rfl⟩⟩

theorem watches_ofLiterals {a b : Literal} {rest : List Literal} {learnt : Bool} :
    (StoredClause.ofLiterals a b rest learnt).Watches m ↔ a = m ∨ b = m := by
  simp [StoredClause.Watches, StoredClause.ofLiterals, StoredClause.firstWatched,
    StoredClause.secondWatched]

theorem add_longer (h : db.Sound n) {a b : Literal} {rest : List Literal}
    (hscope : ∀ l ∈ a :: b :: rest, l.var.index < n) (hnodup : (a :: b :: rest).Nodup)
    (learnt : Bool) :
    ∃ c db', db.add (a :: b :: rest) learnt = .ok (db.clauses.size, db') ∧ db'.Sound n ∧
      db'.clauses = db.clauses.push c ∧ Stores c (a :: b :: rest) learnt := by
  obtain ⟨rowa, ha⟩ := h.exists_row (hscope a (by simp))
  obtain ⟨rowb, hb⟩ := h.exists_row (hscope b (by simp))
  have hab : b ≠ a := by
    rintro rfl
    simp at hnodup
  set c := StoredClause.ofLiterals a b rest learnt with hc
  set db₁ : Database := { db with clauses := db.clauses.push c } with hdb₁
  set db₂ := db₁.setRow a (rowa.push db.clauses.size) with hdb₂
  have ha₁ : db₁.rows[a.code]? = some rowa := ha
  have hb₂ : db₂.rows[b.code]? = some rowb := (getElem?_rows_setRow_of_ne hab).trans hb
  refine ⟨c, db₂.setRow b (rowb.push db.clauses.size), ?_, ?_, rfl, rfl, rfl, ?_⟩
  · have h₁ : db₁.watch a db.clauses.size = .ok db₂ := watch_of_getElem? ha₁
    have h₂ := watch_of_getElem? (k := db.clauses.size) hb₂
    simp only [Database.add, ← hc, ← hdb₁, h₁, h₂, bind, Except.bind, pure, Except.pure]
  · refine h.push (c := c) (by simpa [hdb₂, hdb₁] using h.size_rows) rfl ?_ hnodup ?_
      fun m row' hrow' => ?_
    · simpa [hc, StoredClause.ofLiterals] using hscope
    · simp [hc, StoredClause.ofLiterals]
    · by_cases hmb : m = b
      · subst m
        rw [getElem?_rows_setRow_self hb₂] at hrow'
        cases hrow'
        exact ⟨rowb, hb, .inl ⟨watches_ofLiterals.2 (.inr rfl), rfl⟩⟩
      · rw [getElem?_rows_setRow_of_ne hmb] at hrow'
        by_cases hma : m = a
        · subst m
          rw [hdb₂, getElem?_rows_setRow_self ha₁] at hrow'
          cases hrow'
          exact ⟨rowa, ha, .inl ⟨watches_ofLiterals.2 (.inl rfl), rfl⟩⟩
        · rw [hdb₂, getElem?_rows_setRow_of_ne hma] at hrow'
          refine ⟨row', hrow', .inr ⟨?_, rfl⟩⟩
          rw [watches_ofLiterals]
          simp [Ne.symm hma, Ne.symm hmb]
  · rintro _ _ _ ⟨⟩
    exact ⟨rfl, rfl⟩

theorem add (h : db.Sound n) {lits : List Literal} (hne : lits ≠ [])
    (hscope : ∀ l ∈ lits, l.var.index < n) (hnodup : lits.Nodup) (learnt : Bool) :
    ∃ c db', db.add lits learnt = .ok (db.clauses.size, db') ∧ db'.Sound n ∧
      db'.clauses = db.clauses.push c ∧ Stores c lits learnt := by
  cases lits with
  | nil => exact absurd rfl hne
  | cons a lits =>
      cases lits with
      | nil => exact h.add_unit (hscope a (by simp)) learnt
      | cons b rest => exact h.add_longer hscope hnodup learnt

end Sound

end Database

end ClauseLearning
