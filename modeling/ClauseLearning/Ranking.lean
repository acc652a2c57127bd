import ClauseLearning.Fault
import ClauseLearning.Literal

/-!
# The ranking of variables

Decisions take the most active variable first. Activity grows with each learnt clause that a
variable occurs in, and old activity counts less and less: instead of all scores shrinking, the
increment grows, and before numbers get too large everything is divided by one power of ten.
-/

namespace ClauseLearning

/-- Numbers that activity can be counted in. -/
class Score (α : Type) extends Add α, Div α where
  ofNat : Nat → α
  less : α → α → Bool

instance : Score Float where
  ofNat := Float.ofNat
  less a b := decide (a < b)

/-- Increments and scores from this number on are divided by it. -/
def Score.limit {α : Type} [Score α] : α := Score.ofNat (Nat.pow 10 100)

namespace Ranking

/-- What the ranking knows of a variable. -/
structure Entry (α : Type) where
  score : α
  /-- A random number, drawn anew with each bump, that decides between equal scores. -/
  nonce : Nat

/-- A variable with an entry that it had, under which it waits for a decision. -/
structure Key (α : Type) extends Entry α where
  var : Variable

namespace Key

variable {α : Type} [Score α]

/-- No comparison tells the keys apart. -/
def same (a b : Key α) : Bool :=
  a.var == b.var && a.nonce == b.nonce && Score.less a.score b.score == Score.less b.score a.score

/-- The first ranks above the second: by score, then by nonce, then by index. -/
def outranks (a b : Key α) : Bool :=
  Score.less b.score a.score ||
    !Score.less a.score b.score &&
      (b.nonce < a.nonce || b.nonce = a.nonce && b.var.index < a.var.index)

/-- The higher ranked of two. -/
def higher (a b : Key α) : Key α := if b.outranks a then b else a

@[simp] theorem same_refl (k : Key α) : k.same k = true := by
  simp [same]

theorem higher_eq (a b : Key α) : a.higher b = a ∨ a.higher b = b := by
  unfold higher
  split
  · exact .inr rfl
  · exact .inl rfl

end Key

/-- The variables that wait for decisions: a set of keys. -/
structure Waiting (α : Type) where
  keys : List (Key α)

namespace Waiting

variable {α : Type} [Score α]

def has (w : Waiting α) (k : Key α) : Bool := w.keys.any k.same

/-- Adds a key, unless it is in the set already. -/
def add (w : Waiting α) (k : Key α) : Waiting α := if w.has k then w else ⟨k :: w.keys⟩

def remove (w : Waiting α) (k : Key α) : Waiting α := ⟨w.keys.filter fun j => !k.same j⟩

/-- The highest ranked key. -/
def top? (w : Waiting α) : Option (Key α) :=
  match w.keys with
  | [] => none
  | first :: rest => some (rest.foldl Key.higher first)

theorem foldl_higher_mem (first : Key α) (rest : List (Key α)) :
    rest.foldl Key.higher first ∈ first :: rest := by
  induction rest generalizing first with
  | nil => exact List.mem_cons_self
  | cons k rest ih =>
    rw [List.foldl_cons]
    rcases List.mem_cons.1 (ih (first.higher k)) with hk | hk
    · rw [hk]
      rcases first.higher_eq k with h | h <;> simp [h]
    · exact List.mem_cons_of_mem _ (List.mem_cons_of_mem _ hk)

theorem top?_mem {w : Waiting α} {k : Key α} (h : w.top? = some k) : k ∈ w.keys := by
  unfold top? at h
  split at h
  · cases h
  · rename_i first rest hkeys
    rw [hkeys, ← Option.some.inj h]
    exact foldl_higher_mem first rest

theorem length_remove_lt {w : Waiting α} {k : Key α} (h : k ∈ w.keys) :
    (w.remove k).keys.length < w.keys.length :=
  List.length_filter_lt_length_iff_exists.2 ⟨k, h, by simp⟩

/-- Takes out the highest ranked key of a variable that is not assigned, and all keys above it. -/
def pop (w : Waiting α) (assigned : Variable → Bool) : Option Variable × Waiting α :=
  match _h : w.top? with
  | none => (none, w)
  | some k => if assigned k.var then (w.remove k).pop assigned else (some k.var, w.remove k)
termination_by w.keys.length
decreasing_by exact length_remove_lt (top?_mem _h)

end Waiting

end Ranking

structure Ranking (α : Type) where
  decay : α
  /-- What the next bump adds to a score. -/
  increment : α
  /-- The entry of each variable, by index. -/
  entries : Array (Ranking.Entry α)
  /-- The variables that can be taken for a decision. -/
  waiting : Ranking.Waiting α
  /-- The nonces in the order in which they are drawn. -/
  nonces : Nat → Nat
  drawn : Nat
  /-- How often everything was divided by the limit. -/
  rescalings : Nat

namespace Ranking

variable {α : Type}

/-- The key of a variable with its entry as it is now. -/
def key? (r : Ranking α) (v : Variable) : Option (Key α) :=
  r.entries[v.index]?.map fun e => ⟨e, v⟩

/-- The variables that have an entry. -/
def known (r : Ranking α) : List Variable :=
  (List.range r.entries.size).filterMap Variable.ofIndex?

/-- The score of each variable, by index. -/
def activities (r : Ranking α) : Array α := r.entries.map (·.score)

variable [Score α]

/-- Lets all variables wait for a decision. -/
def admitAll (r : Ranking α) : Ranking α :=
  { r with waiting := (r.known.filterMap r.key?).foldl Waiting.add r.waiting }

/-- The ranking in which all variables wait, each with its number of occurrences for a score. -/
def start (occurrences : Array Nat) (decay : α) (nonces : Nat → Nat) : Except Fault (Ranking α) :=
  if Score.less (Score.ofNat 0) decay ∧ ¬ Score.less (Score.ofNat 1) decay then
    .ok (admitAll {
      decay := decay
      increment := Score.ofNat 1
      entries := occurrences.mapIdx fun i n => ⟨Score.ofNat n, nonces i⟩
      waiting := ⟨[]⟩
      nonces := nonces
      drawn := occurrences.size
      rescalings := 0 })
  else .error .decayOutOfRange

/-- Gives a variable another entry. If it waits, it goes on waiting with the new one. -/
def update (r : Ranking α) (v : Variable) (change : Entry α → Entry α) : Ranking α :=
  match r.key? v with
  | none => r
  | some old =>
    let new : Key α := ⟨change old.toEntry, v⟩
    { r with
      entries := r.entries.setIfInBounds v.index new.toEntry
      waiting := if r.waiting.has old then (r.waiting.remove old).add new else r.waiting }

/-- Divides all scores and the increment by the limit. -/
def rescale (r : Ranking α) : Ranking α :=
  let divide (e : Entry α) : Entry α := { e with score := e.score / Score.limit }
  { r.known.foldl (fun r v => r.update v divide) r with
    increment := r.increment / Score.limit
    rescalings := r.rescalings + 1 }

/-- Divides by the limit if the given number has reached it. -/
def rescaleAt (r : Ranking α) (reached : α) : Ranking α :=
  if Score.less reached Score.limit then r else r.rescale

/-- Raises the score of a variable. -/
def bump (r : Ranking α) (v : Variable) : Except Fault (Ranking α) :=
  match r.key? v with
  | none => .error (.outOfScope v.index)
  | some key =>
    let score := key.score + r.increment
    let raised := r.update v fun _ => ⟨score, r.nonces r.drawn⟩
    .ok ({ raised with drawn := r.drawn + 1 }.rescaleAt score)

/-- Raises the scores of the variables of a learnt clause, in order. -/
def learn (r : Ranking α) (clause : List Literal) : Except Fault (Ranking α) :=
  clause.foldlM (fun r l => r.bump l.var) r

/-- Lets all that was counted so far count less. -/
def age (r : Ranking α) : Ranking α :=
  let increment := r.increment / r.decay
  { r with increment := increment }.rescaleAt increment

/-- Lets a variable wait for a decision. -/
def insert (r : Ranking α) (v : Variable) : Except Fault (Ranking α) :=
  match r.key? v with
  | none => .error (.outOfScope v.index)
  | some key => .ok { r with waiting := r.waiting.add key }

/-- Takes the highest ranked variable that is not assigned. The variables above it stop waiting. -/
def take (r : Ranking α) (assigned : Variable → Bool) : Option Variable × Ranking α :=
  let (v, waiting) := r.waiting.pop assigned
  (v, { r with waiting })

end Ranking

end ClauseLearning
