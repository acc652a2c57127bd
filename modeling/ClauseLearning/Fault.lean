/-!
# Broken preconditions

Operations whose contract a caller can break answer in `Except Fault`. A fault is no verdict and no
message to a user: it says which promise was not kept.
-/

namespace ClauseLearning

inductive Fault where
  /-- A formula is declared over more variables than there are variable numbers. -/
  | tooManyVariables (count : Nat)
  /-- A literal or variable lies outside the variables at hand. -/
  | outOfScope (index : Nat)
  /-- An assignment does not give exactly one value to each variable. -/
  | wrongLength (expected found : Nat)
  /-- A clause number names no stored clause. -/
  | unknownClause (number : Nat)
  /-- The empty clause has no literal to watch. -/
  | emptyClause
  /-- A row lists a clause that does not watch the literal of the row. -/
  | staleWatch (number : Nat)
  /-- A conflict at the root level has no clause to learn from. -/
  | rootConflict
  /-- More literals of the current level were resolved than were marked. -/
  | unmarkedLevel
  /-- Conflict analysis met a variable without a value. -/
  | unassigned (index : Nat)
  /-- Conflict analysis met a variable without a reason that is no implication point. -/
  | noReason (index : Nat)
  /-- The trail holds no unique implication point of the conflict. -/
  | noImplicationPoint
  /-- The literal of a learnt clause or of a decision is already false. -/
  | alreadyFalse (index : Nat)
  /-- The decay factor lies outside `(0, 1]`. -/
  | decayOutOfRange
  /-- A span of time does not fit its type. -/
  | timeOverflow
  deriving DecidableEq, Repr

/-- How an operation on outside text ends when it has no result: by a broken contract, or by an
error that its user is told. -/
inductive Failure (ε : Type) where
  | fault (fault : Fault)
  | error (error : ε)
  deriving DecidableEq, Repr

namespace Failure

def map {ε δ : Type} (g : ε → δ) : Failure ε → Failure δ
  | .fault f => .fault f
  | .error e => .error (g e)

/-- Reads a fault as one way for an operation on outside text to fail. -/
def ofFault {ε α : Type} : Except Fault α → Except (Failure ε) α
  | .ok a => .ok a
  | .error f => .error (.fault f)

/-- Reads an error as one way for an operation on outside text to fail. -/
def ofError {ε α : Type} : Except ε α → Except (Failure ε) α
  | .ok a => .ok a
  | .error e => .error (.error e)

theorem ofFault_eq_ok_iff {α ε : Type} {x : Except Fault α} {a : α} :
    (ofFault x : Except (Failure ε) α) = .ok a ↔ x = .ok a := by
  cases x <;> simp [ofFault]

theorem ofError_eq_ok_iff {α ε : Type} {x : Except ε α} {a : α} :
    ofError x = .ok a ↔ x = .ok a := by
  cases x <;> simp [ofError]

theorem ofError_eq_error_iff {α ε : Type} {x : Except ε α} {e : ε} :
    ofError x = .error (.error e) ↔ x = .error e := by
  cases x <;> simp [ofError]

end Failure

theorem bind_eq_ok_iff {α β ε : Type} {x : Except ε α} {g : α → Except ε β} {b : β} :
    (x >>= g) = .ok b ↔ ∃ a, x = .ok a ∧ g a = .ok b := by
  cases x <;> simp [bind, Except.bind]

theorem bind_eq_error_iff {α β ε : Type} {x : Except ε α} {g : α → Except ε β} {e : ε} :
    (x >>= g) = .error e ↔ x = .error e ∨ ∃ a, x = .ok a ∧ g a = .error e := by
  cases x <;> simp [bind, Except.bind]

theorem map_eq_ok_iff {α β ε : Type} {x : Except ε α} {g : α → β} {b : β} :
    g <$> x = .ok b ↔ ∃ a, x = .ok a ∧ g a = b := by
  cases x <;> simp [Functor.map, Except.map]

theorem toOption_eq_some_iff {α ε : Type} {x : Except ε α} {a : α} :
    x.toOption = some a ↔ x = .ok a := by
  cases x <;> simp [Except.toOption]

theorem toOption_eq_none_iff {α ε : Type} {x : Except ε α} :
    x.toOption = none ↔ ∃ e, x = .error e := by
  cases x <;> simp [Except.toOption]

theorem exists_of_any {α ε : Type} {x : Except ε α} {p : α → Bool} (h : x.toOption.any p = true) :
    ∃ a, x = .ok a ∧ p a = true := by
  cases x with
  | error e => cases h
  | ok a => exact ⟨a, rfl, h⟩

/-- Two loops whose rounds succeed alike succeed alike. -/
theorem foldlM_eq_ok_iff {α β ε δ : Type} {step : β → α → Except ε β} {step' : β → α → Except δ β}
    (h : ∀ b a b', step b a = .ok b' ↔ step' b a = .ok b') (as : List α) (b b' : β) :
    as.foldlM step b = .ok b' ↔ as.foldlM step' b = .ok b' := by
  induction as generalizing b with
  | nil => simp [pure, Except.pure]
  | cons a as ih => simp only [List.foldlM_cons, bind_eq_ok_iff, h, ih]

/-- A loop succeeds if each round does and leads from what holds before it to what holds after. -/
theorem foldlM_ok {α β : Type} (step : β → α → Except Fault β) (I : List α → β → Prop)
    (h : ∀ a rest b, I (a :: rest) b → ∃ b', step b a = .ok b' ∧ I rest b') (as : List α) {b : β}
    (hb : I as b) : ∃ b', as.foldlM step b = .ok b' ∧ I [] b' := by
  induction as generalizing b with
  | nil => exact ⟨b, rfl, hb⟩
  | cons a as ih =>
      obtain ⟨b₁, hb₁, h₁⟩ := h a as b hb
      obtain ⟨b₂, hb₂, h₂⟩ := ih h₁
      refine ⟨b₂, ?_, h₂⟩
      rw [List.foldlM_cons, hb₁]
      exact hb₂

/-- What each round keeps for the inputs that may occur, a loop over such inputs keeps. -/
theorem foldlM_keeps {α β : Type} (step : β → α → Except Fault β) {P : α → Prop} {J : β → Prop}
    (h : ∀ a b, P a → J b → ∃ b', step b a = .ok b' ∧ J b') (as : List α) {b : β}
    (has : ∀ a ∈ as, P a) (hb : J b) : ∃ b', as.foldlM step b = .ok b' ∧ J b' := by
  obtain ⟨b', hb', -, hJ⟩ := foldlM_ok step (fun rest b => (∀ a ∈ rest, P a) ∧ J b)
    (fun a rest b ⟨hrest, hb⟩ => by
      obtain ⟨b₁, hb₁, h₁⟩ := h a b (hrest a List.mem_cons_self) hb
      exact ⟨b₁, hb₁, fun a' ha' => hrest a' (List.mem_cons_of_mem _ ha'), h₁⟩)
    as ⟨has, hb⟩
  exact ⟨b', hb', hJ⟩

end ClauseLearning
