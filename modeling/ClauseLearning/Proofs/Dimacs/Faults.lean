import Mathlib
import ClauseLearning.Proofs.Dimacs.Reading

/-!
# Faults of the reader

The reader breaks one contract only, that of the empty formula: a problem line can declare more
variables than there are. Behind the problem line it tests every literal before it adds a clause, and
all other bytes end in a formula or in an error that says what is wrong with them.
-/

namespace ClauseLearning

/-! ## Outcomes without a fault -/

/-- The outcome is an error that a user is told, or a result with the property. -/
inductive Failure.Settles {ε α : Type} (P : α → Prop) : Except (Failure ε) α → Prop
  | ok {a : α} : P a → Settles P (.ok a)
  | error (e : ε) : Settles P (.error (.error e))

namespace Failure.Settles

variable {ε α β : Type} {P : α → Prop} {Q : β → Prop} {x : Except (Failure ε) α} {fault : Fault}

theorem ne_fault (h : Settles P x) : x ≠ .error (.fault fault) := by
  cases h with
  | ok => simp
  | error e => simp

theorem of_eq_ok {a : α} (h : Settles P x) (hx : x = .ok a) : P a := by
  subst hx
  cases h with
  | ok ha => exact ha

theorem bind {g : α → Except (Failure ε) β} (h : Settles P x) (hg : ∀ a, P a → Settles Q (g a)) :
    Settles Q (x >>= g) := by
  cases h with
  | ok ha => exact hg _ ha
  | error e => exact .error e

theorem ofError {y : Except ε α} (h : ∀ a, y = .ok a → P a) : Settles P (ofError y) := by
  cases y with
  | ok a => exact .ok (h a rfl)
  | error e => exact .error e

theorem foldlM {step : α → β → Except (Failure ε) α} (h : ∀ a b, P a → Settles P (step a b)) {a : α}
    (ha : P a) (bs : List β) : Settles P (bs.foldlM step a) := by
  induction bs generalizing a with
  | nil => exact .ok ha
  | cons b bs ih =>
      rw [List.foldlM_cons]
      exact (h a b ha).bind fun a ha => ih ha

end Failure.Settles

/-- Whatever is not a fault is a result or an error. -/
theorem Failure.forall_ne_fault_iff {ε α : Type} {x : Except (Failure ε) α} :
    (∀ fault, x ≠ .error (.fault fault)) ↔ (∃ a, x = .ok a) ∨ ∃ e, x = .error (.error e) := by
  cases x with
  | ok a => simp
  | error failure =>
      cases failure with
      | fault fault => simp
      | error e => simp

namespace Dimacs

variable {text word : List Char} {p : Progress} {line n : Nat} {name : String} {bytes line₀ : List UInt8}
  {lines rest : List (List UInt8)} {fault : Fault}

/-! ## Behind the problem line -/

/-- The literals that wait for the end of their clause are in scope. -/
def Progress.InScope (p : Progress) : Prop := ∀ l ∈ p.pending.toList, l.var.id ≤ p.formula.varCount

theorem readWord_settles (hp : p.InScope) : Failure.Settles Progress.InScope (readWord line p word) := by
  unfold readWord
  split
  · obtain ⟨f, hf⟩ := Formula.exists_add (c := ⟨p.pending.toList⟩) hp
    rw [hf]
    exact .ok fun l hl => absurd hl List.not_mem_nil
  · have hliteral : Failure.Settles (fun l : Literal => l.var.id ≤ p.formula.varCount)
        (Failure.ofError (readLiteral line p.formula.varCount word)) := by
      apply Failure.Settles.ofError
      intro l hl
      unfold readLiteral at hl
      split at hl
      · cases hl
      · split at hl <;> cases hl
        assumption
    apply hliteral.bind
    intro l hl
    refine .ok fun m hm => ?_
    rw [Array.toList_push] at hm
    cases List.mem_append.1 hm with
    | inl hm => exact hp m hm
    | inr hm =>
        cases List.mem_singleton.1 hm
        exact hl

theorem readStatement_settles (hp : p.InScope) :
    Failure.Settles Progress.InScope (readStatement line (Text.words text) (some p)) := by
  rw [readStatement_some]
  split
  · exact .error _
  · exact Failure.Settles.foldlM (fun _ _ => readWord_settles) hp _

theorem readLines_settles (hp : p.InScope) :
    Failure.Settles (fun _ => True) (readLines name line (some p) lines) := by
  induction lines generalizing line p with
  | nil => exact .ok trivial
  | cons line₀ rest ih =>
      cases hdecode : Text.decode? line₀ with
      | none =>
          rw [readLines_cons_of_notUtf8 hdecode]
          exact .error _
      | some text =>
          rw [readLines_cons hdecode]
          split
          · exact .ok trivial
          · split
            · exact (readStatement_settles hp).bind fun _ hp => ih hp
            · exact ih hp

/-! ## The problem line -/

/-- Behind blank lines and comments stands a problem line for that many variables. -/
inductive Declares : List (List UInt8) → Nat → Prop
  | problem {line : List UInt8} {rest : List (List UInt8)} {text varCount clauseCount : List Char}
      {n m : Nat} : Text.decode? line = some text →
      Text.words text = [['p'], ['c', 'n', 'f'], varCount, clauseCount] →
      Text.readDecimal varCount = .ok n → Text.readDecimal clauseCount = .ok m →
      Declares (line :: rest) n
  | skip {line : List UInt8} {rest : List (List UInt8)} {text : List Char} {n : Nat} :
      Text.decode? line = some text → isSignificant text = false → Declares rest n →
      Declares (line :: rest) n

theorem isSignificant_of_startsWith {c : Char} (hc : c ≠ 'c') (h : startsWith c text = true) :
    isSignificant text = true := by
  rw [startsWith, beq_iff_eq] at h
  rw [isSignificant, startsWith, h]
  cases htrim : Text.trim text with
  | nil => simp [htrim] at h
  | cons => simpa using hc

theorem startsWith_of_words_eq {c : Char} {word : List Char} {words : List (List Char)}
    (h : Text.words text = (c :: word) :: words) : startsWith c text = true := by
  simp [startsWith_eq, h]

namespace Declares

theorem not_notUtf8 (hdecode : Text.decode? line₀ = none) : ¬ Declares (line₀ :: rest) n := by
  intro h
  cases h with
  | problem htext => cases htext.symm.trans hdecode
  | skip htext => cases htext.symm.trans hdecode

theorem iff_of_significant (hdecode : Text.decode? line₀ = some text)
    (hsignificant : isSignificant text = true) :
    Declares (line₀ :: rest) n ↔ ∃ m, readProblem (Text.words text) = .ok (n, m) := by
  constructor
  · intro h
    cases h with
    | problem htext hwords hn hm =>
        cases htext.symm.trans hdecode
        exact ⟨_, readProblem_eq_ok_iff.2 ⟨_, _, hwords, hn, hm⟩⟩
    | skip htext hskip =>
        cases htext.symm.trans hdecode
        cases hskip.symm.trans hsignificant
  · rintro ⟨m, h⟩
    obtain ⟨varCount, clauseCount, hwords, hn, hm⟩ := readProblem_eq_ok_iff.1 h
    exact .problem hdecode hwords hn hm

theorem iff_of_not_significant (hdecode : Text.decode? line₀ = some text)
    (hskip : isSignificant text = false) : Declares (line₀ :: rest) n ↔ Declares rest n := by
  constructor
  · intro h
    cases h with
    | problem htext hwords =>
        cases htext.symm.trans hdecode
        have := isSignificant_of_startsWith (by decide) (startsWith_of_words_eq hwords)
        cases this.symm.trans hskip
    | skip _ _ h => exact h
  · exact .skip hdecode hskip

theorem not_end (hdecode : Text.decode? line₀ = some text) (hend : startsWith '%' text = true) :
    ¬ Declares (line₀ :: rest) n := by
  rw [iff_of_significant hdecode (isSignificant_of_startsWith (by decide) hend)]
  rintro ⟨m, h⟩
  obtain ⟨varCount, clauseCount, hwords, -, -⟩ := readProblem_eq_ok_iff.1 h
  simp [startsWith_eq, hwords] at hend

end Declares

theorem empty_eq_error_iff :
    Formula.empty n = .error fault ↔ Variable.maxId < n ∧ fault = .tooManyVariables n := by
  unfold Formula.empty
  split
  · simp only [reduceCtorEq, false_iff, not_and]
    omega
  · rw [Except.error.injEq, eq_comm]
    exact (and_iff_right (by omega)).symm

theorem readStatement_none_eq_fault_iff {words : List (List Char)} :
    readStatement line words none = .error (.fault fault) ↔
      ∃ n m, readProblem words = .ok (n, m) ∧ Variable.maxId < n ∧ fault = .tooManyVariables n := by
  cases hproblem : readProblem words with
  | error e =>
      simp only [readStatement, hproblem]
      split <;> simp [Failure.ofError, bind, Except.bind]
  | ok counts =>
      obtain ⟨n, m⟩ := counts
      obtain ⟨varCount, clauseCount, rfl, -, -⟩ := readProblem_eq_ok_iff.1 hproblem
      have hstatement : (readStatement line [['p'], ['c', 'n', 'f'], varCount, clauseCount] none =
          .error (.fault fault)) ↔ Formula.empty n = .error fault := by
        simp only [readStatement, hproblem]
        cases hempty : Formula.empty n <;>
          simp [hempty, Failure.ofError, Failure.ofFault, bind, Except.bind, pure, Except.pure]
      rw [hstatement, empty_eq_error_iff]
      simp

theorem readLines_eq_fault_iff : readLines name line none lines = .error (.fault fault) ↔
    ∃ n, Declares lines n ∧ Variable.maxId < n ∧ fault = .tooManyVariables n := by
  induction lines generalizing line with
  | nil =>
      simp only [readLines, reduceCtorEq, false_iff, not_exists, not_and]
      intro n h
      cases h
  | cons line₀ rest ih =>
      cases hdecode : Text.decode? line₀ with
      | none =>
          rw [readLines_cons_of_notUtf8 hdecode]
          simp [Declares.not_notUtf8 hdecode]
      | some text =>
          rw [readLines_cons hdecode]
          cases hend : startsWith '%' text with
          | true => simp [Declares.not_end hdecode hend]
          | false =>
              cases hsignificant : isSignificant text with
              | false =>
                  simp only [Bool.false_eq_true, if_false]
                  rw [ih]
                  simp only [Declares.iff_of_not_significant hdecode hsignificant]
              | true =>
                  simp only [Bool.false_eq_true, if_false, if_true]
                  -- Only the problem line itself can fault, not the lines behind it.
                  rw [bind_eq_error_iff, or_iff_left, readStatement_none_eq_fault_iff]
                  · simp only [Declares.iff_of_significant hdecode hsignificant, exists_and_right]
                  · rintro ⟨p, hp, hrest⟩
                    obtain ⟨n, m, f₀, -, -, rfl⟩ := readStatement_none_eq_ok_iff.1 hp
                    exact (readLines_settles fun l hl => absurd hl List.not_mem_nil).ne_fault hrest

theorem read_eq_fault_iff : read name bytes = .error (.fault fault) ↔
    ∃ n, Declares (Text.lines bytes) n ∧ Variable.maxId < n ∧ fault = .tooManyVariables n := by
  rw [read, bind_eq_error_iff, or_iff_left, readLines_eq_fault_iff]
  rintro ⟨p, -, h⟩
  exact (Failure.Settles.ofError (P := fun _ => True) fun _ _ => trivial).ne_fault h

/-- The reader ends in a fault on the bytes whose problem line declares more variables than there are,
and on no others: there it gives a formula or an error. -/
theorem read_faults (name : String) (bytes : List UInt8) :
    (∀ fault, read name bytes = .error (.fault fault) ↔
      ∃ n, Declares (Text.lines bytes) n ∧ Variable.maxId < n ∧ fault = .tooManyVariables n) ∧
    (((∃ f, read name bytes = .ok f) ∨ ∃ e, read name bytes = .error (.error e)) ↔
      ∀ n, Declares (Text.lines bytes) n → n ≤ Variable.maxId) := by
  refine ⟨fun fault => read_eq_fault_iff, ?_⟩
  rw [← Failure.forall_ne_fault_iff]
  constructor
  · intro h n hn
    by_contra hlt
    exact h _ (read_eq_fault_iff.2 ⟨n, hn, Nat.lt_of_not_le hlt, rfl⟩)
  · intro h fault hfault
    obtain ⟨n, hn, hlt, -⟩ := read_eq_fault_iff.1 hfault
    exact Nat.not_le_of_lt hlt (h n hn)

/-- One variable more than there are ends in a fault. -/
theorem read_one_variable_too_many : read "stdin" "p cnf 2147483648 0\n".toUTF8.toList =
    .error (.fault (.tooManyVariables 2147483648)) := by
  have hlines : Text.lines "p cnf 2147483648 0\n".toUTF8.toList =
      ["p cnf 2147483648 0".toUTF8.toList, []] := by decide +kernel
  have hdecode : Text.decode? "p cnf 2147483648 0".toUTF8.toList = some "p cnf 2147483648 0".toList := by
    decide +kernel
  have hwords : Text.words "p cnf 2147483648 0".toList =
      [['p'], ['c', 'n', 'f'], "2147483648".toList, ['0']] := by decide +kernel
  refine read_eq_fault_iff.2 ⟨2147483648, ?_, by decide, rfl⟩
  rw [hlines]
  exact .problem hdecode hwords (by decide +kernel) rfl

end Dimacs

end ClauseLearning
