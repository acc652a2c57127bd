import Mathlib
import ClauseLearning.Proofs.Dimacs.Faults

/-!
# The first offence

What can be wrong with a text is said line by line, and within a line token by token. The reader stops
at the first offence in reading order. What only the end of the text shows is looked at if there is
none.
-/

namespace ClauseLearning.Dimacs

variable {text token word : List Char} {words : List (List Char)} {tokens : List (List Char)}
  {p p' : Progress} {progress : Option Progress} {line n m : Nat} {name : String} {bytes : List UInt8}
  {line₀ : List UInt8} {before lines rest : List (List UInt8)} {e : ReadError}

/-! ## Offences -/

/-- The token has no place in a clause over the first `n` variables. -/
inductive TokenOffence (line n : Nat) (token : List Char) : ReadError → Prop
  | malformed {cause : Variable.ParseError} : token ≠ terminator → Literal.parse token = .error cause →
      TokenOffence line n token (.malformedLiteral line (String.ofList token) cause)
  | outOfRange {l : Literal} : Literal.parse token = .ok l → n < l.var.id →
      TokenOffence line n token (.variableOutOfRange line (String.ofList token) n)

/-- The line is a problem line for `n` variables and `m` clauses. -/
def IsProblem (text : List Char) (n m : Nat) : Prop :=
  ∃ varCount clauseCount, Text.words text = [['p'], ['c', 'n', 'f'], varCount, clauseCount] ∧
    Text.readDecimal varCount = .ok n ∧ Text.readDecimal clauseCount = .ok m

/-- The line has tokens of clauses. -/
structure IsClauseLine (text : List Char) : Prop where
  significant : isSignificant text = true
  not_problem : startsWith 'p' text = false
  not_end : startsWith '%' text = false

/-- The text is wrong on a line behind those lines. -/
inductive StatementOffence (before : List (List UInt8)) (text : List Char) : ReadError → Prop
  | secondProblem {n : Nat} : startsWith 'p' text = true → Declares before n →
      StatementOffence before text .malformedProblem
  | illFormedProblem : startsWith 'p' text = true → (∀ n m, ¬ IsProblem text n m) →
      StatementOffence before text .malformedProblem
  | earlyClause : IsClauseLine text → (∀ n, ¬ Declares before n) →
      StatementOffence before text .malformedProblem
  | token {token : List Char} {good rest : List (List Char)} {n : Nat} {e : ReadError} :
      IsClauseLine text → Declares before n → Text.words text = good ++ token :: rest →
      (∀ word ∈ good, IsToken n word) → TokenOffence (before.length + 1) n token e →
      StatementOffence before text e

/-- The line is wrong behind those lines. -/
inductive LineOffence (name : String) (before : List (List UInt8)) (line : List UInt8) :
    ReadError → Prop
  | notUtf8 : Text.decode? line = none → LineOffence name before line (.source name .notUtf8)
  | statement {text : List Char} {e : ReadError} : Text.decode? line = some text →
      StatementOffence before text e → LineOffence name before line e

/-- None of the lines is wrong behind those in front of it. -/
def InOrder (name : String) (lines : List (List UInt8)) : Prop :=
  ∀ before line rest, lines = before ++ line :: rest → ∀ e, ¬ LineOffence name before line e

/-- A line is wrong, and none in front of it. -/
def FirstOffence (name : String) (lines : List (List UInt8)) (e : ReadError) : Prop :=
  ∃ before line rest, lines = before ++ line :: rest ∧ InOrder name before ∧
    LineOffence name before line e

/-- The lines before the first that ends the text. -/
def readable (bytes : List UInt8) : List (List UInt8) :=
  (Text.lines bytes).takeWhile fun line => !isEnd line

/-- The text is wrong as a whole. -/
inductive EndOffence (bytes : List UInt8) : ReadError → Prop
  | unterminated {n m : Nat} {tokens : List (List Char)} {token : List Char} :
      Layout bytes n m tokens → tokens.getLast? = some token → token ≠ terminator →
      EndOffence bytes .unterminatedClause
  | noProblem : (∀ n, ¬ Declares (readable bytes) n) → EndOffence bytes .malformedProblem
  | clauseCount {n m : Nat} {tokens : List (List Char)} : Layout bytes n m tokens →
      (∀ token, tokens.getLast? = some token → token = terminator) → tokens.count terminator ≠ m →
      EndOffence bytes (.clauseCount m (tokens.count terminator))

/-- The problem line, if there is one, declares no more variables than there are. -/
def FewVariables (lines : List (List UInt8)) : Prop := ∀ n, Declares lines n → n ≤ Variable.maxId

/-! ## Words -/

theorem TokenOffence.not_isToken (h : TokenOffence line n token e) : ¬ IsToken n token := by
  rintro (rfl | ⟨l, hl, hle⟩)
  · cases h with
    | malformed hne => exact hne rfl
    | outOfRange hl => cases hl
  · cases h with
    | malformed _ herror => cases hl.symm.trans herror
    | outOfRange hl' hlt =>
        cases hl.symm.trans hl'
        exact Nat.not_le_of_lt hlt hle

theorem readWord_eq_error_iff (hp : p.InScope) : readWord line p word = .error (.error e) ↔
    TokenOffence line p.formula.varCount word e := by
  by_cases hword : word = terminator
  · subst hword
    obtain ⟨f, hf⟩ := Formula.exists_add (c := ⟨p.pending.toList⟩) hp
    have hok : readWord line p terminator = .ok { p with formula := f, pending := #[] } :=
      readWord_eq_ok_iff.2 (.inl ⟨rfl, f, hf, rfl⟩)
    rw [hok]
    exact iff_of_false (by simp) fun h => h.not_isToken (.inl rfl)
  · have hread : readWord line p word = .error (.error e) ↔
        readLiteral line p.formula.varCount word = .error e := by
      simp only [readWord, show word ≠ ['0'] from hword, if_false]
      cases readLiteral line p.formula.varCount word <;>
        simp [Failure.ofError, bind, Except.bind, pure, Except.pure]
    rw [hread, readLiteral]
    constructor
    · intro h
      split at h
      · cases h
        exact .malformed hword ‹_›
      · split at h <;> cases h
        exact .outOfRange ‹_› (Nat.lt_of_not_le ‹_›)
    · intro h
      cases h with
      | malformed _ hparse => simp [hparse]
      | outOfRange hparse hlt => simp [hparse, Nat.not_le_of_lt hlt]

theorem exists_readWord (hp : p.InScope) (hword : IsToken p.formula.varCount word) :
    ∃ p', readWord line p word = .ok p' := by
  obtain ⟨p', h, -⟩ : ∃ p', [word].foldlM (readWord line) p = .ok p' ∧ p.After [word] p' :=
    Progress.exists_after hp (List.forall_mem_singleton.2 hword)
  rw [List.foldlM_cons, bind_eq_ok_iff] at h
  obtain ⟨p₁, h₁, -⟩ := h
  exact ⟨p₁, h₁⟩

/-- Words are read up to the first that is no token. -/
theorem foldlM_readWord_eq_error_iff (hp : p.InScope) :
    words.foldlM (readWord line) p = .error (.error e) ↔ ∃ good token rest,
      words = good ++ token :: rest ∧ (∀ word ∈ good, IsToken p.formula.varCount word) ∧
        TokenOffence line p.formula.varCount token e := by
  induction words generalizing p with
  | nil => simp [pure, Except.pure]
  | cons word words ih =>
      rw [List.foldlM_cons, bind_eq_error_iff, readWord_eq_error_iff hp]
      constructor
      · rintro (hoffence | ⟨p₁, hread, hrest⟩)
        · exact ⟨[], word, words, rfl, by simp, hoffence⟩
        · obtain ⟨htoken, hvarCount⟩ := IsToken.of_readWord hread
          obtain ⟨good, token, rest, rfl, hgood, hoffence⟩ :=
            (ih ((readWord_settles hp).of_eq_ok hread)).1 hrest
          rw [hvarCount] at hgood hoffence
          exact ⟨word :: good, token, rest, rfl, List.forall_mem_cons.2 ⟨htoken, hgood⟩, hoffence⟩
      · rintro ⟨good, token, rest, hsplit, hgood, hoffence⟩
        cases good with
        | nil =>
            cases hsplit
            exact .inl hoffence
        | cons _ good =>
            cases hsplit
            obtain ⟨htoken, hgood⟩ := List.forall_mem_cons.1 hgood
            obtain ⟨p₁, hread⟩ : ∃ p₁, readWord line p word = .ok p₁ := exists_readWord hp htoken
            have hvarCount := (IsToken.of_readWord hread).2
            refine .inr ⟨p₁, hread, (ih ((readWord_settles hp).of_eq_ok hread)).2 ?_⟩
            rw [hvarCount]
            exact ⟨good, token, rest, rfl, hgood, hoffence⟩

/-! ## Lines -/

namespace Declares

theorem append (h : Declares lines n) (rest : List (List UInt8)) : Declares (lines ++ rest) n := by
  induction h with
  | problem hdecode hwords hn hm => exact .problem hdecode hwords hn hm
  | skip hdecode hskip _ ih => exact .skip hdecode hskip ih

theorem unique {n' : Nat} (h : Declares lines n) (h' : Declares lines n') : n = n' := by
  induction h with
  | problem hdecode hwords hn hm =>
      have hsignificant := isSignificant_of_startsWith (by decide) (startsWith_of_words_eq hwords)
      obtain ⟨m', hproblem'⟩ := (iff_of_significant hdecode hsignificant).1 h'
      have hproblem := readProblem_eq_ok_iff.2 ⟨_, _, hwords, hn, hm⟩
      cases hproblem.symm.trans hproblem'
      rfl
  | skip hdecode hskip _ ih => exact ih ((iff_of_not_significant hdecode hskip).1 h')

end Declares

/-- The lines are blank or comments. -/
def Skipped (lines : List (List UInt8)) : Prop :=
  ∀ line ∈ lines, ∃ text, Text.decode? line = some text ∧ isSignificant text = false

theorem Skipped.declares_append_iff (h : Skipped before) :
    Declares (before ++ rest) n ↔ Declares rest n := by
  induction before with
  | nil => rfl
  | cons line before ih =>
      obtain ⟨⟨text, hdecode, hskip⟩, hbefore⟩ := List.forall_mem_cons.1 h
      rw [List.cons_append, Declares.iff_of_not_significant hdecode hskip, ih hbefore]

theorem Skipped.not_declares (h : Skipped lines) : ¬ Declares lines n := by
  rw [← List.append_nil lines, h.declares_append_iff]
  exact nofun

/-- What there is after lines of which none was wrong. -/
inductive Reached (before : List (List UInt8)) : Option Progress → Prop
  | blank : Skipped before → Reached before none
  | problem {p : Progress} : Declares before p.formula.varCount → p.InScope →
      Reached before (some p)

theorem readProblem_eq_error_iff : readProblem (Text.words text) = .error e ↔
    e = .malformedProblem ∧ ∀ n m, ¬ IsProblem text n m := by
  have hok (n m : Nat) : IsProblem text n m ↔ readProblem (Text.words text) = .ok (n, m) :=
    readProblem_eq_ok_iff.symm
  simp only [hok]
  unfold readProblem
  split
  · split <;> simp [eq_comm, *]
  · simp [eq_comm]

theorem IsProblem.startsWith (h : IsProblem text n m) : startsWith 'p' text = true := by
  obtain ⟨_, _, hwords, -, -⟩ := h
  exact startsWith_of_words_eq hwords

theorem readStatement_none_eq_error_iff (hbound : ∀ n m, IsProblem text n m → n ≤ Variable.maxId) :
    readStatement line (Text.words text) none = .error (.error e) ↔
      e = .malformedProblem ∧ ∀ n m, ¬ IsProblem text n m := by
  cases hproblem : readProblem (Text.words text) with
  | error e' =>
      obtain ⟨rfl, hno⟩ := readProblem_eq_error_iff.1 hproblem
      have hstatement : readStatement line (Text.words text) none =
          .error (.error .malformedProblem) := by
        simp only [readStatement, hproblem]
        split <;> rfl
      simp [hstatement, hno, eq_comm]
  | ok counts =>
      obtain ⟨n, m⟩ := counts
      have hisProblem : IsProblem text n m := readProblem_eq_ok_iff.1 hproblem
      obtain ⟨f₀, hf₀⟩ : ∃ f₀, Formula.empty n = .ok f₀ := ⟨_, dif_pos (hbound n m hisProblem)⟩
      have hstatement : readStatement line (Text.words text) none = .ok ⟨f₀, m, #[]⟩ :=
        readStatement_none_eq_ok_iff.2 ⟨n, m, f₀, hproblem, hf₀, rfl⟩
      rw [hstatement]
      exact iff_of_false (by simp) fun h => h.2 n m hisProblem

namespace Reached

/-- A statement fails to be read when it is an offence, and for what is wrong with it. -/
theorem readStatement_eq_error_iff (h : Reached before progress)
    (hsignificant : isSignificant text = true) (hend : startsWith '%' text = false)
    (hbound : progress = none → ∀ n m, IsProblem text n m → n ≤ Variable.maxId) :
    readStatement (before.length + 1) (Text.words text) progress = .error (.error e) ↔
      StatementOffence before text e := by
  cases h with
  | blank hskipped =>
      rw [readStatement_none_eq_error_iff (hbound rfl)]
      constructor
      · rintro ⟨rfl, hno⟩
        cases hstart : startsWith 'p' text with
        | true => exact .illFormedProblem hstart hno
        | false => exact .earlyClause ⟨hsignificant, hstart, hend⟩ fun n => hskipped.not_declares
      · intro h
        cases h with
        | secondProblem _ hdeclares => exact absurd hdeclares hskipped.not_declares
        | illFormedProblem _ hno => exact ⟨rfl, hno⟩
        | earlyClause hclause =>
            exact ⟨rfl, fun n m hproblem =>
              Bool.false_ne_true (hclause.not_problem.symm.trans hproblem.startsWith)⟩
        | token _ hdeclares => exact absurd hdeclares hskipped.not_declares
  | problem hdeclares hscope =>
      rw [readStatement_some]
      cases hstart : startsWith 'p' text with
      | true =>
          simp only [if_true, Except.error.injEq, Failure.error.injEq]
          constructor
          · rintro rfl
            exact .secondProblem hstart hdeclares
          · intro h
            cases h with
            | token hclause => cases hclause.not_problem.symm.trans hstart
            | _ => rfl
      | false =>
          simp only [Bool.false_eq_true, if_false]
          rw [foldlM_readWord_eq_error_iff hscope]
          constructor
          · rintro ⟨good, token, rest, hwords, hgood, hoffence⟩
            exact .token ⟨hsignificant, hstart, hend⟩ hdeclares hwords hgood hoffence
          · intro h
            cases h with
            | secondProblem hstart' => cases hstart.symm.trans hstart'
            | illFormedProblem hstart' => cases hstart.symm.trans hstart'
            | earlyClause _ hno => exact absurd hdeclares (hno _)
            | token _ hdeclares' hwords hgood hoffence =>
                cases hdeclares.unique hdeclares'
                exact ⟨_, _, _, hwords, hgood, hoffence⟩

theorem skip (h : Reached before progress) (hdecode : Text.decode? line₀ = some text)
    (hskip : isSignificant text = false) : Reached (before ++ [line₀]) progress := by
  cases h with
  | blank hskipped =>
      refine .blank fun line hline => ?_
      cases List.mem_append.1 hline with
      | inl hline => exact hskipped line hline
      | inr hline =>
          cases List.mem_singleton.1 hline
          exact ⟨text, hdecode, hskip⟩
  | problem hdeclares hscope => exact .problem (hdeclares.append _) hscope

theorem statement (h : Reached before progress) (hdecode : Text.decode? line₀ = some text)
    (hread : readStatement line (Text.words text) progress = .ok p) :
    Reached (before ++ [line₀]) (some p) := by
  cases h with
  | blank hskipped =>
      obtain ⟨n, m, f₀, hproblem, hf₀, rfl⟩ := readStatement_none_eq_ok_iff.1 hread
      obtain ⟨varCount, clauseCount, hwords, hn, hm⟩ := readProblem_eq_ok_iff.1 hproblem
      refine .problem ?_ fun l hl => absurd hl List.not_mem_nil
      rw [(Formula.empty_eq_ok_iff.1 hf₀).2.1]
      exact hskipped.declares_append_iff.2 (.problem hdecode hwords hn hm)
  | problem hdeclares hscope =>
      refine .problem ?_ ((readStatement_settles hscope).of_eq_ok hread)
      rw [readStatement_some] at hread
      split at hread
      · cases hread
      · obtain ⟨p', hread', hafter⟩ : ∃ p', (Text.words text).foldlM (readWord line) _ = .ok p' ∧
            Progress.After _ (Text.words text) p' :=
          Progress.exists_after hscope (IsToken.of_foldlM hread)
        cases hread.symm.trans hread'
        rw [hafter.varCount]
        exact hdeclares.append _

end Reached

theorem StatementOffence.isSignificant (h : StatementOffence before text e) :
    isSignificant text = true := by
  cases h with
  | secondProblem hstart => exact isSignificant_of_startsWith (by decide) hstart
  | illFormedProblem hstart => exact isSignificant_of_startsWith (by decide) hstart
  | earlyClause hclause => exact hclause.significant
  | token hclause => exact hclause.significant

theorem FewVariables.of_append (h : FewVariables (lines ++ rest)) : FewVariables lines :=
  fun n hn => h n (hn.append rest)

namespace Reached

section

variable (h : Reached before progress) (hbound : FewVariables (before ++ [line₀]))
  (hdecode : Text.decode? line₀ = some text) (hsignificant : isSignificant text = true)

include h hbound hdecode hsignificant

theorem le_of_isProblem (hnone : progress = none) (n m : Nat) (hproblem : IsProblem text n m) :
    n ≤ Variable.maxId := by
  cases h with
  | blank hskipped =>
      apply hbound
      rw [hskipped.declares_append_iff, Declares.iff_of_significant hdecode hsignificant]
      exact ⟨m, readProblem_eq_ok_iff.2 hproblem⟩
  | problem => cases hnone

theorem readStatement_ne_fault (fault : Fault) :
    readStatement line (Text.words text) progress ≠ .error (.fault fault) := by
  have hle := h.le_of_isProblem hbound hdecode hsignificant
  cases h with
  | blank =>
      intro hfault
      obtain ⟨n, m, hproblem, hlt, -⟩ := readStatement_none_eq_fault_iff.1 hfault
      exact Nat.not_le_of_lt hlt (hle rfl n m (readProblem_eq_ok_iff.1 hproblem))
  | problem _ hscope => exact (readStatement_settles hscope).ne_fault

end

variable (h : Reached before progress) (hend : isEnd line₀ = false)
  (hbound : FewVariables (before ++ [line₀]))

include h hend hbound

/-- A line that is an offence ends the reading. -/
theorem readLines_of_offence (hoffence : LineOffence name before line₀ e) :
    readLines name (before.length + 1) progress (line₀ :: rest) = .error (.error e) := by
  cases hoffence with
  | notUtf8 hdecode => exact readLines_cons_of_notUtf8 hdecode
  | @statement text _ hdecode hoffence =>
      have hsignificant := hoffence.isSignificant
      have hnotEnd : startsWith '%' text = false := by simpa [isEnd, hdecode] using hend
      have hstatement := (h.readStatement_eq_error_iff hsignificant hnotEnd
        (h.le_of_isProblem hbound hdecode hsignificant)).2 hoffence
      simp [readLines_cons hdecode, hsignificant, hnotEnd, hstatement, bind, Except.bind]

/-- A line that is no offence is read, whatever follows it. -/
theorem readLines_of_no_offence (hno : ∀ e, ¬ LineOffence name before line₀ e) :
    ∃ progress', Reached (before ++ [line₀]) progress' ∧
      ∀ rest, readLines name (before.length + 1) progress (line₀ :: rest) =
        readLines name (before.length + 2) progress' rest := by
  cases hdecode : Text.decode? line₀ with
  | none => exact absurd (.notUtf8 hdecode) (hno _)
  | some text =>
      have hnotEnd : startsWith '%' text = false := by simpa [isEnd, hdecode] using hend
      cases hsignificant : isSignificant text with
      | false =>
          refine ⟨progress, h.skip hdecode hsignificant, fun rest => ?_⟩
          simp [readLines_cons hdecode, hsignificant, hnotEnd]
      | true =>
          cases hread : readStatement (before.length + 1) (Text.words text) progress with
          | ok p =>
              refine ⟨some p, h.statement hdecode hread, fun rest => ?_⟩
              simp [readLines_cons hdecode, hsignificant, hnotEnd, hread, bind, Except.bind]
          | error failure =>
              cases failure with
              | fault fault =>
                  exact absurd hread (h.readStatement_ne_fault hbound hdecode hsignificant fault)
              | error e =>
                  have hoffence := (h.readStatement_eq_error_iff hsignificant hnotEnd
                    (h.le_of_isProblem hbound hdecode hsignificant)).1 hread
                  exact absurd (.statement hdecode hoffence) (hno e)

end Reached

/-! ## Texts -/

theorem inOrder_nil : InOrder name [] := by
  intro before line rest hsplit
  simp at hsplit

theorem inOrder_concat_iff : InOrder name (lines ++ [line₀]) ↔
    InOrder name lines ∧ ∀ e, ¬ LineOffence name lines line₀ e := by
  constructor
  · intro h
    refine ⟨fun before line rest hsplit => h before line (rest ++ [line₀]) ?_, h lines line₀ [] rfl⟩
    simp [hsplit]
  · rintro ⟨hlines, hline⟩ before line rest hsplit
    cases List.eq_nil_or_concat rest with
    | inl hrest =>
        subst hrest
        obtain ⟨rfl, hlast⟩ := List.append_inj' hsplit rfl
        cases hlast
        exact hline
    | inr hrest =>
        obtain ⟨rest, last, rfl⟩ := hrest
        rw [List.concat_eq_append, ← List.cons_append, ← List.append_assoc] at hsplit
        exact hlines before line rest (List.append_inj' hsplit rfl).1

/-- Lines are in order, or there is a first that is not. -/
theorem inOrder_or_exists_firstOffence (name : String) (lines : List (List UInt8)) :
    InOrder name lines ∨ ∃ e, FirstOffence name lines e := by
  induction lines using List.reverseRecOn with
  | nil => exact .inl inOrder_nil
  | append_singleton lines line ih =>
      cases ih with
      | inr hoffence =>
          obtain ⟨e, before, line', rest, rfl, hbefore, hline⟩ := hoffence
          exact .inr ⟨e, before, line', rest ++ [line], by simp, hbefore, hline⟩
      | inl hlines =>
          by_cases hline : ∃ e, LineOffence name lines line e
          · obtain ⟨e, hline⟩ := hline
            exact .inr ⟨e, lines, line, [], rfl, hlines, hline⟩
          · exact .inl (inOrder_concat_iff.2 ⟨hlines, not_exists.1 hline⟩)

/-- Lines in order are read, whatever follows them. -/
theorem InOrder.exists_reached (h : InOrder name before) (hend : ∀ line ∈ before, isEnd line = false)
    (hbound : FewVariables before) : ∃ progress, Reached before progress ∧
      ∀ rest, readLines name 1 none (before ++ rest) =
        readLines name (before.length + 1) progress rest := by
  induction before using List.reverseRecOn with
  | nil => exact ⟨none, .blank (by simp [Skipped]), fun rest => rfl⟩
  | append_singleton lines line ih =>
      obtain ⟨hlines, hline⟩ := inOrder_concat_iff.1 h
      obtain ⟨hendLines, hendLine⟩ := List.forall_mem_append.1 hend
      obtain ⟨progress, hreached, hread⟩ := ih hlines hendLines hbound.of_append
      obtain ⟨progress', hreached', hread'⟩ :=
        hreached.readLines_of_no_offence (hendLine line List.mem_cons_self) hbound hline
      refine ⟨progress', hreached', fun rest => ?_⟩
      rw [List.append_assoc, hread, List.singleton_append, hread', List.length_append,
        List.length_singleton]

theorem readLines_end (name : String) (line : Nat) (progress : Option Progress)
    (lines : List (List UInt8)) :
    readLines name line progress (lines.dropWhile fun line => !isEnd line) = .ok progress := by
  cases hdrop : lines.dropWhile fun line => !isEnd line with
  | nil => rfl
  | cons line₀ rest =>
      have hend : isEnd line₀ = true := by
        have hhead := List.head?_dropWhile_not (fun line => !isEnd line) lines
        simpa [hdrop] using hhead
      obtain ⟨text, hdecode, hstart⟩ := (Option.any_eq_true _ _).1 hend
      simp [readLines_cons hdecode, hstart]

theorem lines_eq_append (bytes : List UInt8) : Text.lines bytes =
    readable bytes ++ (Text.lines bytes).dropWhile fun line => !isEnd line :=
  List.takeWhile_append_dropWhile.symm

theorem isEnd_of_mem_readable (h : line₀ ∈ readable bytes) : isEnd line₀ = false := by
  simpa using List.mem_takeWhile_imp h

section

variable (hbound : FewVariables (Text.lines bytes))

include hbound

theorem readLines_of_inOrder (h : InOrder name (readable bytes)) : ∃ progress,
    Reached (readable bytes) progress ∧ readLines name 1 none (Text.lines bytes) = .ok progress := by
  rw [lines_eq_append] at hbound
  obtain ⟨progress, hreached, hread⟩ :=
    h.exists_reached (fun _ => isEnd_of_mem_readable) hbound.of_append
  refine ⟨progress, hreached, ?_⟩
  rw [lines_eq_append, hread, readLines_end]

theorem readLines_of_firstOffence (h : FirstOffence name (readable bytes) e) :
    readLines name 1 none (Text.lines bytes) = .error (.error e) := by
  obtain ⟨before, line, rest, hsplit, hbefore, hoffence⟩ := h
  have hend (line' : List UInt8) (hline' : line' ∈ before ++ line :: rest) : isEnd line' = false :=
    isEnd_of_mem_readable (hsplit ▸ hline')
  obtain ⟨hendBefore, hendLine, -⟩ : (∀ line' ∈ before, isEnd line' = false) ∧ isEnd line = false ∧
      ∀ line' ∈ rest, isEnd line' = false := by simpa [or_imp, forall_and] using hend
  rw [lines_eq_append, hsplit, List.append_assoc, List.cons_append] at hbound ⊢
  obtain ⟨progress, hreached, hread⟩ := hbefore.exists_reached hendBefore hbound.of_append
  rw [List.append_cons] at hbound
  rw [hread, hreached.readLines_of_offence hendLine hbound.of_append hoffence]

end

theorem finish_some_eq_error_iff : finish (some p) = .error e ↔
    (p.pending ≠ #[] ∧ e = .unterminatedClause) ∨
      (p.pending = #[] ∧ p.formula.clauses.size ≠ p.declared ∧
        e = .clauseCount p.declared p.formula.clauses.size) := by
  by_cases hpending : p.pending = #[]
  · by_cases hsize : p.formula.clauses.size = p.declared
    · simp [finish, hpending, hsize]
    · simp only [finish, hpending, hsize, Array.isEmpty_empty, not_true_eq_false, if_false, ne_eq,
        Except.error.injEq, false_and, true_and, not_false_eq_true, false_or]
      exact eq_comm
  · simp only [finish, Array.isEmpty_iff, hpending, not_false_eq_true, if_true, ne_eq,
      Except.error.injEq, false_and, true_and, or_false]
    exact eq_comm

theorem EndOffence.iff_of_layout (hlayout : Layout bytes n m tokens)
    (hdeclares : Declares (readable bytes) n) : EndOffence bytes e ↔
      ((¬ ∀ token, tokens.getLast? = some token → token = terminator) ∧ e = .unterminatedClause) ∨
        ((∀ token, tokens.getLast? = some token → token = terminator) ∧
          tokens.count terminator ≠ m ∧ e = .clauseCount m (tokens.count terminator)) := by
  constructor
  · intro h
    cases h with
    | unterminated hlayout' hlast hne =>
        obtain ⟨rfl, rfl, rfl⟩ := hlayout.unique hlayout'
        exact .inl ⟨fun hended => hne (hended _ hlast), rfl⟩
    | noProblem hno => exact absurd hdeclares (hno n)
    | clauseCount hlayout' hended hcount =>
        obtain ⟨rfl, rfl, rfl⟩ := hlayout.unique hlayout'
        exact .inr ⟨hended, hcount, rfl⟩
  · rintro (⟨hopen, rfl⟩ | ⟨hended, hcount, rfl⟩)
    · push Not at hopen
      obtain ⟨token, hlast, hne⟩ := hopen
      exact .unterminated hlayout hlast hne
    · exact .clauseCount hlayout hended hcount

/-- What the end of a text shows, once all its lines are read. -/
theorem finish_eq_error_iff (hreached : Reached (readable bytes) progress)
    (hread : readLines name 1 none (Text.lines bytes) = .ok progress) :
    finish progress = .error e ↔ EndOffence bytes e := by
  rcases readLines_none_eq_ok_iff.1 hread with
    ⟨htexts, rfl⟩ | ⟨n, m, tokens, f₀, p, hlayout, hf₀, hfold, rfl⟩
  · cases hreached with
    | blank hskipped =>
        have hno (n m : Nat) (tokens : List (List Char)) : ¬ Layout bytes n m tokens := by
          rintro ⟨problem, rest, -, -, htexts', -⟩
          cases htexts.symm.trans htexts'
        constructor
        · intro h
          cases h
          exact .noProblem fun n => hskipped.not_declares
        · intro h
          cases h with
          | unterminated hlayout => exact absurd hlayout (hno _ _ _)
          | noProblem => rfl
          | clauseCount hlayout => exact absurd hlayout (hno _ _ _)
  · cases hreached with
    | problem hdeclares hscope =>
        obtain ⟨hn, hvarCount, hclauses⟩ := Formula.empty_eq_ok_iff.1 hf₀
        have htokens : ∀ token ∈ tokens, IsToken n token := hvarCount ▸ IsToken.of_foldlM hfold
        obtain ⟨p', hp', hafter⟩ : ∃ p', tokens.foldlM (readWord 0) ⟨f₀, m, #[]⟩ = .ok p' ∧
            Progress.After ⟨f₀, m, #[]⟩ tokens p' :=
          Progress.exists_after (fun _ hl => absurd hl List.not_mem_nil) (hvarCount ▸ htokens)
        cases hfold.symm.trans hp'
        have hscope' : p.formula.varCount = n := hafter.varCount.trans hvarCount
        have hdeclared : p.declared = m := hafter.declared
        rw [finish_some_eq_error_iff, EndOffence.iff_of_layout hlayout (hscope' ▸ hdeclares),
          Ne, hafter.pending_eq_empty_iff htokens, hafter.size_eq hclauses, hdeclared]

/-- The reader reports the first offence in reading order. If the problem line does not declare more
variables than there are, the error is that of the first line that is wrong, and on a line of clauses
that of its first wrong token. Only if no line before the end of the text is wrong, it is that of the
text as a whole. -/
theorem read_reports_first_offence (name : String) (bytes : List UInt8)
    (hbound : FewVariables (Text.lines bytes)) (e : ReadError) :
    read name bytes = .error (.error e) ↔ FirstOffence name (readable bytes) e ∨
      (InOrder name (readable bytes) ∧ EndOffence bytes e) := by
  have hfirst {e' : ReadError} (h : FirstOffence name (readable bytes) e') :
      read name bytes = .error (.error e') := by
    rw [read, readLines_of_firstOffence hbound h]
    rfl
  have hlast (h : InOrder name (readable bytes)) :
      read name bytes = .error (.error e) ↔ EndOffence bytes e := by
    obtain ⟨progress, hreached, hread⟩ := readLines_of_inOrder hbound h
    rw [← finish_eq_error_iff hreached hread, read, hread]
    exact Failure.ofError_eq_error_iff
  constructor
  · intro hread
    rcases inOrder_or_exists_firstOffence name (readable bytes) with h | ⟨e', h⟩
    · exact .inr ⟨h, (hlast h).1 hread⟩
    · cases (hfirst h).symm.trans hread
      exact .inl h
  · rintro (h | ⟨h, hend⟩)
    · exact hfirst h
    · exact (hlast h).2 hend

namespace Sample

/-- A literal out of range in front of a word that is none, behind a comment. -/
def flawed : List UInt8 := "c x\np cnf 2 1\n1 -3 0\nfoo\n".toUTF8.toList

theorem fewVariables_flawed : FewVariables (Text.lines flawed) := by
  have hlines : Text.lines flawed = ["c x".toUTF8.toList, "p cnf 2 1".toUTF8.toList,
      "1 -3 0".toUTF8.toList, "foo".toUTF8.toList, []] := by decide +kernel
  have hcomment : Text.decode? "c x".toUTF8.toList = some "c x".toList := by decide +kernel
  have hproblem : Text.decode? "p cnf 2 1".toUTF8.toList = some "p cnf 2 1".toList := by decide +kernel
  have hdeclares : Declares (Text.lines flawed) 2 := by
    rw [hlines]
    have hwords : Text.words "p cnf 2 1".toList = [['p'], ['c', 'n', 'f'], ['2'], ['1']] := by
      decide
    exact .skip hcomment (by decide) (.problem hproblem hwords rfl rfl)
  intro n hn
  rw [← hdeclares.unique hn]
  decide

end Sample

theorem read_reports_first_offence_flawed :
    read "stdin" Sample.flawed = .error (.error (.variableOutOfRange 3 "-3" 2)) ∧
      FirstOffence "stdin" (readable Sample.flawed) (.variableOutOfRange 3 "-3" 2) := by
  have hread : read "stdin" Sample.flawed = .error (.error (.variableOutOfRange 3 "-3" 2)) := by
    have hreported : (match read "stdin" Sample.flawed with
        | .error (.error e) => some e
        | _ => none) = some (.variableOutOfRange 3 "-3" 2) := by decide +kernel
    split at hreported
    · cases hreported
      assumption
    · cases hreported
  refine ⟨hread, ?_⟩
  rcases (read_reports_first_offence "stdin" Sample.flawed Sample.fewVariables_flawed _).1 hread with
    h | ⟨-, h⟩
  · exact h
  · cases h

end ClauseLearning.Dimacs
