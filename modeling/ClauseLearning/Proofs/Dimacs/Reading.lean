import Mathlib
import ClauseLearning.Proofs.Dimacs.Grammar

/-!
# The reader accepts the grammar

Words are followed through the clauses they end, lines through the statements among them. The reader
gives the formula that the tokens of a layout denote, and fails on all other bytes.
-/

namespace ClauseLearning

namespace Dimacs

variable {text word : List Char} {tokens : List (List Char)} {f : Formula} {p p' : Progress}
  {line n m : Nat} {name : String} {progress : Option Progress} {bytes : List UInt8}

/-! ## Reading tokens -/

/-- How a word is read does not depend on the number of its line, as long as there is no error. -/
theorem readWord_eq_ok_iff : readWord line p word = .ok p' ↔
    (word = terminator ∧ ∃ f, p.formula.add ⟨p.pending.toList⟩ = .ok f ∧
      p' = { p with formula := f, pending := #[] }) ∨
    (word ≠ terminator ∧ ∃ l, Literal.parse word = .ok l ∧ l.var.id ≤ p.formula.varCount ∧
      p' = { p with pending := p.pending.push l }) := by
  by_cases hword : word = ['0']
  · cases hadd : p.formula.add ⟨p.pending.toList⟩ <;>
      simp [readWord, hword, terminator, hadd, Failure.ofFault, bind, Except.bind, pure,
        Except.pure, eq_comm]
  · cases hparse : Literal.parse word with
    | error e =>
        simp [readWord, readLiteral, hword, terminator, hparse, Failure.ofError, bind, Except.bind]
    | ok l =>
        by_cases hl : l.var.id ≤ p.formula.varCount <;>
          simp [readWord, readLiteral, hword, terminator, hparse, hl, Failure.ofError, bind,
            Except.bind, pure, Except.pure, eq_comm]

theorem IsToken.of_readWord (h : readWord line p word = .ok p') :
    IsToken p.formula.varCount word ∧ p'.formula.varCount = p.formula.varCount := by
  rcases readWord_eq_ok_iff.1 h with ⟨hword, f, hadd, rfl⟩ | ⟨-, l, hparse, hl, rfl⟩
  · exact ⟨.inl hword, Formula.varCount_of_add hadd⟩
  · exact ⟨.inr ⟨l, hparse, hl⟩, rfl⟩

theorem IsToken.of_foldlM (h : tokens.foldlM (readWord line) p = .ok p') :
    ∀ token ∈ tokens, IsToken p.formula.varCount token := by
  induction tokens generalizing p with
  | nil => exact fun _ h => absurd h List.not_mem_nil
  | cons token tokens ih =>
      rw [List.foldlM_cons] at h
      obtain ⟨p₁, h₁, h₂⟩ := bind_eq_ok_iff.1 h
      obtain ⟨htoken, hvarCount⟩ := IsToken.of_readWord h₁
      refine List.forall_mem_cons.2 ⟨htoken, ?_⟩
      rw [← hvarCount]
      exact ih h₂

/-- The literals up to each terminator and behind the last one, after some that were read before. -/
def parts (pending : List Literal) (tokens : List (List Char)) : List (List Literal) :=
  ((Text.split (· == terminator) tokens).map literalsOf).modifyHead (pending ++ ·)

theorem parts_nil (pending : List Literal) : parts pending [] = [pending] := by
  simp [parts, Text.split_nil, literalsOf]

theorem parts_terminator (pending : List Literal) (tokens : List (List Char)) :
    parts pending (terminator :: tokens) = pending :: parts [] tokens := by
  obtain ⟨part, others, hsplit⟩ := Text.exists_split_eq_cons (· == terminator) tokens
  simp [parts, Text.split_of_pos, hsplit, literalsOf]

theorem parts_literal {l : Literal} (hne : word ≠ terminator) (hparse : Literal.parse word = .ok l)
    (pending : List Literal) (tokens : List (List Char)) :
    parts pending (word :: tokens) = parts (pending ++ [l]) tokens := by
  obtain ⟨part, others, hsplit⟩ := Text.exists_split_eq_cons (· == terminator) tokens
  simp [parts, Text.split_of_neg, hne, hsplit, literalsOf, hparse, Except.toOption]

theorem parts_ne_nil (pending : List Literal) (tokens : List (List Char)) :
    parts pending tokens ≠ [] := by
  simp [parts, Text.split_ne_nil]

/-- What is there after tokens: the clauses that ended and the literals behind the last one. -/
structure Progress.After (p : Progress) (tokens : List (List Char)) (p' : Progress) : Prop where
  varCount : p'.formula.varCount = p.formula.varCount
  declared : p'.declared = p.declared
  clauses : p'.formula.clauses.toList.map Clause.literals =
    p.formula.clauses.toList.map Clause.literals ++
      (parts p.pending.toList tokens).dropLast.map List.eraseDups
  pending : (parts p.pending.toList tokens).getLast? = some p'.pending.toList

namespace Progress.After

theorem nil : p.After [] p := ⟨rfl, rfl, by simp [parts_nil], by simp [parts_nil]⟩

theorem terminator {f : Formula} (hadd : p.formula.add ⟨p.pending.toList⟩ = .ok f)
    (h : Progress.After ⟨f, p.declared, #[]⟩ tokens p') :
    p.After (Dimacs.terminator :: tokens) p' where
  varCount := h.varCount.trans (Formula.varCount_of_add hadd)
  declared := h.declared
  clauses := by
    rw [h.clauses, Formula.literals_of_add hadd, parts_terminator,
      List.dropLast_cons_of_ne_nil (parts_ne_nil _ _), List.map_cons, List.append_assoc]
    rfl
  pending := by
    rw [parts_terminator, List.getLast?_cons_of_ne_nil (parts_ne_nil _ _)]
    exact h.pending

theorem literal {l : Literal} (hne : word ≠ Dimacs.terminator) (hparse : Literal.parse word = .ok l)
    (h : Progress.After ⟨p.formula, p.declared, p.pending.push l⟩ tokens p') :
    p.After (word :: tokens) p' where
  varCount := h.varCount
  declared := h.declared
  clauses := by
    rw [parts_literal hne hparse, ← Array.toList_push]
    exact h.clauses
  pending := by
    rw [parts_literal hne hparse, ← Array.toList_push]
    exact h.pending

end Progress.After

/-- Words that are tokens are read, and are there afterwards. -/
theorem Progress.exists_after (hp : ∀ l ∈ p.pending.toList, l.var.id ≤ p.formula.varCount)
    (h : ∀ token ∈ tokens, IsToken p.formula.varCount token) :
    ∃ p', tokens.foldlM (readWord line) p = .ok p' ∧ p.After tokens p' := by
  induction tokens generalizing p with
  | nil => exact ⟨p, rfl, .nil⟩
  | cons token tokens ih =>
      obtain ⟨htoken, htokens⟩ := List.forall_mem_cons.1 h
      simp only [List.foldlM_cons, bind_eq_ok_iff]
      by_cases hend : token = terminator
      · obtain ⟨f, hadd⟩ := Formula.exists_add (c := ⟨p.pending.toList⟩) hp
        obtain ⟨p', hp', hafter⟩ := ih (p := ⟨f, p.declared, #[]⟩)
          (fun _ hl => absurd hl List.not_mem_nil) (by rwa [Formula.varCount_of_add hadd])
        refine ⟨p', ⟨_, readWord_eq_ok_iff.2 (.inl ⟨hend, f, hadd, rfl⟩), hp'⟩, ?_⟩
        exact hend ▸ .terminator hadd hafter
      · obtain ⟨l, hparse, hl⟩ := htoken.resolve_left hend
        obtain ⟨p', hp', hafter⟩ := ih (p := ⟨p.formula, p.declared, p.pending.push l⟩)
          (fun m hm => (Array.mem_push.1 (Array.mem_toList_iff.1 hm)).elim
            (fun hm => hp m (Array.mem_toList_iff.2 hm)) (fun e => e ▸ hl)) htokens
        exact ⟨p', ⟨_, readWord_eq_ok_iff.2 (.inr ⟨hend, l, hparse, hl, rfl⟩), hp'⟩,
          .literal hend hparse hafter⟩

/-- Nothing is left behind the last terminator when the last token is one. -/
theorem getLast?_parts (h : ∀ token ∈ tokens, IsToken n token) (pending : List Literal) :
    (parts pending tokens).getLast? = some [] ↔
      (∀ token, tokens.getLast? = some token → token = terminator) ∧
        (tokens = [] → pending = []) := by
  induction tokens generalizing pending with
  | nil => simp [parts_nil]
  | cons token tokens ih =>
      obtain ⟨htoken, htokens⟩ := List.forall_mem_cons.1 h
      by_cases hend : token = terminator
      · subst hend
        rw [parts_terminator, List.getLast?_cons_of_ne_nil (parts_ne_nil _ _), ih htokens]
        cases tokens <;> simp [List.getLast?_cons]
      · obtain ⟨l, hparse, -⟩ := htoken.resolve_left hend
        rw [parts_literal hend hparse, ih htokens]
        cases tokens <;> simp [List.getLast?_cons, hend]

theorem dropLast_parts (tokens : List (List Char)) :
    (parts [] tokens).dropLast = (groups tokens).map literalsOf := by
  obtain ⟨part, others, hsplit⟩ := Text.exists_split_eq_cons (· == terminator) tokens
  simp [parts, groups, hsplit, List.map_dropLast]

theorem length_groups (tokens : List (List Char)) :
    (groups tokens).length = tokens.count terminator := by
  rw [groups, List.length_dropLast, Text.length_split, Nat.add_sub_cancel, List.count]

theorem finish_some_eq_ok_iff : finish (some p) = .ok f ↔
    p.pending = #[] ∧ p.formula.clauses.size = p.declared ∧ p.formula = f := by
  by_cases hpending : p.pending = #[] <;>
    by_cases hsize : p.formula.clauses.size = p.declared <;>
      simp [finish, hpending, hsize]

namespace Progress.After

variable {f₀ : Formula}

theorem pending_eq_empty_iff (h : Progress.After ⟨f₀, m, #[]⟩ tokens p)
    (htokens : ∀ token ∈ tokens, IsToken n token) :
    p.pending = #[] ↔ ∀ token, tokens.getLast? = some token → token = Dimacs.terminator := by
  have hlast := getLast?_parts htokens []
  have hpending : (parts [] tokens).getLast? = some p.pending.toList := h.pending
  simpa [hpending] using hlast

theorem clauses_eq (h : Progress.After ⟨f₀, m, #[]⟩ tokens p) (hf₀ : f₀.clauses = #[]) :
    p.formula.clauses.toList.map Clause.literals =
      (groups tokens).map fun group => (literalsOf group).eraseDups := by
  have hclauses := h.clauses
  rw [hf₀] at hclauses
  simpa [dropLast_parts, Function.comp_def] using hclauses

theorem size_eq (h : Progress.After ⟨f₀, m, #[]⟩ tokens p) (hf₀ : f₀.clauses = #[]) :
    p.formula.clauses.size = tokens.count Dimacs.terminator := by
  simpa [length_groups] using congrArg List.length (h.clauses_eq hf₀)

theorem finish_eq_ok_iff (h : Progress.After ⟨f₀, m, #[]⟩ tokens p) (hf₀ : Formula.empty n = .ok f₀)
    (htokens : ∀ token ∈ tokens, IsToken n token) :
    finish (some p) = .ok f ↔ Denotes n m tokens f := by
  obtain ⟨hn, hvarCount, hclauses⟩ := Formula.empty_eq_ok_iff.1 hf₀
  have hdeclared : p.declared = m := h.declared
  have hscope : p.formula.varCount = n := h.varCount.trans hvarCount
  have hpending := h.pending_eq_empty_iff htokens
  have hsize := h.size_eq hclauses
  rw [finish_some_eq_ok_iff]
  constructor
  · rintro ⟨hp, hcount, rfl⟩
    exact ⟨hn, htokens, hpending.1 hp, by rw [← hsize, hcount, hdeclared], hscope,
      h.clauses_eq hclauses⟩
  · intro hf
    exact ⟨hpending.2 hf.ended, by rw [hsize, hf.count, hdeclared],
      Formula.eq_of_clauses (hscope.trans hf.varCount.symm)
        ((h.clauses_eq hclauses).trans hf.clauses.symm)⟩

end Progress.After

/-- The formula is the one that the tokens denote. -/
theorem denotes_iff : Denotes n m tokens f ↔ ∃ f₀ p, Formula.empty n = .ok f₀ ∧
    tokens.foldlM (readWord 0) ⟨f₀, m, #[]⟩ = .ok p ∧ finish (some p) = .ok f := by
  have hafter {f₀ : Formula} (hf₀ : Formula.empty n = .ok f₀)
      (htokens : ∀ token ∈ tokens, IsToken n token) :
      ∃ p, tokens.foldlM (readWord 0) ⟨f₀, m, #[]⟩ = .ok p ∧
        Progress.After ⟨f₀, m, #[]⟩ tokens p :=
    Progress.exists_after (fun _ hl => absurd hl List.not_mem_nil)
      ((Formula.empty_eq_ok_iff.1 hf₀).2.1 ▸ htokens)
  constructor
  · intro h
    obtain ⟨f₀, hf₀⟩ : ∃ f₀, Formula.empty n = .ok f₀ := ⟨_, dif_pos h.bound⟩
    obtain ⟨p, hp, hpAfter⟩ := hafter hf₀ h.isToken
    exact ⟨f₀, p, hf₀, hp, (hpAfter.finish_eq_ok_iff hf₀ h.isToken).2 h⟩
  · rintro ⟨f₀, p, hf₀, hp, hfinish⟩
    have htokens : ∀ token ∈ tokens, IsToken n token :=
      (Formula.empty_eq_ok_iff.1 hf₀).2.1 ▸ IsToken.of_foldlM hp
    obtain ⟨p', hp', hpAfter⟩ := hafter hf₀ htokens
    cases hp.symm.trans hp'
    exact (hpAfter.finish_eq_ok_iff hf₀ htokens).1 hfinish

/-! ## Reading lines -/

theorem startsWith_eq (c : Char) (text : List Char) :
    startsWith c text = ((Text.words text).head?.bind List.head? == some c) := by
  rw [startsWith, Text.head?_trim]

theorem isSignificant_eq (text : List Char) :
    isSignificant text = (!(Text.words text).isEmpty && !startsWith 'c' text) := by
  have hempty : (Text.trim text).isEmpty = (Text.words text).isEmpty := by
    rw [Bool.eq_iff_iff, List.isEmpty_iff, List.isEmpty_iff, Text.trim_eq_nil]
  rw [isSignificant, hempty]

section Lines

variable {line₀ : List UInt8} {rest : List (List UInt8)}

theorem statements?_cons_of_notUtf8 (h : Text.decode? line₀ = none) :
    statements? (line₀ :: rest) = none := by
  rw [statements?, List.takeWhile_cons_of_pos (by simp [isEnd, h]), List.mapM_cons, h]
  rfl

theorem statements?_cons (h : Text.decode? line₀ = some text) :
    statements? (line₀ :: rest) =
      if startsWith '%' text then some []
      else (statements? rest).map fun texts =>
        if isSignificant text then text :: texts else texts := by
  cases hend : startsWith '%' text with
  | true =>
      rw [statements?, List.takeWhile_cons_of_neg (by simp [isEnd, h, hend])]
      rfl
  | false =>
      rw [statements?, List.takeWhile_cons_of_pos (by simp [isEnd, h, hend]), List.mapM_cons, h,
        statements?]
      cases (rest.takeWhile fun line => !isEnd line).mapM Text.decode? with
      | none => rfl
      | some texts => simp [List.filter_cons]

theorem readLines_cons_of_notUtf8 (h : Text.decode? line₀ = none) :
    readLines name line progress (line₀ :: rest) = .error (.error (.source name .notUtf8)) := by
  rw [readLines, h]

theorem readLines_cons (h : Text.decode? line₀ = some text) :
    readLines name line progress (line₀ :: rest) =
      if startsWith '%' text then .ok progress
      else if isSignificant text then
        readStatement line (Text.words text) progress >>= fun p =>
          readLines name (line + 1) (some p) rest
      else readLines name (line + 1) progress rest := by
  rw [readLines, h, isSignificant_eq, startsWith_eq, startsWith_eq]
  dsimp only
  cases hwords : Text.words text with
  | nil => simp
  | cons word words =>
      obtain ⟨c, word, rfl⟩ := List.exists_cons_of_ne_nil
        (Text.ne_nil_of_mem_words (hwords ▸ List.mem_cons_self))
      by_cases hcomment : c = 'c'
      · simp [hcomment]
      · by_cases hend : c = '%'
        · simp [hend]
        · cases hstatement : readStatement line ((c :: word) :: words) progress <;>
            simp [hcomment, hend, hstatement, bind, Except.bind]

end Lines

theorem readStatement_eq_ok_iff {words : List (List Char)} :
    readStatement line words progress = .ok p ↔ readStatement 0 words progress = .ok p := by
  cases progress with
  | none => exact Iff.rfl
  | some p₀ =>
      simp only [readStatement]
      split
      · exact Iff.rfl
      · exact foldlM_eq_ok_iff (fun _ _ _ => by rw [readWord_eq_ok_iff, readWord_eq_ok_iff]) _ _ _

theorem readLines_eq_ok_iff (name : String) (lines : List (List UInt8)) (line : Nat)
    (progress q : Option Progress) : readLines name line progress lines = .ok q ↔
      ∃ texts, statements? lines = some texts ∧
        texts.foldlM (fun progress text => some <$> readStatement 0 (Text.words text) progress)
          progress = .ok q := by
  induction lines generalizing line progress with
  | nil => simp [readLines, statements?, pure, Except.pure]
  | cons line₀ rest ih =>
      cases hdecode : Text.decode? line₀ with
      | none => simp [readLines_cons_of_notUtf8 hdecode, statements?_cons_of_notUtf8 hdecode]
      | some text =>
          rw [readLines_cons hdecode, statements?_cons hdecode]
          cases startsWith '%' text with
          | true => simp [pure, Except.pure]
          | false =>
              cases isSignificant text with
              | false => simp [ih]
              | true =>
                  -- One side reads the statement before the rest is decoded, the other after.
                  simp only [Bool.false_eq_true, if_false, if_true, bind_eq_ok_iff,
                    readStatement_eq_ok_iff, ih, Option.map_eq_some_iff]
                  constructor
                  · rintro ⟨p, hp, texts, htexts, hfold⟩
                    refine ⟨_, ⟨texts, htexts, rfl⟩, ?_⟩
                    rw [List.foldlM_cons, hp]
                    exact hfold
                  · rintro ⟨_, ⟨texts, htexts, rfl⟩, hfold⟩
                    rw [List.foldlM_cons] at hfold
                    obtain ⟨_, hstep, hfold⟩ := bind_eq_ok_iff.1 hfold
                    obtain ⟨p, hp, rfl⟩ := map_eq_ok_iff.1 hstep
                    exact ⟨p, hp, texts, htexts, hfold⟩

theorem readProblem_eq_ok_iff {words : List (List Char)} : readProblem words = .ok (n, m) ↔
    ∃ varCount clauseCount, words = [['p'], ['c', 'n', 'f'], varCount, clauseCount] ∧
      Text.readDecimal varCount = .ok n ∧ Text.readDecimal clauseCount = .ok m := by
  constructor
  · intro h
    unfold readProblem at h
    split at h
    · split at h
      · cases h
        exact ⟨_, _, rfl, ‹_›, ‹_›⟩
      · cases h
    · cases h
  · rintro ⟨varCount, clauseCount, rfl, hn, hm⟩
    simp [readProblem, hn, hm]

theorem readStatement_none_eq_ok_iff {words : List (List Char)} :
    readStatement line words none = .ok p ↔
      ∃ n m f₀, readProblem words = .ok (n, m) ∧ Formula.empty n = .ok f₀ ∧ p = ⟨f₀, m, #[]⟩ := by
  constructor
  · intro h
    simp only [readStatement] at h
    split at h
    · obtain ⟨⟨n, m⟩, hproblem, h⟩ := bind_eq_ok_iff.1 h
      obtain ⟨f₀, hf₀, h⟩ := bind_eq_ok_iff.1 h
      cases h
      exact ⟨n, m, f₀, Failure.ofError_eq_ok_iff.1 hproblem, Failure.ofFault_eq_ok_iff.1 hf₀, rfl⟩
    · cases h
  · rintro ⟨n, m, f₀, hproblem, hf₀, rfl⟩
    obtain ⟨varCount, clauseCount, rfl, -, -⟩ := readProblem_eq_ok_iff.1 hproblem
    simp [readStatement, hproblem, hf₀, Failure.ofError, Failure.ofFault, bind, Except.bind, pure,
      Except.pure]

theorem readStatement_some : readStatement line (Text.words text) (some p) =
    if startsWith 'p' text then .error (.error .malformedProblem)
    else (Text.words text).foldlM (readWord line) p := by
  simp only [readStatement, startsWith_eq, beq_iff_eq]

/-- Behind the problem line there are words only, and no other problem line. -/
theorem foldlM_readStatement_eq_ok_iff {texts : List (List Char)} {q : Option Progress} :
    texts.foldlM (fun progress text => some <$> readStatement 0 (Text.words text) progress)
        (some p) = .ok q ↔
      (∀ text ∈ texts, startsWith 'p' text = false) ∧
        ∃ p', (texts.flatMap Text.words).foldlM (readWord 0) p = .ok p' ∧ q = some p' := by
  induction texts generalizing p with
  | nil => simpa [pure, Except.pure] using eq_comm
  | cons text texts ih =>
      rw [List.foldlM_cons, List.flatMap_cons, List.foldlM_append, List.forall_mem_cons,
        readStatement_some]
      cases startsWith 'p' text with
      | true =>
          constructor
          · intro h
            cases h
          · rintro ⟨⟨h, -⟩, -⟩
            cases h
      | false =>
          cases (Text.words text).foldlM (readWord 0) p with
          | error e =>
              constructor
              · intro h
                cases h
              · rintro ⟨-, p', h, -⟩
                cases h
          | ok p₁ => exact ih.trans (and_congr_left' (by simp))

/-- Lines are read when there is nothing in them, or when they have a layout whose tokens are read. -/
theorem readLines_none_eq_ok_iff {q : Option Progress} :
    readLines name line none (Text.lines bytes) = .ok q ↔
      (statements? (Text.lines bytes) = some [] ∧ q = none) ∨
        ∃ n m tokens f₀ p, Layout bytes n m tokens ∧ Formula.empty n = .ok f₀ ∧
          tokens.foldlM (readWord 0) ⟨f₀, m, #[]⟩ = .ok p ∧ q = some p := by
  rw [readLines_eq_ok_iff]
  constructor
  · rintro ⟨texts, htexts, hfold⟩
    cases texts with
    | nil =>
        cases hfold
        exact .inl ⟨htexts, rfl⟩
    | cons problem rest =>
        rw [List.foldlM_cons] at hfold
        obtain ⟨_, hstep, hfold⟩ := bind_eq_ok_iff.1 hfold
        obtain ⟨_, hstatement, rfl⟩ := map_eq_ok_iff.1 hstep
        obtain ⟨n, m, f₀, hproblem, hf₀, rfl⟩ := readStatement_none_eq_ok_iff.1 hstatement
        obtain ⟨varCount, clauseCount, hwords, hn, hm⟩ := readProblem_eq_ok_iff.1 hproblem
        obtain ⟨hstart, p, hread, rfl⟩ := foldlM_readStatement_eq_ok_iff.1 hfold
        exact .inr ⟨n, m, _, f₀, p,
          ⟨problem, rest, varCount, clauseCount, htexts, hwords, hn, hm, hstart, rfl⟩, hf₀, hread,
          rfl⟩
  · rintro (⟨htexts, rfl⟩ | ⟨n, m, _, f₀, p,
      ⟨problem, rest, varCount, clauseCount, htexts, hwords, hn, hm, hstart, rfl⟩, hf₀, hread, rfl⟩)
    · exact ⟨[], htexts, rfl⟩
    · have hproblem := readProblem_eq_ok_iff.2 ⟨varCount, clauseCount, hwords, hn, hm⟩
      refine ⟨problem :: rest, htexts, ?_⟩
      rw [List.foldlM_cons, bind_eq_ok_iff]
      exact ⟨_, map_eq_ok_iff.2
          ⟨_, readStatement_none_eq_ok_iff.2 ⟨n, m, f₀, hproblem, hf₀, rfl⟩, rfl⟩,
        foldlM_readStatement_eq_ok_iff.2 ⟨hstart, p, hread, rfl⟩⟩

/-- Bytes are read as the formula that their tokens denote. -/
theorem read_eq_ok_iff (name : String) (bytes : List UInt8) (f : Formula) :
    read name bytes = .ok f ↔ ∃ n m tokens, Layout bytes n m tokens ∧ Denotes n m tokens f := by
  simp only [read, bind_eq_ok_iff, Failure.ofError_eq_ok_iff, readLines_none_eq_ok_iff, denotes_iff]
  constructor
  · rintro ⟨q, ⟨-, rfl⟩ | ⟨n, m, tokens, f₀, p, hlayout, hf₀, hread, rfl⟩, hfinish⟩
    · cases hfinish
    · exact ⟨n, m, tokens, hlayout, f₀, p, hf₀, hread, hfinish⟩
  · rintro ⟨n, m, tokens, hlayout, f₀, p, hf₀, hread, hfinish⟩
    exact ⟨some p, .inr ⟨n, m, tokens, f₀, p, hlayout, hf₀, hread, rfl⟩, hfinish⟩

theorem Layout.read_eq_ok_iff (h : Layout bytes n m tokens) (name : String) (f : Formula) :
    read name bytes = .ok f ↔ Denotes n m tokens f := by
  rw [Dimacs.read_eq_ok_iff]
  constructor
  · rintro ⟨n', m', tokens', h', hf⟩
    obtain ⟨rfl, rfl, rfl⟩ := h.unique h'
    exact hf
  · exact fun hf => ⟨n, m, tokens, h, hf⟩

/-- The reader accepts the bytes with a layout whose tokens denote a formula, and no others. How the
tokens stand on lines, and what blank lines and comments are between them, is nothing to it. -/
theorem read_accepts_grammar (name : String) (bytes : List UInt8) (f : Formula) :
    (read name bytes = .ok f ↔ ∃ n m tokens, Layout bytes n m tokens ∧ Denotes n m tokens f) ∧
      ∀ n m tokens, Layout bytes n m tokens → ∀ name' bytes', Layout bytes' n m tokens →
        (read name bytes = .ok f ↔ read name' bytes' = .ok f) :=
  ⟨read_eq_ok_iff name bytes f, fun _ _ _ h name' _ h' =>
    (h.read_eq_ok_iff name f).trans (h'.read_eq_ok_iff name' f).symm⟩

namespace Sample

def together : List UInt8 := "p cnf 2 2\n1 -2 1 0 2 0\n".toUTF8.toList

def apart : List UInt8 := "c again\np cnf 2 +2\n1 -2\n\n1 0 2\nc end\n0\n%\n3".toUTF8.toList

def sequence : List (List Char) := [['1'], ['-', '2'], ['1'], ['0'], ['2'], ['0']]

theorem layout_together : Layout together 2 2 sequence :=
  ⟨"p cnf 2 2".toList, ["1 -2 1 0 2 0".toList], ['2'], ['2'], by decide +kernel, by decide,
    by decide, by decide, by decide, by decide⟩

theorem layout_apart : Layout apart 2 2 sequence :=
  ⟨"p cnf 2 +2".toList, ["1 -2".toList, "1 0 2".toList, "0".toList], ['2'], ['+', '2'],
    by decide +kernel, by decide, by decide, by decide, by decide, by decide⟩

end Sample

theorem read_accepts_grammar_sample : ∃ f,
    read "together" Sample.together = .ok f ∧ read "apart" Sample.apart = .ok f ∧
      f.clauses.toList.map (fun c => c.literals.map Literal.toInt) = [[1, -2], [2]] := by
  have hread : ((read "together" Sample.together).toOption.map fun f =>
      f.clauses.toList.map fun c => c.literals.map Literal.toInt) = some [[1, -2], [2]] := by
    decide +kernel
  cases hf : read "together" Sample.together with
  | error e => simp [hf, Except.toOption] at hread
  | ok f =>
      refine ⟨f, rfl, ?_, by simpa [hf, Except.toOption] using hread⟩
      exact ((read_accepts_grammar "together" Sample.together f).2 2 2 Sample.sequence
        Sample.layout_together "apart" Sample.apart Sample.layout_apart).1 hf

end Dimacs

end ClauseLearning
