import Mathlib
import ClauseLearning.Proofs.Restart.Intervals
import ClauseLearning.Proofs.Text.Decimal

/-!
# The written form of a policy

A policy is read from its kind and a positive number with a colon between them. The number may have a
plus sign and leading zeros; a policy is written without them, and what is written is read back.
-/

namespace ClauseLearning.Restart.Policy

open Text

variable {text name : String} {kind number : List Char} {n : UInt64} {p : Policy} {e : ParseError}

/-- The name of the kind of a policy, with the parameter, if there is one. -/
def kind? : Policy → Option (String × UInt64)
  | .never => none
  | .fixed interval => some ("fixed", interval)
  | .geometric first => some ("geometric", first)
  | .luby unit => some ("luby", unit)

/-- The text stands for the policy. -/
inductive Denotes : String → Policy → Prop
  | never : Denotes "never" .never
  | interval {text name : String} {number : List Char} {n : UInt64} {p : Policy} :
      p.kind? = some (name, n) → text.toList = name.toList ++ ':' :: number →
      IsUnsigned number n.toNat → 0 < n.toNat → Denotes text p

/-- Why a text stands for no policy. The part behind the first colon counts before the kind. -/
inductive Misread : String → ParseError → Prop
  | noColon {text : String} : ':' ∉ text.toList → text ≠ "never" →
      Misread text (.unknownPolicy text)
  | noNumber {text : String} {kind number : List Char} {cause : DecimalError} :
      text.toList = kind ++ ':' :: number → ':' ∉ kind → readDecimal number = .error cause →
      Misread text (.invalidInterval text cause)
  | zero {text : String} {kind number : List Char} : text.toList = kind ++ ':' :: number →
      ':' ∉ kind → IsUnsigned number 0 → Misread text (.zeroInterval text)
  | noKind {text : String} {kind number : List Char} {n : UInt64} :
      text.toList = kind ++ ':' :: number → ':' ∉ kind → IsUnsigned number n.toNat → 0 < n.toNat →
      String.ofList kind ∉ ["fixed", "geometric", "luby"] → Misread text (.unknownPolicy text)

/-! ## Kinds -/

theorem eq_toList_iff : kind = name.toList ↔ name = String.ofList kind := by
  rw [← String.toList_inj, String.toList_ofList, eq_comm]

theorem ofKind?_eq_some_iff :
    ofKind? kind n = some p ↔ p.kind? = some (String.ofList kind, n) := by
  cases p <;> simp only [ofKind?, eq_toList_iff, kind?] <;> grind

theorem ofKind?_eq_none_iff :
    ofKind? kind n = none ↔ String.ofList kind ∉ ["fixed", "geometric", "luby"] := by
  simp only [ofKind?, eq_toList_iff]
  grind

theorem colon_notMem_of_kind? (h : p.kind? = some (name, n)) : ':' ∉ name.toList := by
  cases p <;> cases h <;> decide

theorem isPositive_iff_of_kind? (h : p.kind? = some (name, n)) : p.IsPositive ↔ 0 < n.toNat := by
  cases p <;> cases h <;> rfl

theorem eq_never_of_kind? (h : p.kind? = none) : p = .never := by
  cases p with
  | never => rfl
  | fixed _ => cases h
  | geometric _ => cases h
  | luby _ => cases h

/-! ## Reading -/

theorem takeWhile_cut (hkind : ':' ∉ kind) :
    (kind ++ ':' :: number).takeWhile (· ≠ ':') = kind := by
  rw [List.takeWhile_append_of_pos fun c hc => decide_eq_true (ne_of_mem_of_not_mem hc hkind)]
  simp

theorem dropWhile_cut (hkind : ':' ∉ kind) :
    (kind ++ ':' :: number).dropWhile (· ≠ ':') = ':' :: number := by
  rw [List.dropWhile_append_of_pos fun c hc => decide_eq_true (ne_of_mem_of_not_mem hc hkind)]
  simp

theorem ne_never_of_cut (htext : text.toList = kind ++ ':' :: number) : text ≠ "never" := by
  rintro rfl
  have hmem : ':' ∈ "never".toList := by simp [htext]
  revert hmem
  decide

theorem denotes_of_cut (htext : text.toList = kind ++ ':' :: number) (hkind : ':' ∉ kind) :
    Denotes text p ↔ ∃ n : UInt64, IsUnsigned number n.toNat ∧ 0 < n.toNat ∧
      p.kind? = some (String.ofList kind, n) := by
  constructor
  · intro h
    cases h with
    | never => exact absurd rfl (ne_never_of_cut htext)
    | @interval _ name number' n _ hname htext' hnumber hpos =>
        have hcut : kind ++ ':' :: number = name.toList ++ ':' :: number' := htext.symm.trans htext'
        have hprefix := congrArg (List.takeWhile (· ≠ ':')) hcut
        rw [takeWhile_cut hkind, takeWhile_cut (colon_notMem_of_kind? hname)] at hprefix
        subst hprefix
        cases List.append_cancel_left hcut
        rw [String.ofList_toList]
        exact ⟨n, hnumber, hpos, hname⟩
  · rintro ⟨n, hnumber, hpos, hname⟩
    exact .interval hname (by rw [String.toList_ofList, htext]) hnumber hpos

/-- Behind a positive number only the kind counts. -/
theorem parse_of_cut (htext : text.toList = kind ++ ':' :: number) (hkind : ':' ∉ kind)
    (hnumber : IsUnsigned number n.toNat) (hpos : 0 < n.toNat) :
    parse text = (ofKind? kind n).elim (.error (.unknownPolicy text)) .ok := by
  have hread := readDecimal_eq_ok_iff.2 ⟨n.toNat_lt, hnumber⟩
  obtain ⟨m, hm⟩ := Nat.exists_eq_succ_of_ne_zero hpos.ne'
  have hword : UInt64.ofNat (m + 1) = n := by
    rw [← Nat.succ_eq_add_one, ← hm, UInt64.ofNat_toNat]
  rw [hm] at hread
  simp only [parse, if_neg (ne_never_of_cut htext), htext, dropWhile_cut hkind, takeWhile_cut hkind,
    hread, hword]
  cases ofKind? kind n <;> rfl

theorem Denotes.parse_eq (h : Denotes text p) : parse text = .ok p := by
  cases h with
  | never => rfl
  | interval hname htext hnumber hpos =>
      rw [parse_of_cut htext (colon_notMem_of_kind? hname) hnumber hpos,
        ofKind?_eq_some_iff.2 (by rw [String.ofList_toList, hname]), Option.elim_some]

theorem Misread.parse_eq (h : Misread text e) : parse text = .error e := by
  cases h with
  | noColon hcolon hnever =>
      have hnil : text.toList.dropWhile (· ≠ ':') = [] := by
        rw [List.dropWhile_eq_nil_iff]
        exact fun c hc => decide_eq_true (ne_of_mem_of_not_mem hc hcolon)
      simp only [parse, if_neg hnever, hnil]
  | noNumber htext hkind hread =>
      simp only [parse, if_neg (ne_never_of_cut htext), htext, dropWhile_cut hkind, hread]
  | zero htext hkind hnumber =>
      have hread := readDecimal_eq_ok_iff.2 ⟨by decide, hnumber⟩
      simp only [parse, if_neg (ne_never_of_cut htext), htext, dropWhile_cut hkind, hread]
  | noKind htext hkind hnumber hpos hname =>
      rw [parse_of_cut htext hkind hnumber hpos, ofKind?_eq_none_iff.2 hname, Option.elim_none]

/-- A text stands for a policy, or there is a reason why it does not. -/
theorem denotes_or_misread (text : String) : (∃ p, Denotes text p) ∨ ∃ e, Misread text e := by
  by_cases hcolon : ':' ∈ text.toList
  · obtain ⟨kind, number, htext, hkind⟩ := List.eq_append_cons_of_mem hcolon
    cases hread : readDecimal number with
    | error cause => exact .inr ⟨_, .noNumber htext hkind hread⟩
    | ok m =>
        obtain ⟨hlimit, hnumber⟩ := readDecimal_eq_ok_iff.1 hread
        obtain ⟨n, rfl⟩ : ∃ n : UInt64, n.toNat = m := ⟨.ofNat m, UInt64.toNat_ofNat_of_lt' hlimit⟩
        rcases Nat.eq_zero_or_pos n.toNat with hzero | hpos
        · rw [hzero] at hnumber
          exact .inr ⟨_, .zero htext hkind hnumber⟩
        · cases hof : ofKind? kind n with
          | some p =>
              refine .inl ⟨p, (denotes_of_cut htext hkind).2 ⟨n, hnumber, hpos, ?_⟩⟩
              exact ofKind?_eq_some_iff.1 hof
          | none =>
              exact .inr ⟨_, .noKind htext hkind hnumber hpos (ofKind?_eq_none_iff.1 hof)⟩
  · by_cases hnever : text = "never"
    · exact .inl ⟨.never, hnever ▸ .never⟩
    · exact .inr ⟨_, .noColon hcolon hnever⟩

/-- A text is read as the policy that it stands for, and not at all if it stands for none. -/
theorem parse_eq_ok_iff : parse text = .ok p ↔ Denotes text p := by
  refine ⟨fun h => ?_, Denotes.parse_eq⟩
  obtain ⟨p', hp'⟩ | ⟨e, he⟩ := denotes_or_misread text
  · rw [hp'.parse_eq] at h
    cases h
    exact hp'
  · rw [he.parse_eq] at h
    cases h

/-! ## Writing -/

theorem toList_render (h : p.kind? = some (name, n)) :
    p.render.toList = name.toList ++ ':' :: Nat.toDigits 10 n.toNat := by
  have hnumber : ∀ before : String, (before ++ toString n.toNat).toList =
      before.toList ++ Nat.toDigits 10 n.toNat := by
    intro before
    rw [String.toList_append, Nat.toString_eq_repr, Nat.toList_repr]
  cases p <;> cases h <;> exact hnumber _

/-- What is written stands for the policy, unless its parameter is zero. -/
theorem denotes_render_iff : Denotes p.render p ↔ p.IsPositive := by
  cases hkind : p.kind? with
  | none =>
      rw [eq_never_of_kind? hkind]
      exact ⟨fun _ => trivial, fun _ => .never⟩
  | some named =>
      obtain ⟨name, n⟩ := named
      rw [denotes_of_cut (toList_render hkind) (colon_notMem_of_kind? hkind), String.ofList_toList,
        isPositive_iff_of_kind? hkind]
      constructor
      · rintro ⟨m, -, hpos, hm⟩
        rw [hkind] at hm
        cases hm
        exact hpos
      · intro hpos
        exact ⟨n, .bare (isNumeral_toDigits n.toNat), hpos, hkind⟩

theorem Denotes.isPositive (h : Denotes text p) : p.IsPositive := by
  cases h with
  | never => trivial
  | interval hkind _ _ hpos => exact (isPositive_iff_of_kind? hkind).2 hpos

/-- Exactly the texts that stand for a policy are read, as this policy. A policy is read back as it is
written exactly if its parameter is not zero, so to write and read again what was read changes nothing. -/
theorem parse_reads_policies :
    (∀ text p, parse text = .ok p ↔ Denotes text p) ∧
      (∀ p : Policy, parse p.render = .ok p ↔ p.IsPositive) ∧
      ∀ text, (parse text >>= fun p => parse p.render) = parse text := by
  have hrender : ∀ p : Policy, parse p.render = .ok p ↔ p.IsPositive := fun p =>
    parse_eq_ok_iff.trans denotes_render_iff
  refine ⟨fun text p => parse_eq_ok_iff, hrender, fun text => ?_⟩
  cases hread : parse text with
  | error cause => rfl
  | ok p => exact (hrender p).2 (parse_eq_ok_iff.1 hread).isPositive

end ClauseLearning.Restart.Policy
