import Mathlib
import ClauseLearning.Model
import ClauseLearning.Proofs.Dimacs.Integers

/-!
# The written form of an assignment

A model is written as one integer for each variable, with a single space between two of them. Read
one by one as literals they give the assignment back.
-/

namespace ClauseLearning

open Text

variable {v : Variable}

/-! ## Texts with single spaces -/

/-- The parts of a text between single spaces. An empty text has none. -/
def Text.spaced (text : String) : List (List Char) :=
  if text = "" then [] else text.toList.splitOn ' '

theorem Text.intercalate_ne_empty {separator part : String} (parts : List String)
    (hpart : part ≠ "") : separator.intercalate (part :: parts) ≠ "" := by
  cases parts with
  | nil => rwa [String.intercalate_singleton]
  | cons next parts =>
      rw [String.intercalate_cons_cons]
      intro h
      simp only [String.append_eq_empty_iff] at h
      exact hpart h.1.1

theorem Text.spaced_intercalate {parts : List String} (hne : ∀ part ∈ parts, part ≠ "")
    (hspace : ∀ part ∈ parts, ' ' ∉ part.toList) :
    spaced (" ".intercalate parts) = parts.map String.toList := by
  cases parts with
  | nil => rfl
  | cons part parts =>
      have htext : " ".intercalate (part :: parts) ≠ "" :=
        intercalate_ne_empty parts (hne part List.mem_cons_self)
      rw [spaced, if_neg htext, String.toList_intercalate]
      apply List.splitOn_intercalate
      · simpa using hspace
      · simp

/-! ## Literals as written numbers -/

namespace Model

variable {m m' : Model}

theorem toList_renderSigned (value : Bool) (index : Nat) : (renderSigned value index).toList =
    if value then Nat.toDigits 10 (index + 1) else '-' :: Nat.toDigits 10 (index + 1) := by
  cases value with
  | true => simp [renderSigned]
  | false =>
      simp only [renderSigned, Bool.false_eq_true, if_false, String.toList_append,
        Nat.toString_eq_repr, Nat.toList_repr]
      rfl

theorem renderSigned_ne_empty (value : Bool) (index : Nat) : renderSigned value index ≠ "" := by
  intro h
  have htext := toList_renderSigned value index
  rw [h] at htext
  cases value with
  | true => exact Nat.toDigits_ne_nil htext.symm
  | false => cases htext

theorem space_notMem_renderSigned (value : Bool) (index : Nat) :
    ' ' ∉ (renderSigned value index).toList := by
  have hdigits : ' ' ∉ Nat.toDigits 10 (index + 1) := fun h => by
    cases (isNumeral_toDigits (index + 1)).isDigit ' ' h
  rw [toList_renderSigned]
  cases value with
  | true => exact hdigits
  | false => simpa using hdigits

theorem renderSigned_eq_toString (v : Variable) (value : Bool) :
    renderSigned value v.index = toString (Literal.mk v value).toInt := by
  cases value <;> rfl

theorem parse_renderSigned (v : Variable) (value : Bool) :
    Literal.parse (renderSigned value v.index).toList = .ok ⟨v, value⟩ := by
  have hnumeral : IsNumeral (Nat.toDigits 10 v.id) v.id := isNumeral_toDigits v.id
  rw [Literal.parse_eq_ok_iff, toList_renderSigned]
  left
  cases value with
  | true => exact .unsigned (.bare hnumeral)
  | false => exact .minus hnumeral

/-! ## The parts of a written model -/

theorem spaced_renderLiterals (m : Model) : spaced m.renderLiterals =
    (m.values.toList.mapIdx fun index value => renderSigned value index).map String.toList := by
  rw [renderLiterals, spaced_intercalate]
  · intro part hpart
    obtain ⟨index, -, rfl⟩ := List.mem_mapIdx.1 hpart
    exact renderSigned_ne_empty _ index
  · intro part hpart
    obtain ⟨index, -, rfl⟩ := List.mem_mapIdx.1 hpart
    exact space_notMem_renderSigned _ index

theorem length_spaced_renderLiterals (m : Model) :
    (spaced m.renderLiterals).length = m.formula.varCount := by
  rw [spaced_renderLiterals, List.length_map, List.length_mapIdx, Array.length_toList, m.size_values]

theorem getElem?_values (hv : v.index < m.formula.varCount) :
    m.values[v.index]? = some (m.value v) := by
  have hsize : v.index < m.values.size := m.size_values.symm ▸ hv
  rw [value, Array.getElem?_eq_getElem hsize, Option.getD_some]

theorem getElem?_spaced_renderLiterals (hv : v.index < m.formula.varCount) :
    (spaced m.renderLiterals)[v.index]? = some (renderSigned (m.value v) v.index).toList := by
  rw [spaced_renderLiterals, List.getElem?_map, List.getElem?_mapIdx, Array.getElem?_toList,
    getElem?_values hv]
  rfl

theorem renderLiterals_eq_empty_iff (m : Model) :
    m.renderLiterals = "" ↔ m.formula.varCount = 0 := by
  rw [← length_spaced_renderLiterals, List.length_eq_zero_iff]
  constructor
  · intro h
    rw [spaced, if_pos h]
  · intro h
    by_contra hne
    rw [spaced, if_neg hne] at h
    exact List.splitOn_ne_nil _ _ h

theorem varCount_eq_of_renderLiterals (h : m'.renderLiterals = m.renderLiterals) :
    m'.formula.varCount = m.formula.varCount := by
  rw [← length_spaced_renderLiterals, h, length_spaced_renderLiterals]

/-- What is written for a variable is read as its true literal, so it tells the value. -/
theorem value_eq_of_renderLiterals (h : m'.renderLiterals = m.renderLiterals)
    (hv : v.index < m.formula.varCount) : m'.value v = m.value v := by
  have hv' : v.index < m'.formula.varCount := varCount_eq_of_renderLiterals h ▸ hv
  have hpart : (renderSigned (m'.value v) v.index).toList =
      (renderSigned (m.value v) v.index).toList := by
    rw [← Option.some.injEq, ← getElem?_spaced_renderLiterals hv, ←
      getElem?_spaced_renderLiterals hv', h]
  have hread : Except.ok (ε := Variable.ParseError) (Literal.mk v (m'.value v)) =
      .ok ⟨v, m.value v⟩ := by
    rw [← parse_renderSigned, hpart, parse_renderSigned]
  simpa using hread

theorem values_eq_of_renderLiterals (h : m'.renderLiterals = m.renderLiterals) :
    m'.values = m.values := by
  have hsize : m'.values.size = m.values.size := by
    rw [m'.size_values, m.size_values, varCount_eq_of_renderLiterals h]
  apply Array.ext hsize
  intro index hindex' hindex
  have hcount : index < m.formula.varCount := m.size_values ▸ hindex
  have hcount' : index < m'.formula.varCount := m'.size_values ▸ hindex'
  let v : Variable := ⟨index, Nat.lt_of_lt_of_le hcount m.formula.varCount_le⟩
  have hvalue : m'.value v = m.value v := value_eq_of_renderLiterals h hcount
  rw [← Option.some.injEq, ← Array.getElem?_eq_getElem, ← Array.getElem?_eq_getElem]
  calc m'.values[v.index]? = some (m'.value v) := getElem?_values hcount'
    _ = some (m.value v) := by rw [hvalue]
    _ = m.values[v.index]? := (getElem?_values hcount).symm

/-- A model of no variable is written as the empty text. In general there is one part for each
variable: the integer that stands for its true literal, which is read as that literal. So models are
written alike only if their values are the same. -/
theorem renderLiterals_decodes (m : Model) :
    (m.renderLiterals = "" ↔ m.formula.varCount = 0) ∧
      (spaced m.renderLiterals).length = m.formula.varCount ∧
      (∀ i : Fin m.formula.varCount, ∃ l : Literal,
        (spaced m.renderLiterals)[i.val]? = some (toString l.toInt).toList ∧
          Literal.parse (toString l.toInt).toList = .ok l ∧
          l.var.index = i ∧ l.eval (m.value l.var) = true) ∧
      ∀ m' : Model, m'.renderLiterals = m.renderLiterals ↔ m'.values = m.values := by
  refine ⟨renderLiterals_eq_empty_iff m, length_spaced_renderLiterals m, ?_, ?_⟩
  · intro i
    let v : Variable := ⟨i, Nat.lt_of_lt_of_le i.isLt m.formula.varCount_le⟩
    refine ⟨⟨v, m.value v⟩, ?_, ?_, rfl, ?_⟩
    · rw [← renderSigned_eq_toString]
      exact getElem?_spaced_renderLiterals (v := v) i.isLt
    · rw [← renderSigned_eq_toString]
      exact parse_renderSigned v _
    · exact Literal.holds_iff.2 rfl
  · intro m'
    constructor
    · exact values_eq_of_renderLiterals
    · intro h
      rw [renderLiterals, h, renderLiterals]

end Model

end ClauseLearning
