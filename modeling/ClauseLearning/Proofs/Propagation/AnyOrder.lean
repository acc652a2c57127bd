import Mathlib
import ClauseLearning.Proofs.Literal

/-!
# Unit propagation in any order

As long as some clause has a last literal that is not false, this literal becomes true. No order of
such steps goes on for ever. If one order comes to an end without a falsified clause, every order
does, and they all end with the same true literals.
-/

namespace ClauseLearning.UnitPropagation

variable {D : Set (List Literal)} {A A' B C S : Set Literal} {c : List Literal} {l : Literal}

/-! ## Steps -/

/-- All literals of the clause are false where those of the set are true. -/
def Falsified (A : Set Literal) (c : List Literal) : Prop := ∀ l ∈ c, l.negate ∈ A

/-- The literal is the last one of the clause that is not false. -/
structure LastOpen (A : Set Literal) (c : List Literal) (l : Literal) : Prop where
  mem : l ∈ c
  others : ∀ m ∈ c, m ≠ l → m.negate ∈ A
  notFalse : l.negate ∉ A

/-- The last literal of a clause that is not false becomes true. -/
inductive Step (D : Set (List Literal)) (A : Set Literal) : Set Literal → Prop where
  | force {c : List Literal} {l : Literal} : c ∈ D → LastOpen A c l → l ∉ A → Step D A (insert l A)

/-- Steps from the first set lead to the second. -/
abbrev Steps (D : Set (List Literal)) : Set Literal → Set Literal → Prop :=
  Relation.ReflTransGen (Step D)

/-- Steps from the first set lead to the second, where none is left. -/
structure Exhausts (D : Set (List Literal)) (A B : Set Literal) : Prop where
  steps : Steps D A B
  final : ∀ C, ¬ Step D B C

theorem Falsified.mono (h : Falsified A c) (hAB : A ⊆ B) : Falsified B c :=
  fun l hl => hAB (h l hl)

theorem Step.subset (h : Step D A B) : A ⊆ B := by
  cases h with
  | force => exact Set.subset_insert _ _

theorem Steps.subset (h : Steps D A B) : A ⊆ B := by
  induction h with
  | refl => exact subset_rfl
  | tail _ hstep ih => exact ih.trans hstep.subset

/-! ## Independence of the order -/

/-- A set that steps lead nowhere from and that falsifies no clause bounds the steps below it. -/
theorem Step.subset_of_final (hstep : Step D A A') (hAB : A ⊆ B) (hfinal : ∀ C, ¬ Step D B C)
    (hB : ∀ c ∈ D, ¬ Falsified B c) : A' ⊆ B := by
  cases hstep with
  | @force c l hc hopen hl =>
    refine Set.insert_subset ?_ hAB
    by_contra hlB
    have hothers : ∀ m ∈ c, m ≠ l → m.negate ∈ B := fun m hm hne => hAB (hopen.others m hm hne)
    -- In the larger set the clause is falsified, or its last literal is still open and has to be true.
    by_cases hfalse : l.negate ∈ B
    · apply hB c hc
      intro m hm
      by_cases hml : m = l
      · exact hml ▸ hfalse
      · exact hothers m hm hml
    · exact hfinal _ (.force hc ⟨hopen.mem, hothers, hfalse⟩ hlB)

theorem Steps.subset_of_exhausts (h : Steps D A A') (hB : Exhausts D A B)
    (hclean : ∀ c ∈ D, ¬ Falsified B c) : A' ⊆ B := by
  induction h with
  | refl => exact hB.steps.subset
  | tail _ hstep ih => exact hstep.subset_of_final ih hB.final hclean

/-- Where one order ends without a falsified clause, no other falsifies one. -/
theorem Exhausts.not_falsified (hB : Exhausts D A B) (hclean : ∀ c ∈ D, ¬ Falsified B c)
    (h : Steps D A C) : ∀ c ∈ D, ¬ Falsified C c :=
  fun c hc hfalse => hclean c hc (hfalse.mono (h.subset_of_exhausts hB hclean))

theorem Exhausts.unique (hB : Exhausts D A B) (hclean : ∀ c ∈ D, ¬ Falsified B c)
    (hC : Exhausts D A C) : C = B := by
  apply Set.Subset.antisymm
  · exact hC.steps.subset_of_exhausts hB hclean
  · exact hB.steps.subset_of_exhausts hC (hB.not_falsified hclean hC.steps)

/-- Once one order has falsified a clause, every order ends with a falsified clause. -/
theorem Exhausts.exists_falsified (hB : Exhausts D A B) (h : Steps D A C) (hc : c ∈ D)
    (hfalse : Falsified C c) : ∃ d ∈ D, Falsified B d := by
  by_contra hclean
  simp only [not_exists, not_and] at hclean
  exact hB.not_falsified hclean h c hc hfalse

/-! ## Termination -/

theorem Step.ncard_lt (h : Step D A B) (hS : S.Finite) (hD : ∀ c ∈ D, ∀ l ∈ c, l ∈ S) :
    (S \ B).ncard < (S \ A).ncard := by
  cases h with
  | @force c l hc hopen hl =>
    apply Set.ncard_lt_ncard
    · refine ⟨Set.sdiff_subset_sdiff_right (Set.subset_insert _ _), fun hsub => ?_⟩
      have hmem : l ∈ S \ A := ⟨hD c hc l hopen.mem, hl⟩
      exact (hsub hmem).2 (Set.mem_insert _ _)
    · exact hS.sdiff

theorem wellFounded_step (hS : S.Finite) (hD : ∀ c ∈ D, ∀ l ∈ c, l ∈ S) :
    WellFounded fun B A => Step D A B := by
  refine Subrelation.wf (fun {B A} h => ?_) (measure fun A => (S \ A).ncard).wf
  exact Step.ncard_lt h hS hD

theorem exists_exhausts (hwf : WellFounded fun B A => Step D A B) (A : Set Literal) :
    ∃ B, Exhausts D A B := by
  induction A using hwf.induction with
  | h A ih =>
    by_cases hstep : ∃ B, Step D A B
    · obtain ⟨B, hB⟩ := hstep
      obtain ⟨C, hC⟩ := ih B hB
      exact ⟨C, .head hB hC.steps, hC.final⟩
    · exact ⟨A, .refl, fun B hB => hstep ⟨B, hB⟩⟩

end ClauseLearning.UnitPropagation
