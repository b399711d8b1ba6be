import Mathlib.InformationTheory.Hamming
import Mathlib.Algebra.BigOperators.Group.Finset.Basic
import Mathlib.Algebra.Order.BigOperators.Group.Finset
import Mathlib.Tactic.Common

/-!
# Product codes

A matrix whose rows are words of one code and whose columns are words of another. `CorrectsOne` says
of a decoder that it takes a word with one wrong place at most back to the word of the code, and
nothing of what it does with others: it may add errors to them. If a pass over the columns finds two
wrong places or more in one column only, it leaves errors in no other, and then there is one in each
row at most for the pass over the rows (`decodeRows_decodeColumns`). That is so for errors in one
column (`card_column_le_of_column`), and for three errors wherever they are
(`exists_column_of_card_le`).
-/

namespace Lib

variable {ι κ α : Type*} [DecidableEq α]

section

variable [Fintype ι]

/-- A word with one wrong place at most is decoded to the word of the code. -/
def CorrectsOne (code : Set (ι → α)) (decode : (ι → α) → ι → α) : Prop :=
  ∀ w ∈ code, ∀ x, hammingDist x w ≤ 1 → decode x = w

/-- The words of a code differ in three places at least. -/
def Separated (code : Set (ι → α)) : Prop :=
  ∀ w ∈ code, ∀ v ∈ code, hammingDist w v ≤ 2 → w = v

theorem Separated.correctsOne {code : Set (ι → α)} (h : Separated code)
    {decode : (ι → α) → ι → α}
    (hdecode : ∀ w ∈ code, ∀ x, hammingDist x w ≤ 1 →
      decode x ∈ code ∧ hammingDist (decode x) x ≤ 1) : CorrectsOne code decode := by
  intro w hw x hx
  obtain ⟨hmem, hnear⟩ := hdecode w hw x hx
  refine h _ hmem w hw ?_
  calc hammingDist (decode x) w
    _ ≤ hammingDist (decode x) x + hammingDist x w := hammingDist_triangle _ _ _
    _ ≤ 1 + 1 := Nat.add_le_add hnear hx

end

/-! ## The two passes -/

/-- A pass over the columns. -/
def decodeColumns (decode : (ι → α) → ι → α) (M : ι → κ → α) : ι → κ → α :=
  fun r c => decode (fun r => M r c) r

/-- A pass over the rows. -/
def decodeRows (decode : (κ → α) → κ → α) (M : ι → κ → α) : ι → κ → α := fun r => decode (M r)

variable [Fintype ι] [Fintype κ]

/-- If all columns but one have one error at most, the two passes correct the rows that are words of
the code. -/
theorem decodeRows_decodeColumns {colCode : Set (ι → α)} {rowCode : Set (κ → α)}
    {dcol : (ι → α) → ι → α} {drow : (κ → α) → κ → α} (hcol : CorrectsOne colCode dcol)
    (hrow : CorrectsOne rowCode drow) {M N : ι → κ → α} (hN : ∀ c, (fun r => N r c) ∈ colCode)
    {c₀ : κ} (hM : ∀ c ≠ c₀, hammingDist (fun r => M r c) (fun r => N r c) ≤ 1) {r : ι}
    (hr : N r ∈ rowCode) : decodeRows drow (decodeColumns dcol M) r = N r := by
  have hfixed : ∀ c ≠ c₀, decodeColumns dcol M r c = N r c := fun c hc =>
    congrFun (hcol _ (hN c) _ (hM c hc)) r
  refine hrow _ hr _ ?_
  have hsub : ({c | decodeColumns dcol M r c ≠ N r c} : Finset κ) ⊆ {c₀} := by
    intro c hc
    rw [Finset.mem_singleton]
    by_contra hne
    exact (Finset.mem_filter.1 hc).2 (hfixed c hne)
  exact (Finset.card_le_card hsub).trans (Finset.card_singleton _).le

/-! ## Errors -/

/-- The places where two matrices differ. -/
def errors (M N : ι → κ → α) : Finset (ι × κ) := {e | M e.1 e.2 ≠ N e.1 e.2}

omit [Fintype κ] in
theorem hammingDist_column [DecidableEq κ] [Fintype κ] (M N : ι → κ → α) (c : κ) :
    hammingDist (fun r => M r c) (fun r => N r c) = {e ∈ errors M N | e.2 = c}.card := by
  unfold hammingDist errors
  refine Finset.card_nbij' (fun r => (r, c)) Prod.fst ?_ ?_ ?_ ?_
  · intro r hr
    simpa using hr
  · rintro ⟨r, d⟩ he
    obtain ⟨he, rfl⟩ : M r d ≠ N r d ∧ d = c := by simpa using he
    simpa using he
  · exact fun _ _ => rfl
  · rintro ⟨r, d⟩ he
    obtain ⟨-, rfl⟩ : M r d ≠ N r d ∧ d = c := by simpa using he
    rfl

theorem card_column_le_of_column {M N : ι → κ → α} {c₀ : κ} (h : ∀ e ∈ errors M N, e.2 = c₀)
    {c : κ} (hc : c ≠ c₀) : hammingDist (fun r => M r c) (fun r => N r c) ≤ 1 := by
  classical
  rw [hammingDist_column, Finset.filter_eq_empty_iff.2 fun e he hec => hc (hec.symm.trans (h e he))]
  exact Nat.zero_le _

theorem exists_column_of_card_le [Nonempty κ] {M N : ι → κ → α} (h : (errors M N).card ≤ 3) :
    ∃ c₀, ∀ c ≠ c₀, hammingDist (fun r => M r c) (fun r => N r c) ≤ 1 := by
  classical
  by_cases hall : ∀ c, hammingDist (fun r => M r c) (fun r => N r c) ≤ 1
  · exact ⟨Classical.arbitrary κ, fun c _ => hall c⟩
  · obtain ⟨c₀, hc₀⟩ := not_forall.1 hall
    refine ⟨c₀, fun c hc => ?_⟩
    rw [hammingDist_column] at hc₀ ⊢
    have hdisj : Disjoint {e ∈ errors M N | e.2 = c₀} {e ∈ errors M N | e.2 = c} :=
      Finset.disjoint_filter.2 fun e _ h0 h1 => hc (h1.symm.trans h0)
    have hsub : {e ∈ errors M N | e.2 = c₀} ∪ {e ∈ errors M N | e.2 = c} ⊆ errors M N :=
      Finset.union_subset (Finset.filter_subset _ _) (Finset.filter_subset _ _)
    have hcard := Finset.card_le_card hsub
    rw [Finset.card_union_of_disjoint hdisj] at hcard
    omega

end Lib
