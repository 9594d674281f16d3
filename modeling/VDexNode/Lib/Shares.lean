import Mathlib.Combinatorics.Enumerative.Stirling
import Mathlib.Data.List.GetD
import Mathlib.LinearAlgebra.Lagrange
import Mathlib.RingTheory.Polynomial.Pochhammer

/-!
# VDexNode.Lib.Shares — sharing a value among the nodes `1, …, n`

`lagrangeAtZero S i` is the weight of node `i` in the interpolation at `0` over the nodes `S`.  A
curve `evalAt C K x = ∑ k < K, x ^ k • C k` has its coefficients in a module, so that it can be the
commitment of a polynomial as well as a polynomial.

* `sum_lagrangeAtZero_eval` : a polynomial of degree below `#S` is recovered at `0` from `S`.
* `evalAt_eq_sum_fallingCoeff` : a curve at a natural node, in falling factorials of the node.
* `reconstructs_iff` : **every `t + 1` of the nodes `1, …, n` recover the value at `0` exactly when
  the falling coefficients of the curve between `t` and `n` vanish.**
-/

namespace VDexNode

open Finset Polynomial

variable {F M : Type} [Field F]

/-! ## Lagrange weights -/

/-- The Lagrange coefficient at `0` of node `i` among the nodes `S`. -/
def lagrangeAtZero (S : Finset ℕ) (i : ℕ) : F :=
  ∏ j ∈ S.erase i, (j : F) * ((j : F) - i)⁻¹

theorem lagrangeAtZero_eq_eval (S : Finset ℕ) (i : ℕ) :
    (lagrangeAtZero S i : F) = (Lagrange.basis S (Nat.cast : ℕ → F) i).eval 0 := by
  rw [lagrangeAtZero, Lagrange.basis, eval_prod]
  refine prod_congr rfl (fun j _ => ?_)
  have hneg : ((i : F) - j)⁻¹ = -((j : F) - i)⁻¹ := by rw [← neg_sub, inv_neg]
  simp only [Lagrange.basisDivisor, eval_mul, eval_C, eval_sub, eval_X]
  rw [hneg]
  ring

/-- **Interpolation**: the weighted values of a polynomial of degree below `#S` sum to its value
at `0`. -/
theorem sum_lagrangeAtZero_eval {S : Finset ℕ} (hinj : Set.InjOn (Nat.cast : ℕ → F) S) {p : F[X]}
    (hp : p.degree < #S) : ∑ i ∈ S, lagrangeAtZero S i * p.eval (i : F) = p.eval 0 := by
  have hself := Lagrange.eq_interpolate hinj hp
  have heval := congrArg (eval 0) hself
  rw [Lagrange.interpolate_apply, eval_finsetSum] at heval
  rw [heval]
  refine sum_congr rfl (fun i _ => ?_)
  rw [eval_mul, eval_C, lagrangeAtZero_eq_eval, mul_comm]

section Nodes

variable {n : ℕ} (hinj : Set.InjOn (Nat.cast : ℕ → F) (Set.Iic n))

include hinj

/-- Distinct nodes up to `n` stay distinct and, away from `0`, nonzero in the field. -/
theorem cast_ne_zero_of_le {i : ℕ} (h0 : i ≠ 0) (hi : i ≤ n) : (i : F) ≠ 0 := by
  intro h
  exact h0 (hinj (Set.mem_Iic.mpr hi) (Set.mem_Iic.mpr (Nat.zero_le n)) (by rw [h, Nat.cast_zero]))

theorem lagrangeAtZero_ne_zero {S : Finset ℕ} (hS : S ⊆ Icc 1 n) {i : ℕ} (hi : i ∈ S) :
    (lagrangeAtZero S i : F) ≠ 0 := by
  refine prod_ne_zero_iff.mpr (fun j hj => ?_)
  obtain ⟨hne, hj⟩ := mem_erase.mp hj
  have hj' := mem_Icc.mp (hS hj)
  have hi' := mem_Icc.mp (hS hi)
  have hsub : (j : F) - i ≠ 0 := by
    intro h
    exact hne (hinj (Set.mem_Iic.mpr hj'.2) (Set.mem_Iic.mpr hi'.2) (sub_eq_zero.mp h))
  exact mul_ne_zero (cast_ne_zero_of_le hinj (by omega) hj'.2) (inv_ne_zero hsub)

theorem factorial_cast_ne_zero {m : ℕ} (hm : m ≤ n) : (m.factorial : F) ≠ 0 := by
  induction m with
  | zero => simp
  | succ m ih =>
    rw [Nat.factorial_succ, Nat.cast_mul]
    exact mul_ne_zero (cast_ne_zero_of_le hinj (by omega) hm) (ih (by omega))

theorem injOn_of_subset {S : Finset ℕ} (hS : S ⊆ Icc 1 n) :
    Set.InjOn (Nat.cast : ℕ → F) S :=
  hinj.mono (fun _ hi => Set.mem_Iic.mpr (mem_Icc.mp (hS hi)).2)

end Nodes

/-! ## Curves and their falling coefficients -/

section Curves

/-- A power in falling factorials. -/
theorem pow_eq_sum_descFactorial (i k : ℕ) :
    i ^ k = ∑ m ∈ range (k + 1), k.stirlingSecond m * i.descFactorial m := by
  induction k with
  | zero => simp
  | succ k ih =>
    -- a factor `i` either extends the falling factorial or repeats one of its `m` entries
    have hstep : ∀ m, i * i.descFactorial m = i.descFactorial (m + 1) + m * i.descFactorial m := by
      intro m
      rw [Nat.descFactorial_succ, ← add_mul]
      rcases Nat.lt_or_ge i m with h | h
      · rw [Nat.descFactorial_eq_zero_iff_lt.mpr h, mul_zero, mul_zero]
      · rw [Nat.sub_add_cancel h]
    have htop : k.stirlingSecond (k + 1) = 0 :=
      Nat.stirlingSecond_eq_zero_of_lt (Nat.lt_succ_self k)
    calc i ^ (k + 1)
        = ∑ m ∈ range (k + 1), k.stirlingSecond m * (i * i.descFactorial m) := by
          rw [pow_succ, ih, sum_mul]
          exact sum_congr rfl (fun m _ => by ring)
      _ = ∑ m ∈ range (k + 1), k.stirlingSecond m * i.descFactorial (m + 1)
            + ∑ m ∈ range (k + 2), m * k.stirlingSecond m * i.descFactorial m := by
          rw [sum_range_succ _ (k + 1), htop, mul_zero, zero_mul, add_zero, ← sum_add_distrib]
          exact sum_congr rfl (fun m _ => by rw [hstep]; ring)
      _ = ∑ m ∈ range (k + 1 + 1), (k + 1).stirlingSecond m * i.descFactorial m := by
          rw [sum_range_succ' _ (k + 1), sum_range_succ' _ (k + 1), Nat.stirlingSecond_succ_zero]
          simp only [zero_mul, add_zero]
          rw [← sum_add_distrib]
          exact sum_congr rfl (fun m _ => by rw [Nat.stirlingSecond_succ_succ]; ring)

variable [AddCommGroup M] [Module F M]

/-- The curve with coefficients `C 0, …, C (K - 1)` at `x`. -/
def evalAt (C : ℕ → M) (K : ℕ) (x : F) : M := ∑ k ∈ range K, x ^ k • C k

/-- Coefficients beyond the last one play no part. -/
theorem evalAt_of_le {C : ℕ → M} {K N : ℕ} (hK : K ≤ N) (hC : ∀ k, K ≤ k → C k = 0) (x : F) :
    evalAt C K x = evalAt C N x := by
  refine sum_subset (range_mono hK) (fun k _ hk => ?_)
  rw [hC k (not_lt.mp (fun h => hk (mem_range.mpr h))), smul_zero]

theorem evalAt_zero_fun (K : ℕ) (x : F) : evalAt (fun _ => (0 : M)) K x = 0 :=
  sum_eq_zero (fun _ _ => smul_zero _)

theorem evalAt_add (C C' : ℕ → M) (K : ℕ) (x : F) :
    evalAt (fun k => C k + C' k) K x = evalAt C K x + evalAt C' K x := by
  simp only [evalAt, smul_add, sum_add_distrib]

/-- The commitment of a polynomial takes the commitments of its values. -/
theorem evalAt_smul (C : ℕ → F) (g : M) (K : ℕ) (x : F) :
    evalAt (fun k => C k • g) K x = evalAt C K x • g := by
  simp only [evalAt, sum_smul, smul_eq_mul, mul_smul]

theorem evalAt_sum {ι : Type} (s : Finset ι) (C : ι → ℕ → M) (K : ℕ) (x : F) :
    evalAt (fun k => ∑ j ∈ s, C j k) K x = ∑ j ∈ s, evalAt (C j) K x := by
  simp only [evalAt, smul_sum]
  exact sum_comm

/-- The constant term. -/
theorem evalAt_zero (C : ℕ → M) {K : ℕ} (hK : 0 < K) : evalAt C K (0 : F) = C 0 := by
  rw [evalAt, sum_eq_single_of_mem 0 (mem_range.mpr hK)]
  · rw [pow_zero, one_smul]
  · intro k _ hk
    rw [zero_pow hk, zero_smul]

/-- Curves add up coefficient by coefficient. -/
theorem sum_evalAt_getD {L : List (List M)} {K : ℕ} (hK : ∀ l ∈ L, l.length ≤ K) (x : F) :
    (L.map (fun l => evalAt (l.getD · 0) l.length x)).sum
      = evalAt (fun k => (L.map (·.getD k 0)).sum) K x := by
  induction L with
  | nil => exact (evalAt_zero_fun K x).symm
  | cons l L ih =>
    have hl : evalAt (l.getD · 0) l.length x = evalAt (l.getD · 0) K x :=
      evalAt_of_le (hK l List.mem_cons_self) (fun k hk => List.getD_eq_default l 0 hk) x
    simp only [List.map_cons, List.sum_cons, evalAt_add]
    rw [ih (fun l' hl' => hK l' (List.mem_cons_of_mem l hl')), hl]

/-- The coefficient of the `m`-th falling factorial in the curve. -/
def fallingCoeff (C : ℕ → M) (K m : ℕ) : M := ∑ k ∈ range K, k.stirlingSecond m • C k

theorem fallingCoeff_eq_zero_of_le (C : ℕ → M) {K m : ℕ} (h : K ≤ m) : fallingCoeff C K m = 0 := by
  refine sum_eq_zero (fun k hk => ?_)
  rw [Nat.stirlingSecond_eq_zero_of_lt (lt_of_lt_of_le (mem_range.mp hk) h), zero_smul]

theorem fallingCoeff_zero (C : ℕ → M) {K : ℕ} (h : 0 < K) : fallingCoeff C K 0 = C 0 := by
  rw [fallingCoeff, sum_eq_single_of_mem 0 (mem_range.mpr h)]
  · rw [Nat.stirlingSecond_zero, one_smul]
  · intro k _ hk
    obtain ⟨k, rfl⟩ := Nat.exists_eq_succ_of_ne_zero hk
    rw [Nat.stirlingSecond_succ_zero, zero_smul]

/-- A curve at a natural node, with the falling factorials of the node. -/
theorem evalAt_eq_sum_fallingCoeff (C : ℕ → M) {K N : ℕ} (hK : K ≤ N) (i : ℕ) :
    evalAt C K (i : F) = ∑ m ∈ range N, (i.descFactorial m : F) • fallingCoeff C K m := by
  have hpow : ∀ k ∈ range K, (i : F) ^ k • C k
      = ∑ m ∈ range N, (i.descFactorial m : F) • (k.stirlingSecond m • C k) := by
    intro k hk
    have hkN : k + 1 ≤ N := by have := mem_range.mp hk; omega
    have hext : i ^ k = ∑ m ∈ range N, k.stirlingSecond m * i.descFactorial m := by
      rw [pow_eq_sum_descFactorial]
      refine sum_subset (range_mono hkN) (fun m _ hm => ?_)
      have hkm : k < m := by rw [mem_range] at hm; omega
      rw [Nat.stirlingSecond_eq_zero_of_lt hkm, zero_mul]
    rw [← Nat.cast_pow, hext, Nat.cast_sum, sum_smul]
    refine sum_congr rfl (fun m _ => ?_)
    rw [Nat.cast_mul, mul_comm, mul_smul, Nat.cast_smul_eq_nsmul F (k.stirlingSecond m)]
  rw [evalAt, sum_congr rfl hpow, sum_comm]
  exact sum_congr rfl (fun m _ => smul_sum.symm)

/-! ## Which shares reconstruct -/

/-- The weighted `m`-th falling factorials of the nodes. -/
def fallingWeight (S : Finset ℕ) (m : ℕ) : F :=
  ∑ i ∈ S, lagrangeAtZero S i * (i.descFactorial m : F)

theorem sum_lagrange_evalAt (C : ℕ → M) {K N : ℕ} (hK : K ≤ N) (S : Finset ℕ) :
    ∑ i ∈ S, (lagrangeAtZero S i : F) • evalAt C K (i : F)
      = ∑ m ∈ range N, (fallingWeight S m : F) • fallingCoeff C K m := by
  simp only [evalAt_eq_sum_fallingCoeff (F := F) C hK, smul_sum]
  rw [sum_comm]
  refine sum_congr rfl (fun m _ => ?_)
  rw [fallingWeight, sum_smul]
  exact sum_congr rfl (fun i _ => by rw [mul_smul])

/-- Below `#S` the weights see only the constant term. -/
theorem fallingWeight_of_lt {S : Finset ℕ} (hinj : Set.InjOn (Nat.cast : ℕ → F) S) {m : ℕ}
    (hm : m < #S) : (fallingWeight S m : F) = if m = 0 then 1 else 0 := by
  have hdeg : (descPochhammer F m).degree < #S := by
    refine lt_of_le_of_lt degree_le_natDegree ?_
    rw [descPochhammer_natDegree]
    exact_mod_cast hm
  rw [fallingWeight, ← descPochhammer_eval_zero (R := F), ← sum_lagrangeAtZero_eval hinj hdeg]
  exact sum_congr rfl (fun i _ => by rw [descPochhammer_eval_eq_descFactorial])

theorem fallingWeight_of_max {S : Finset ℕ} {m : ℕ} (hm : m ∈ S) (hmax : ∀ i ∈ S, i ≤ m) :
    (fallingWeight S m : F) = lagrangeAtZero S m * (m.factorial : F) := by
  rw [fallingWeight, sum_eq_single_of_mem m hm, Nat.descFactorial_self]
  intro i hi hne
  have hlt : i < m := by have := hmax i hi; omega
  rw [Nat.descFactorial_eq_zero_iff_lt.mpr hlt, Nat.cast_zero, mul_zero]

theorem fallingWeight_eq_zero {S : Finset ℕ} {m : ℕ} (h : ∀ i ∈ S, i < m) :
    (fallingWeight S m : F) = 0 := by
  refine sum_eq_zero (fun i hi => ?_)
  rw [Nat.descFactorial_eq_zero_iff_lt.mpr (h i hi), Nat.cast_zero, mul_zero]

variable {n t : ℕ}

/-- What `t + 1` nodes recover: the constant term and the falling coefficients from `t + 1` to the
largest node. -/
theorem sum_lagrange_evalAt_eq (hinj : Set.InjOn (Nat.cast : ℕ → F) (Set.Iic n)) (C : ℕ → M)
    {K : ℕ} (hK : 0 < K) {S : Finset ℕ} (hS : S ⊆ Icc 1 n) (hcard : #S = t + 1) {b : ℕ}
    (hb : ∀ i ∈ S, i ≤ b) :
    ∑ i ∈ S, (lagrangeAtZero S i : F) • evalAt C K (i : F)
      = C 0 + ∑ m ∈ Icc (t + 1) b, (fallingWeight S m : F) • fallingCoeff C K m := by
  have hlow : ∀ m ∈ range (t + 1), (fallingWeight S m : F) • fallingCoeff C K m
      = if m = 0 then C 0 else 0 := by
    intro m hm
    rw [fallingWeight_of_lt (injOn_of_subset hinj hS) (by rw [hcard]; exact mem_range.mp hm)]
    by_cases h0 : m = 0
    · rw [if_pos h0, if_pos h0, one_smul, h0, fallingCoeff_zero C hK]
    · rw [if_neg h0, if_neg h0, zero_smul]
  have hhigh : ∀ m ∈ Icc (t + 1) (t + b + K), m ∉ Icc (t + 1) b →
      (fallingWeight S m : F) • fallingCoeff C K m = 0 := by
    intro m hm hmb
    rw [mem_Icc] at hm hmb
    rw [fallingWeight_eq_zero (fun i hi => by have := hb i hi; omega), zero_smul]
  have hunion : Icc (t + 1) (t + b + K) = Ico (t + 1) (t + b + K + 1) := by
    ext m
    rw [mem_Icc, mem_Ico]
    omega
  rw [sum_lagrange_evalAt C (N := t + b + K + 1) (by omega) S,
    ← sum_range_add_sum_Ico _ (show t + 1 ≤ t + b + K + 1 by omega), sum_congr rfl hlow,
    sum_ite_eq' (range (t + 1)) 0, if_pos (mem_range.mpr (Nat.succ_pos t)), ← hunion,
    sum_subset (Icc_subset_Icc_right (by omega)) hhigh]

/-- A curve of at most `t + 1` coefficients is recovered by any `t + 1` nodes. -/
theorem sum_lagrange_evalAt_of_le (hinj : Set.InjOn (Nat.cast : ℕ → F) (Set.Iic n)) (C : ℕ → M)
    {K : ℕ} (hK : 0 < K) (hKt : K ≤ t + 1) {S : Finset ℕ} (hS : S ⊆ Icc 1 n) (hcard : #S = t + 1) :
    ∑ i ∈ S, (lagrangeAtZero S i : F) • evalAt C K (i : F) = C 0 := by
  rw [sum_lagrange_evalAt_eq hinj C hK hS hcard (fun i hi => (mem_Icc.mp (hS hi)).2), add_eq_left]
  refine sum_eq_zero (fun m hm => ?_)
  rw [mem_Icc] at hm
  rw [fallingCoeff_eq_zero_of_le C (by omega), smul_zero]

/-- **Every `t + 1` of the nodes `1, …, n` recover the value at `0`** exactly when the curve has no
falling coefficient between `t` and `n`. -/
theorem reconstructs_iff (hinj : Set.InjOn (Nat.cast : ℕ → F) (Set.Iic n)) (C : ℕ → M) {K : ℕ}
    (hK : 0 < K) :
    (∀ S ⊆ Icc 1 n, #S = t + 1 →
        ∑ i ∈ S, (lagrangeAtZero S i : F) • evalAt C K (i : F) = C 0) ↔
      ∀ m, t < m → m ≤ n → fallingCoeff C K m = 0 := by
  constructor
  · intro hrec m
    -- the nodes `m - t, …, m` see no falling coefficient beyond the `m`-th
    induction m using Nat.strong_induction_on with
    | _ m ih =>
      intro htm hmn
      have hS : Icc (m - t) m ⊆ Icc 1 n := by
        intro i hi
        rw [mem_Icc] at hi ⊢
        omega
      have hmem : m ∈ Icc (m - t) m := mem_Icc.mpr ⟨Nat.sub_le m t, le_refl m⟩
      have hmax : ∀ i ∈ Icc (m - t) m, i ≤ m := fun i hi => (mem_Icc.mp hi).2
      have hcard : #(Icc (m - t) m) = t + 1 := by rw [Nat.card_Icc]; omega
      have hsum := sum_lagrange_evalAt_eq hinj C hK hS hcard hmax
      rw [hrec _ hS hcard, left_eq_add,
        sum_eq_single_of_mem m (mem_Icc.mpr ⟨htm, le_refl m⟩)] at hsum
      · rw [fallingWeight_of_max hmem hmax] at hsum
        exact (smul_eq_zero.mp hsum).resolve_left
          (mul_ne_zero (lagrangeAtZero_ne_zero hinj hS hmem) (factorial_cast_ne_zero hinj hmn))
      · intro m' hm' hne
        rw [mem_Icc] at hm'
        rw [ih m' (by omega) (by omega) (by omega), smul_zero]
  · intro hzero S hS hcard
    rw [sum_lagrange_evalAt_eq hinj C hK hS hcard (fun i hi => (mem_Icc.mp (hS hi)).2)]
    rw [add_eq_left]
    refine sum_eq_zero (fun m hm => ?_)
    rw [mem_Icc] at hm
    rw [hzero m (by omega) hm.2, smul_zero]

end Curves

end VDexNode
