import VDexNode.Lib.Rounds
import VDexNode.Mpt.KeyGenUtils

/-!
# VDexNode.Mpt.Reconstruct — which accepted keys can be reconstructed

Every party of a key generation checks its shares and returns the same public key.  The checks look
at the points of the commitments one by one and never at the length of a commitments vector, so a
party may commit to a polynomial of higher degree than the threshold.

* `phase2_ok` : what an accepting party has checked, and what it returns.
* `getCommitmentsToXi_eq` : the public points lie on the curve of the column sums.
* `reconstructs_iff_column` : **every `t + 1` parties recover the key exactly when the column sums
  have no falling coefficient between `t` and `n`.**
* `longCommitments_split` : a vector of three commitments for threshold one is accepted by all
  three parties, and two of them miss the key.
-/

namespace VDexNode.Mpt

open Finset

section Reconstruct

variable {q : ℕ} {G : Type} [Fact q.Prime] [AddCommGroup G] (c : Curv q G)

/-! ## Column sums -/

/-- The sum of the `k`-th commitments of all parties. -/
def columnSum (vssSchemeVec : List (VerifiableSS G)) (k : ℕ) : G :=
  (vssSchemeVec.map (·.commitments.getD k 0)).sum

/-- The length of the longest commitments vector. -/
def columns (vssSchemeVec : List (VerifiableSS G)) : ℕ :=
  (vssSchemeVec.map (·.commitments.length)).foldr max 0

variable (q) in
/-- The curve of the column sums at `i`. -/
def xiPoint [Module (ZMod q) G] (vssSchemeVec : List (VerifiableSS G)) (i : ℕ) : G :=
  evalAt (columnSum vssSchemeVec) (columns vssSchemeVec) (i : ZMod q)

/-- Every `threshold + 1` parties recover `y` from the public points. -/
def Reconstructs [Module (ZMod q) G] (params : Parameters) (vssSchemeVec : List (VerifiableSS G))
    (y : G) : Prop :=
  ∃ xiComVec, getCommitmentsToXi c vssSchemeVec = .ok xiComVec ∧
    ∀ S ⊆ Icc 1 params.shareCount, #S = params.threshold + 1 →
      ∑ i ∈ S, (lagrangeAtZero S i : ZMod q) • xiComVec.getD (i - 1) 0 = y

omit [AddCommGroup G] in
theorem length_le_columns {vssSchemeVec : List (VerifiableSS G)} {vss : VerifiableSS G}
    (h : vss ∈ vssSchemeVec) : vss.commitments.length ≤ columns vssSchemeVec := by
  induction vssSchemeVec with
  | nil => cases h
  | cons v vs ih =>
    rw [columns, List.map_cons, List.foldr_cons]
    rcases List.mem_cons.mp h with rfl | h
    · exact le_max_left _ _
    · exact le_trans (ih h) (le_max_right _ _)

omit [AddCommGroup G] in
theorem columns_le_of_forall {vssSchemeVec : List (VerifiableSS G)} {K : ℕ}
    (h : ∀ vss ∈ vssSchemeVec, vss.commitments.length ≤ K) : columns vssSchemeVec ≤ K := by
  induction vssSchemeVec with
  | nil => exact Nat.zero_le K
  | cons vss rest ih =>
    rw [columns, List.map_cons, List.foldr_cons]
    exact max_le (h vss List.mem_cons_self) (ih (fun v hv => h v (List.mem_cons_of_mem vss hv)))

theorem columnSum_eq_zero_of_le {vssSchemeVec : List (VerifiableSS G)} {k : ℕ}
    (hk : columns vssSchemeVec ≤ k) : columnSum vssSchemeVec k = 0 := by
  refine List.sum_eq_zero (fun x hx => ?_)
  obtain ⟨vss, hvss, rfl⟩ := List.mem_map.mp hx
  exact List.getD_eq_default _ _ (le_trans (length_le_columns hvss) hk)

variable {c}

/-- Indices below the order of the group are distinct scalars. -/
theorem injOn_cast {q n : ℕ} (h : n < q) : Set.InjOn (Nat.cast : ℕ → ZMod q) (Set.Iic n) := by
  intro a ha b hb hab
  rw [Set.mem_Iic] at ha hb
  have hmod := (ZMod.natCast_eq_natCast_iff' a b q).mp hab
  rwa [Nat.mod_eq_of_lt (by omega), Nat.mod_eq_of_lt (by omega)] at hmod

/-! ## Specifications -/

/-- **What an accepting party knows**: every share is on the committed curve, every vector begins
with the announced point, and the key is their sum. -/
theorem phase2_ok [DecidableEq G] {params : Parameters} {yVec : List G}
    {secretSharesVec : List (ZMod q)} {vssSchemeVec : List (VerifiableSS G)} {i0 : ℕ}
    {nonce : c.Nonce} {r : SharedKeys q G × c.DLogProof}
    (h : phase2VerifyVssConstructKeypairPhase3PokDlog c params yVec secretSharesVec vssSchemeVec
      i0 nonce = .ok r) :
    yVec.length = params.shareCount ∧ secretSharesVec.length = params.shareCount ∧
      vssSchemeVec.length = params.shareCount ∧
      (∀ i < params.shareCount, ∃ vss share y, vssSchemeVec[i]? = some vss ∧
        secretSharesVec[i]? = some share ∧ yVec[i]? = some y ∧
        c.validateShare vss share i0 = true ∧ vss.commitments[0]? = some y) ∧
      r.1 = ⟨yVec.sum, secretSharesVec.sum⟩ := by
  simp only [phase2VerifyVssConstructKeypairPhase3PokDlog, bind_eq_ok, assertEq_eq_ok,
    exists_const] at h
  obtain ⟨hy, hshares, hvss, test, htest, h⟩ := h
  cases test with
  | false => cases h
  | true =>
    simp only [if_true, bind_eq_ok, unwrap_eq_ok, pure_eq_ok] at h
    obtain ⟨y0, hy0, rfl⟩ := h
    refine ⟨hy, hshares, hvss, fun i hi => ?_, ?_⟩
    · have hentry := allM_eq_ok_true.mp htest i (List.mem_range.mpr (by omega))
      simp only [verifyVss, bind_eq_ok, index_eq_ok] at hentry
      obtain ⟨vss, hv, share, hs, hentry⟩ := hentry
      by_cases hvalid : c.validateShare vss share i0 = true
      · simp only [hvalid, if_true, bind_eq_ok, index_eq_ok, pure_eq_ok, decide_eq_true_eq]
          at hentry
        obtain ⟨com, hcom, y, hyi, rfl⟩ := hentry
        exact ⟨vss, share, com, hv, hs, hyi, hvalid, hcom⟩
      · rw [if_neg hvalid] at hentry
        cases hentry
    · obtain ⟨ys, rfl⟩ := List.head?_eq_some_iff.mp hy0
      rw [foldl_add_eq_sum, foldl_add_eq_sum, List.tail_cons, List.sum_cons, zero_add]

/-- The announced points are the first column of the commitments. -/
theorem sum_yVec_eq {params : Parameters} {yVec : List G} {vssSchemeVec : List (VerifiableSS G)}
    (hy : yVec.length = params.shareCount) (hvss : vssSchemeVec.length = params.shareCount)
    (h : ∀ i < params.shareCount, ∃ vss y, vssSchemeVec[i]? = some vss ∧ yVec[i]? = some y ∧
      vss.commitments[0]? = some y) : yVec.sum = columnSum vssSchemeVec 0 := by
  have heq : yVec = vssSchemeVec.map (·.commitments.getD 0 0) := by
    refine List.ext_getElem? (fun i => ?_)
    by_cases hi : i < params.shareCount
    · obtain ⟨vss, y, hv, hyi, hcom⟩ := h i hi
      rw [hyi, List.getElem?_map, hv, Option.map_some, List.getD_eq_getElem?_getD, hcom,
        Option.getD_some]
    · rw [List.getElem?_eq_none (by omega), List.getElem?_eq_none (by rw [List.length_map]; omega)]
  rw [heq, columnSum]

theorem getD_range'_map (f : ℕ → G) {n i : ℕ} (h1 : 1 ≤ i) (hn : i ≤ n) :
    ((List.range' 1 n).map f).getD (i - 1) 0 = f i := by
  rw [List.getD_eq_getElem?_getD, getElem?_range'_map f h1 hn, Option.getD_some]

section Module

variable [Module (ZMod q) G]

/-- The point commitments of all parties at `i` add up to the curve of the column sums. -/
theorem sum_getPointCommitment (hlaw : c.LawfulSharing) (vssSchemeVec : List (VerifiableSS G))
    (i : ℕ) : (vssSchemeVec.map (c.getPointCommitment · i)).sum = xiPoint q vssSchemeVec i := by
  have hall := sum_evalAt_getD (L := vssSchemeVec.map (·.commitments))
    (K := columns vssSchemeVec) ?_ (i : ZMod q)
  · simp only [List.map_map, Function.comp_def] at hall
    simp only [hlaw.getPointCommitment_eq]
    exact hall
  · intro l hl
    obtain ⟨vss, hvss, rfl⟩ := List.mem_map.mp hl
    exact length_le_columns hvss

/-- **The public points** are the values of the curve of the column sums. -/
theorem getCommitmentsToXi_eq (hlaw : c.LawfulSharing) (vssSchemeVec : List (VerifiableSS G)) :
    getCommitmentsToXi c vssSchemeVec
      = .ok ((List.range' 1 vssSchemeVec.length).map (xiPoint q vssSchemeVec)) := by
  refine mapM_eq_ok_map (fun i hi => ?_)
  have hsum := sum_getPointCommitment hlaw vssSchemeVec i
  cases vssSchemeVec with
  | nil => cases hi
  | cons vss rest =>
    show Except.ok _ = _
    rw [List.map_cons, List.tail_cons, foldl_add_eq_sum, ← hsum, List.map_cons, List.sum_cons]

/-! ## The condition -/

/-- The parties recover the constant term of the curve of the column sums exactly when it has no
falling coefficient between the threshold and the number of parties. -/
theorem reconstructs_columnSum_iff (hlaw : c.LawfulSharing) {params : Parameters}
    {vssSchemeVec : List (VerifiableSS G)} (hn : vssSchemeVec.length = params.shareCount)
    (hq : params.shareCount < q) (hK : 0 < columns vssSchemeVec) :
    Reconstructs c params vssSchemeVec (columnSum vssSchemeVec 0) ↔
      ∀ m, params.threshold < m → m ≤ params.shareCount →
        fallingCoeff (columnSum vssSchemeVec) (columns vssSchemeVec) m = 0 := by
  have hinj : Set.InjOn (Nat.cast : ℕ → ZMod q) (Set.Iic params.shareCount) := injOn_cast hq
  rw [← VDexNode.reconstructs_iff (F := ZMod q) hinj (columnSum vssSchemeVec) hK, Reconstructs,
    getCommitmentsToXi_eq hlaw]
  have hpoints : ∀ S ⊆ Icc 1 params.shareCount,
      ∑ i ∈ S, (lagrangeAtZero S i : ZMod q) •
          ((List.range' 1 vssSchemeVec.length).map (xiPoint q vssSchemeVec)).getD (i - 1) 0
        = ∑ i ∈ S, (lagrangeAtZero S i : ZMod q) • xiPoint q vssSchemeVec i := by
    intro S hS
    refine sum_congr rfl (fun i hi => ?_)
    have hmem := mem_Icc.mp (hS hi)
    rw [getD_range'_map _ hmem.1 (by omega)]
  constructor
  · rintro ⟨_, heq, hrec⟩ S hS hcard
    cases heq
    have h := hrec S hS hcard
    rw [hpoints S hS] at h
    exact h
  · intro hrec
    refine ⟨_, rfl, fun S hS hcard => ?_⟩
    rw [hpoints S hS]
    exact hrec S hS hcard

/-- **Every `t + 1` parties recover the accepted key** exactly when the column sums of the broadcast
commitments have no falling coefficient between `t` and `n`. -/
theorem reconstructs_iff_column [DecidableEq G] (hlaw : c.LawfulSharing) {params : Parameters}
    {yVec : List G} {vssSchemeVec : List (VerifiableSS G)} {secretShares : ℕ → List (ZMod q)}
    {nonce : ℕ → c.Nonce} {keys : ℕ → SharedKeys q G × c.DLogProof} (hq : params.shareCount < q)
    (ht : params.threshold < params.shareCount)
    (hok : ∀ i ∈ Icc 1 params.shareCount,
      phase2VerifyVssConstructKeypairPhase3PokDlog c params yVec (secretShares i) vssSchemeVec i
        (nonce i) = .ok (keys i)) :
    (∀ i ∈ Icc 1 params.shareCount, Reconstructs c params vssSchemeVec (keys i).1.y) ↔
      ∀ m, params.threshold < m → m ≤ params.shareCount →
        fallingCoeff (columnSum vssSchemeVec) (columns vssSchemeVec) m = 0 := by
  have hfirst : 1 ∈ Icc 1 params.shareCount := mem_Icc.mpr ⟨le_refl 1, by omega⟩
  obtain ⟨hy, -, hn, hentries, -⟩ := phase2_ok (hok 1 hfirst)
  have hkey : ∀ i ∈ Icc 1 params.shareCount, (keys i).1.y = columnSum vssSchemeVec 0 := by
    intro i hi
    obtain ⟨-, -, -, -, hkeys⟩ := phase2_ok (hok i hi)
    rw [hkeys, ← sum_yVec_eq hy hn]
    intro j hj
    obtain ⟨vss, -, y, hv, -, hyj, -, hcom⟩ := hentries j hj
    exact ⟨vss, y, hv, hyj, hcom⟩
  have hK : 0 < columns vssSchemeVec := by
    obtain ⟨vss, -, y, hv, -, -, -, hcom⟩ := hentries 0 (by omega)
    refine lt_of_lt_of_le ?_ (length_le_columns (List.mem_of_getElem? hv))
    exact (List.getElem?_eq_some_iff.mp hcom).1
  rw [← reconstructs_columnSum_iff hlaw hn hq hK]
  constructor
  · intro h
    rw [← hkey 1 hfirst]
    exact h 1 hfirst
  · intro h i hi
    rw [hkey i hi]
    exact h

/-- Commitments vectors of at most `threshold + 1` entries meet the condition. -/
theorem fallingCoeff_eq_zero_of_short {params : Parameters} {vssSchemeVec : List (VerifiableSS G)}
    (h : ∀ vss ∈ vssSchemeVec, vss.commitments.length ≤ params.threshold + 1) {m : ℕ}
    (hm : params.threshold < m) :
    fallingCoeff (columnSum vssSchemeVec) (columns vssSchemeVec) m = 0 := by
  exact fallingCoeff_eq_zero_of_le _ (le_trans (columns_le_of_forall h) hm)

end Module

end Reconstruct

/-! ## Keys of three parties -/

section Keys

instance fact_prime_seven : Fact (Nat.Prime 7) := ⟨by decide⟩

/-- Two of three parties sign. -/
def twoOfThree : Parameters := ⟨1, 3⟩

theorem mem_Icc_one_three {i : ℕ} (hi : i ∈ Icc 1 twoOfThree.shareCount) :
    i = 1 ∨ i = 2 ∨ i = 3 := by
  obtain ⟨h1, h3⟩ := mem_Icc.mp hi
  have h3 : i ≤ 3 := h3
  omega

/-- Three parties with a line each. -/
def lineCommitments : List (VerifiableSS (ZMod 7)) :=
  [⟨(1, 3), [1, 1]⟩, ⟨(1, 3), [3, 1]⟩, ⟨(1, 3), [2, 1]⟩]

/-- What party `i` receives of `lineCommitments`. -/
def lineShares (i : ℕ) : List (ZMod 7) := [1 + i, 3 + i, 2 + i]

/-- Every two of the three parties recover the key of `lineCommitments`. -/
theorem lineCommitments_reconstruct :
    Reconstructs (additiveCurv 7) twoOfThree lineCommitments 6 := by
  have hok : ∀ i ∈ Icc 1 twoOfThree.shareCount,
      phase2VerifyVssConstructKeypairPhase3PokDlog (additiveCurv 7) twoOfThree [1, 3, 2]
        (lineShares i) lineCommitments i (0 : ℕ) =
          .ok (⟨6, (lineShares i).sum⟩, (lineShares i).sum) := by
    intro i hi
    rcases mem_Icc_one_three hi with rfl | rfl | rfl <;> rfl
  refine (reconstructs_iff_column (additiveCurv_lawfulSharing 7) (by decide) (by decide) hok).mpr
    (fun m hm _ => fallingCoeff_eq_zero_of_short (by decide) hm) 1 (by decide)

/-- Three parties, threshold one: the first commits to a polynomial of degree two. -/
def longCommitments : List (VerifiableSS (ZMod 7)) :=
  [⟨(1, 3), [3, 1, 1]⟩, ⟨(1, 3), [2, 1]⟩, ⟨(1, 3), [1, 1]⟩]

/-- What party `i` receives of `longCommitments`. -/
def longShares (i : ℕ) : List (ZMod 7) := [3 + i + (i : ZMod 7) ^ 2, 2 + i, 1 + i]

/-- Every party accepts, and the first two miss the key. -/
theorem longCommitments_split :
    (∀ i ∈ Icc 1 twoOfThree.shareCount,
      phase2VerifyVssConstructKeypairPhase3PokDlog (additiveCurv 7) twoOfThree [3, 2, 1]
        (longShares i) longCommitments i (0 : ℕ) =
          .ok (⟨6, (longShares i).sum⟩, (longShares i).sum)) ∧
    ¬ Reconstructs (additiveCurv 7) twoOfThree longCommitments 6 := by
  constructor
  · intro i hi
    rcases mem_Icc_one_three hi with rfl | rfl | rfl <;> rfl
  · rintro ⟨xiComVec, heq, hrec⟩
    have hpoints : getCommitmentsToXi (additiveCurv 7) longCommitments = .ok [3, 2, 3] := rfl
    rw [hpoints] at heq
    cases heq
    have hpair := hrec {1, 2} (by decide) (by decide)
    revert hpair
    decide +kernel

end Keys

end VDexNode.Mpt
