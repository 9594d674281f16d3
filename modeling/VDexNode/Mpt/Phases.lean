import VDexNode.Lib.Rounds
import VDexNode.Mpt.KeyGenUtils

/-!
# VDexNode.Mpt.Phases — the phases of signing on honest vectors

What each phase of `key_gen_utils.rs` returns when the vectors it is given have one entry for each
party of a list `l` and the entries open their commitments.

* `phase4_map` : `R` without the own part is the inverted `delta` times the sum of the `gamma`s.
* `phase5c_map` : the two points a signer commits to.
* `phase5d_map` : **the last check compares two sums over the signers and nothing else.**
* `phase5_balance_iff` : **these sums agree exactly when the combined signature is right**, or the
  `ρ_i` sum to zero.
* `verify_ok` : `s R = m g + r y` is what `verify` needs.
-/

namespace VDexNode.Mpt

open Finset

variable {q : ℕ} {G : Type} {ι : Type}

/-! ## Vectors of a list of parties -/

/-- `(0..len).map(f).all(..)` over the vectors of the parties `l`. -/
theorem allM_range_eq_ok_true {l : List ι} {f : ℕ → Result Bool}
    (h : ∀ j i, l[j]? = some i → f j = .ok true) : (List.range l.length).allM f = .ok true := by
  refine allM_eq_ok_true.mpr (fun j hj => ?_)
  have hlt : j < l.length := List.mem_range.mp hj
  exact h j l[j] (List.getElem?_eq_getElem hlt)

theorem foldl_add_map {M α : Type} [AddMonoid M] (f : α → M) (a : M) (l : List α) :
    l.foldl (fun acc x => acc + f x) a = a + (l.map f).sum := by
  rw [← foldl_add_eq_sum, List.foldl_map]

theorem foldl_sub_map {M α : Type} [AddCommGroup M] (f : α → M) (a : M) (l : List α) :
    l.foldl (fun acc x => acc - f x) a = a - (l.map f).sum := by
  induction l generalizing a with
  | nil => simp
  | cons x l ih =>
    rw [List.foldl_cons, ih, List.map_cons, List.sum_cons]
    abel

/-! ## Scalars -/

theorem invert_eq_ok [Fact q.Prime] {x : ZMod q} (hx : x ≠ 0) : invert x = .ok x⁻¹ := by
  rw [invert, if_neg hx]

theorem phase2Sum_map [Fact q.Prime] (own : ZMod q) (a b : ι → ZMod q) (l : List ι) :
    phase2Sum own (l.map a) (l.map b) = .ok (own + (l.map (fun i => a i + b i)).sum) := by
  have hlen : (l.map a).length = (l.map b).length := by rw [List.length_map, List.length_map]
  simp only [phase2Sum, bind_eq_ok, assertEq_eq_ok, exists_const, pure_eq_ok]
  refine ⟨hlen, ?_⟩
  rw [foldl_add_eq_sum, List.zipWith_map, List.zipWith_self]

section Points

variable [Fact q.Prime] [AddCommGroup G] [Module (ZMod q) G] {c : Curv q G}

/-! ## Phase 4 -/

/-- Commitments to the proved points open: `R` without the own part. -/
theorem phase4_map [DecidableEq G] (deltaInv : ZMod q) {l : List ι} (hl : l ≠ [])
    {B : ι → c.DLogProof} {D : ι → SignDecommitPhase1 G} {C : ι → SignBroadcastPhase1}
    (h : ∀ i ∈ l, c.pk (B i) = (D i).gGammai ∧
      c.createCommitment (c.bytesCompressedToBigInt (D i).gGammai) (D i).blindFactor = (C i).com) :
    phase4 c deltaInv (l.map B) (l.map D) (l.map C)
      = .ok (deltaInv • (l.map (fun i => (D i).gGammai)).sum) := by
  have htest : (List.range (l.map B).length).allM (verifyGammaCom c (l.map B) (l.map D) (l.map C))
      = .ok true := by
    rw [List.length_map]
    refine allM_range_eq_ok_true (fun j i hj => ?_)
    obtain ⟨hpk, hcom⟩ := h i (List.mem_of_getElem? hj)
    simp only [verifyGammaCom, index_map hj, ok_bind, hpk, if_true, hcom, decide_true]
    rfl
  obtain ⟨i, rest, rfl⟩ := List.exists_cons_of_ne_nil hl
  rw [phase4, htest]
  simp only [ok_bind, List.map_cons, List.head?_cons, unwrap, List.tail_cons, if_true,
    foldl_add_map, List.map_map, Function.comp_def, List.sum_cons]
  rfl

/-! ## Phase 5 -/

namespace LocalSignature

/-- Commitments and proofs of the others are valid: what a signer commits to next. -/
theorem phase5c_map {sig : LocalSignature q G} {l : List ι} (hl : l ≠ [])
    {D : ι → Phase5ADecom1 G} {C : ι → Phase5Com1} {E : ι → c.HomoElGamalProof} {vi R : G}
    {blindFactor : ℕ} {r : ZMod q} (hr : c.rOf sig.R = .ok r)
    (h : ∀ i ∈ l, c.createCommitment (c.createHashFromGe [(D i).Vi, (D i).Ai, (D i).Bi])
        (D i).blindFactor = (C i).com ∧
      c.verifyHomoElGamal (E i) ⟨(D i).Ai, R, c.generator, (D i).Vi, (D i).Bi⟩ = true) :
    phase5c c sig (l.map D) (l.map C) (l.map E) vi R blindFactor =
      let ui := sig.rhoi • (vi + (l.map (fun i => (D i).Vi)).sum
        - (scalarFrom sig.m : ZMod q) • c.generator - r • sig.y)
      let ti := sig.li • (l.map (fun i => (D i).Ai)).sum
      .ok (⟨c.createCommitment (c.createHashFromGe [ui, ti]) blindFactor⟩,
        ⟨ui, ti, blindFactor⟩) := by
  have hlen : assertEq (l.map D).length (l.map C).length = .ok () := by
    rw [assertEq_eq_ok, List.length_map, List.length_map]
  have htest : (List.range (l.map C).length).allM
      (verifyElGamalCom c (l.map D) (l.map C) (l.map E) R) = .ok true := by
    rw [List.length_map]
    refine allM_range_eq_ok_true (fun j i hj => ?_)
    obtain ⟨hcom, hproof⟩ := h i (List.mem_of_getElem? hj)
    simp only [verifyElGamalCom, index_map hj, ok_bind, hcom, if_true, hproof]
    rfl
  obtain ⟨i, rest, rfl⟩ := List.exists_cons_of_ne_nil hl
  rw [phase5c, hlen, htest, hr]
  simp only [ok_bind, List.map_cons, List.head?_cons, unwrap, List.tail_cons, if_true,
    foldl_add_map, List.map_map, Function.comp_def, List.sum_cons]
  rfl

omit [Fact q.Prime] [Module (ZMod q) G] in
/-- **The last check**: with all commitments opened, it compares the sum of the `t_i` and `B_i` with
the sum of the `u_i`. -/
theorem phase5d_map [DecidableEq G] {sig : LocalSignature q G} {l : List ι}
    {D2 : ι → Phase5DDecom2 G} {C2 : ι → Phase5Com2} {D1 : ι → Phase5ADecom1 G}
    (h : ∀ i ∈ l, c.createCommitment (c.createHashFromGe [(D2 i).ui, (D2 i).ti])
      (D2 i).blindFactor = (C2 i).com) :
    phase5d c sig (l.map D2) (l.map C2) (l.map D1) =
      if (l.map (fun i => (D2 i).ti + (D1 i).Bi)).sum = (l.map (fun i => (D2 i).ui)).sum then
        .ok sig.si
      else
        .error (.err .invalidKey) := by
  have hlen1 : assertEq (l.map D2).length (l.map D1).length = .ok () := by
    rw [assertEq_eq_ok, List.length_map, List.length_map]
  have hlen2 : assertEq (l.map D2).length (l.map C2).length = .ok () := by
    rw [assertEq_eq_ok, List.length_map, List.length_map]
  have htest : (List.range (l.map C2).length).allM (verifyCom2 c (l.map D2) (l.map C2))
      = .ok true := by
    rw [List.length_map]
    refine allM_range_eq_ok_true (fun j i hj => ?_)
    have hcom := h i (List.mem_of_getElem? hj)
    simp only [verifyCom2, index_map hj, ok_bind, hcom, decide_true]
    rfl
  have hzip : ((l.map D2).zip (l.map D1)).foldl (fun acc x => acc + x.1.ti + x.2.Bi) c.generator
      = c.generator + (l.map (fun i => (D2 i).ti + (D1 i).Bi)).sum := by
    simp only [add_assoc]
    rw [foldl_add_map (fun x : Phase5DDecom2 G × Phase5ADecom1 G => x.1.ti + x.2.Bi),
      List.zip_map', List.map_map]
    rfl
  rw [phase5d, hlen1, hlen2, htest]
  simp only [ok_bind, if_true, hzip, foldl_sub_map, List.map_map, Function.comp_def]
  refine if_congr ?_ rfl rfl
  rw [add_sub_assoc, left_eq_add, sub_eq_zero]

end LocalSignature

/-! ## The sums of phase 5 -/

/-- What the signers publish balances exactly when `ρ (s R - X) = 0` for the sums `ρ` and `s`: `V_i`
is `s_i R + l_i g`, `A_i` is `ρ_i g`, `B_i` is `l_i ρ_i g`, and `X` the point `m g + r y`. -/
theorem phase5_balance_iff (s l rho : ℕ → ZMod q) (R g X Y : G) (n : ℕ) :
    (∑ i ∈ Icc 1 n, (l i • ((others n i).map (fun j => rho j • g)).sum + (l i * rho i) • g)
        = ∑ i ∈ Icc 1 n, rho i • ((s i • R + l i • g)
            + ((others n i).map (fun j => s j • R + l j • g)).sum - X - Y)) ↔
      (∑ i ∈ Icc 1 n, rho i) • ((∑ i ∈ Icc 1 n, s i) • R - X - Y) = 0 := by
  have hleft : ∀ i ∈ Icc 1 n, l i • ((others n i).map (fun j => rho j • g)).sum
      + (l i * rho i) • g = l i • (∑ j ∈ Icc 1 n, rho j) • g := by
    intro i hi
    obtain ⟨h1, hn⟩ := mem_Icc.mp hi
    rw [sum_smul, ← add_sum_map_others (fun j => rho j • g) h1 hn, mul_smul, smul_add, add_comm]
  have hright : ∀ i ∈ Icc 1 n, rho i • ((s i • R + l i • g)
      + ((others n i).map (fun j => s j • R + l j • g)).sum - X - Y)
        = rho i • ((∑ j ∈ Icc 1 n, s j) • R + (∑ j ∈ Icc 1 n, l j) • g - X - Y) := by
    intro i hi
    obtain ⟨h1, hn⟩ := mem_Icc.mp hi
    rw [add_sum_map_others (fun j => s j • R + l j • g) h1 hn, sum_add_distrib, ← sum_smul,
      ← sum_smul]
  rw [sum_congr rfl hleft, sum_congr rfl hright, ← sum_smul, ← sum_smul, ← sub_eq_zero,
    ← neg_eq_zero]
  refine Eq.congr ?_ rfl
  module

/-! ## The signature -/

/-- A signature with `s R = m g + r y`, where `r` is the coordinate of `R`, verifies. -/
theorem verify_ok {r s : ZMod q} {R y : G} {message : ℕ} (hs : s ≠ 0) (hr : c.rOf R = .ok r)
    (heq : s • R = (scalarFrom message : ZMod q) • c.generator + r • y) :
    verify c ⟨r, s⟩ y message = .ok () := by
  have hpoint : ((scalarFrom message : ZMod q) * s⁻¹) • c.generator + (r * s⁻¹) • y = R := by
    calc ((scalarFrom message : ZMod q) * s⁻¹) • c.generator + (r * s⁻¹) • y
        = s⁻¹ • (s • R) := by
          rw [heq, smul_add, smul_smul, smul_smul, mul_comm s⁻¹, mul_comm s⁻¹]
      _ = R := by rw [smul_smul, inv_mul_cancel₀ hs, one_smul]
  simp only [verify, invert_eq_ok hs, ok_bind, hpoint, hr, if_true]

theorem LocalSignature.outputSignature_ok {sig : LocalSignature q G} {r s : ZMod q}
    {sVec : List (ZMod q)} (hsum : sig.si + sVec.sum = s) (hr : c.rOf sig.R = .ok r)
    (hver : verify c ⟨r, s⟩ sig.y sig.m = .ok ()) :
    sig.outputSignature c sVec = .ok ⟨r, s⟩ := by
  simp only [outputSignature, foldl_add_eq_sum, hsum, hr, ok_bind, hver, isOk_ok, if_true]
  rfl

end Points

end VDexNode.Mpt
