import VDexNode.Mpt.Libraries

/-!
# VDexNode.Mpt.SignUtils — `utils/sign_utils.rs`

Two parties turn a product of secrets into a sum.  Alice encrypts `a` under her own key; Bob
multiplies the ciphertext by `b`, adds an encrypted mask and keeps the negated mask; Alice decrypts
her part of the sum and checks it against the points Bob has proved to know the logarithms of.

* `verifyProofsGetAlpha_b` : for honest parties the check passes and the two parts sum to `a b`, as
  long as the plaintext does not wrap.
* `mta_consistent` : **a plaintext that wraps is noticed**, so the parts are never wrong.
-/

namespace VDexNode.Mpt

variable {q : ℕ} {G : Type}

/-- `MessageA`. -/
structure MessageA where
  c : ℕ
deriving DecidableEq

/-- `MessageB`. -/
structure MessageB (crv : Curv q G) where
  c : ℕ
  bProof : crv.DLogProof
  betaTagProof : crv.DLogProof

/-- What `MessageB::b` samples. -/
structure MtaCoins (crv : Curv q G) (P : Paillier) where
  betaTag : ℕ
  encryption : P.Randomness
  nonceB : crv.Nonce
  nonceBetaTag : crv.Nonce

section Functions

variable (crv : Curv q G) (P : Paillier)

/-- `MessageA::a`. -/
def MessageA.a (a : ZMod q) (aliceEk : P.EncryptionKey) (encryption : P.Randomness) : MessageA :=
  ⟨P.encrypt aliceEk a.val encryption⟩

/-- `MessageB::b`: the message for Alice and Bob's own part. -/
def MessageB.b (b : ZMod q) (aliceEk : P.EncryptionKey) (cA : MessageA) (coins : MtaCoins crv P) :
    MessageB crv × ZMod q :=
  let betaTagFe : ZMod q := scalarFrom coins.betaTag
  let cBetaTag := P.encrypt aliceEk coins.betaTag coins.encryption
  let bBn := b.val
  let bCA := P.mul aliceEk cA.c bBn
  let cB := P.add aliceEk bCA cBetaTag
  let beta := 0 - betaTagFe
  (⟨cB, crv.proveDLog b coins.nonceB, crv.proveDLog betaTagFe coins.nonceBetaTag⟩, beta)

variable {crv P} [Fact q.Prime] [AddCommGroup G] [Module (ZMod q) G] [DecidableEq G]

/-- `MessageB::verify_proofs_get_alpha`. -/
def MessageB.verifyProofsGetAlpha (mB : MessageB crv) (dk : P.DecryptionKey) (a : ZMod q) :
    Result (ZMod q) :=
  let aliceShare := P.decrypt dk mB.c
  let alpha : ZMod q := scalarFrom aliceShare
  let gAlpha := alpha • crv.generator
  let baBtag := a • crv.pk mB.bProof + crv.pk mB.betaTagProof
  if crv.verifyDLog mB.bProof && crv.verifyDLog mB.betaTagProof && decide (baBtag = gAlpha) then
    .ok alpha
  else
    .error (.err .invalidKey)

variable {ek : P.EncryptionKey} {dk : P.DecryptionKey}

omit [DecidableEq G] in
/-- Points of the generator are equal only for equal scalars. -/
theorem smul_generator_inj (hgen : crv.generator ≠ 0) {x y : ZMod q} :
    x • crv.generator = y • crv.generator ↔ x = y := by
  rw [← sub_eq_zero, ← sub_smul, smul_eq_zero, sub_eq_zero, or_iff_left hgen]

/-- What Alice's check comes to between honest parties: it compares what she decrypts, reduced
modulo the order of the group, with the combination of the scalars. -/
theorem verifyProofsGetAlpha_eq (hlaw : crv.LawfulSigning) (hpair : P.Paired ek dk) (a b : ZMod q)
    (r : P.Randomness) (coins : MtaCoins crv P) :
    (MessageB.b crv P b ek (MessageA.a P a ek r) coins).1.verifyProofsGetAlpha dk a =
      let alpha : ZMod q := scalarFrom ((a.val * b.val + coins.betaTag) % P.n ek)
      if a * b + (coins.betaTag : ZMod q) = alpha then .ok alpha
      else .error (.err .invalidKey) := by
  have hdec : P.decrypt dk (MessageB.b crv P b ek (MessageA.a P a ek r) coins).1.c
      = (a.val * b.val + coins.betaTag) % P.n ek := by
    show P.decrypt dk (P.add ek (P.mul ek (P.encrypt ek a.val r) b.val)
      (P.encrypt ek coins.betaTag coins.encryption)) = _
    rw [hpair]
  have hpoint : a • crv.pk (crv.proveDLog b coins.nonceB)
      + crv.pk (crv.proveDLog (scalarFrom coins.betaTag) coins.nonceBetaTag)
      = (a * b + (coins.betaTag : ZMod q)) • crv.generator := by
    rw [hlaw.pk_proveDLog, hlaw.pk_proveDLog, add_smul, mul_smul]
    rfl
  simp only [MessageB.verifyProofsGetAlpha, hdec]
  simp only [MessageB.b, hlaw.verifyDLog_prove, Bool.true_and, hpoint, decide_eq_true_eq,
    smul_generator_inj hlaw.generator_ne_zero]

omit [Module (ZMod q) G] [AddCommGroup G] [DecidableEq G] in
/-- The combination of the representatives is the combination of the scalars. -/
theorem cast_val_mul_val_add (a b : ZMod q) (betaTag : ℕ) :
    ((a.val * b.val + betaTag : ℕ) : ZMod q) = a * b + (betaTag : ZMod q) := by
  rw [Nat.cast_add, Nat.cast_mul, ZMod.natCast_zmod_val, ZMod.natCast_zmod_val]

/-- **Multiplication to addition**: Alice gets `a b` plus the mask, Bob holds the negated mask. -/
theorem verifyProofsGetAlpha_b (hlaw : crv.LawfulSigning) (hpair : P.Paired ek dk) (a b : ZMod q)
    (r : P.Randomness) (coins : MtaCoins crv P)
    (hwrap : a.val * b.val + coins.betaTag < P.n ek) :
    (MessageB.b crv P b ek (MessageA.a P a ek r) coins).1.verifyProofsGetAlpha dk a
      = .ok (a * b + (coins.betaTag : ZMod q)) := by
  have hcast := cast_val_mul_val_add a b coins.betaTag
  rw [verifyProofsGetAlpha_eq hlaw hpair, Nat.mod_eq_of_lt hwrap]
  simp only [scalarFrom, hcast, if_true]

/-- A plaintext that wraps once is off by the modulus, which does not vanish in the scalars. -/
theorem verifyProofsGetAlpha_b_wrapped (hlaw : crv.LawfulSigning) (hpair : P.Paired ek dk)
    (a b : ZMod q) (r : P.Randomness) (coins : MtaCoins crv P) (hn : q * q < P.n ek)
    (hq : ¬ q ∣ P.n ek) (hmask : coins.betaTag < P.n ek)
    (hwrap : P.n ek ≤ a.val * b.val + coins.betaTag) :
    (MessageB.b crv P b ek (MessageA.a P a ek r) coins).1.verifyProofsGetAlpha dk a
      = .error (.err .invalidKey) := by
  have hprod : a.val * b.val < P.n ek := by
    calc a.val * b.val ≤ q * q := Nat.mul_le_mul (ZMod.val_lt a).le (ZMod.val_lt b).le
      _ < P.n ek := hn
  have hmod : (a.val * b.val + coins.betaTag) % P.n ek
      = a.val * b.val + coins.betaTag - P.n ek := by
    rw [Nat.mod_eq_sub_mod hwrap, Nat.mod_eq_of_lt (by omega)]
  have hne : a * b + (coins.betaTag : ZMod q)
      ≠ scalarFrom (a.val * b.val + coins.betaTag - P.n ek) := by
    intro heq
    rw [scalarFrom, Nat.cast_sub hwrap, cast_val_mul_val_add, eq_comm, sub_eq_self] at heq
    exact hq ((ZMod.natCast_eq_zero_iff _ _).mp heq)
  rw [verifyProofsGetAlpha_eq hlaw hpair, hmod]
  exact if_neg hne

/-- **The shares are never inconsistent**: between honest parties, with a modulus above `q²` that
`q` does not divide, Alice's check passes exactly when the plaintext does not wrap; then her part
and Bob's sum to `a b`; and otherwise it fails. -/
theorem mta_consistent (hlaw : crv.LawfulSigning) (hpair : P.Paired ek dk) (hn : q * q < P.n ek)
    (hq : ¬ q ∣ P.n ek) (a b : ZMod q) (r : P.Randomness) (coins : MtaCoins crv P)
    (hmask : coins.betaTag < P.n ek) :
    let mB := MessageB.b crv P b ek (MessageA.a P a ek r) coins
    ((∃ alpha, mB.1.verifyProofsGetAlpha dk a = .ok alpha) ↔
      a.val * b.val + coins.betaTag < P.n ek) ∧
    (∀ alpha, mB.1.verifyProofsGetAlpha dk a = .ok alpha → alpha + mB.2 = a * b) ∧
    (¬ a.val * b.val + coins.betaTag < P.n ek →
      mB.1.verifyProofsGetAlpha dk a = .error (.err .invalidKey)) := by
  intro mB
  by_cases hwrap : a.val * b.val + coins.betaTag < P.n ek
  · have hok := verifyProofsGetAlpha_b hlaw hpair a b r coins hwrap
    refine ⟨iff_of_true ⟨_, hok⟩ hwrap, fun alpha halpha => ?_, fun h => absurd hwrap h⟩
    have heq : alpha = a * b + (coins.betaTag : ZMod q) :=
      (Except.ok.inj (hok.symm.trans halpha)).symm
    have hbeta : mB.2 = 0 - (coins.betaTag : ZMod q) := rfl
    rw [heq, hbeta, zero_sub, add_neg_cancel_right]
  · have herr := verifyProofsGetAlpha_b_wrapped hlaw hpair a b r coins hn hq hmask
      (Nat.le_of_not_lt hwrap)
    refine ⟨iff_of_false ?_ hwrap, fun alpha halpha => ?_, fun _ => herr⟩
    · rintro ⟨alpha, halpha⟩
      cases herr.symm.trans halpha
    · cases herr.symm.trans halpha

/-- Coins with a given mask. -/
def maskedWith (betaTag : ℕ) : MtaCoins (additiveCurv 3) clearPaillier :=
  ⟨betaTag, (0 : ℕ), (0 : ℕ), (0 : ℕ)⟩

/-- What Alice gets of 2 times 2 under the modulus 10. -/
def alphaOfFour (betaTag : ℕ) : Result (ZMod 3) :=
  let two : ZMod 3 := (2 : ℕ)
  let mA := MessageA.a clearPaillier two (10 : ℕ) (0 : ℕ)
  let mB := (MessageB.b (additiveCurv 3) clearPaillier two (10 : ℕ) mA (maskedWith betaTag)).1
  mB.verifyProofsGetAlpha (P := clearPaillier) (10 : ℕ) two

/-- Under the mask 5 the plaintext is 9; under the mask 6 it wraps. -/
theorem mta_consistent_four :
    (∃ alpha, alphaOfFour 5 = .ok alpha) ∧ alphaOfFour 6 = .error (.err .invalidKey) := by
  have hall := fun (betaTag : ℕ) (hmask : betaTag < 10) =>
    mta_consistent (additiveCurv_lawfulSigning 3) (clearPaillier_paired 10)
      (show 3 * 3 < 10 by decide) (show ¬ 3 ∣ 10 by decide) (2 : ℕ) (2 : ℕ) (0 : ℕ)
      (maskedWith betaTag) hmask
  exact ⟨(hall 5 (by decide)).1.mpr (by decide), (hall 6 (by decide)).2.2 (by decide)⟩

end Functions

end VDexNode.Mpt
