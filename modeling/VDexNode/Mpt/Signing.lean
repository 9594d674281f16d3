import VDexNode.Mpt.Balance
import VDexNode.Mpt.Honest

/-!
# VDexNode.Mpt.Signing — threshold signing is correct

An honest session of `sign.rs`, round by round: `locals1` to `locals9` are the local variables of
signer `i` in closed form, one lemma for each round says that its piece of `main` computes them, and
the sums over all signers collapse to `k` and `k (m + r x)`.

* `round3_honest` : no check on the exchanged messages fails.
* `round5_honest` : **every signer reconstructs the same `R`.**
* `round9_honest` : the last check passes.
* `session_signs` : **every signer outputs the same signature, and it verifies.**
-/

namespace VDexNode.Mpt

open Finset

namespace SigningGroup

variable {q : ℕ} {G : Type} [Fact q.Prime] {c : Curv q G} {P : Paillier} {d : Deal q P}
  (g : SigningGroup d) (coins : ℕ → Coins c P)

/-! ## The scalars of the signers -/

/-- The part of signer `i` in the product of the sums of `a` and `b`. -/
def part (n : ℕ) (a b : ℕ → ZMod q) (tag : ℕ → ℕ → ZMod q) (i : ℕ) : ZMod q :=
  a i * b i + ((others n i).map (fun j => a i * b j + tag j i + (0 - tag i j))).sum

variable (d) in
def deltai (i : ℕ) : ZMod q :=
  part (d.t + 1) (fun i => (coins i).ki) (fun i => (coins i).gammai)
    (fun i j => ((coins i).mtaGamma j).betaTag) i

def sigmai (i : ℕ) : ZMod q :=
  part (d.t + 1) (fun i => (coins i).ki) g.wi (fun i j => ((coins i).mtaW j).betaTag) i

variable (d) in
/-- The sum of the `k_i`. -/
def kSum : ZMod q := ∑ i ∈ Icc 1 (d.t + 1), (coins i).ki

variable (d) in
/-- The sum of the `gamma_i`. -/
def gammaSum : ZMod q := ∑ i ∈ Icc 1 (d.t + 1), (coins i).gammai

theorem sum_deltai : ((List.range' 1 (d.t + 1)).map (deltai d coins)).sum
    = kSum d coins * gammaSum d coins := by
  rw [sum_map_range']
  exact sum_products _ _ _ _

theorem sum_sigmai : ∑ i ∈ Icc 1 (d.t + 1), g.sigmai coins i = kSum d coins * d.secretAt 0 := by
  rw [← g.sum_wi]
  exact sum_products _ _ _ _

variable (message : ℕ) (r : ZMod q)

/-- The part of signer `i` in the signature. -/
def si (i : ℕ) : ZMod q := scalarFrom (message % 2 ^ 256) * (coins i).ki + r * g.sigmai coins i

variable (d) in
/-- The sum of the parts. -/
def sSum : ZMod q := kSum d coins * (scalarFrom (message % 2 ^ 256) + r * d.secretAt 0)

theorem sum_si : ∑ i ∈ Icc 1 (d.t + 1), g.si coins message r i = sSum d coins message r := by
  simp only [si, sum_add_distrib, ← mul_sum]
  rw [g.sum_sigmai, sSum, kSum]
  ring

variable [AddCommGroup G] [Module (ZMod q) G]

/-! ## Local variables in closed form -/

/-- The local keys of signer `i`. -/
def signKeys (i : ℕ) : SignKeys q G where
  wi := g.wi i
  gWi := g.wi i • c.generator
  ki := (coins i).ki
  gammai := (coins i).gammai
  gGammai := (coins i).gammai • c.generator

/-- The commitment of signer `i` to its `gammai`. -/
def com (i : ℕ) : SignBroadcastPhase1 :=
  ⟨c.createCommitment (c.bytesCompressedToBigInt ((coins i).gammai • c.generator))
    (coins i).blindFactor1⟩

def decommit (i : ℕ) : SignDecommitPhase1 G :=
  ⟨(coins i).blindFactor1, (coins i).gammai • c.generator⟩

/-- The encrypted `ki` of signer `i`. -/
def mAK (i : ℕ) : MessageA :=
  MessageA.a P (coins i).ki (d.ek (g.ids i)) (coins i).encryption

def locals1 (i : ℕ) : Locals1 q G where
  signersVec := g.signersVec
  signKeys := g.signKeys coins i
  xiComVec := (List.range' 1 d.n).map (xiPoint q (d.vssSchemeVec c))
  com := com coins i
  decommit := decommit coins i
  mAK := g.mAK coins i

/-- The answers of signer `i` to the ciphertext of signer `j`. -/
def mBGamma (i j : ℕ) : MessageB c × ZMod q :=
  MessageB.b c P (coins i).gammai (d.ek (g.ids j)) (g.mAK coins j) ((coins i).mtaGamma j)

def mBW (i j : ℕ) : MessageB c × ZMod q :=
  MessageB.b c P (g.wi i) (d.ek (g.ids j)) (g.mAK coins j) ((coins i).mtaW j)

def locals2 (i : ℕ) : Locals2 c :=
  { g.locals1 coins i with
    bc1Vec := (List.range' 1 (d.t + 1)).map (com coins)
    betaVec := (others (d.t + 1) i).map (fun j => (g.mBGamma coins i j).2)
    niVec := (others (d.t + 1) i).map (fun j => (g.mBW coins i j).2)
    sends := (others (d.t + 1) i).map (fun j => (j, (g.mBGamma coins i j).1, (g.mBW coins i j).1)) }

def locals3 (i : ℕ) : Locals3 c :=
  { g.locals2 coins i with
    mBGammaRecVec := (others (d.t + 1) i).map (fun j => (g.mBGamma coins j i).1)
    deltai := deltai d coins i
    sigma := g.sigmai coins i }

def locals4 (i : ℕ) : Locals4 c :=
  { g.locals3 coins i with deltaInv := (kSum d coins * gammaSum d coins)⁻¹ }

variable (d) in
/-- The point all signers reconstruct. -/
def pointR : G := (kSum d coins)⁻¹ • c.generator

def localSig (i : ℕ) : LocalSignature q G where
  li := (coins i).li
  rhoi := (coins i).rhoi
  R := pointR d coins
  si := g.si coins message r i
  m := message % 2 ^ 256
  y := d.secretAt 0 • c.generator

/-- What signer `i` publishes in phases 5A and 5B. -/
def phase5a (i : ℕ) : Phase5Com1 × Phase5ADecom1 G × c.HomoElGamalProof :=
  (g.localSig coins message r i).phase5aBroadcast5bZkproof c (coins i).blindFactor5a
    (coins i).nonce5b

/-- What the signers bring into phase 5. -/
def phase5 : Phase5 c where
  t := d.t
  R := pointR d coins
  m := message % 2 ^ 256
  y := d.secretAt 0 • c.generator
  l i := (coins i).li
  rho i := (coins i).rhoi
  s := g.si coins message r
  blindFactor5a i := (coins i).blindFactor5a
  nonce5b i := (coins i).nonce5b
  blindFactor5c i := (coins i).blindFactor5c

def locals5 (i : ℕ) : Locals5 c where
  R := pointR d coins
  localSig := g.localSig coins message r i
  phase5Com := (g.phase5a coins message r i).1
  phase5aDecom := (g.phase5a coins message r i).2.1
  helgamalProof := (g.phase5a coins message r i).2.2

def locals6 (i : ℕ) : Locals6 c :=
  { g.locals5 coins message r i with
    commit5aVec := (List.range' 1 (d.t + 1)).map (fun j => (g.phase5a coins message r j).1) }

/-- The two points signer `i` commits to in phase 5C. -/
def decom2 (i : ℕ) : Phase5DDecom2 G where
  ui := (coins i).rhoi • ((g.phase5a coins message r i).2.1.Vi
    + ((others (d.t + 1) i).map (fun j => (g.phase5a coins message r j).2.1.Vi)).sum
    - (scalarFrom (message % 2 ^ 256) : ZMod q) • c.generator
    - r • d.secretAt 0 • c.generator)
  ti := (coins i).li •
    ((others (d.t + 1) i).map (fun j => (g.phase5a coins message r j).2.1.Ai)).sum
  blindFactor := (coins i).blindFactor5c

def com2 (i : ℕ) : Phase5Com2 :=
  ⟨c.createCommitment (c.createHashFromGe
    [(g.decom2 coins message r i).ui, (g.decom2 coins message r i).ti]) (coins i).blindFactor5c⟩

def locals7 (i : ℕ) : Locals7 c :=
  { g.locals5 coins message r i with
    decommit5aAndElgamalVecIncludesI :=
      (List.range' 1 (d.t + 1)).map (fun j => (g.phase5a coins message r j).2)
    phase5Com2 := g.com2 coins message r i
    phase5dDecom2 := g.decom2 coins message r i }

def locals8 (i : ℕ) : Locals8 c :=
  { g.locals7 coins message r i with
    commit5cVec := (List.range' 1 (d.t + 1)).map (g.com2 coins message r) }

def locals9 (i : ℕ) : Locals9 c :=
  { g.locals8 coins message r i with si := g.si coins message r i }

/-! ## The rounds -/

section Rounds

/-- The answers of signer `i` to the ciphertexts of `l`. -/
def mtaVecs (i : ℕ) (l : List ℕ) : Signer.MtaVecs c where
  mBGammaSendVec := l.map (fun j => (g.mBGamma coins i j).1)
  betaVec := l.map (fun j => (g.mBGamma coins i j).2)
  mBWSendVec := l.map (fun j => (g.mBW coins i j).1)
  niVec := l.map (fun j => (g.mBW coins i j).2)

variable {message : ℕ} {r : ZMod q} {i : ℕ}

theorem collectSigners_honest (h1 : 1 ≤ i) (hn : i ≤ d.t + 1) :
    (g.signer c message coins i).collectSigners ((others (d.t + 1) i).map g.ids)
      = .ok g.signersVec := by
  show forOthers (d.t + 1) i _ _ [] = _
  refine forOthers_eq_ok (fun pre => pre.map (fun j => g.ids j - 1)) (fun pre => ?_)
    (fun pre j k _ hk => ?_)
  · show (do
      let s ← pred (g.ids i)
      return pre.map (fun j => g.ids j - 1) ++ [s] : Result (List ℕ)) = _
    rw [pred_eq_ok (g.ids_mem i h1 hn).1, List.map_append]
    rfl
  · obtain ⟨hj, -⟩ := mem_others.mp (List.mem_of_getElem? hk)
    simp only [index_map hk, ok_bind, pred_eq_ok (g.ids_mem j hj.1 hj.2).1,
      List.map_append]
    rfl

theorem round1_honest (hshare : c.LawfulSharing) (hsign : c.LawfulSigning) (h1 : 1 ≤ i)
    (hn : i ≤ d.t + 1) :
    (g.signer c message coins i).round1 ((others (d.t + 1) i).map g.ids)
      = .ok (g.locals1 coins i) := by
  obtain ⟨vss, hvss⟩ := g.index_vssSchemeVec (c := c) h1 hn
  have hown : index g.signersVec (i - 1) = .ok (g.ids i - 1) := index_range'_map _ h1 hn
  have hxi : getCommitmentsToXi c (d.vssSchemeVec c)
      = .ok ((List.range' 1 d.n).map (xiPoint q (d.vssSchemeVec c))) := by
    rw [getCommitmentsToXi_eq hshare, d.length_vssSchemeVec]
  have hkeys : SignKeys.create c (PartyPrivate.setPrivate (d.keyFile c (g.ids i)).partyKeys
      (d.keyFile c (g.ids i)).sharedKeys) vss (g.ids i - 1) g.signersVec (coins i).gammai
      (coins i).ki = g.signKeys coins i := by
    simp only [SignKeys.create, g.mapShareToNewParams_eq hsign vss h1 hn]
    rfl
  rw [Signer.round1, g.collectSigners_honest coins h1 hn]
  simp only [ok_bind]
  rw [show (g.signer c message coins i).partyNumInt = i from rfl, pred_eq_ok h1, ok_bind, hown,
    ok_bind, show (g.signer c message coins i).keyFile.vssSchemeVec = d.vssSchemeVec c from rfl,
    hvss, ok_bind, hxi, ok_bind]
  show Except.ok _ = _
  simp only [signer, hkeys]
  rfl

theorem answerMta_honest :
    (g.signer c message coins i).answerMta (g.locals1 coins i)
        ((others (d.t + 1) i).map (g.mAK coins))
      = .ok (g.mtaVecs coins i (others (d.t + 1) i)) := by
  show forOthers (d.t + 1) i .ok _ (g.mtaVecs coins i []) = _
  refine forOthers_skip_eq_ok (g.mtaVecs coins i) (fun pre j k hk => ?_)
  obtain ⟨⟨hj1, hjn⟩, -⟩ := mem_others.mp (List.mem_of_getElem? hk)
  have hsigner : index (g.locals1 coins i).signersVec (j - 1) = .ok (g.ids j - 1) :=
    index_range'_map _ hj1 hjn
  have hek : index (g.signer c message coins i).keyFile.paillierKeyVector (g.ids j - 1)
      = .ok (d.ek (g.ids j)) := g.index_keyVec d.ek hj1 hjn
  rw [hsigner, ok_bind, hek, ok_bind, index_map hk, ok_bind]
  simp only [mtaVecs, List.map_append]
  rfl

theorem sendMta_honest :
    (g.signer c message coins i).sendMta (g.mtaVecs coins i (others (d.t + 1) i))
      = .ok (g.locals2 coins i).sends := by
  show forOthers (d.t + 1) i .ok _ [] = _
  refine forOthers_skip_eq_ok
    (fun pre => pre.map (fun j => (j, (g.mBGamma coins i j).1, (g.mBW coins i j).1)))
    (fun pre j k hk => ?_)
  simp only [mtaVecs]
  rw [index_map hk, ok_bind, index_map hk, ok_bind, List.map_append]
  rfl


theorem round2_honest :
    (g.signer c message coins i).round2 (g.locals1 coins i)
        ((others (d.t + 1) i).map (fun j => ((g.locals1 coins j).com, (g.locals1 coins j).mAK)))
      = .ok (g.locals2 coins i) := by
  have hread : (g.signer c message coins i).collectRound1 (g.locals1 coins i).com
      ((others (d.t + 1) i).map (fun j => ((g.locals1 coins j).com, (g.locals1 coins j).mAK)))
      = .ok ((List.range' 1 (d.t + 1)).map (com coins),
        (others (d.t + 1) i).map (g.mAK coins)) := by
    show forOthers (d.t + 1) i _ _ ([], []) = _
    refine forOthers_eq_ok
      (fun pre => (pre.map (com coins), (pre.filter (· ≠ i)).map (g.mAK coins)))
      (fun pre => ?_) (fun pre j k hj hk => ?_)
    · simp only [List.map_append, List.filter_append]
      simp [locals1]
    · simp only [index_map hk, ok_bind, List.map_append, List.filter_append]
      simp [locals1, hj]
  have hlen : assertEq (g.locals1 coins i).signersVec.length
      ((List.range' 1 (d.t + 1)).map (com coins)).length = .ok () := by
    rw [assertEq_eq_ok, List.length_map]
    exact List.length_map _
  rw [Signer.round2, hread]
  simp only [ok_bind]
  rw [hlen, ok_bind, g.answerMta_honest, ok_bind, g.sendMta_honest]
  rfl

/-- The public point of `wi`, which signer `j` proves to know the logarithm of. -/
theorem updateCommitments_honest (hsign : c.LawfulSigning) (vss : VerifiableSS G) {j : ℕ}
    (hj1 : 1 ≤ j) (hjn : j ≤ d.t + 1) :
    updateCommitmentsToXi c (xiPoint q (d.vssSchemeVec c) (g.ids j)) vss (g.ids j - 1) g.signersVec
      = g.wi j • c.generator := by
  rw [updateCommitmentsToXi, g.mapShareToNewParams_eq hsign vss hj1 hjn, d.xiPoint_eq, smul_smul,
    wi]

theorem verifyMta_honest [DecidableEq G] (hsign : c.LawfulSigning) (hwrap : g.NoWrap coins)
    (h1 : 1 ≤ i) (hn : i ≤ d.t + 1) :
    (g.signer c message coins i).verifyMta (g.locals2 coins i)
        ((others (d.t + 1) i).map (fun j => (g.mBGamma coins j i).1))
        ((others (d.t + 1) i).map (fun j => (g.mBW coins j i).1))
      = .ok ((others (d.t + 1) i).map (fun j => (coins i).ki * (coins j).gammai
            + (((coins j).mtaGamma i).betaTag : ZMod q)),
          (others (d.t + 1) i).map (fun j => (coins i).ki * g.wi j
            + (((coins j).mtaW i).betaTag : ZMod q))) := by
  show forOthers (d.t + 1) i .ok _ ([], []) = _
  refine forOthers_skip_eq_ok (fun pre =>
    (pre.map (fun j => (coins i).ki * (coins j).gammai + (((coins j).mtaGamma i).betaTag : ZMod q)),
      pre.map (fun j => (coins i).ki * g.wi j + (((coins j).mtaW i).betaTag : ZMod q))))
    (fun pre j k hk => ?_)
  obtain ⟨⟨hj1, hjn⟩, hne⟩ := mem_others.mp (List.mem_of_getElem? hk)
  obtain ⟨hgamma, hw⟩ := hwrap j (mem_Icc.mpr ⟨hj1, hjn⟩) i (mem_Icc.mpr ⟨h1, hn⟩) hne
  obtain ⟨hid1, hidn⟩ := g.ids_mem i h1 hn
  have hpair := d.paired (g.ids i) hid1 hidn
  obtain ⟨vss, hvss⟩ := g.index_vssSchemeVec (c := c) hj1 hjn
  have hvss : index (g.signer c message coins i).keyFile.vssSchemeVec (g.ids j - 1) = .ok vss :=
    hvss
  have halpha : (g.mBGamma coins j i).1.verifyProofsGetAlpha
      (g.signer c message coins i).keyFile.partyKeys.dk (g.locals2 coins i).signKeys.ki
      = .ok ((coins i).ki * (coins j).gammai + (((coins j).mtaGamma i).betaTag : ZMod q)) :=
    verifyProofsGetAlpha_b hsign hpair _ _ _ _ hgamma
  have hmiu : (g.mBW coins j i).1.verifyProofsGetAlpha
      (g.signer c message coins i).keyFile.partyKeys.dk (g.locals2 coins i).signKeys.ki
      = .ok ((coins i).ki * g.wi j + (((coins j).mtaW i).betaTag : ZMod q)) :=
    verifyProofsGetAlpha_b hsign hpair _ _ _ _ hw
  have hsigner : index (g.locals2 coins i).signersVec (j - 1) = .ok (g.ids j - 1) :=
    index_range'_map _ hj1 hjn
  have hxi : index (g.locals2 coins i).xiComVec (g.ids j - 1)
      = .ok (xiPoint q (d.vssSchemeVec c) (g.ids j)) := g.index_keyVec _ hj1 hjn
  have hpoint : c.pk (g.mBW coins j i).1.bProof = g.wi j • c.generator :=
    hsign.pk_proveDLog (g.wi j) _
  have hassert : assertEq (c.pk (g.mBW coins j i).1.bProof)
      (updateCommitmentsToXi c (xiPoint q (d.vssSchemeVec c) (g.ids j)) vss (g.ids j - 1)
        (g.locals2 coins i).signersVec) = .ok () := by
    rw [assertEq_eq_ok, hpoint]
    exact (g.updateCommitments_honest hsign vss hj1 hjn).symm
  dsimp only
  rw [index_map hk, ok_bind, halpha, expect_ok, ok_bind, index_map hk, ok_bind, hmiu,
    expect_ok, ok_bind, hsigner, ok_bind, hxi, ok_bind, hvss, ok_bind, hassert, ok_bind,
    List.map_append, List.map_append]
  rfl

/-- **No check on the exchanged messages fails**, and the parts of every signer are those of the two
products. -/
theorem round3_honest [DecidableEq G] (hsign : c.LawfulSigning) (hwrap : g.NoWrap coins)
    (h1 : 1 ≤ i) (hn : i ≤ d.t + 1) :
    (g.signer c message coins i).round3 (g.locals2 coins i)
        ((others (d.t + 1) i).map (fun j => ((g.mBGamma coins j i).1, (g.mBW coins j i).1)))
      = .ok (g.locals3 coins i) := by
  have hlen := length_others h1 hn
  have hread : (List.range (g.signer c message coins i).threshold).mapM (index
      ((others (d.t + 1) i).map (fun j => ((g.mBGamma coins j i).1, (g.mBW coins j i).1))))
      = .ok ((others (d.t + 1) i).map
          (fun j => ((g.mBGamma coins j i).1, (g.mBW coins j i).1))) := by
    refine mapM_index_self ?_
    rw [List.length_map]
    exact Nat.succ.inj hlen
  rw [Signer.round3, hread, ok_bind]
  simp only [List.map_map, Function.comp_def]
  rw [g.verifyMta_honest coins hsign hwrap h1 hn, ok_bind]
  dsimp only
  rw [SignKeys.phase2Deltai, SignKeys.phase2Sigmai]
  simp only [locals2]
  rw [phase2Sum_map, ok_bind, phase2Sum_map]
  rfl

theorem round4_honest (hk : kSum d coins ≠ 0) (hgamma : gammaSum d coins ≠ 0) (h1 : 1 ≤ i)
    (hn : i ≤ d.t + 1) :
    (g.signer c message coins i).round4 (g.locals3 coins i)
        ((others (d.t + 1) i).map (deltai d coins)) = .ok (g.locals4 coins i) := by
  have hread : formatVecFromReads ((others (d.t + 1) i).map (deltai d coins)) i (deltai d coins i)
      = .ok ((List.range' 1 (d.t + 1)).map (deltai d coins)) := formatVecFromReads_others h1 hn _
  have hinv : phase3ReconstructDelta ((List.range' 1 (d.t + 1)).map (deltai d coins))
      = .ok (kSum d coins * gammaSum d coins)⁻¹ := by
    rw [phase3ReconstructDelta, foldl_add_eq_sum, zero_add, sum_deltai]
    exact invert_eq_ok (mul_ne_zero hk hgamma)
  show (do
    let deltaVec ← formatVecFromReads ((others (d.t + 1) i).map (deltai d coins)) i
      (deltai d coins i)
    let deltaInv ← phase3ReconstructDelta deltaVec
    return { g.locals3 coins i with deltaInv } : Result (Locals4 c)) = _
  rw [hread, ok_bind, hinv]
  rfl

/-- The parts of `R` add up. -/
theorem pointR_eq (hgamma : gammaSum d coins ≠ 0) (h1 : 1 ≤ i) (hn : i ≤ d.t + 1) :
    (kSum d coins * gammaSum d coins)⁻¹
        • ((others (d.t + 1) i).map (fun j => (coins j).gammai • c.generator)).sum
      + (kSum d coins * gammaSum d coins)⁻¹ • (coins i).gammai • c.generator
      = pointR d coins := by
  rw [← smul_add, add_comm, add_sum_map_others (fun j => (coins j).gammai • c.generator) h1 hn,
    ← sum_smul, smul_smul, mul_inv, mul_assoc]
  show ((kSum d coins)⁻¹ * ((gammaSum d coins)⁻¹ * gammaSum d coins)) • c.generator = _
  rw [inv_mul_cancel₀ hgamma, mul_one, pointR]

/-- **Every signer reconstructs the same `R`.** -/
theorem round5_honest [DecidableEq G] (hsign : c.LawfulSigning) (hgamma : gammaSum d coins ≠ 0)
    (hr : c.rOf (pointR d coins) = .ok r) (h1 : 1 ≤ i) (hn : i ≤ d.t + 1) :
    (g.signer c message coins i).round5 (g.locals4 coins i)
        ((others (d.t + 1) i).map (decommit coins)) = .ok (g.locals5 coins message r i) := by
  have hread : formatVecFromReads ((others (d.t + 1) i).map (decommit coins)) i (decommit coins i)
      = .ok ((List.range' 1 (d.t + 1)).map (decommit coins)) := formatVecFromReads_others h1 hn _
  have hproofs : (g.locals4 coins i).mBGammaRecVec.map (·.bProof)
      = (others (d.t + 1) i).map (fun j => (g.mBGamma coins j i).1.bProof) := List.map_map
  have hphase4 : phase4 c (g.locals4 coins i).deltaInv
      ((others (d.t + 1) i).map (fun j => (g.mBGamma coins j i).1.bProof))
      ((others (d.t + 1) i).map (decommit coins)) ((others (d.t + 1) i).map (com coins))
      = .ok ((kSum d coins * gammaSum d coins)⁻¹
          • ((others (d.t + 1) i).map (fun j => (coins j).gammai • c.generator)).sum) := by
    refine phase4_map _ (others_ne_nil (Nat.succ_le_succ d.one_le_t) h1 hn) (fun j _ => ⟨?_, rfl⟩)
    exact hsign.pk_proveDLog (coins j).gammai _
  have hR : (kSum d coins * gammaSum d coins)⁻¹
      • ((others (d.t + 1) i).map (fun j => (coins j).gammai • c.generator)).sum
      + (g.locals4 coins i).deltaInv • (decommit coins i).gGammai = pointR d coins :=
    pointR_eq coins hgamma h1 hn
  have hsig : LocalSignature.phase5LocalSig c (g.locals4 coins i).signKeys.ki (message % 2 ^ 256)
      (pointR d coins) (g.locals4 coins i).sigma (d.keyFile c (g.ids i)).ySum (coins i).li
      (coins i).rhoi = .ok (g.localSig coins message r i) := by
    rw [LocalSignature.phase5LocalSig, hr]
    rfl
  have hdecommit : (g.locals4 coins i).decommit = decommit coins i := rfl
  have hbc1 : (g.locals4 coins i).bc1Vec = (List.range' 1 (d.t + 1)).map (com coins) := rfl
  dsimp only [Signer.round5, signer]
  rw [hdecommit, hread, ok_bind, pred_eq_ok h1, ok_bind, remove_own h1 hn, ok_bind]
  dsimp only
  rw [hbc1, remove_own h1 hn, ok_bind]
  dsimp only
  rw [hproofs, hphase4, expect_ok, ok_bind, hR, hsig]
  rfl

theorem round6_honest (h1 : 1 ≤ i) (hn : i ≤ d.t + 1) :
    (g.signer c message coins i).round6 (g.locals5 coins message r i)
        ((others (d.t + 1) i).map (fun j => (g.locals5 coins message r j).phase5Com))
      = .ok (g.locals6 coins message r i) :=
  Phase5.round6_eq (d := g.phase5 coins message r) rfl h1 hn

theorem round7_honest (hsign : c.LawfulSigning) (hr : c.rOf (pointR d coins) = .ok r) (h1 : 1 ≤ i)
    (hn : i ≤ d.t + 1) :
    (g.signer c message coins i).round7 (g.locals6 coins message r i)
        ((others (d.t + 1) i).map (fun j =>
          ((g.locals5 coins message r j).phase5aDecom,
            (g.locals5 coins message r j).helgamalProof)))
      = .ok (g.locals7 coins message r i) :=
  Phase5.round7_eq (d := g.phase5 coins message r) rfl h1 hn hsign hr d.one_le_t rfl rfl

theorem round8_honest (h1 : 1 ≤ i) (hn : i ≤ d.t + 1) :
    (g.signer c message coins i).round8 (g.locals7 coins message r i)
        ((others (d.t + 1) i).map (fun j => (g.locals7 coins message r j).phase5Com2))
      = .ok (g.locals8 coins message r i) :=
  Phase5.round8_eq (d := g.phase5 coins message r) rfl h1 hn

/-- The signature equation `s R = m g + r y`. -/
theorem sSum_smul_pointR (hk : kSum d coins ≠ 0) :
    sSum d coins message r • pointR d coins
      = (scalarFrom (message % 2 ^ 256) : ZMod q) • c.generator
        + r • d.secretAt 0 • c.generator := by
  have hcancel : sSum d coins message r * (kSum d coins)⁻¹
      = scalarFrom (message % 2 ^ 256) + r * d.secretAt 0 := by
    rw [sSum, mul_comm (kSum d coins), mul_assoc, mul_inv_cancel₀ hk, mul_one]
  rw [pointR, smul_smul, hcancel, add_smul, mul_smul]

/-- **The last check passes.** -/
theorem round9_honest [DecidableEq G] (hk : kSum d coins ≠ 0) (h1 : 1 ≤ i) (hn : i ≤ d.t + 1) :
    (g.signer c message coins i).round9 (g.locals8 coins message r i)
        ((others (d.t + 1) i).map (fun j => (g.locals8 coins message r j).phase5dDecom2))
      = .ok (g.locals9 coins message r i) := by
  have hzero : (g.phase5 coins message r).imbalance r = 0 := by
    show (∑ j ∈ Icc 1 (d.t + 1), (coins j).rhoi) • ((∑ j ∈ Icc 1 (d.t + 1), g.si coins message r j)
      • pointR d coins - (scalarFrom (message % 2 ^ 256) : ZMod q) • c.generator
        - r • d.secretAt 0 • c.generator) = 0
    rw [g.sum_si, sSum_smul_pointR coins hk, add_sub_cancel_left, sub_self, smul_zero]
  have hround := Phase5.round9_eq (d := g.phase5 coins message r) (r := r)
    (p := g.signer c message coins i) rfl h1 hn rfl
  rw [if_pos hzero] at hround
  exact hround

theorem round10_honest (hr : c.rOf (pointR d coins) = .ok r) (hk : kSum d coins ≠ 0)
    (hs : sSum d coins message r ≠ 0) (h1 : 1 ≤ i) (hn : i ≤ d.t + 1) :
    (g.signer c message coins i).round10 (g.locals9 coins message r i)
        ((others (d.t + 1) i).map (fun j => (g.locals9 coins message r j).si))
      = .ok ⟨r, sSum d coins message r⟩ := by
  have hread : formatVecFromReads ((others (d.t + 1) i).map
      (fun j => (g.locals9 coins message r j).si)) i (g.locals9 coins message r i).si
      = .ok ((List.range' 1 (d.t + 1)).map (g.si coins message r)) :=
    formatVecFromReads_others h1 hn (g.si coins message r)
  have hsum : (g.localSig coins message r i).si
      + ((others (d.t + 1) i).map (g.si coins message r)).sum = sSum d coins message r := by
    rw [← g.sum_si]
    exact add_sum_map_others (g.si coins message r) h1 hn
  have hver : verify c ⟨r, sSum d coins message r⟩ (g.localSig coins message r i).y
      (g.localSig coins message r i).m = .ok () :=
    verify_ok hs hr (sSum_smul_pointR coins hk)
  have hsig : (g.locals9 coins message r i).localSig = g.localSig coins message r i := rfl
  dsimp only [Signer.round10, signer]
  rw [hread, ok_bind, pred_eq_ok h1, ok_bind, remove_own h1 hn, ok_bind]
  dsimp only
  rw [hsig, LocalSignature.outputSignature_ok hsum hr hver, expect_ok]

end Rounds

/-! ## The session -/

/-- **Threshold signing is correct**: for every honest key, group of `t + 1` signers in any signup
order, message and coins that neither wrap nor sum to zero, every signer ends with the same `R`, the
inverse of the sum of the `k_i` times the generator, and the same signature, which verifies. -/
theorem session_signs [DecidableEq G] (hshare : c.LawfulSharing) (hsign : c.LawfulSigning)
    (message : ℕ) (hwrap : g.NoWrap coins) (hk : kSum d coins ≠ 0) (hgamma : gammaSum d coins ≠ 0) :
    ∃ r, c.rOf (pointR d coins) = .ok r ∧ (sSum d coins message r ≠ 0 →
      session ((List.range' 1 (d.t + 1)).map (g.signer c message coins))
          = .ok (List.replicate (d.t + 1) ⟨pointR d coins, ⟨r, sSum d coins message r⟩⟩) ∧
        verify c ⟨r, sSum d coins message r⟩ (d.secretAt 0 • c.generator) (message % 2 ^ 256)
          = .ok ()) := by
  have hR : pointR d coins ≠ 0 := smul_ne_zero (inv_ne_zero hk) hsign.generator_ne_zero
  obtain ⟨x, hx⟩ := Option.isSome_iff_exists.mp (hsign.xCoor_isSome _ hR)
  have hr : c.rOf (pointR d coins) = .ok (scalarFrom (x % q)) := by
    rw [Curv.rOf, hx]
    rfl
  refine ⟨scalarFrom (x % q), hr, fun hs => ⟨?_, verify_ok hs hr (sSum_smul_pointR coins hk)⟩⟩
  generalize (scalarFrom (x % q) : ZMod q) = r at hr hs
  have hnum : ∀ i, (g.signer c message coins i).partyNumInt = i := fun _ => rfl
  have hthreshold : ∀ i, (g.signer c message coins i).threshold + 1 = d.t + 1 := fun _ => rfl
  rw [session, List.map_map]
  simp only [Function.comp_def]
  rw [broadcastRound_eq_ok hnum hthreshold (w := g.locals1 coins)
      (fun i h1 hn => g.round1_honest coins hshare hsign h1 hn), ok_bind,
    broadcastRound_eq_ok hnum hthreshold (w := g.locals2 coins)
      (fun i _ _ => g.round2_honest coins), ok_bind,
    p2pRound_eq_ok hnum hthreshold (w := g.locals3 coins) (fun i _ _ => rfl)
      (fun i h1 hn => g.round3_honest coins hsign hwrap h1 hn), ok_bind,
    broadcastRound_eq_ok hnum hthreshold (w := g.locals4 coins)
      (fun i h1 hn => g.round4_honest coins hk hgamma h1 hn), ok_bind,
    broadcastRound_eq_ok hnum hthreshold (w := g.locals5 coins message r)
      (fun i h1 hn => g.round5_honest coins hsign hgamma hr h1 hn), ok_bind,
    broadcastRound_eq_ok hnum hthreshold (w := g.locals6 coins message r)
      (fun i h1 hn => g.round6_honest coins h1 hn), ok_bind,
    broadcastRound_eq_ok hnum hthreshold (w := g.locals7 coins message r)
      (fun i h1 hn => g.round7_honest coins hsign hr h1 hn), ok_bind,
    broadcastRound_eq_ok hnum hthreshold (w := g.locals8 coins message r)
      (fun i h1 hn => g.round8_honest coins h1 hn), ok_bind,
    broadcastRound_eq_ok hnum hthreshold (w := g.locals9 coins message r)
      (fun i h1 hn => g.round9_honest coins hk h1 hn), ok_bind,
    broadcastRound_eq_ok hnum hthreshold
      (w := fun _ => ⟨pointR d coins, ⟨r, sSum d coins message r⟩⟩) (fun i h1 hn => ?_), ok_bind]
  · rw [List.map_map]
    simp only [Function.comp_def, List.map_const', List.length_range']
    rfl
  · rw [g.round10_honest coins hr hk hs h1 hn, ok_bind]
    rfl

end SigningGroup

/-! ## Three of four parties -/

section ThreeOfFour

/-- Four parties with threshold two; the moduli of all parties are one thousand. -/
def fourParties : Deal 7 clearPaillier where
  n := 4
  t := 2
  polys := [[1, 2, 3], [4, 1, 0], [0, 5, 6], [2, 2, 2]].map (List.map (Nat.cast : ℕ → ZMod 7))
  ek _ := (1000 : ℕ)
  dk _ := (1000 : ℕ)
  one_le_t := by decide
  t_lt_n := by decide
  n_lt_q := by decide
  length_polys := rfl
  length_coeffs := by decide
  paired _ _ _ := clearPaillier_paired 1000

/-- Parties 3, 1 and 4 sign up in this order. -/
def threeSigners : SigningGroup fourParties where
  ids i := [3, 1, 4].getD (i - 1) 0
  ids_mem i h1 h3 := by
    have h3 : i ≤ 3 := h3
    obtain rfl | rfl | rfl : i = 1 ∨ i = 2 ∨ i = 3 := by omega
    all_goals decide
  ids_inj i hi j hj hij := by
    have hall : ∀ i ∈ Icc 1 3, ∀ j ∈ Icc 1 3,
        [3, 1, 4].getD (i - 1) 0 = [3, 1, 4].getD (j - 1) 0 → i = j := by decide
    exact hall i hi j hj hij

def threeCoins (i : ℕ) : Coins (additiveCurv 7) clearPaillier where
  gammai := (i + 4 : ℕ)
  ki := (2 * i + 2 : ℕ)
  blindFactor1 := i
  encryption := (0 : ℕ)
  mtaGamma j := ⟨17 * j + 3, (0 : ℕ), (0 : ℕ), (0 : ℕ)⟩
  mtaW j := ⟨5 * j + i, (0 : ℕ), (0 : ℕ), (0 : ℕ)⟩
  li := (i + 7 : ℕ)
  rhoi := (3 * i : ℕ)
  blindFactor5a := 9
  nonce5b := (0 : ℕ)
  blindFactor5c := 4

/-- The three sign. -/
theorem threeSigners_sign :
    session ((List.range' 1 3).map (threeSigners.signer (additiveCurv 7) 5 threeCoins))
      = .ok (List.replicate 3 ⟨2, ⟨2, 6⟩⟩) := by
  have hR : SigningGroup.pointR fourParties threeCoins = 2 := by decide +kernel
  have hs : SigningGroup.sSum fourParties threeCoins 5 2 = 6 := by decide +kernel
  have hwrap : threeSigners.NoWrap threeCoins := by
    unfold SigningGroup.NoWrap
    decide +kernel
  obtain ⟨r, hr, h⟩ := threeSigners.session_signs threeCoins (additiveCurv_lawfulSharing 7)
    (additiveCurv_lawfulSigning 7) 5 hwrap (by decide +kernel) (by decide +kernel)
  have hr2 : (additiveCurv 7).rOf (SigningGroup.pointR fourParties threeCoins) = .ok 2 := by
    rw [hR]
    rfl
  rw [hr2] at hr
  cases hr
  rw [hR, hs] at h
  exact (h (by decide)).1

end ThreeOfFour

end VDexNode.Mpt
