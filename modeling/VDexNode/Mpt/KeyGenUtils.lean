import VDexNode.Mpt.Libraries

/-!
# VDexNode.Mpt.KeyGenUtils — `utils/key_gen_utils.rs`

The phases of key generation, from the commitments of the parties to the proofs of their shares, and
the phases of signing: the local keys of a signer, the reconstruction of `R`, and the commitments
by which the signers check the signature before they reveal their parts of it.
-/

namespace VDexNode.Mpt

variable {q : ℕ} {G : Type}

/-! ## Data -/

/-- `Keys`. -/
structure Keys (q : ℕ) (G : Type) (P : Paillier) where
  ui : ZMod q
  yi : G
  dk : P.DecryptionKey
  ek : P.EncryptionKey
  partyIndex : ℕ

/-- `KeyGenBroadcastMessage1`. -/
structure KeyGenBroadcastMessage1 {P : Paillier} (L : KeyGenLib q G P) where
  e : P.EncryptionKey
  com : ℕ
  correctKeyProof : L.CorrectKeyProof

/-- `KeyGenDecommitMessage1`. -/
structure KeyGenDecommitMessage1 (G : Type) where
  blindFactor : ℕ
  yi : G
deriving DecidableEq

/-- `PartyPrivate`. -/
structure PartyPrivate (q : ℕ) (P : Paillier) where
  ui : ZMod q
  xi : ZMod q
  dk : P.DecryptionKey

/-- `Parameters`. -/
structure Parameters where
  threshold : ℕ
  shareCount : ℕ
deriving DecidableEq, Repr

/-- `SharedKeys`. -/
structure SharedKeys (q : ℕ) (G : Type) where
  y : G
  xi : ZMod q
deriving DecidableEq

/-- `SignKeys`. -/
structure SignKeys (q : ℕ) (G : Type) where
  wi : ZMod q
  gWi : G
  ki : ZMod q
  gammai : ZMod q
  gGammai : G

/-- `SignBroadcastPhase1`. -/
structure SignBroadcastPhase1 where
  com : ℕ
deriving DecidableEq

/-- `SignDecommitPhase1`. -/
structure SignDecommitPhase1 (G : Type) where
  blindFactor : ℕ
  gGammai : G
deriving DecidableEq

/-- `LocalSignature`. -/
structure LocalSignature (q : ℕ) (G : Type) where
  li : ZMod q
  rhoi : ZMod q
  R : G
  si : ZMod q
  m : ℕ
  y : G

/-- `Phase5Com1`. -/
structure Phase5Com1 where
  com : ℕ
deriving DecidableEq

/-- `Phase5Com2`. -/
structure Phase5Com2 where
  com : ℕ
deriving DecidableEq

/-- `Phase5ADecom1`. -/
structure Phase5ADecom1 (G : Type) where
  Vi : G
  Ai : G
  Bi : G
  blindFactor : ℕ
deriving DecidableEq

/-- `Phase5DDecom2`. -/
structure Phase5DDecom2 (G : Type) where
  ui : G
  ti : G
  blindFactor : ℕ
deriving DecidableEq

/-- `Signature`. -/
structure Signature (q : ℕ) where
  r : ZMod q
  s : ZMod q
deriving DecidableEq

section Functions

variable [Fact q.Prime] [AddCommGroup G] [Module (ZMod q) G] [DecidableEq G] (c : Curv q G)

/-! ## Key generation -/

/-- `Keys::create`; `u` and the key pair are sampled. -/
def Keys.create {P : Paillier} (L : KeyGenLib q G P) (i : ℕ) (u : ZMod q) (seed : L.KeySeed) :
    Keys q G P :=
  { ui := u, yi := u • c.generator, dk := (L.keypair seed).2, ek := (L.keypair seed).1,
    partyIndex := i }

/-- `Keys::phase1_broadcast_phase3_proof_of_correct_key`. -/
def Keys.phase1BroadcastPhase3ProofOfCorrectKey {P : Paillier} (L : KeyGenLib q G P)
    (keys : Keys q G P) (blindFactor : ℕ) :
    KeyGenBroadcastMessage1 L × KeyGenDecommitMessage1 G :=
  let correctKeyProof := L.proveCorrectKey keys.dk
  let com := c.createCommitment (c.bytesCompressedToBigInt keys.yi) blindFactor
  (⟨keys.ek, com, correctKeyProof⟩, ⟨blindFactor, keys.yi⟩)

/-- One entry of the test of `phase1_verify_com_phase3_verify_correct_key_phase2_distribute`. -/
def verifyComAndKey {P : Paillier} (L : KeyGenLib q G P)
    (decomVec : List (KeyGenDecommitMessage1 G)) (bc1Vec : List (KeyGenBroadcastMessage1 L))
    (i : ℕ) : Result Bool := do
  let decom ← index decomVec i
  let bc1 ← index bc1Vec i
  if c.createCommitment (c.bytesCompressedToBigInt decom.yi) decom.blindFactor = bc1.com then
    return L.verifyCorrectKey bc1.correctKeyProof bc1.e
  else
    return false

/-- `Keys::phase1_verify_com_phase3_verify_correct_key_phase2_distribute`; `coeffs` is sampled. -/
def Keys.phase1VerifyComPhase3VerifyCorrectKeyPhase2Distribute {P : Paillier}
    (L : KeyGenLib q G P) (keys : Keys q G P) (params : Parameters)
    (decomVec : List (KeyGenDecommitMessage1 G)) (bc1Vec : List (KeyGenBroadcastMessage1 L))
    (coeffs : List (ZMod q)) : Result (VerifiableSS G × List (ZMod q) × ℕ) := do
  assertEq decomVec.length params.shareCount
  assertEq bc1Vec.length params.shareCount
  let correctKeyCorrectDecomAll ← (List.range bc1Vec.length).allM
    (verifyComAndKey c L decomVec bc1Vec)
  let (vssScheme, secretShares) := L.share params.threshold params.shareCount keys.ui coeffs
  if correctKeyCorrectDecomAll then
    return (vssScheme, secretShares, keys.partyIndex)
  else
    .error (.err .invalidKey)

/-- One entry of the test of `phase2_verify_vss_construct_keypair_phase3_pok_dlog`: the share is
validated, and only then the commitment to the secret compared. -/
def verifyVss (yVec : List G) (secretSharesVec : List (ZMod q))
    (vssSchemeVec : List (VerifiableSS G)) (i0 : ℕ) (i : ℕ) : Result Bool := do
  let vss ← index vssSchemeVec i
  let share ← index secretSharesVec i
  if c.validateShare vss share i0 then
    let com ← index vss.commitments 0
    let y ← index yVec i
    return decide (com = y)
  else
    return false

/-- `Keys::phase2_verify_vss_construct_keypair_phase3_pok_dlog`; `i0` is the party's own index. -/
def phase2VerifyVssConstructKeypairPhase3PokDlog (params : Parameters) (yVec : List G)
    (secretSharesVec : List (ZMod q)) (vssSchemeVec : List (VerifiableSS G)) (i0 : ℕ)
    (nonce : c.Nonce) : Result (SharedKeys q G × c.DLogProof) := do
  assertEq yVec.length params.shareCount
  assertEq secretSharesVec.length params.shareCount
  assertEq vssSchemeVec.length params.shareCount
  let correctSsVerify ← (List.range yVec.length).allM
    (verifyVss c yVec secretSharesVec vssSchemeVec i0)
  if correctSsVerify then
    let y0 ← unwrap yVec.head?
    let y := yVec.tail.foldl (· + ·) y0
    let xi := secretSharesVec.foldl (· + ·) 0
    return (⟨y, xi⟩, c.proveDLog xi nonce)
  else
    .error (.err .invalidSS)

/-- `Keys::get_commitments_to_xi`. -/
def getCommitmentsToXi (vssSchemeVec : List (VerifiableSS G)) : Result (List G) :=
  (List.range' 1 vssSchemeVec.length).mapM (fun i => do
    let xijPointsVec := vssSchemeVec.map (c.getPointCommitment · i)
    let first ← unwrap xijPointsVec.head?
    return xijPointsVec.tail.foldl (· + ·) first)

/-- `Keys::update_commitments_to_xi`. -/
def updateCommitmentsToXi (comm : G) (vssScheme : VerifiableSS G) (i : ℕ) (s : List ℕ) : G :=
  c.mapShareToNewParams vssScheme i s • comm

/-- `Keys::verify_dlog_proofs`. -/
def verifyDlogProofs (params : Parameters) (dlogProofsVec : List c.DLogProof) (yVec : List G) :
    Result Unit := do
  assertEq yVec.length params.shareCount
  assertEq dlogProofsVec.length params.shareCount
  let xiDlogVerify ← (List.range yVec.length).allM (fun i => do
    let proof ← index dlogProofsVec i
    return c.verifyDLog proof)
  if xiDlogVerify then .ok () else .error (.err .invalidKey)

/-- `PartyPrivate::set_private`. -/
def PartyPrivate.setPrivate {P : Paillier} (key : Keys q G P) (sharedKey : SharedKeys q G) :
    PartyPrivate q P :=
  ⟨key.ui, sharedKey.xi, key.dk⟩

/-! ## The local keys of a signer -/

/-- `SignKeys::create`; `gammai` and `ki` are sampled. -/
def SignKeys.create {P : Paillier} (priv : PartyPrivate q P) (vssScheme : VerifiableSS G) (i : ℕ)
    (s : List ℕ) (gammai ki : ZMod q) : SignKeys q G :=
  let li := c.mapShareToNewParams vssScheme i s
  let wi := li * priv.xi
  { wi, gWi := wi • c.generator, ki, gammai, gGammai := gammai • c.generator }

/-- `SignKeys::phase1_broadcast`. -/
def SignKeys.phase1Broadcast (k : SignKeys q G) (blindFactor : ℕ) :
    SignBroadcastPhase1 × SignDecommitPhase1 G :=
  let gGammai := k.gammai • c.generator
  let com := c.createCommitment (c.bytesCompressedToBigInt gGammai) blindFactor
  (⟨com⟩, ⟨blindFactor, k.gGammai⟩)

/-- The sum of `phase2_delta_i` and `phase2_sigma_i`. -/
def phase2Sum (own : ZMod q) (aVec bVec : List (ZMod q)) : Result (ZMod q) := do
  assertEq aVec.length bVec.length
  return (List.zipWith (· + ·) aVec bVec).foldl (· + ·) own

/-- `SignKeys::phase2_delta_i`. -/
def SignKeys.phase2Deltai (k : SignKeys q G) (alphaVec betaVec : List (ZMod q)) :
    Result (ZMod q) :=
  phase2Sum (k.ki * k.gammai) alphaVec betaVec

/-- `SignKeys::phase2_sigma_i`. -/
def SignKeys.phase2Sigmai (k : SignKeys q G) (miuVec niVec : List (ZMod q)) : Result (ZMod q) :=
  phase2Sum (k.ki * k.wi) miuVec niVec

/-- `SignKeys::phase3_reconstruct_delta`. -/
def phase3ReconstructDelta (deltaVec : List (ZMod q)) : Result (ZMod q) :=
  invert (deltaVec.foldl (· + ·) 0)

/-- One entry of the test of `phase4`. -/
def verifyGammaCom (bProofVec : List c.DLogProof) (phase1DecommitVec : List (SignDecommitPhase1 G))
    (bc1Vec : List SignBroadcastPhase1) (i : ℕ) : Result Bool := do
  let bProof ← index bProofVec i
  let decom ← index phase1DecommitVec i
  if c.pk bProof = decom.gGammai then
    let bc1 ← index bc1Vec i
    return decide
      (c.createCommitment (c.bytesCompressedToBigInt decom.gGammai) decom.blindFactor = bc1.com)
  else
    return false

/-- `SignKeys::phase4`. -/
def phase4 (deltaInv : ZMod q) (bProofVec : List c.DLogProof)
    (phase1DecommitVec : List (SignDecommitPhase1 G)) (bc1Vec : List SignBroadcastPhase1) :
    Result G := do
  let testBVecAndCom ← (List.range bProofVec.length).allM
    (verifyGammaCom c bProofVec phase1DecommitVec bc1Vec)
  let head ← unwrap phase1DecommitVec.head?
  if testBVecAndCom then
    let gammaSum := phase1DecommitVec.tail.foldl (fun acc x => acc + x.gGammai) head.gGammai
    return deltaInv • gammaSum
  else
    .error (.err .invalidKey)

/-! ## The signature -/

/-- `verify`. -/
def verify (sig : Signature q) (y : G) (message : ℕ) : Result Unit := do
  let b ← invert sig.s
  let u1 := scalarFrom message * b
  let u2 := sig.r * b
  let gu1 := u1 • c.generator
  let yu2 := u2 • y
  let r ← c.rOf (gu1 + yu2)
  if sig.r = r then .ok () else .error (.err .invalidSig)

namespace LocalSignature

/-- `LocalSignature::phase5_local_sig`; `li` and `rhoi` are sampled. -/
def phase5LocalSig (ki : ZMod q) (message : ℕ) (R : G) (sigmai : ZMod q) (pubkey : G)
    (li rhoi : ZMod q) : Result (LocalSignature q G) := do
  let r ← c.rOf R
  return { li, rhoi, R, si := scalarFrom message * ki + r * sigmai, m := message, y := pubkey }

/-- `LocalSignature::phase5a_broadcast_5b_zkproof`. -/
def phase5aBroadcast5bZkproof (sig : LocalSignature q G) (blindFactor : ℕ) (nonce : c.Nonce) :
    Phase5Com1 × Phase5ADecom1 G × c.HomoElGamalProof :=
  let g := c.generator
  let Ai := sig.rhoi • g
  let Bi := (sig.li * sig.rhoi) • g
  let Vi := sig.si • sig.R + sig.li • g
  let com := c.createCommitment (c.createHashFromGe [Vi, Ai, Bi]) blindFactor
  let proof := c.proveHomoElGamal ⟨sig.li, sig.si⟩ ⟨Ai, sig.R, g, Vi, Bi⟩ nonce
  (⟨com⟩, { Vi, Ai, Bi, blindFactor }, proof)

/-- One entry of the test of `phase5c`. -/
def verifyElGamalCom (decomVec : List (Phase5ADecom1 G)) (comVec : List Phase5Com1)
    (elgamalProofs : List c.HomoElGamalProof) (R : G) (i : ℕ) : Result Bool := do
  let decom ← index decomVec i
  let com ← index comVec i
  let inputHash := c.createHashFromGe [decom.Vi, decom.Ai, decom.Bi]
  if c.createCommitment inputHash decom.blindFactor = com.com then
    let proof ← index elgamalProofs i
    return c.verifyHomoElGamal proof ⟨decom.Ai, R, c.generator, decom.Vi, decom.Bi⟩
  else
    return false

/-- `LocalSignature::phase5c`. -/
def phase5c (sig : LocalSignature q G) (decomVec : List (Phase5ADecom1 G))
    (comVec : List Phase5Com1) (elgamalProofs : List c.HomoElGamalProof) (vi R : G)
    (blindFactor : ℕ) : Result (Phase5Com2 × Phase5DDecom2 G) := do
  assertEq decomVec.length comVec.length
  let testComElgamal ← (List.range comVec.length).allM
    (verifyElGamalCom c decomVec comVec elgamalProofs R)
  let v := decomVec.foldl (fun acc x => acc + x.Vi) vi
  let head ← unwrap decomVec.head?
  let a := decomVec.tail.foldl (fun acc x => acc + x.Ai) head.Ai
  let r ← c.rOf sig.R
  let yr := r • sig.y
  let gm := (scalarFrom sig.m : ZMod q) • c.generator
  let v := v - gm - yr
  let ui := sig.rhoi • v
  let ti := sig.li • a
  let com := c.createCommitment (c.createHashFromGe [ui, ti]) blindFactor
  if testComElgamal then
    return (⟨com⟩, ⟨ui, ti, blindFactor⟩)
  else
    .error (.err .invalidCom)

/-- One entry of the test of `phase5d`. -/
def verifyCom2 (decomVec2 : List (Phase5DDecom2 G)) (comVec2 : List Phase5Com2) (i : ℕ) :
    Result Bool := do
  let decom ← index decomVec2 i
  let com ← index comVec2 i
  let inputHash := c.createHashFromGe [decom.ui, decom.ti]
  return decide (c.createCommitment inputHash decom.blindFactor = com.com)

/-- `LocalSignature::phase5d`. -/
def phase5d (sig : LocalSignature q G) (decomVec2 : List (Phase5DDecom2 G))
    (comVec2 : List Phase5Com2) (decomVec1 : List (Phase5ADecom1 G)) : Result (ZMod q) := do
  assertEq decomVec2.length decomVec1.length
  assertEq decomVec2.length comVec2.length
  let testCom ← (List.range comVec2.length).allM (verifyCom2 c decomVec2 comVec2)
  let g := c.generator
  let biasedSumTb := (decomVec2.zip decomVec1).foldl (fun acc x => acc + x.1.ti + x.2.Bi) g
  let biasedSumTbMinusU := decomVec2.foldl (fun acc x => acc - x.ui) biasedSumTb
  if testCom then
    if g = biasedSumTbMinusU then .ok sig.si else .error (.err .invalidKey)
  else
    .error (.err .invalidCom)

/-- `LocalSignature::output_signature`. -/
def outputSignature (sig : LocalSignature q G) (sVec : List (ZMod q)) : Result (Signature q) := do
  let s := sVec.foldl (· + ·) sig.si
  let r ← c.rOf sig.R
  let ver ← isOk (verify c ⟨r, s⟩ sig.y sig.m)
  if ver then return ⟨r, s⟩ else .error (.err .invalidSig)

end LocalSignature

end Functions

end VDexNode.Mpt
