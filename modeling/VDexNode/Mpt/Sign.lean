import VDexNode.Lib.Rounds
import VDexNode.Mpt.KeyGenUtils
import VDexNode.Mpt.SignUtils

/-!
# VDexNode.Mpt.Sign — `bin/sign.rs`

A signer posts an entry to the message store in each of ten rounds and polls it for those of the
others.  `Signer.round1` to `Signer.round10` are the pieces of `main` between two polls, each from
the local variables so far and the entries it has just read; a `Locals…` record holds the variables
that later pieces use.  `session` lets all signers run piece by piece.

The store is kept per round and per session, so an entry is found by the number of its party, and
in the second round by the number of its addressee too.
-/

namespace VDexNode.Mpt

variable {q : ℕ} {G : Type}

/-! ## Inputs of a signer -/

/-- The file `generate_key` leaves behind. -/
structure KeyFile (q : ℕ) (G : Type) (P : Paillier) where
  partyKeys : Keys q G P
  sharedKeys : SharedKeys q G
  partyId : ℕ
  vssSchemeVec : List (VerifiableSS G)
  paillierKeyVector : List P.EncryptionKey
  ySum : G

/-- What a signer samples; the coins of `MessageB::b` are given for each number of a receiver. -/
structure Coins (c : Curv q G) (P : Paillier) where
  gammai : ZMod q
  ki : ZMod q
  blindFactor1 : ℕ
  encryption : P.Randomness
  mtaGamma : ℕ → MtaCoins c P
  mtaW : ℕ → MtaCoins c P
  li : ZMod q
  rhoi : ZMod q
  blindFactor5a : ℕ
  nonce5b : c.Nonce
  blindFactor5c : ℕ

/-- One run of the program: its key file, `THRESHOLD`, the number given at signup, the message as a
`BigInt`, and what it samples. -/
structure Signer (c : Curv q G) (P : Paillier) where
  keyFile : KeyFile q G P
  threshold : ℕ
  partyNumInt : ℕ
  message : ℕ
  coins : Coins c P

/-! ## Reading vectors -/

section Reading

variable {α : Type}

/-- `x - 1` of unsigned integers. -/
def pred (x : ℕ) : Result ℕ :=
  if x = 0 then .error (.panicked "attempt to subtract with overflow") else .ok (x - 1)

/-- `Vec::remove`: the entry and the vector without it. -/
def remove (xs : List α) (i : ℕ) : Result (α × List α) := do
  let x ← index xs i
  return (x, xs.eraseIdx i)

/-- `format_vec_from_reads`. -/
def formatVecFromReads (ansVec : List α) (partyNum : ℕ) (valueI : α) : Result (List α) :=
  forOthers (ansVec.length + 1) partyNum (fun newVec => .ok (newVec ++ [valueI]))
    (fun newVec _ j => do
      let valueJ ← index ansVec j
      return newVec ++ [valueJ]) []

/-- `poll_for_broadcasts`, on the entries of one round. -/
def pollForBroadcasts (board : List (ℕ × α)) (partyNum n : ℕ) : Result (List α) :=
  (others n partyNum).mapM (fun i =>
    match board.lookup i with
    | some value => .ok value
    | none => .error .waiting)

/-- `poll_for_p2p`: the entries addressed to the party. -/
def pollForP2p (board : List (ℕ × List (ℕ × α))) (partyNum n : ℕ) : Result (List α) :=
  (others n partyNum).mapM (fun i =>
    match (board.lookup i).bind (·.lookup partyNum) with
    | some value => .ok value
    | none => .error .waiting)

end Reading

/-! ## Local variables -/

/-- After round 0. -/
structure Locals1 (q : ℕ) (G : Type) where
  signersVec : List ℕ
  signKeys : SignKeys q G
  xiComVec : List G
  com : SignBroadcastPhase1
  decommit : SignDecommitPhase1 G
  mAK : MessageA

section Locals

variable (c : Curv q G)

/-- After round 1; `sends` are the entries of round 2 with the numbers they are addressed to. -/
structure Locals2 extends Locals1 q G where
  bc1Vec : List SignBroadcastPhase1
  betaVec : List (ZMod q)
  niVec : List (ZMod q)
  sends : List (ℕ × MessageB c × MessageB c)

/-- After round 2. -/
structure Locals3 extends Locals2 c where
  mBGammaRecVec : List (MessageB c)
  deltai : ZMod q
  sigma : ZMod q

/-- After round 3. -/
structure Locals4 extends Locals3 c where
  deltaInv : ZMod q

/-- After round 4. -/
structure Locals5 where
  R : G
  localSig : LocalSignature q G
  phase5Com : Phase5Com1
  phase5aDecom : Phase5ADecom1 G
  helgamalProof : c.HomoElGamalProof

/-- After round 5. -/
structure Locals6 extends Locals5 c where
  commit5aVec : List Phase5Com1

/-- After round 6. -/
structure Locals7 extends Locals5 c where
  decommit5aAndElgamalVecIncludesI : List (Phase5ADecom1 G × c.HomoElGamalProof)
  phase5Com2 : Phase5Com2
  phase5dDecom2 : Phase5DDecom2 G

/-- After round 7. -/
structure Locals8 extends Locals7 c where
  commit5cVec : List Phase5Com2

/-- After round 8. -/
structure Locals9 extends Locals8 c where
  si : ZMod q

end Locals

/-! ## The rounds -/

section Rounds

variable [Fact q.Prime] [AddCommGroup G] [Module (ZMod q) G] [DecidableEq G] {c : Curv q G}
  {P : Paillier}

namespace Signer

variable (p : Signer c P)

/-- The loop over `round0_ans_vec`: indices of the signers, in the order of their numbers. -/
def collectSigners (round0AnsVec : List ℕ) : Result (List ℕ) :=
  forOthers (p.threshold + 1) p.partyNumInt
    (fun signersVec => do
      let s ← pred p.keyFile.partyId
      return signersVec ++ [s])
    (fun signersVec _ j => do
      let signerJ ← index round0AnsVec j
      let s ← pred signerJ
      return signersVec ++ [s]) []

/-- Collects the signers, creates the local keys and commits to `gamma_i`. -/
def round1 (round0AnsVec : List ℕ) : Result (Locals1 q G) := do
  let signersVec ← p.collectSigners round0AnsVec
  let priv := PartyPrivate.setPrivate p.keyFile.partyKeys p.keyFile.sharedKeys
  let own ← pred p.partyNumInt
  let signer ← index signersVec own
  let vssScheme ← index p.keyFile.vssSchemeVec signer
  let signKeys := SignKeys.create c priv vssScheme signer signersVec p.coins.gammai p.coins.ki
  let xiComVec ← getCommitmentsToXi c p.keyFile.vssSchemeVec
  let (com, decommit) := signKeys.phase1Broadcast c p.coins.blindFactor1
  let mAK := MessageA.a P signKeys.ki p.keyFile.partyKeys.ek p.coins.encryption
  return { signersVec, signKeys, xiComVec, com, decommit, mAK }

/-- The loop over `round1_ans_vec`: `bc1_vec` has an entry of every signer, `m_a_vec` of the
others. -/
def collectRound1 (com : SignBroadcastPhase1)
    (round1AnsVec : List (SignBroadcastPhase1 × MessageA)) :
    Result (List SignBroadcastPhase1 × List MessageA) :=
  forOthers (p.threshold + 1) p.partyNumInt
    (fun (bc1Vec, mAVec) => .ok (bc1Vec ++ [com], mAVec))
    (fun (bc1Vec, mAVec) _ j => do
      let (bc1J, mAPartyJ) ← index round1AnsVec j
      return (bc1Vec ++ [bc1J], mAVec ++ [mAPartyJ])) ([], [])

/-- What the loop of `MessageB::b` fills. -/
structure MtaVecs (c : Curv q G) where
  mBGammaSendVec : List (MessageB c) := []
  betaVec : List (ZMod q) := []
  mBWSendVec : List (MessageB c) := []
  niVec : List (ZMod q) := []

/-- The loop that answers every other signer's ciphertext with `gamma_i` and with `w_i`. -/
def answerMta (v : Locals1 q G) (mAVec : List MessageA) : Result (MtaVecs c) :=
  forOthers (p.threshold + 1) p.partyNumInt .ok
    (fun vecs i j => do
      let signer ← index v.signersVec (i - 1)
      let ek ← index p.keyFile.paillierKeyVector signer
      let mA ← index mAVec j
      let (mBGamma, betaGamma) := MessageB.b c P v.signKeys.gammai ek mA (p.coins.mtaGamma i)
      let (mBW, betaWi) := MessageB.b c P v.signKeys.wi ek mA (p.coins.mtaW i)
      return {
        mBGammaSendVec := vecs.mBGammaSendVec ++ [mBGamma]
        betaVec := vecs.betaVec ++ [betaGamma]
        mBWSendVec := vecs.mBWSendVec ++ [mBW]
        niVec := vecs.niVec ++ [betaWi] }) {}

/-- The loop of `sendp2p`. -/
def sendMta (vecs : MtaVecs c) : Result (List (ℕ × MessageB c × MessageB c)) :=
  forOthers (p.threshold + 1) p.partyNumInt .ok
    (fun sends i j => do
      let mBGamma ← index vecs.mBGammaSendVec j
      let mBW ← index vecs.mBWSendVec j
      return sends ++ [(i, mBGamma, mBW)]) []

/-- Reads commitments and ciphertexts, and answers the ciphertexts. -/
def round2 (v : Locals1 q G)
    (round1AnsVec : List (SignBroadcastPhase1 × MessageA)) : Result (Locals2 c) := do
  let (bc1Vec, mAVec) ← p.collectRound1 v.com round1AnsVec
  assertEq v.signersVec.length bc1Vec.length
  let vecs ← p.answerMta v mAVec
  let sends ← p.sendMta vecs
  return { v with bc1Vec, betaVec := vecs.betaVec, niVec := vecs.niVec, sends }

/-- The loop of `verify_proofs_get_alpha`, which also checks the public point of every other
signer's `w_i`. -/
def verifyMta (v : Locals2 c) (mBGammaRecVec mBWRecVec : List (MessageB c)) :
    Result (List (ZMod q) × List (ZMod q)) :=
  forOthers (p.threshold + 1) p.partyNumInt .ok
    (fun (alphaVec, miuVec) i j => do
      let dk := p.keyFile.partyKeys.dk
      let mBGamma ← index mBGammaRecVec j
      let alphaIjGamma ← expect "wrong dlog or m_b"
        (mBGamma.verifyProofsGetAlpha dk v.signKeys.ki)
      let mBW ← index mBWRecVec j
      let alphaIjWi ← expect "wrong dlog or m_b" (mBW.verifyProofsGetAlpha dk v.signKeys.ki)
      let signer ← index v.signersVec (i - 1)
      let xiCom ← index v.xiComVec signer
      let vssScheme ← index p.keyFile.vssSchemeVec signer
      let gWi := updateCommitmentsToXi c xiCom vssScheme signer v.signersVec
      assertEq (c.pk mBW.bProof) gWi
      return (alphaVec ++ [alphaIjGamma], miuVec ++ [alphaIjWi])) ([], [])

/-- Reads the answers and sums up `delta_i` and `sigma_i`. -/
def round3 (v : Locals2 c) (round2AnsVec : List (MessageB c × MessageB c)) :
    Result (Locals3 c) := do
  let recVec ← (List.range p.threshold).mapM (index round2AnsVec)
  let mBGammaRecVec := recVec.map (·.1)
  let mBWRecVec := recVec.map (·.2)
  let (alphaVec, miuVec) ← p.verifyMta v mBGammaRecVec mBWRecVec
  let deltai ← v.signKeys.phase2Deltai alphaVec v.betaVec
  let sigma ← v.signKeys.phase2Sigmai miuVec v.niVec
  return { v with mBGammaRecVec, deltai, sigma }

/-- Inverts the sum of the `delta_i`. -/
def round4 (v : Locals3 c) (round3AnsVec : List (ZMod q)) : Result (Locals4 c) := do
  let deltaVec ← formatVecFromReads round3AnsVec p.partyNumInt v.deltai
  let deltaInv ← phase3ReconstructDelta deltaVec
  return { v with deltaInv }

/-- Checks the decommitments, reconstructs `R` and signs locally. -/
def round5 (v : Locals4 c) (round4AnsVec : List (SignDecommitPhase1 G)) :
    Result (Locals5 c) := do
  let decommitVec ← formatVecFromReads round4AnsVec p.partyNumInt v.decommit
  let own ← pred p.partyNumInt
  let (decommI, decommitVec) ← remove decommitVec own
  let (_, bc1Vec) ← remove v.bc1Vec own
  let bProofVec := v.mBGammaRecVec.map (·.bProof)
  let R ← expect "bad gamma_i decommit" (phase4 c v.deltaInv bProofVec decommitVec bc1Vec)
  let R := R + v.deltaInv • decommI.gGammai
  let messageBn := p.message % 2 ^ 256
  let localSig ← LocalSignature.phase5LocalSig c v.signKeys.ki messageBn R v.sigma p.keyFile.ySum
    p.coins.li p.coins.rhoi
  let (phase5Com, phase5aDecom, helgamalProof) :=
    localSig.phase5aBroadcast5bZkproof c p.coins.blindFactor5a p.coins.nonce5b
  return { R, localSig, phase5Com, phase5aDecom, helgamalProof }

/-- Collects the commitments of phase 5A. -/
def round6 (v : Locals5 c) (round5AnsVec : List Phase5Com1) : Result (Locals6 c) := do
  let commit5aVec ← formatVecFromReads round5AnsVec p.partyNumInt v.phase5Com
  return { v with commit5aVec }

/-- Checks the decommitments and proofs of the others and commits to `u_i` and `t_i`. -/
def round7 (v : Locals6 c) (round6AnsVec : List (Phase5ADecom1 G × c.HomoElGamalProof)) :
    Result (Locals7 c) := do
  let decommit5aAndElgamalVecIncludesI ←
    formatVecFromReads round6AnsVec p.partyNumInt (v.phase5aDecom, v.helgamalProof)
  let own ← pred p.partyNumInt
  let (_, decommit5aAndElgamalVec) ← remove decommit5aAndElgamalVecIncludesI own
  let (_, commit5aVec) ← remove v.commit5aVec own
  let phase5aDecommVec ← (List.range p.threshold).mapM (fun i => do
    let x ← index decommit5aAndElgamalVec i
    return x.1)
  let phase5aElgamalVec ← (List.range p.threshold).mapM (fun i => do
    let x ← index decommit5aAndElgamalVec i
    return x.2)
  let (phase5Com2, phase5dDecom2) ← expect "error phase5"
    (v.localSig.phase5c c phase5aDecommVec commit5aVec phase5aElgamalVec v.phase5aDecom.Vi v.R
      p.coins.blindFactor5c)
  return { v with decommit5aAndElgamalVecIncludesI, phase5Com2, phase5dDecom2 }

/-- Collects the commitments of phase 5C. -/
def round8 (v : Locals7 c) (round7AnsVec : List Phase5Com2) : Result (Locals8 c) := do
  let commit5cVec ← formatVecFromReads round7AnsVec p.partyNumInt v.phase5Com2
  return { v with commit5cVec }

/-- Checks the sums of all `u_i` and `t_i` and reveals `s_i`. -/
def round9 (v : Locals8 c) (round8AnsVec : List (Phase5DDecom2 G)) : Result (Locals9 c) := do
  let decommit5dVec ← formatVecFromReads round8AnsVec p.partyNumInt v.phase5dDecom2
  let phase5aDecommVecIncludesI ← (List.range (p.threshold + 1)).mapM (fun i => do
    let x ← index v.decommit5aAndElgamalVecIncludesI i
    return x.1)
  let si ← expect "bad com 5d"
    (v.localSig.phase5d c decommit5dVec v.commit5cVec phase5aDecommVecIncludesI)
  return { v with si }

/-- Adds up the `s_i` and outputs the signature. -/
def round10 (v : Locals9 c) (round9AnsVec : List (ZMod q)) : Result (Signature q) := do
  let siVec ← formatVecFromReads round9AnsVec p.partyNumInt v.si
  let own ← pred p.partyNumInt
  let (_, siVec) ← remove siVec own
  expect "verification failed" (v.localSig.outputSignature c siVec)

end Signer

/-! ## A session -/

section Session

variable {V W α : Type}

/-- One round: every signer posts an entry, polls for those of the others and runs to its next
entry. -/
def broadcastRound (post : Signer c P → V → α) (next : Signer c P → V → List α → Result W)
    (parties : List (Signer c P × V)) : Result (List (Signer c P × W)) := do
  let board := parties.map (fun (p, v) => (p.partyNumInt, post p v))
  parties.mapM (fun (p, v) => do
    let ansVec ← pollForBroadcasts board p.partyNumInt (p.threshold + 1)
    let w ← next p v ansVec
    return (p, w))

/-- The round of messages from signer to signer. -/
def p2pRound (post : Signer c P → V → List (ℕ × α))
    (next : Signer c P → V → List α → Result W) (parties : List (Signer c P × V)) :
    Result (List (Signer c P × W)) := do
  let board := parties.map (fun (p, v) => (p.partyNumInt, post p v))
  parties.mapM (fun (p, v) => do
    let ansVec ← pollForP2p board p.partyNumInt (p.threshold + 1)
    let w ← next p v ansVec
    return (p, w))

/-- What a signer ends with: its `R` and the signature it outputs. -/
structure Output (q : ℕ) (G : Type) where
  R : G
  signature : Signature q
deriving DecidableEq

/-- All signers follow `main` from signup to the signature. -/
def session (signers : List (Signer c P)) : Result (List (Output q G)) := do
  let parties := signers.map (fun p => (p, ()))
  let parties ← broadcastRound (fun p _ => p.keyFile.partyId) (fun p _ => p.round1) parties
  let parties ← broadcastRound (fun _ v => (v.com, v.mAK)) Signer.round2 parties
  let parties ← p2pRound (fun _ v => v.sends) Signer.round3 parties
  let parties ← broadcastRound (fun _ v => v.deltai) Signer.round4 parties
  let parties ← broadcastRound (fun _ v => v.decommit) Signer.round5 parties
  let parties ← broadcastRound (fun _ v => v.phase5Com) Signer.round6 parties
  let parties ← broadcastRound (fun _ v => (v.phase5aDecom, v.helgamalProof)) Signer.round7 parties
  let parties ← broadcastRound (fun _ v => v.phase5Com2) Signer.round8 parties
  let parties ← broadcastRound (fun _ v => v.phase5dDecom2) Signer.round9 parties
  let parties ← broadcastRound (fun _ v => v.si)
    (fun p v ansVec => do
      let signature ← p.round10 v ansVec
      return ({ R := v.R, signature } : Output q G)) parties
  return parties.map (·.2)

end Session

end Rounds

end VDexNode.Mpt
