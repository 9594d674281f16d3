import VDexNode.Mpt.Sign

/-!
# VDexNode.Mpt.GenerateKey — `bin/generate_key.rs`

Five rounds: commitments, decommitments, encrypted shares, sharing schemes and proofs.
`Party.round1` to `Party.round6` are the pieces of `main` between two polls, as in
`VDexNode.Mpt.Sign`.  `generateKey` lets all parties run piece by piece; besides the key files it
returns what the parties have posted.
-/

namespace VDexNode.Mpt

variable {q : ℕ} {G : Type} {c : Curv q G} {P : Paillier} {L : KeyGenLib q G P}

/-! ## Messages and local variables -/

/-- `AEAD`. -/
structure AEAD where
  ciphertext : List UInt8
  tag : List UInt8
deriving DecidableEq, Repr

/-- What a party samples; `coeffs` are the coefficients of its polynomial but the first. -/
structure KeyGenCoins (c : Curv q G) (L : KeyGenLib q G P) where
  ui : ZMod q
  keySeed : L.KeySeed
  blindFactor : ℕ
  coeffs : List (ZMod q)
  nonce : c.Nonce

/-- One run of the program: `THRESHOLD` and `PARTIES`, the number given at signup, and what it
samples. -/
structure Party (c : Curv q G) (L : KeyGenLib q G P) where
  params : Parameters
  partyNumInt : ℕ
  coins : KeyGenCoins c L

/-- The variables of `main` up to the first poll. -/
structure KeyGenLocals1 (L : KeyGenLib q G P) where
  partyKeys : Keys q G P
  bci : KeyGenBroadcastMessage1 L
  decomi : KeyGenDecommitMessage1 G

/-- After round 1. -/
structure KeyGenLocals2 (L : KeyGenLib q G P) extends KeyGenLocals1 L where
  bc1Vec : List (KeyGenBroadcastMessage1 L)

/-- After round 2; `sends` are the entries of round 3 with the numbers they are addressed to. -/
structure KeyGenLocals3 (L : KeyGenLib q G P) extends KeyGenLocals2 L where
  yVec : List G
  encKeys : List ℕ
  ySum : G
  vssScheme : VerifiableSS G
  secretShares : List (ZMod q)
  sends : List (ℕ × AEAD)

/-- After round 3. -/
structure KeyGenLocals4 (L : KeyGenLib q G P) extends KeyGenLocals3 L where
  partyShares : List (ZMod q)

/-- After round 4. -/
structure KeyGenLocals5 (c : Curv q G) (L : KeyGenLib q G P) extends KeyGenLocals4 L where
  vssSchemeVec : List (VerifiableSS G)
  sharedKeys : SharedKeys q G
  dlogProof : c.DLogProof

/-! ## Transport -/

/-- `repeat(round).take(12)`, in round 3. -/
def nonce3 : List UInt8 := List.replicate 12 3

/-- `AesGcm::new` with an encryption key. -/
def newGcm (L : KeyGenLib q G P) (encKey : ℕ) : Result L.Gcm :=
  match L.newGcm (L.toVec encKey) nonce3 [] with
  | some gcm => .ok gcm
  | none => .error (.panicked "invalid key size")

theorem newGcm_eq_ok {encKey : ℕ} {gcm : L.Gcm} :
    newGcm L encKey = .ok gcm ↔ L.newGcm (L.toVec encKey) nonce3 [] = some gcm := by
  rw [newGcm]
  cases L.newGcm (L.toVec encKey) nonce3 [] with
  | none => exact iff_of_false nofun nofun
  | some gcm' => exact ⟨fun h => by cases h; rfl, fun h => by cases h; rfl⟩

/-- A share, encrypted. -/
def sealShare (L : KeyGenLib q G P) (encKey : ℕ) (share : ZMod q) : Result AEAD := do
  let gcm ← newGcm L encKey
  let plaintext := L.toVec share.val
  let (ciphertext, tag) := L.encrypt gcm plaintext
  return { ciphertext, tag }

/-- A share, decrypted. -/
def openShare (L : KeyGenLib q G P) (encKey : ℕ) (aeadPack : AEAD) : Result (ZMod q) := do
  let gcm ← newGcm L encKey
  let (result, out) := L.decrypt gcm aeadPack.ciphertext aeadPack.tag
  assertEq result true
  return scalarFrom (L.fromBytes out)

/-! ## The rounds -/

section Rounds

variable [Fact q.Prime] [AddCommGroup G] [Module (ZMod q) G] [DecidableEq G]

namespace Party

variable (p : Party c L)

/-- `PARTIES`. -/
def parties : ℕ := p.params.shareCount

/-- Creates the keys and commits to the public one. -/
def round1 : KeyGenLocals1 L :=
  let partyKeys := Keys.create c L p.partyNumInt p.coins.ui p.coins.keySeed
  let (bci, decomi) := partyKeys.phase1BroadcastPhase3ProofOfCorrectKey c L p.coins.blindFactor
  { partyKeys, bci, decomi }

/-- `format_vec_from_reads`, written out in every round. -/
def collect {α : Type} (ansVec : List α) (valueI : α) : Result (List α) :=
  forOthers p.parties p.partyNumInt (fun vec => .ok (vec ++ [valueI]))
    (fun vec _ j => do
      let valueJ ← index ansVec j
      return vec ++ [valueJ]) []

/-- Collects the commitments. -/
def round2 (v : KeyGenLocals1 L) (round1AnsVec : List (KeyGenBroadcastMessage1 L)) :
    Result (KeyGenLocals2 L) := do
  let bc1Vec ← p.collect round1AnsVec v.bci
  return { v with bc1Vec }

/-- The loop over `round2_ans_vec`: `y_vec` and `decom_vec` have an entry of every party,
`enc_keys` of the others. -/
def collectRound2 (v : KeyGenLocals2 L) (round2AnsVec : List (KeyGenDecommitMessage1 G)) :
    Result (List G × List (KeyGenDecommitMessage1 G) × List ℕ) :=
  forOthers p.parties p.partyNumInt
    (fun (yVec, decomVec, encKeys) =>
      .ok (yVec ++ [v.partyKeys.yi], decomVec ++ [v.decomi], encKeys))
    (fun (yVec, decomVec, encKeys) _ j => do
      let decomJ ← index round2AnsVec j
      let encKey ← unwrap (c.xCoor (v.partyKeys.yi + decomJ.yi))
      return (yVec ++ [decomJ.yi], decomVec ++ [decomJ], encKeys ++ [encKey])) ([], [], [])

/-- The loop of `sendp2p`: `k` counts all parties, `j` the others. -/
def sendShares (encKeys : List ℕ) (secretShares : List (ZMod q)) : Result (List (ℕ × AEAD)) := do
  let (sends, _) ← forOthers p.parties p.partyNumInt
    (fun (sends, k) => .ok (sends, k + 1))
    (fun (sends, k) i j => do
      let encKey ← index encKeys j
      let share ← index secretShares k
      let aeadPackI ← sealShare L encKey share
      return (sends ++ [(i, aeadPackI)], k + 1)) ([], 0)
  return sends

/-- Checks the decommitments, shares the secret and encrypts the shares. -/
def round3 (v : KeyGenLocals2 L) (round2AnsVec : List (KeyGenDecommitMessage1 G)) :
    Result (KeyGenLocals3 L) := do
  let (yVec, decomVec, encKeys) ← p.collectRound2 v round2AnsVec
  let head ← unwrap yVec.head?
  let ySum := yVec.tail.foldl (· + ·) head
  let (vssScheme, secretShares, _) ← expect "invalid key"
    (v.partyKeys.phase1VerifyComPhase3VerifyCorrectKeyPhase2Distribute c L p.params decomVec
      v.bc1Vec p.coins.coeffs)
  let sends ← p.sendShares encKeys secretShares
  return { v with yVec, encKeys, ySum, vssScheme, secretShares, sends }

/-- Decrypts the shares. -/
def round4 (v : KeyGenLocals3 L) (round3AnsVec : List AEAD) : Result (KeyGenLocals4 L) := do
  let partyShares ← forOthers p.parties p.partyNumInt
    (fun partyShares => do
      let share ← index v.secretShares (p.partyNumInt - 1)
      return partyShares ++ [share])
    (fun partyShares _ j => do
      let aeadPack ← index round3AnsVec j
      let encKey ← index v.encKeys j
      let share ← openShare L encKey aeadPack
      return partyShares ++ [share]) []
  return { v with partyShares }

/-- Checks the shares and adds them up. -/
def round5 (v : KeyGenLocals4 L) (round4AnsVec : List (VerifiableSS G)) :
    Result (KeyGenLocals5 c L) := do
  let vssSchemeVec ← p.collect round4AnsVec v.vssScheme
  let (sharedKeys, dlogProof) ← expect "invalid vss"
    (phase2VerifyVssConstructKeypairPhase3PokDlog c p.params v.yVec v.partyShares vssSchemeVec
      p.partyNumInt p.coins.nonce)
  return { v with vssSchemeVec, sharedKeys, dlogProof }

/-- Checks the proofs and writes the key file. -/
def round6 (v : KeyGenLocals5 c L) (round5AnsVec : List c.DLogProof) :
    Result (KeyFile q G P) := do
  let dlogProofVec ← p.collect round5AnsVec v.dlogProof
  expect "bad dlog proof" (verifyDlogProofs c p.params dlogProofVec v.yVec)
  let paillierKeyVector ← (List.range p.parties).mapM (fun i => do
    let bc1 ← index v.bc1Vec i
    return bc1.e)
  return {
    partyKeys := v.partyKeys
    sharedKeys := v.sharedKeys
    partyId := p.partyNumInt
    vssSchemeVec := v.vssSchemeVec
    paillierKeyVector
    ySum := v.ySum }

end Party

/-! ## All parties -/

/-- What the parties have posted, by their numbers; the entries of round 3 have the numbers they
are addressed to. -/
structure Transcript (c : Curv q G) (L : KeyGenLib q G P) where
  round1 : List (ℕ × KeyGenBroadcastMessage1 L)
  round2 : List (ℕ × KeyGenDecommitMessage1 G)
  round3 : List (ℕ × List (ℕ × AEAD))
  round4 : List (ℕ × VerifiableSS G)
  round5 : List (ℕ × c.DLogProof)

section Session

variable {V W α : Type}

/-- The entries of a round. -/
def board (post : Party c L → V → α) (parties : List (Party c L × V)) : List (ℕ × α) :=
  parties.map (fun (p, v) => (p.partyNumInt, post p v))

/-- A round of broadcasts. -/
def Party.broadcastRound (post : Party c L → V → α)
    (next : Party c L → V → List α → Result W) :
    List (Party c L × V) → Result (List (Party c L × W)) :=
  syncRound Party.partyNumInt post
    (fun board p => pollForBroadcasts board p.partyNumInt p.parties) next

/-- The round of messages from party to party. -/
def Party.p2pRound (post : Party c L → V → List (ℕ × α))
    (next : Party c L → V → List α → Result W) :
    List (Party c L × V) → Result (List (Party c L × W)) :=
  syncRound Party.partyNumInt post
    (fun board p => pollForP2p board p.partyNumInt p.parties) next

/-- All parties follow `main` from signup to the key file. -/
def generateKey (parties : List (Party c L)) :
    Result (List (KeyFile q G P) × Transcript c L) := do
  let parties := parties.map (fun p => (p, p.round1))
  let round1 := board (fun _ v => v.bci) parties
  let parties ← Party.broadcastRound (fun _ v => v.bci) Party.round2 parties
  let round2 := board (fun _ v => v.decomi) parties
  let parties ← Party.broadcastRound (fun _ v => v.decomi) Party.round3 parties
  let round3 := board (fun _ v => v.sends) parties
  let parties ← Party.p2pRound (fun _ v => v.sends) Party.round4 parties
  let round4 := board (fun _ v => v.vssScheme) parties
  let parties ← Party.broadcastRound (fun _ v => v.vssScheme) Party.round5 parties
  let round5 := board (fun _ v => v.dlogProof) parties
  let parties ← Party.broadcastRound (fun _ v => v.dlogProof) Party.round6 parties
  return (parties.map (·.2), { round1, round2, round3, round4, round5 })

end Session

end Rounds

end VDexNode.Mpt
