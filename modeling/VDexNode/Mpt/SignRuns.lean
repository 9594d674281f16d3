import VDexNode.Mpt.KeyGenRuns
import VDexNode.Mpt.Lifecycle

/-!
# VDexNode.Mpt.SignRuns — signing over the shared store

`signProgram` is `bin/sign.rs` as a client of the message store: its states are the local variables
of `main` after each poll, its pieces `Signer.round1` to `Signer.round10`.

* `exists_signingRun` : the variables of all signers in a run of `session` that ends.
* `SigningRun.steps` : in step, the clients come through these variables.
* `session_runs` : **whatever the order of the requests, no client of a full session stops, and they
  end with the outputs of `session`.**
-/

namespace VDexNode.Mpt

open Api

variable {q : ℕ} {G : Type} {c : Curv q G} {P : Paillier}

/-! ## Messages -/

/-- What is posted, by round. -/
inductive SignMessage (c : Curv q G) where
  | round0 (partyId : ℕ)
  | round1 (x : SignBroadcastPhase1 × MessageA)
  | round2 (x : MessageB c × MessageB c)
  | round3 (deltai : ZMod q)
  | round4 (decommit : SignDecommitPhase1 G)
  | round5 (phase5Com : Phase5Com1)
  | round6 (x : Phase5ADecom1 G × c.HomoElGamalProof)
  | round7 (phase5Com2 : Phase5Com2)
  | round8 (phase5dDecom2 : Phase5DDecom2 G)
  | round9 (si : ZMod q)
  | stopped

namespace SignMessage

/-- An entry of round 0, decoded. -/
def toRound0 : SignMessage c → Option ℕ
  | round0 x => some x
  | _ => none

/-- An entry of round 1, decoded. -/
def toRound1 : SignMessage c → Option (SignBroadcastPhase1 × MessageA)
  | round1 x => some x
  | _ => none

/-- An entry of round 2, decoded. -/
def toRound2 : SignMessage c → Option (MessageB c × MessageB c)
  | round2 x => some x
  | _ => none

/-- An entry of round 3, decoded. -/
def toRound3 : SignMessage c → Option (ZMod q)
  | round3 x => some x
  | _ => none

/-- An entry of round 4, decoded. -/
def toRound4 : SignMessage c → Option (SignDecommitPhase1 G)
  | round4 x => some x
  | _ => none

/-- An entry of round 5, decoded. -/
def toRound5 : SignMessage c → Option Phase5Com1
  | round5 x => some x
  | _ => none

/-- An entry of round 6, decoded. -/
def toRound6 : SignMessage c → Option (Phase5ADecom1 G × c.HomoElGamalProof)
  | round6 x => some x
  | _ => none

/-- An entry of round 7, decoded. -/
def toRound7 : SignMessage c → Option Phase5Com2
  | round7 x => some x
  | _ => none

/-- An entry of round 8, decoded. -/
def toRound8 : SignMessage c → Option (Phase5DDecom2 G)
  | round8 x => some x
  | _ => none

/-- An entry of round 9, decoded. -/
def toRound9 : SignMessage c → Option (ZMod q)
  | round9 x => some x
  | _ => none

@[simp] theorem toRound0_round0 (x : ℕ) :
    (round0 x : SignMessage c).toRound0 = some x := rfl

@[simp] theorem toRound1_round1 (x : SignBroadcastPhase1 × MessageA) :
    (round1 x : SignMessage c).toRound1 = some x := rfl

@[simp] theorem toRound2_round2 (x : MessageB c × MessageB c) :
    (round2 x : SignMessage c).toRound2 = some x := rfl

@[simp] theorem toRound3_round3 (x : ZMod q) :
    (round3 x : SignMessage c).toRound3 = some x := rfl

@[simp] theorem toRound4_round4 (x : SignDecommitPhase1 G) :
    (round4 x : SignMessage c).toRound4 = some x := rfl

@[simp] theorem toRound5_round5 (x : Phase5Com1) :
    (round5 x : SignMessage c).toRound5 = some x := rfl

@[simp] theorem toRound6_round6 (x : Phase5ADecom1 G × c.HomoElGamalProof) :
    (round6 x : SignMessage c).toRound6 = some x := rfl

@[simp] theorem toRound7_round7 (x : Phase5Com2) :
    (round7 x : SignMessage c).toRound7 = some x := rfl

@[simp] theorem toRound8_round8 (x : Phase5DDecom2 G) :
    (round8 x : SignMessage c).toRound8 = some x := rfl

@[simp] theorem toRound9_round9 (x : ZMod q) :
    (round9 x : SignMessage c).toRound9 = some x := rfl

end SignMessage

/-! ## The program -/

/-- The variables of `main` after the polls so far. -/
inductive SignState (c : Curv q G) where
  | start
  | after0 (v : Locals1 q G)
  | after1 (v : Locals2 c)
  | after2 (v : Locals3 c)
  | after3 (v : Locals4 c)
  | after4 (v : Locals5 c)
  | after5 (v : Locals6 c)
  | after6 (v : Locals7 c)
  | after7 (v : Locals8 c)
  | after8 (v : Locals9 c)
  | ended (output : Output q G)

section Program

variable [Fact q.Prime] [AddCommGroup G] [Module (ZMod q) G] [DecidableEq G]

namespace Signer

variable (p : Signer c P)

/-- What is posted before the next poll, in round 2 for the signer `dest`. -/
def post : SignState c → ℕ → Result (SignMessage c)
  | .start, _ => .ok (.round0 p.keyFile.partyId)
  | .after0 v, _ => .ok (.round1 (v.com, v.mAK))
  | .after1 v, dest => do
    let x ← unwrap (v.sends.lookup dest)
    return .round2 x
  | .after2 v, _ => .ok (.round3 v.deltai)
  | .after3 v, _ => .ok (.round4 v.decommit)
  | .after4 v, _ => .ok (.round5 v.phase5Com)
  | .after5 v, _ => .ok (.round6 (v.phase5aDecom, v.helgamalProof))
  | .after6 v, _ => .ok (.round7 v.phase5Com2)
  | .after7 v, _ => .ok (.round8 v.phase5dDecom2)
  | .after8 v, _ => .ok (.round9 v.si)
  | .ended _, _ => .ok .stopped

/-- From one poll to the next; the vector of round 2 has the messages to the signer only. -/
def next : SignState c → List (SignMessage c) → Result (SignState c)
  | .start, vec => do
    let round0AnsVec ← readOthers SignMessage.toRound0 vec p.partyNumInt
    let v ← p.round1 round0AnsVec
    return .after0 v
  | .after0 v, vec => do
    let round1AnsVec ← readOthers SignMessage.toRound1 vec p.partyNumInt
    let v ← p.round2 v round1AnsVec
    return .after1 v
  | .after1 v, vec => do
    let round2AnsVec ← decodeVec SignMessage.toRound2 vec
    let v ← p.round3 v round2AnsVec
    return .after2 v
  | .after2 v, vec => do
    let round3AnsVec ← readOthers SignMessage.toRound3 vec p.partyNumInt
    let v ← p.round4 v round3AnsVec
    return .after3 v
  | .after3 v, vec => do
    let round4AnsVec ← readOthers SignMessage.toRound4 vec p.partyNumInt
    let v ← p.round5 v round4AnsVec
    return .after4 v
  | .after4 v, vec => do
    let round5AnsVec ← readOthers SignMessage.toRound5 vec p.partyNumInt
    let v ← p.round6 v round5AnsVec
    return .after5 v
  | .after5 v, vec => do
    let round6AnsVec ← readOthers SignMessage.toRound6 vec p.partyNumInt
    let v ← p.round7 v round6AnsVec
    return .after6 v
  | .after6 v, vec => do
    let round7AnsVec ← readOthers SignMessage.toRound7 vec p.partyNumInt
    let v ← p.round8 v round7AnsVec
    return .after7 v
  | .after7 v, vec => do
    let round8AnsVec ← readOthers SignMessage.toRound8 vec p.partyNumInt
    let v ← p.round9 v round8AnsVec
    return .after8 v
  | .after8 v, vec => do
    let round9AnsVec ← readOthers SignMessage.toRound9 vec p.partyNumInt
    let signature ← p.round10 v round9AnsVec
    return .ended { R := v.R, signature }
  | .ended output, _ => .ok (.ended output)

/-- `main` between its polls. -/
def stateful : Stateful (SignMessage c) (SignState c) :=
  ⟨.start, p.post, p.next, .stopped⟩

end Signer

/-- `sign.rs` as a client. -/
def signProgram (keyFile : KeyFile q G P) (threshold message : ℕ) (coins : Coins c P) :
    Program (SignMessage c) :=
  Stateful.program .sign
    (fun number => Signer.stateful ⟨keyFile, threshold, number, message, coins⟩)

end Program

/-! ## In step -/

section Steps

variable {keyFile : ℕ → KeyFile q G P} {threshold : ℕ} {message : ℕ → ℕ} {coins : ℕ → Coins c P}

/-- Signer `i` of a session. -/
def signerOf (keyFile : ℕ → KeyFile q G P) (threshold : ℕ) (message : ℕ → ℕ)
    (coins : ℕ → Coins c P) (i : ℕ) : Signer c P :=
  ⟨keyFile i, threshold, i, message i, coins i⟩

section Polls

variable {V W α : Type} {v : ℕ → V}

/-- A round of broadcasts that ends. -/
theorem exists_map_of_broadcastRound {post : Signer c P → V → α}
    {next : Signer c P → V → List α → Result W} {r : List (Signer c P × W)}
    (h : broadcastRound post next ((List.range' 1 (threshold + 1)).map
      (fun i => (signerOf keyFile threshold message coins i, v i))) = .ok r) :
    ∃ w : ℕ → W, r = (List.range' 1 (threshold + 1)).map
        (fun i => (signerOf keyFile threshold message coins i, w i)) ∧
      ∀ i, 1 ≤ i → i ≤ threshold + 1 → next (signerOf keyFile threshold message coins i) (v i)
        ((others (threshold + 1) i).map
          (fun j => post (signerOf keyFile threshold message coins j) (v j))) = .ok (w i) := by
  have hsync : broadcastRound post next = syncRound Signer.partyNumInt post
      (fun board p => pollForBroadcasts board p.partyNumInt (p.threshold + 1)) next := rfl
  rw [hsync] at h
  exact exists_map_of_broadcasts (Nat.succ_pos threshold) (fun _ => rfl) (fun _ _ => rfl) h

/-- The round of messages that ends. -/
theorem exists_map_of_p2pRound {post : Signer c P → V → List (ℕ × α)}
    {next : Signer c P → V → List α → Result W} {r : List (Signer c P × W)}
    (h : p2pRound post next ((List.range' 1 (threshold + 1)).map
      (fun i => (signerOf keyFile threshold message coins i, v i))) = .ok r) :
    ∃ w : ℕ → W, r = (List.range' 1 (threshold + 1)).map
        (fun i => (signerOf keyFile threshold message coins i, w i)) ∧
      ∀ i, 1 ≤ i → i ≤ threshold + 1 → ∃ ansVec, (others (threshold + 1) i).map
          (fun j => (post (signerOf keyFile threshold message coins j) (v j)).lookup i) =
            ansVec.map some ∧
        next (signerOf keyFile threshold message coins i) (v i) ansVec = .ok (w i) := by
  have hsync : p2pRound post next = syncRound Signer.partyNumInt post
      (fun board p => pollForP2p board p.partyNumInt (p.threshold + 1)) next := rfl
  rw [hsync] at h
  exact exists_map_of_p2p (Nat.succ_pos threshold) (fun _ => rfl) (fun _ _ => rfl) h

end Polls

variable [Fact q.Prime] [AddCommGroup G] [Module (ZMod q) G] [DecidableEq G]

/-- The variables of all signers in a run of `session` that ends, and the outputs. -/
structure SigningRun (threshold : ℕ) (signer : ℕ → Signer c P) where
  v1 : ℕ → Locals1 q G
  v2 : ℕ → Locals2 c
  v3 : ℕ → Locals3 c
  v4 : ℕ → Locals4 c
  v5 : ℕ → Locals5 c
  v6 : ℕ → Locals6 c
  v7 : ℕ → Locals7 c
  v8 : ℕ → Locals8 c
  v9 : ℕ → Locals9 c
  output : ℕ → Output q G
  round1 : ∀ i, 1 ≤ i → i ≤ threshold + 1 → (signer i).round1
    ((others (threshold + 1) i).map (fun j => (signer j).keyFile.partyId)) = .ok (v1 i)
  round2 : ∀ i, 1 ≤ i → i ≤ threshold + 1 → (signer i).round2 (v1 i)
    ((others (threshold + 1) i).map (fun j => ((v1 j).com, (v1 j).mAK))) = .ok (v2 i)
  round3 : ∀ i, 1 ≤ i → i ≤ threshold + 1 → ∃ ansVec,
    (others (threshold + 1) i).map (fun j => (v2 j).sends.lookup i) = ansVec.map some ∧
      (signer i).round3 (v2 i) ansVec = .ok (v3 i)
  round4 : ∀ i, 1 ≤ i → i ≤ threshold + 1 → (signer i).round4 (v3 i)
    ((others (threshold + 1) i).map (fun j => (v3 j).deltai)) = .ok (v4 i)
  round5 : ∀ i, 1 ≤ i → i ≤ threshold + 1 → (signer i).round5 (v4 i)
    ((others (threshold + 1) i).map (fun j => (v4 j).decommit)) = .ok (v5 i)
  round6 : ∀ i, 1 ≤ i → i ≤ threshold + 1 → (signer i).round6 (v5 i)
    ((others (threshold + 1) i).map (fun j => (v5 j).phase5Com)) = .ok (v6 i)
  round7 : ∀ i, 1 ≤ i → i ≤ threshold + 1 → (signer i).round7 (v6 i)
    ((others (threshold + 1) i).map (fun j => ((v6 j).phase5aDecom, (v6 j).helgamalProof))) =
      .ok (v7 i)
  round8 : ∀ i, 1 ≤ i → i ≤ threshold + 1 → (signer i).round8 (v7 i)
    ((others (threshold + 1) i).map (fun j => (v7 j).phase5Com2)) = .ok (v8 i)
  round9 : ∀ i, 1 ≤ i → i ≤ threshold + 1 → (signer i).round9 (v8 i)
    ((others (threshold + 1) i).map (fun j => (v8 j).phase5dDecom2)) = .ok (v9 i)
  round10 : ∀ i, 1 ≤ i → i ≤ threshold + 1 → ∃ signature, (signer i).round10 (v9 i)
    ((others (threshold + 1) i).map (fun j => (v9 j).si)) = .ok signature ∧
      output i = { R := (v9 i).R, signature }

theorem exists_signingRun {outputs : List (Output q G)}
    (h : session ((List.range' 1 (threshold + 1)).map
      (signerOf keyFile threshold message coins)) = .ok outputs) :
    ∃ signing : SigningRun threshold (signerOf keyFile threshold message coins),
      outputs = (List.range' 1 (threshold + 1)).map signing.output := by
  unfold session at h
  rw [List.map_map] at h
  obtain ⟨parties1, h1, h⟩ := bind_eq_ok.mp h
  obtain ⟨v1, rfl, hv1⟩ := exists_map_of_broadcastRound h1
  obtain ⟨parties2, h2, h⟩ := bind_eq_ok.mp h
  obtain ⟨v2, rfl, hv2⟩ := exists_map_of_broadcastRound h2
  obtain ⟨parties3, h3, h⟩ := bind_eq_ok.mp h
  obtain ⟨v3, rfl, hv3⟩ := exists_map_of_p2pRound h3
  obtain ⟨parties4, h4, h⟩ := bind_eq_ok.mp h
  obtain ⟨v4, rfl, hv4⟩ := exists_map_of_broadcastRound h4
  obtain ⟨parties5, h5, h⟩ := bind_eq_ok.mp h
  obtain ⟨v5, rfl, hv5⟩ := exists_map_of_broadcastRound h5
  obtain ⟨parties6, h6, h⟩ := bind_eq_ok.mp h
  obtain ⟨v6, rfl, hv6⟩ := exists_map_of_broadcastRound h6
  obtain ⟨parties7, h7, h⟩ := bind_eq_ok.mp h
  obtain ⟨v7, rfl, hv7⟩ := exists_map_of_broadcastRound h7
  obtain ⟨parties8, h8, h⟩ := bind_eq_ok.mp h
  obtain ⟨v8, rfl, hv8⟩ := exists_map_of_broadcastRound h8
  obtain ⟨parties9, h9, h⟩ := bind_eq_ok.mp h
  obtain ⟨v9, rfl, hv9⟩ := exists_map_of_broadcastRound h9
  obtain ⟨parties10, h10, h⟩ := bind_eq_ok.mp h
  obtain ⟨output, rfl, hv10⟩ := exists_map_of_broadcastRound h10
  cases h
  refine ⟨⟨v1, v2, v3, v4, v5, v6, v7, v8, v9, output, hv1, hv2, hv3, hv4, hv5, hv6, hv7, hv8, hv9,
    fun i h1 hi => ?_⟩, List.map_map⟩
  obtain ⟨signature, hsign, hout⟩ := bind_eq_ok.mp (hv10 i h1 hi)
  exact ⟨signature, hsign, (Except.ok.inj hout).symm⟩

namespace SigningRun

variable (signing : SigningRun threshold (signerOf keyFile threshold message coins))

/-- The states of signer `i`. -/
def states : ℕ → ℕ → SignState c
  | 0, _ => .start
  | 1, i => .after0 (signing.v1 i)
  | 2, i => .after1 (signing.v2 i)
  | 3, i => .after2 (signing.v3 i)
  | 4, i => .after3 (signing.v4 i)
  | 5, i => .after4 (signing.v5 i)
  | 6, i => .after5 (signing.v6 i)
  | 7, i => .after6 (signing.v7 i)
  | 8, i => .after7 (signing.v8 i)
  | 9, i => .after8 (signing.v9 i)
  | _, i => .ended (signing.output i)

/-- In step, the signers come through the variables of the run. -/
theorem steps : Steps (threshold + 1) .sign
    (fun i => (signerOf keyFile threshold message coins i).stateful) signing.states where
  start _ := rfl
  next r rd hrd i h1 hi := by
    match r with
    | 0 =>
      cases hrd
      exact bind_eq_ok.mpr ⟨_, readOthers_eq SignMessage.toRound0_round0
        (fun j => (keyFile j).partyId) h1 hi,
        bind_eq_ok.mpr ⟨_, signing.round1 i h1 hi, rfl⟩⟩
    | 1 =>
      cases hrd
      exact bind_eq_ok.mpr ⟨_, readOthers_eq SignMessage.toRound1_round1
        (fun j => ((signing.v1 j).com, (signing.v1 j).mAK)) h1 hi,
        bind_eq_ok.mpr ⟨_, signing.round2 i h1 hi, rfl⟩⟩
    | 2 =>
      cases hrd
      obtain ⟨ansVec, hans, hnext⟩ := signing.round3 i h1 hi
      have hvec : vecOf (threshold + 1)
          (fun i => (signerOf keyFile threshold message coins i).stateful) ⟨"round2", true⟩
          (signing.states 2) i = ansVec.map .round2 := by
        refine map_of_lookup hans (fun j x hx => ?_)
        exact Stateful.send_of_post _ (bind_eq_ok.mpr ⟨x, unwrap_eq_ok.mpr hx, rfl⟩)
      rw [hvec]
      exact bind_eq_ok.mpr ⟨_, decodeVec_map SignMessage.toRound2_round2 ansVec,
        bind_eq_ok.mpr ⟨_, hnext, rfl⟩⟩
    | 3 =>
      cases hrd
      exact bind_eq_ok.mpr ⟨_, readOthers_eq SignMessage.toRound3_round3
        (fun j => (signing.v3 j).deltai) h1 hi,
        bind_eq_ok.mpr ⟨_, signing.round4 i h1 hi, rfl⟩⟩
    | 4 =>
      cases hrd
      exact bind_eq_ok.mpr ⟨_, readOthers_eq SignMessage.toRound4_round4
        (fun j => (signing.v4 j).decommit) h1 hi,
        bind_eq_ok.mpr ⟨_, signing.round5 i h1 hi, rfl⟩⟩
    | 5 =>
      cases hrd
      exact bind_eq_ok.mpr ⟨_, readOthers_eq SignMessage.toRound5_round5
        (fun j => (signing.v5 j).phase5Com) h1 hi,
        bind_eq_ok.mpr ⟨_, signing.round6 i h1 hi, rfl⟩⟩
    | 6 =>
      cases hrd
      exact bind_eq_ok.mpr ⟨_, readOthers_eq SignMessage.toRound6_round6
        (fun j => ((signing.v6 j).phase5aDecom, (signing.v6 j).helgamalProof)) h1 hi,
        bind_eq_ok.mpr ⟨_, signing.round7 i h1 hi, rfl⟩⟩
    | 7 =>
      cases hrd
      exact bind_eq_ok.mpr ⟨_, readOthers_eq SignMessage.toRound7_round7
        (fun j => (signing.v7 j).phase5Com2) h1 hi,
        bind_eq_ok.mpr ⟨_, signing.round8 i h1 hi, rfl⟩⟩
    | 8 =>
      cases hrd
      exact bind_eq_ok.mpr ⟨_, readOthers_eq SignMessage.toRound8_round8
        (fun j => (signing.v8 j).phase5dDecom2) h1 hi,
        bind_eq_ok.mpr ⟨_, signing.round9 i h1 hi, rfl⟩⟩
    | 9 =>
      cases hrd
      obtain ⟨signature, hsign, hout⟩ := signing.round10 i h1 hi
      refine bind_eq_ok.mpr ⟨_, readOthers_eq SignMessage.toRound9_round9
        (fun j => (signing.v9 j).si) h1 hi, bind_eq_ok.mpr ⟨signature, hsign, ?_⟩⟩
      show Except.ok (SignState.ended _) = Except.ok (SignState.ended (signing.output i))
      rw [hout]
    | r + 10 => cases hrd

end SigningRun

/-- **Signing over the shared store.**  When the rounds of the signers in step end with outputs,
then in every order of the requests no client of their session stops, and one that has come through
its rounds has the output of its number; from every moment on all of them can come to that. -/
theorem session_runs (N : Network (SignMessage c)) (hn : 1 ≤ N.setup.params.parties)
    (keyFile : ℕ → KeyFile q G P) (message : ℕ → ℕ) (coins : ℕ → Coins c P) (acts : List ℕ)
    {uuid : String} {holder : ℕ → ℕ}
    (hfull : FullSession N .sign uuid holder (run (step N) (init N) acts).2)
    (hprog : ∀ i, 1 ≤ i → i ≤ N.setup.params.threshold + 1 → N.program (holder i) =
      signProgram (keyFile i) N.setup.params.threshold (message i) (coins i))
    {outputs : List (Output q G)}
    (h : session ((List.range' 1 (N.setup.params.threshold + 1)).map
      (signerOf keyFile N.setup.params.threshold message coins)) = .ok outputs) :
    (∀ i l, 1 ≤ i → i ≤ N.setup.params.threshold + 1 →
      (run (step N) (init N) acts).1.clients (holder i) = some l → ∃ st,
      (signerOf keyFile N.setup.params.threshold message coins i).stateful.state l.past = .ok st ∧
      (l.past.length = 10 → ∃ output, st = .ended output ∧ outputs[i - 1]? = some output)) ∧
    ∃ acts', ∀ i, 1 ≤ i → i ≤ N.setup.params.threshold + 1 → ∃ l output,
      (run (step N) (init N) (acts ++ acts')).1.clients (holder i) = some l ∧
      (signerOf keyFile N.setup.params.threshold message coins i).stateful.state l.past =
        .ok (.ended output) ∧ outputs[i - 1]? = some output := by
  obtain ⟨signing, rfl⟩ := exists_signingRun h
  have hclient : ∀ i, 1 ≤ i → i ≤ N.setup.params.threshold + 1 → ∃ ph',
      N.program (holder i) = Stateful.program .sign ph' ∧
        ph' i = (signerOf keyFile N.setup.params.threshold message coins i).stateful :=
    fun i h1 hi => ⟨_, hprog i h1 hi, rfl⟩
  have hsteps : Steps (Kind.sign.parties N.setup.params) .sign
      (fun i => (signerOf keyFile N.setup.params.threshold message coins i).stateful)
      signing.states := signing.steps
  refine ⟨fun i l h1 hi hl => ⟨_, hsteps.reached hn hfull hclient h1 hi hl, ?_⟩, ?_⟩
  · intro hlen
    rw [hlen]
    exact ⟨signing.output i, rfl, getElem?_range'_map signing.output h1 hi⟩
  · obtain ⟨acts', hfull', hdone⟩ := hfull.exists_completed hn
    refine ⟨acts', fun i h1 hi => ?_⟩
    obtain ⟨l, hl, hlen⟩ := hdone i h1 hi
    have hstate := hsteps.reached hn hfull' hclient h1 hi hl
    rw [hlen] at hstate
    exact ⟨l, signing.output i, hl, hstate, getElem?_range'_map signing.output h1 hi⟩

end Steps

/-! ## Two signers -/

section Pair

/-- A proof of phase 5 from its numbers. -/
def elGamalOfVals (r x : ℕ) : (wideCurv 7).HomoElGamalProof :=
  (⟨(r : ZMod 7), (x : ZMod 7)⟩ : HomoElGamalWitness 7)

theorem elGamalOfVals_val (proof : (wideCurv 7).HomoElGamalProof) : elGamalOfVals
    (HomoElGamalWitness.r proof).val (HomoElGamalWitness.x proof).val = proof := by
  unfold elGamalOfVals
  rw [ZMod.natCast_zmod_val, ZMod.natCast_zmod_val]
  rfl

/-- A message as numbers, the first of which is its round. -/
def signNats : SignMessage (wideCurv 7) → List ℕ
  | .round0 partyId => [0, partyId]
  | .round1 (com, mA) => [1, com.com, mA.c]
  | .round2 (mBGamma, mBW) => [2, mBGamma.c, proofVal mBGamma.bProof, proofVal mBGamma.betaTagProof,
      mBW.c, proofVal mBW.bProof, proofVal mBW.betaTagProof]
  | .round3 deltai => [3, deltai.val]
  | .round4 decommit => [4, decommit.blindFactor, decommit.gGammai.val]
  | .round5 phase5Com => [5, phase5Com.com]
  | .round6 (decom, proof) => [6, decom.Vi.val, decom.Ai.val, decom.Bi.val, decom.blindFactor,
      (HomoElGamalWitness.r proof).val, (HomoElGamalWitness.x proof).val]
  | .round7 phase5Com2 => [7, phase5Com2.com]
  | .round8 decom => [8, decom.ui.val, decom.ti.val, decom.blindFactor]
  | .round9 si => [9, si.val]
  | .stopped => []

/-- The message with these numbers. -/
def signOfNats : List ℕ → Option (SignMessage (wideCurv 7))
  | [0, partyId] => some (.round0 partyId)
  | [1, com, mA] => some (.round1 (⟨com⟩, ⟨mA⟩))
  | [2, c, b, betaTag, c', b', betaTag'] =>
    some (.round2 (⟨c, proofOfVal b, proofOfVal betaTag⟩, ⟨c', proofOfVal b', proofOfVal betaTag'⟩))
  | [3, deltai] => some (.round3 (deltai : ZMod 7))
  | [4, blindFactor, gGammai] => some (.round4 ⟨blindFactor, (gGammai : ZMod 7)⟩)
  | [5, com] => some (.round5 ⟨com⟩)
  | [6, Vi, Ai, Bi, blindFactor, r, x] =>
    some (.round6 (⟨(Vi : ZMod 7), (Ai : ZMod 7), (Bi : ZMod 7), blindFactor⟩,
      elGamalOfVals r x))
  | [7, com] => some (.round7 ⟨com⟩)
  | [8, ui, ti, blindFactor] => some (.round8 ⟨(ui : ZMod 7), (ti : ZMod 7), blindFactor⟩)
  | [9, si] => some (.round9 (si : ZMod 7))
  | [] => some .stopped
  | _ => none

theorem signOfNats_signNats (m : SignMessage (wideCurv 7)) : signOfNats (signNats m) = some m := by
  cases m with
  | round0 partyId => rfl
  | round1 x => rfl
  | round2 x =>
    show some (SignMessage.round2 (⟨_, proofOfVal (proofVal _), proofOfVal (proofVal _)⟩,
      ⟨_, proofOfVal (proofVal _), proofOfVal (proofVal _)⟩)) = _
    rw [proofOfVal_proofVal, proofOfVal_proofVal, proofOfVal_proofVal, proofOfVal_proofVal]
  | round3 deltai =>
    show some (SignMessage.round3 ((deltai.val : ℕ) : ZMod 7)) = _
    rw [ZMod.natCast_zmod_val]
  | round4 decommit =>
    show some (SignMessage.round4 ⟨decommit.blindFactor, ((decommit.gGammai.val : ℕ) : ZMod 7)⟩) = _
    rw [ZMod.natCast_zmod_val]
  | round5 phase5Com => rfl
  | round6 x =>
    obtain ⟨decom, proof⟩ := x
    show some (SignMessage.round6 (⟨((decom.Vi.val : ℕ) : ZMod 7), ((decom.Ai.val : ℕ) : ZMod 7),
      ((decom.Bi.val : ℕ) : ZMod 7), decom.blindFactor⟩, elGamalOfVals _ _)) = _
    rw [ZMod.natCast_zmod_val, ZMod.natCast_zmod_val, ZMod.natCast_zmod_val, elGamalOfVals_val]
  | round7 phase5Com2 => rfl
  | round8 decom =>
    show some (SignMessage.round8 ⟨((decom.ui.val : ℕ) : ZMod 7), ((decom.ti.val : ℕ) : ZMod 7),
      decom.blindFactor⟩) = _
    rw [ZMod.natCast_zmod_val, ZMod.natCast_zmod_val]
  | round9 si =>
    show some (SignMessage.round9 ((si.val : ℕ) : ZMod 7)) = _
    rw [ZMod.natCast_zmod_val]
  | stopped => rfl

/-- Messages by the code of their numbers, in unary. -/
def signJson : Json (SignMessage (wideCurv 7)) where
  toString m := unaryJson.toString (Encodable.encode (signNats m))
  fromStr s := do
    let code ← unaryJson.fromStr s
    let nats ← (Encodable.decode code : Option (List ℕ))
    signOfNats nats
  fromStr_toString m := by
    rw [unaryJson.fromStr_toString, Option.bind_eq_bind, Option.bind_some, Encodable.encodek,
      Option.bind_eq_bind, Option.bind_some, signOfNats_signNats]

/-- The key file of signer `i` of `twoSigners`, who are the parties `3` and `1`. -/
def twoFiles (i : ℕ) : KeyFile 7 (ZMod 7) clearPaillier :=
  threeParties.keyFile (if i = 1 then 3 else 1)

/-- Client `a` will be signer `2 - a`. -/
def signPair : Network (SignMessage (wideCurv 7)) where
  setup := { pairNetwork.setup with params := ⟨3, 1⟩ }
  json := signJson
  program a := signProgram (twoFiles (2 - a)) 1 5 (twoCoins (2 - a))

theorem fullSession_signPair : FullSession signPair .sign "x" (fun i => 2 - i)
    (run (step signPair) (init signPair) [1, 0]).2 := by
  intro i h1 h2
  have h2 : i ≤ 2 := h2
  have hlog : (run (step signPair) (init signPair) [1, 0]).2 =
      [.signedUp .sign 1 ⟨1, "x"⟩, .signedUp .sign 0 ⟨2, "x"⟩] := rfl
  rw [hlog]
  interval_cases i
  · exact List.mem_cons_self
  · exact List.mem_cons_of_mem _ List.mem_cons_self

theorem twoSigners_session : ∃ output, session ((List.range' 1 2).map
    (signerOf twoFiles 1 (fun _ => 5) twoCoins)) = .ok (List.replicate 2 output) := by
  have hout := twoSigners.session_outcome twoCoins 5 (wideCurv_lawfulSharing 7)
    (wideCurv_lawfulSigning 7) (fun i _ _ => threeParties_wide i) twoSigners_masked
  cases h : session ((List.range' 1 2).map (signerOf twoFiles 1 (fun _ => 5) twoCoins)) with
  | ok outputs =>
    obtain ⟨-, r, -, houtputs⟩ := hout.1 outputs h
    exact ⟨_, congrArg Except.ok houtputs⟩
  | error e => exact absurd twoSigners_completes (hout.2 e h)

/-- The two can end with the same signature. -/
theorem session_runs_pair : ∃ output acts', ∀ i, 1 ≤ i → i ≤ 2 → ∃ l,
    (run (step signPair) (init signPair) ([1, 0] ++ acts')).1.clients (2 - i) = some l ∧
      (signerOf twoFiles 1 (fun _ => 5) twoCoins i).stateful.state l.past =
        .ok (.ended output) := by
  obtain ⟨output, hsession⟩ := twoSigners_session
  obtain ⟨acts', hdone⟩ := (session_runs signPair (by decide) twoFiles (fun _ => 5) twoCoins [1, 0]
    fullSession_signPair (fun i h1 h2 => by
      have h2 : i ≤ 2 := h2
      show signProgram (twoFiles (2 - (2 - i))) 1 5 (twoCoins (2 - (2 - i))) = _
      rw [Nat.sub_sub_self h2]
      rfl) hsession).2
  refine ⟨output, acts', fun i h1 h2 => ?_⟩
  obtain ⟨l, output', hl, hstate, hget⟩ := hdone i h1 h2
  rw [List.getElem?_replicate_of_lt (by omega)] at hget
  cases hget
  exact ⟨l, hl, hstate⟩

end Pair

end VDexNode.Mpt
