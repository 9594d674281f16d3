import VDexNode.Mpt.Adversary
import VDexNode.Mpt.Stateful

/-!
# VDexNode.Mpt.KeyGenRuns — key generation over the shared store

`keyGenProgram` is `bin/generate_key.rs` as a client of the message store: its states are the local
variables of `main` after each poll, its pieces `Party.round1` to `Party.round6`.

* `exists_roundsRun` : the variables of all parties in a run of `generateKey` that ends.
* `RoundsRun.steps` : in step, the clients come through these variables.
* `generateKey_runs` : **whatever the order of the requests, no client of a full session stops, and
  they end with the key files of `generateKey`.**
-/

namespace VDexNode.Mpt

open Api

variable {q : ℕ} {G : Type} {c : Curv q G} {P : Paillier} {L : KeyGenLib q G P}

/-! ## Messages -/

/-- What is posted, by round.  A client that has stopped posts nothing; `stopped` stands for it. -/
inductive KeyGenMessage (c : Curv q G) (L : KeyGenLib q G P) where
  | round1 (bci : KeyGenBroadcastMessage1 L)
  | round2 (decomi : KeyGenDecommitMessage1 G)
  | round3 (aeadPackI : AEAD)
  | round4 (vssScheme : VerifiableSS G)
  | round5 (dlogProof : c.DLogProof)
  | stopped

namespace KeyGenMessage

/-- An entry of round 1, decoded. -/
def toRound1 : KeyGenMessage c L → Option (KeyGenBroadcastMessage1 L)
  | round1 x => some x
  | _ => none

/-- An entry of round 2, decoded. -/
def toRound2 : KeyGenMessage c L → Option (KeyGenDecommitMessage1 G)
  | round2 x => some x
  | _ => none

/-- An entry of round 3, decoded. -/
def toRound3 : KeyGenMessage c L → Option AEAD
  | round3 x => some x
  | _ => none

/-- An entry of round 4, decoded. -/
def toRound4 : KeyGenMessage c L → Option (VerifiableSS G)
  | round4 x => some x
  | _ => none

/-- An entry of round 5, decoded. -/
def toRound5 : KeyGenMessage c L → Option c.DLogProof
  | round5 x => some x
  | _ => none

@[simp] theorem toRound1_round1 (x : KeyGenBroadcastMessage1 L) :
    (round1 x : KeyGenMessage c L).toRound1 = some x := rfl

@[simp] theorem toRound2_round2 (x : KeyGenDecommitMessage1 G) :
    (round2 x : KeyGenMessage c L).toRound2 = some x := rfl

@[simp] theorem toRound3_round3 (x : AEAD) :
    (round3 x : KeyGenMessage c L).toRound3 = some x := rfl

@[simp] theorem toRound4_round4 (x : VerifiableSS G) :
    (round4 x : KeyGenMessage c L).toRound4 = some x := rfl

@[simp] theorem toRound5_round5 (x : c.DLogProof) :
    (round5 x : KeyGenMessage c L).toRound5 = some x := rfl

end KeyGenMessage

/-! ## The program -/

/-- The variables of `main` after the polls so far. -/
inductive KeyGenState (c : Curv q G) (L : KeyGenLib q G P) where
  | start
  | after1 (v : KeyGenLocals2 L)
  | after2 (v : KeyGenLocals3 L)
  | after3 (v : KeyGenLocals4 L)
  | after4 (v : KeyGenLocals5 c L)
  | ended (file : KeyFile q G P)

section Program

variable [Fact q.Prime] [AddCommGroup G] [Module (ZMod q) G] [DecidableEq G]

namespace Party

variable (p : Party c L)

/-- What is posted before the next poll, in round 3 for the party `dest`. -/
def post : KeyGenState c L → ℕ → Result (KeyGenMessage c L)
  | .start, _ => .ok (.round1 p.round1.bci)
  | .after1 v, _ => .ok (.round2 v.decomi)
  | .after2 v, dest => do
    let aeadPackI ← unwrap (v.sends.lookup dest)
    return .round3 aeadPackI
  | .after3 v, _ => .ok (.round4 v.vssScheme)
  | .after4 v, _ => .ok (.round5 v.dlogProof)
  | .ended _, _ => .ok .stopped

/-- From one poll to the next; the vector of round 3 has the messages to the party only. -/
def next : KeyGenState c L → List (KeyGenMessage c L) → Result (KeyGenState c L)
  | .start, vec => do
    let round1AnsVec ← readOthers KeyGenMessage.toRound1 vec p.partyNumInt
    let v ← p.round2 p.round1 round1AnsVec
    return .after1 v
  | .after1 v, vec => do
    let round2AnsVec ← readOthers KeyGenMessage.toRound2 vec p.partyNumInt
    let v ← p.round3 v round2AnsVec
    return .after2 v
  | .after2 v, vec => do
    let round3AnsVec ← decodeVec KeyGenMessage.toRound3 vec
    let v ← p.round4 v round3AnsVec
    return .after3 v
  | .after3 v, vec => do
    let round4AnsVec ← readOthers KeyGenMessage.toRound4 vec p.partyNumInt
    let v ← p.round5 v round4AnsVec
    return .after4 v
  | .after4 v, vec => do
    let round5AnsVec ← readOthers KeyGenMessage.toRound5 vec p.partyNumInt
    let file ← p.round6 v round5AnsVec
    return .ended file
  | .ended file, _ => .ok (.ended file)

/-- `main` between its polls. -/
def stateful : Stateful (KeyGenMessage c L) (KeyGenState c L) :=
  ⟨.start, p.post, p.next, .stopped⟩

end Party

/-- `generate_key.rs` as a client. -/
def keyGenProgram (params : Parameters) (coins : KeyGenCoins c L) :
    Program (KeyGenMessage c L) :=
  Stateful.program .keygen (fun number => Party.stateful ⟨params, number, coins⟩)

end Program

/-! ## In step -/

section Steps

variable [Fact q.Prime] [AddCommGroup G] [Module (ZMod q) G] [DecidableEq G]
  {params : Parameters} {coins : ℕ → KeyGenCoins c L}

/-- Party `i` of a session. -/
def partyOf (params : Parameters) (coins : ℕ → KeyGenCoins c L) (i : ℕ) : Party c L :=
  ⟨params, i, coins i⟩

/-- The variables of all parties in a run of `generateKey` that ends, and the files. -/
structure RoundsRun (params : Parameters) (coins : ℕ → KeyGenCoins c L) where
  v2 : ℕ → KeyGenLocals2 L
  v3 : ℕ → KeyGenLocals3 L
  v4 : ℕ → KeyGenLocals4 L
  v5 : ℕ → KeyGenLocals5 c L
  file : ℕ → KeyFile q G P
  round2 : ∀ i, 1 ≤ i → i ≤ params.shareCount →
    (partyOf params coins i).round2 (partyOf params coins i).round1
      ((others params.shareCount i).map (fun j => (partyOf params coins j).round1.bci)) = .ok (v2 i)
  round3 : ∀ i, 1 ≤ i → i ≤ params.shareCount → (partyOf params coins i).round3 (v2 i)
    ((others params.shareCount i).map (fun j => (v2 j).decomi)) = .ok (v3 i)
  round4 : ∀ i, 1 ≤ i → i ≤ params.shareCount → ∃ ansVec,
    (others params.shareCount i).map (fun j => (v3 j).sends.lookup i) = ansVec.map some ∧
      (partyOf params coins i).round4 (v3 i) ansVec = .ok (v4 i)
  round5 : ∀ i, 1 ≤ i → i ≤ params.shareCount → (partyOf params coins i).round5 (v4 i)
    ((others params.shareCount i).map (fun j => (v4 j).vssScheme)) = .ok (v5 i)
  round6 : ∀ i, 1 ≤ i → i ≤ params.shareCount → (partyOf params coins i).round6 (v5 i)
    ((others params.shareCount i).map (fun j => (v5 j).dlogProof)) = .ok (file i)

theorem exists_roundsRun (hn : 1 ≤ params.shareCount) {files : List (KeyFile q G P)}
    {tr : Transcript c L} (h : generateKey
      ((List.range' 1 params.shareCount).map (partyOf params coins)) = .ok (files, tr)) :
    ∃ run : RoundsRun params coins, files = (List.range' 1 params.shareCount).map run.file := by
  have hnum : ∀ i, (partyOf params coins i).partyNumInt = i := fun _ => rfl
  unfold generateKey at h
  rw [List.map_map] at h
  obtain ⟨parties2, h2, h⟩ := bind_eq_ok.mp h
  obtain ⟨v2, rfl, hv2⟩ := exists_map_of_broadcasts hn hnum (fun _ _ => rfl) h2
  obtain ⟨parties3, h3, h⟩ := bind_eq_ok.mp h
  obtain ⟨v3, rfl, hv3⟩ := exists_map_of_broadcasts hn hnum (fun _ _ => rfl) h3
  obtain ⟨parties4, h4, h⟩ := bind_eq_ok.mp h
  obtain ⟨v4, rfl, hv4⟩ := exists_map_of_p2p hn hnum (fun _ _ => rfl) h4
  obtain ⟨parties5, h5, h⟩ := bind_eq_ok.mp h
  obtain ⟨v5, rfl, hv5⟩ := exists_map_of_broadcasts hn hnum (fun _ _ => rfl) h5
  obtain ⟨parties6, h6, h⟩ := bind_eq_ok.mp h
  obtain ⟨file, rfl, hfile⟩ := exists_map_of_broadcasts hn hnum (fun _ _ => rfl) h6
  cases h
  exact ⟨⟨v2, v3, v4, v5, file, hv2, hv3, hv4, hv5, hfile⟩, List.map_map⟩

namespace RoundsRun

variable (rounds : RoundsRun params coins)

/-- The states of party `i`. -/
def states : ℕ → ℕ → KeyGenState c L
  | 0, _ => .start
  | 1, i => .after1 (rounds.v2 i)
  | 2, i => .after2 (rounds.v3 i)
  | 3, i => .after3 (rounds.v4 i)
  | 4, i => .after4 (rounds.v5 i)
  | _, i => .ended (rounds.file i)

/-- In step, the parties come through the variables of the run. -/
theorem steps : Steps params.shareCount .keygen (fun i => (partyOf params coins i).stateful)
    rounds.states where
  start _ := rfl
  next r rd hrd i h1 hi := by
    match r with
    | 0 =>
      cases hrd
      exact bind_eq_ok.mpr ⟨_, readOthers_eq KeyGenMessage.toRound1_round1
        (fun j => (partyOf params coins j).round1.bci) h1 hi,
        bind_eq_ok.mpr ⟨_, rounds.round2 i h1 hi, rfl⟩⟩
    | 1 =>
      cases hrd
      exact bind_eq_ok.mpr ⟨_, readOthers_eq KeyGenMessage.toRound2_round2
        (fun j => (rounds.v2 j).decomi) h1 hi, bind_eq_ok.mpr ⟨_, rounds.round3 i h1 hi, rfl⟩⟩
    | 2 =>
      cases hrd
      obtain ⟨ansVec, hans, hnext⟩ := rounds.round4 i h1 hi
      have hvec : vecOf params.shareCount (fun i => (partyOf params coins i).stateful)
          ⟨"round3", true⟩ (rounds.states 2) i = ansVec.map .round3 := by
        refine map_of_lookup hans (fun j a ha => ?_)
        exact Stateful.send_of_post _ (bind_eq_ok.mpr ⟨a, unwrap_eq_ok.mpr ha, rfl⟩)
      rw [hvec]
      exact bind_eq_ok.mpr ⟨_, decodeVec_map KeyGenMessage.toRound3_round3 ansVec,
        bind_eq_ok.mpr ⟨_, hnext, rfl⟩⟩
    | 3 =>
      cases hrd
      exact bind_eq_ok.mpr ⟨_, readOthers_eq KeyGenMessage.toRound4_round4
        (fun j => (rounds.v4 j).vssScheme) h1 hi, bind_eq_ok.mpr ⟨_, rounds.round5 i h1 hi, rfl⟩⟩
    | 4 =>
      cases hrd
      exact bind_eq_ok.mpr ⟨_, readOthers_eq KeyGenMessage.toRound5_round5
        (fun j => (rounds.v5 j).dlogProof) h1 hi, bind_eq_ok.mpr ⟨_, rounds.round6 i h1 hi, rfl⟩⟩
    | r + 5 => cases hrd

end RoundsRun

/-- **Key generation over the shared store.**  When the rounds of the parties in step end with key
files, then in every order of the requests no client of their session stops, and one that has come
through its rounds has the file of its number; from every moment on all of them can come to that. -/
theorem generateKey_runs (N : Network (KeyGenMessage c L)) (hn : 1 ≤ N.setup.params.parties)
    (coins : ℕ → KeyGenCoins c L) (acts : List ℕ) {uuid : String} {holder : ℕ → ℕ}
    (hfull : FullSession N .keygen uuid holder (run (step N) (init N) acts).2)
    (hprog : ∀ i, 1 ≤ i → i ≤ N.setup.params.parties → N.program (holder i) =
      keyGenProgram ⟨N.setup.params.threshold, N.setup.params.parties⟩ (coins i))
    {files : List (KeyFile q G P)} {tr : Transcript c L}
    (h : generateKey ((List.range' 1 N.setup.params.parties).map
      (partyOf ⟨N.setup.params.threshold, N.setup.params.parties⟩ coins)) = .ok (files, tr)) :
    (∀ i l, 1 ≤ i → i ≤ N.setup.params.parties →
      (run (step N) (init N) acts).1.clients (holder i) = some l → ∃ st,
      (partyOf ⟨N.setup.params.threshold, N.setup.params.parties⟩ coins i).stateful.state l.past =
        .ok st ∧
      (l.past.length = 5 → ∃ file, st = .ended file ∧ files[i - 1]? = some file)) ∧
    ∃ acts', ∀ i, 1 ≤ i → i ≤ N.setup.params.parties → ∃ l file,
      (run (step N) (init N) (acts ++ acts')).1.clients (holder i) = some l ∧
      (partyOf ⟨N.setup.params.threshold, N.setup.params.parties⟩ coins i).stateful.state l.past =
        .ok (.ended file) ∧ files[i - 1]? = some file := by
  obtain ⟨rounds, rfl⟩ := exists_roundsRun hn h
  have hclient : ∀ i, 1 ≤ i → i ≤ N.setup.params.parties → ∃ ph',
      N.program (holder i) = Stateful.program .keygen ph' ∧ ph' i =
        (partyOf ⟨N.setup.params.threshold, N.setup.params.parties⟩ coins i).stateful :=
    fun i h1 hi => ⟨_, hprog i h1 hi, rfl⟩
  have hsteps : Steps (Kind.keygen.parties N.setup.params) .keygen
      (fun i => (partyOf ⟨N.setup.params.threshold, N.setup.params.parties⟩ coins i).stateful)
      rounds.states := rounds.steps
  refine ⟨fun i l h1 hi hl => ⟨_, hsteps.reached hn hfull hclient h1 hi hl, ?_⟩, ?_⟩
  · intro hlen
    rw [hlen]
    exact ⟨rounds.file i, rfl, getElem?_range'_map rounds.file h1 hi⟩
  · obtain ⟨acts', hfull', hdone⟩ := hfull.exists_completed hn
    refine ⟨acts', fun i h1 hi => ?_⟩
    obtain ⟨l, hl, hlen⟩ := hdone i h1 hi
    have hstate := hsteps.reached hn hfull' hclient h1 hi hl
    rw [hlen] at hstate
    exact ⟨l, rounds.file i, hl, hstate, getElem?_range'_map rounds.file h1 hi⟩

end Steps

/-! ## Two parties -/

section Pair

/-- A proof as a number, and back. -/
def proofVal (proof : (wideCurv 7).DLogProof) : ℕ := ZMod.val (n := 7) proof

def proofOfVal (x : ℕ) : (wideCurv 7).DLogProof := (x : ZMod 7)

theorem proofOfVal_proofVal (proof : (wideCurv 7).DLogProof) :
    proofOfVal (proofVal proof) = proof := ZMod.natCast_zmod_val (n := 7) proof

/-- A message as numbers, the first of which is its round. -/
def messageNats : KeyGenMessage (wideCurv 7) (padLib 7) → List ℕ
  | .round1 bci => [1, bci.e, bci.com, bci.correctKeyProof]
  | .round2 decomi => [2, decomi.blindFactor, decomi.yi.val]
  | .round3 aeadPackI => 3 :: aeadPackI.ciphertext.length ::
      (aeadPackI.ciphertext ++ aeadPackI.tag).map UInt8.toNat
  | .round4 vss => 4 :: vss.parameters.1 :: vss.parameters.2 :: vss.commitments.map ZMod.val
  | .round5 dlogProof => [5, proofVal dlogProof]
  | .stopped => []

/-- The message with these numbers. -/
def messageOfNats : List ℕ → Option (KeyGenMessage (wideCurv 7) (padLib 7))
  | [1, e, com, correctKeyProof] => some (.round1 ⟨e, com, correctKeyProof⟩)
  | [2, blindFactor, yi] => some (.round2 ⟨blindFactor, (yi : ZMod 7)⟩)
  | 3 :: n :: bytes =>
    some (.round3 ⟨(bytes.take n).map UInt8.ofNat, (bytes.drop n).map UInt8.ofNat⟩)
  | 4 :: t :: n :: commitments =>
    some (.round4 ⟨(t, n), commitments.map (fun x : ℕ => (x : ZMod 7))⟩)
  | [5, dlogProof] => some (.round5 (proofOfVal dlogProof))
  | [] => some .stopped
  | _ => none

theorem messageOfNats_messageNats (m : KeyGenMessage (wideCurv 7) (padLib 7)) :
    messageOfNats (messageNats m) = some m := by
  have hbytes : ∀ bytes : List UInt8, (bytes.map UInt8.toNat).map UInt8.ofNat = bytes := by
    intro bytes
    rw [List.map_map]
    exact List.map_id'' (fun b => UInt8.ofNat_toNat) bytes
  have hpoints : ∀ points : List (ZMod 7),
      (points.map ZMod.val).map (fun x : ℕ => (x : ZMod 7)) = points := by
    intro points
    rw [List.map_map]
    exact List.map_id'' ZMod.natCast_zmod_val points
  cases m with
  | round1 bci => rfl
  | round2 decomi =>
    show some (KeyGenMessage.round2 ⟨decomi.blindFactor, ((decomi.yi.val : ℕ) : ZMod 7)⟩) = _
    rw [ZMod.natCast_zmod_val]
  | round3 aeadPackI =>
    show some (KeyGenMessage.round3 ⟨_, _⟩) = _
    rw [List.map_append, List.take_left' (List.length_map _), List.drop_left' (List.length_map _),
      hbytes, hbytes]
  | round4 vss =>
    show some (KeyGenMessage.round4 ⟨_, _⟩) = _
    rw [hpoints]
  | round5 dlogProof =>
    show some (KeyGenMessage.round5 (proofOfVal (proofVal dlogProof))) = _
    rw [proofOfVal_proofVal]
  | stopped => rfl

/-- Messages by the code of their numbers, in unary. -/
def messageJson : Json (KeyGenMessage (wideCurv 7) (padLib 7)) where
  toString m := unaryJson.toString (Encodable.encode (messageNats m))
  fromStr s := do
    let code ← unaryJson.fromStr s
    let nats ← (Encodable.decode code : Option (List ℕ))
    messageOfNats nats
  fromStr_toString m := by
    rw [unaryJson.fromStr_toString, Option.bind_eq_bind, Option.bind_some, Encodable.encodek,
      Option.bind_eq_bind, Option.bind_some, messageOfNats_messageNats]

/-- Client `a` will be party `2 - a`. -/
def keyGenPair : Network (KeyGenMessage (wideCurv 7) (padLib 7)) where
  setup := pairNetwork.setup
  json := messageJson
  program a := keyGenProgram ⟨1, 2⟩ ((twoParties ((5 : ℕ) : ZMod 7)).coins (2 - a))

theorem fullSession_keyGenPair : FullSession keyGenPair .keygen "" (fun i => 2 - i)
    (run (step keyGenPair) (init keyGenPair) [1, 0]).2 := by
  intro i h1 h2
  have h2 : i ≤ 2 := h2
  have hlog : (run (step keyGenPair) (init keyGenPair) [1, 0]).2 =
      [.signedUp .keygen 1 ⟨1, ""⟩, .signedUp .keygen 0 ⟨2, ""⟩] := rfl
  rw [hlog]
  interval_cases i
  · exact List.mem_cons_self
  · exact List.mem_cons_of_mem _ List.mem_cons_self

/-- The two can end with their key files. -/
theorem generateKey_runs_pair : ∃ acts', ∀ i, 1 ≤ i → i ≤ 2 → ∃ l file,
    (run (step keyGenPair) (init keyGenPair) ([1, 0] ++ acts')).1.clients (2 - i) = some l ∧
      (partyOf ⟨1, 2⟩ (twoParties 5).coins i).stateful.state l.past = .ok (.ended file) ∧
      ((twoParties 5).all (twoParties 5).keyFile)[i - 1]? = some file := by
  refine (generateKey_runs keyGenPair (by decide) (twoParties 5).coins [1, 0]
    fullSession_keyGenPair (fun i h1 h2 => ?_) twoParties_run).2
  have h2 : i ≤ 2 := h2
  show keyGenProgram _ ((twoParties ((5 : ℕ) : ZMod 7)).coins (2 - (2 - i))) = _
  rw [Nat.sub_sub_self h2]
  rfl

end Pair

end VDexNode.Mpt
