import VDexNode.Mpt.GenerateKey
import VDexNode.Mpt.Reconstruct
import VDexNode.Mpt.Session

/-!
# VDexNode.Mpt.Channel — the keys that the shares are encrypted with

Parties `i` and `j` encrypt with the bytes of the x-coordinate of `y_i + y_j`.  Each takes it from
its own `enc_keys`, which has no entry of the party itself.  The two entries are the same number;
`BigInt::to_vec` drops its leading zero bytes, and AES-256 asks for all 32.

* `Party.sendShares_outcome`, `Party.round4_outcome` : the loops that encrypt and decrypt the shares.
* `encKeys_outcome` : what `enc_keys` holds, at every party and with any public values.
* `delivers_iff` : **the channel works exactly when the coordinate has no leading zero byte.**
-/

namespace VDexNode.Mpt

variable {q : ℕ} {G : Type} {P : Paillier}

/-! ## The loops over the shares -/

section Loops

variable {c : Curv q G} {L : KeyGenLib q G P} {p : Party c L} {n i : ℕ} {key : ℕ → ℕ}
  {share : ℕ → ZMod q} {E : Failure → Prop}

/-- Encrypting the shares: `k` is at the party itself, `j` among the others. -/
theorem Party.sendShares_outcome {sent : ℕ → AEAD} (hparties : p.parties = n)
    (hnum : p.partyNumInt = i)
    (hseal : ∀ k ∈ others n i, Outcome (sealShare L (key k) (share k)) (· = sent k) E) :
    Outcome (p.sendShares ((others n i).map key) ((List.range' 1 n).map share))
      (· = (others n i).map (fun k => (k, sent k))) E := by
  rw [Party.sendShares, hparties, hnum]
  refine Outcome.bind_eq (forOthers_outcome
    (fun pre => ((pre.filter (· ≠ i)).map (fun k => (k, sent k)), pre.length)) ?_ ?_)
    (outcome_ok rfl)
  · intro pre post _
    show Outcome _ (· = (((pre ++ [i]).filter (· ≠ i)).map (fun k => (k, sent k)),
      (pre ++ [i]).length)) _
    rw [filter_ne_concat_self, List.length_append]
    exact outcome_ok rfl
  · intro pre post k j hpre hk hj
    have hj : (others n i)[j]? = some k := hj
    have hk : k ≠ i := hk
    have hmem : k ∈ others n i := List.mem_of_getElem? hj
    have hplace : pre.length + 1 = k := length_of_append hpre
    have hshare : index ((List.range' 1 n).map share) pre.length = .ok (share k) := by
      rw [← hplace]
      exact index_range'_map share (Nat.succ_pos _) (by have := (mem_others.mp hmem).1; omega)
    simp only [index_map hj, hshare, ok_bind]
    rw [filter_ne_concat hk, List.map_append, List.length_append]
    exact (hseal k hmem).bind_eq (outcome_ok rfl)

/-- Decrypting the shares: the own one is at `party_num_int - 1`, the others come in order. -/
theorem Party.round4_outcome {v : KeyGenLocals3 L} {own : ℕ → ZMod q} {pack : ℕ → AEAD}
    (hparties : p.parties = n) (hnum : p.partyNumInt = i) (hi : 1 ≤ i ∧ i ≤ n)
    (hkeys : v.encKeys = (others n i).map key)
    (hshares : v.secretShares = (List.range' 1 n).map own) (hown : own i = share i)
    (hopen : ∀ k ∈ others n i, Outcome (openShare L (key k) (pack k)) (· = share k) E) :
    Outcome (p.round4 v ((others n i).map pack))
      (· = { v with partyShares := (List.range' 1 n).map share }) E := by
  rw [Party.round4, hparties, hnum, hkeys, hshares]
  refine Outcome.bind_eq (forOthers_outcome (fun pre => pre.map share) ?_ ?_) (outcome_ok rfl)
  · intro pre post _
    show Outcome (index ((List.range' 1 n).map own) (i - 1) >>= _) (· = (pre ++ [i]).map _) _
    rw [index_range'_map own hi.1 hi.2, List.map_append, hown]
    exact outcome_ok rfl
  · intro pre post k j _ hk hj
    have hj : (others n i)[j]? = some k := hj
    rw [List.map_append]
    simp only [index_map hj, ok_bind]
    exact (hopen k (List.mem_of_getElem? hj)).bind_eq (outcome_ok rfl)

end Loops

/-- The parties before round 3, with any public values. -/
structure KeyedParties (c : Curv q G) (L : KeyGenLib q G P) where
  n : ℕ
  party : ℕ → Party c L
  locals : ℕ → KeyGenLocals2 L
  parties_eq : ∀ i, (party i).parties = n
  partyNumInt_eq : ∀ i, (party i).partyNumInt = i
  /-- A party reveals its own public value. -/
  decomi_yi : ∀ i, (locals i).decomi.yi = (locals i).partyKeys.yi

/-- `to_vec` is the shortest encoding (of `0`, one byte or none), AES-256 takes keys of 32 bytes and
decrypts what it has encrypted, and every point but infinity has a coordinate, of 32 bytes at
most. -/
structure LawfulTransport [AddCommGroup G] (c : Curv q G) (L : KeyGenLib q G P) : Prop where
  length_toVec_le_iff : ∀ b k, 0 < k → ((L.toVec b).length ≤ k ↔ b < 256 ^ k)
  fromBytes_toVec : ∀ b, L.fromBytes (L.toVec b) = b
  newGcm_isSome : ∀ key, key.length = 32 → (L.newGcm key nonce3 []).isSome
  decrypt_encrypt : ∀ key gcm plaintext, key.length = 32 → L.newGcm key nonce3 [] = some gcm →
    L.decrypt gcm (L.encrypt gcm plaintext).1 (L.encrypt gcm plaintext).2 = (true, plaintext)
  xCoor_isSome : ∀ R : G, (c.xCoor R).isSome ↔ R ≠ 0
  xCoor_lt : ∀ (R : G) x, c.xCoor R = some x → x < 2 ^ 256

/-- The numbers of exactly 32 bytes. -/
theorem LawfulTransport.length_toVec_eq_iff [AddCommGroup G] {c : Curv q G} {L : KeyGenLib q G P}
    (h : LawfulTransport c L) (b : ℕ) :
    (L.toVec b).length = 32 ↔ 2 ^ 248 ≤ b ∧ b < 2 ^ 256 := by
  have hlow := h.length_toVec_le_iff b 31 (by omega)
  have hhigh := h.length_toVec_le_iff b 32 (by omega)
  have h31 : (256 : ℕ) ^ 31 = 2 ^ 248 := by norm_num
  have h32 : (256 : ℕ) ^ 32 = 2 ^ 256 := by norm_num
  rw [h31] at hlow
  rw [h32] at hhigh
  omega

namespace KeyedParties

variable {c : Curv q G} {L : KeyGenLib q G P} (d : KeyedParties c L)

/-- The public value of party `i`. -/
def y (i : ℕ) : G := (d.locals i).partyKeys.yi

/-- What party `i` reads in round 2. -/
def round2AnsVec (i : ℕ) : List (KeyGenDecommitMessage1 G) :=
  (others d.n i).map (fun j => (d.locals j).decomi)

section Keys

variable [AddCommGroup G]

/-- `enc_keys` of party `i`. -/
def encKeys (i : ℕ) : Result (List ℕ) := do
  let (_, _, encKeys) ← (d.party i).collectRound2 (d.locals i) (d.round2AnsVec i)
  return encKeys

/-- The key of parties `i` and `j`, if it exists. -/
def encKey (i j : ℕ) : ℕ := (c.xCoor (d.y i + d.y j)).getD 0

theorem encKey_comm (i j : ℕ) : d.encKey i j = d.encKey j i := by
  rw [encKey, encKey, add_comm]

/-- **Reading the decommitments**: the vectors in closed form, or a sum is the point at infinity. -/
theorem collectRound2_outcome (i : ℕ) :
    Outcome ((d.party i).collectRound2 (d.locals i) (d.round2AnsVec i))
      (· = ((List.range' 1 d.n).map d.y, (List.range' 1 d.n).map (fun j => (d.locals j).decomi),
        (others d.n i).map (d.encKey i)))
      (fun f => f = .panicked "unwrap on None" ∧
        ∃ j ∈ others d.n i, c.xCoor (d.y i + d.y j) = none) := by
  rw [Party.collectRound2, d.parties_eq, d.partyNumInt_eq]
  refine forOthers_outcome (fun pre => (pre.map d.y, pre.map (fun j => (d.locals j).decomi),
    (pre.filter (· ≠ i)).map (d.encKey i))) (fun pre _ _ => ?_) (fun pre post k j _ hk hj => ?_)
  · rw [List.map_append, List.map_append, filter_ne_concat_self]
    exact outcome_ok rfl
  · have hmem : k ∈ others d.n i := List.mem_of_getElem? hj
    rw [List.map_append, List.map_append, filter_ne_concat hk, List.map_append, round2AnsVec]
    simp only [index_map hj, ok_bind, d.decomi_yi]
    refine Outcome.bind_eq (a := d.encKey i k) ?_ (outcome_ok rfl)
    show Outcome (unwrap (c.xCoor (d.y i + d.y k))) (· = d.encKey i k) _
    rw [encKey]
    cases hx : c.xCoor (d.y i + d.y k) with
    | some x => exact outcome_ok rfl
    | none => exact outcome_error ⟨rfl, k, hmem, hx⟩

theorem encKeys_outcome (i : ℕ) :
    Outcome (d.encKeys i) (· = (others d.n i).map (d.encKey i))
      (fun f => f = .panicked "unwrap on None" ∧
        ∃ j ∈ others d.n i, c.xCoor (d.y i + d.y j) = none) :=
  (d.collectRound2_outcome i).bind_eq (outcome_ok rfl)

/-- A party has its keys unless a sum is the point at infinity. -/
theorem exists_encKeys_iff (h : LawfulTransport c L) (i : ℕ) :
    (∃ keys, d.encKeys i = .ok keys) ↔ ∀ j ∈ others d.n i, d.y i + d.y j ≠ 0 := by
  constructor
  · rintro ⟨keys, hkeys⟩ j hj
    obtain ⟨⟨yVec, decomVec, encKeys⟩, hcollect, -⟩ := bind_eq_ok.mp hkeys
    rw [Party.collectRound2, d.parties_eq, d.partyNumInt_eq] at hcollect
    obtain ⟨k, acc, acc', hk, hturn⟩ := exists_ok_of_forOthers hcollect hj
    rw [round2AnsVec] at hturn
    simp only [index_map hk, ok_bind, d.decomi_yi] at hturn
    obtain ⟨x, hx, -⟩ := bind_eq_ok.mp hturn
    have hsome : c.xCoor (d.y i + d.y j) = some x := unwrap_eq_ok.mp hx
    apply (h.xCoor_isSome _).mp
    rw [hsome]
    rfl
  · intro hne
    refine ⟨_, (d.encKeys_outcome i).eq_ok ?_⟩
    rintro f ⟨-, j, hj, hnone⟩
    have hsome := (h.xCoor_isSome _).mpr (hne j hj)
    rw [hnone] at hsome
    cases hsome

/-- The shares that party `i` makes, in the order of the parties. -/
def secretShares (share : ℕ → ℕ → ZMod q) (i : ℕ) : List (ZMod q) :=
  (List.range' 1 d.n).map (share i)

/-- The third parties stop neither `i` nor `j`: their keys with `i` have 32 bytes, and what `board`
has from them for `j` opens. -/
def Undisturbed (board : List (ℕ × List (ℕ × AEAD))) (i j : ℕ) : Prop :=
  ∀ k ∈ others d.n i, k ≠ j → (L.toVec (d.encKey i k)).length = 32 ∧
    ∃ aeadPack share, (board.lookup k).bind (·.lookup j) = some aeadPack ∧
      openShare L (d.encKey j k) aeadPack = .ok share

/-- **The channel from `i` to `j` works**: the entries that the two have for each other, where the
counters of their loops are then, are the same 32 bytes; unless a third party stops them, `i` goes
through its loop, has encrypted the share for `j` with this key, and `j`, which polls, goes through
its own and has the share at the place of `i`. -/
def Delivers (share : ℕ → ℕ → ZMod q) (i j : ℕ) : Prop :=
  ∃ keysI keysJ keyI keyJ aeadPack, d.encKeys i = .ok keysI ∧ d.encKeys j = .ok keysJ ∧
    keysI[(others (j - 1) i).length]? = some keyI ∧
    keysJ[(others (i - 1) j).length]? = some keyJ ∧
    L.toVec keyI = L.toVec keyJ ∧ (L.toVec keyI).length = 32 ∧
    sealShare L keyI (share i j) = .ok aeadPack ∧ openShare L keyJ aeadPack = .ok (share i j) ∧
    ∀ board, d.Undisturbed board i j → ∃ sends ansVec,
      (d.party i).sendShares keysI (d.secretShares share i) = .ok sends ∧
      sends.lookup j = some aeadPack ∧ pollForP2p ((i, sends) :: board) j d.n = .ok ansVec ∧
      ∀ v : KeyGenLocals3 L, v.encKeys = keysJ → v.secretShares = d.secretShares share j →
        ∃ w, (d.party j).round4 v ansVec = .ok w ∧ w.partyShares[i - 1]? = some (share i j)

/-- The entry of a party for another. -/
theorem getElem?_encKeys {i j : ℕ} (hj : j ∈ others d.n i) :
    ((others d.n i).map (d.encKey i))[(others (j - 1) i).length]? = some (d.encKey i j) := by
  rw [List.getElem?_map, getElem?_others_length hj, Option.map_some]

/-- With a key of 32 bytes a share arrives. -/
theorem openShare_sealShare [Fact q.Prime] (h : LawfulTransport c L) {key : ℕ}
    (hlen : (L.toVec key).length = 32) (share : ZMod q) :
    ∃ aeadPack, sealShare L key share = .ok aeadPack ∧ openShare L key aeadPack = .ok share := by
  obtain ⟨gcm, hgcm⟩ := Option.isSome_iff_exists.mp (h.newGcm_isSome _ hlen)
  have hnew : newGcm L key = .ok gcm := newGcm_eq_ok.mpr hgcm
  have hdecrypt := h.decrypt_encrypt _ gcm (L.toVec share.val) hlen hgcm
  refine ⟨⟨(L.encrypt gcm (L.toVec share.val)).1, (L.encrypt gcm (L.toVec share.val)).2⟩, ?_, ?_⟩
  · rw [sealShare, hnew]
    rfl
  · have hvalue : scalarFrom (L.fromBytes (L.toVec share.val)) = share := by
      rw [h.fromBytes_toVec, scalarFrom, ZMod.natCast_zmod_val]
    rw [openShare, hnew, ok_bind, hdecrypt]
    exact congrArg Except.ok hvalue

/-- A channel that works has a key of 32 bytes. -/
theorem Delivers.le_xCoor {d : KeyedParties c L} (h : LawfulTransport c L) {i j : ℕ}
    (hj : j ∈ others d.n i) {share : ℕ → ℕ → ZMod q} (hdel : d.Delivers share i j) {x : ℕ}
    (hx : c.xCoor (d.y i + d.y j) = some x) : 2 ^ 248 ≤ x := by
  obtain ⟨keysI, -, keyI, -, -, hkeysI, -, hkeyI, -, -, hlen, -⟩ := hdel
  rw [(d.encKeys_outcome i).1 keysI hkeysI, d.getElem?_encKeys hj, encKey, hx, Option.getD_some]
    at hkeyI
  cases hkeyI
  exact ((h.length_toVec_eq_iff x).mp hlen).1

/-- Party `i` goes through its loop if its keys have 32 bytes. -/
theorem exists_sendShares [Fact q.Prime] (h : LawfulTransport c L) {i : ℕ}
    (hlen : ∀ k ∈ others d.n i, (L.toVec (d.encKey i k)).length = 32) (share : ℕ → ℕ → ZMod q) :
    ∃ sent : ℕ → AEAD, (d.party i).sendShares ((others d.n i).map (d.encKey i))
        (d.secretShares share i) = .ok ((others d.n i).map (fun k => (k, sent k))) ∧
      ∀ k ∈ others d.n i, sealShare L (d.encKey i k) (share i k) = .ok (sent k) ∧
        openShare L (d.encKey i k) (sent k) = .ok (share i k) := by
  have hsent : ∀ k, ∃ aeadPack, k ∈ others d.n i →
      sealShare L (d.encKey i k) (share i k) = .ok aeadPack ∧
        openShare L (d.encKey i k) aeadPack = .ok (share i k) := by
    intro k
    by_cases hk : k ∈ others d.n i
    · obtain ⟨aeadPack, hpack⟩ := openShare_sealShare h (hlen k hk) (share i k)
      exact ⟨aeadPack, fun _ => hpack⟩
    · exact ⟨⟨[], []⟩, fun hmem => absurd hmem hk⟩
  choose sent hsent using hsent
  refine ⟨sent, ?_, hsent⟩
  exact (Party.sendShares_outcome (d.parties_eq i) (d.partyNumInt_eq i)
    (fun k hk => .of_eq_ok (hsent k hk).1)).eq_ok (fun _ hE => hE)

/-- Party `j` goes through its loop if every entry that it finds opens. -/
theorem exists_round4 {j : ℕ} (hj : 1 ≤ j ∧ j ≤ d.n) (share : ℕ → ℕ → ZMod q)
    {board : List (ℕ × List (ℕ × AEAD))}
    (hopen : ∀ k ∈ others d.n j, ∃ aeadPack value,
      (board.lookup k).bind (·.lookup j) = some aeadPack ∧
        openShare L (d.encKey j k) aeadPack = .ok value) :
    ∃ ansVec, pollForP2p board j d.n = .ok ansVec ∧ ∀ v : KeyGenLocals3 L,
      v.encKeys = (others d.n j).map (d.encKey j) → v.secretShares = d.secretShares share j →
      ∃ w, (d.party j).round4 v ansVec = .ok w ∧ ∀ k ∈ others d.n j, ∀ aeadPack value,
        (board.lookup k).bind (·.lookup j) = some aeadPack →
        openShare L (d.encKey j k) aeadPack = .ok value → w.partyShares[k - 1]? = some value := by
  have hread : ∀ k, ∃ aeadPack value, (k = j → value = share j j) ∧ (k ∈ others d.n j →
      (board.lookup k).bind (·.lookup j) = some aeadPack ∧
        openShare L (d.encKey j k) aeadPack = .ok value) := by
    intro k
    by_cases hk : k ∈ others d.n j
    · obtain ⟨aeadPack, value, hpack⟩ := hopen k hk
      exact ⟨aeadPack, value, fun heq => absurd heq (mem_others.mp hk).2, fun _ => hpack⟩
    · exact ⟨⟨[], []⟩, share j j, fun _ => rfl, fun hmem => absurd hmem hk⟩
  choose pack value hown hread using hread
  refine ⟨(others d.n j).map pack, ?_, fun v hkeys hshares => ?_⟩
  · refine mapM_eq_ok_map (fun k hk => ?_)
    rw [(hread k hk).1]
  · refine ⟨_, (Party.round4_outcome (d.parties_eq j) (d.partyNumInt_eq j) hj hkeys hshares
      (hown j rfl).symm (fun k hk => .of_eq_ok (hread k hk).2)).eq_ok (fun _ hE => hE), ?_⟩
    intro k hk aeadPack value' hpack hvalue
    obtain ⟨hread, hopened⟩ := hread k hk
    rw [hread, Option.some_inj] at hpack
    rw [hpack, hvalue] at hopened
    cases hopened
    exact getElem?_range'_map value (mem_others.mp hk).1.1 (mem_others.mp hk).1.2

/-- Undisturbed, party `i` has keys of 32 bytes if that with `j` has. -/
theorem Undisturbed.length_keys {d : KeyedParties c L} {board : List (ℕ × List (ℕ × AEAD))}
    {i j : ℕ} (hboard : d.Undisturbed board i j) (hlen : (L.toVec (d.encKey i j)).length = 32) :
    ∀ k ∈ others d.n i, (L.toVec (d.encKey i k)).length = 32 := by
  intro k hk
  by_cases hkj : k = j
  · rw [hkj]
    exact hlen
  · exact (hboard k hk hkj).1

/-- Undisturbed, party `j` can open all that it finds if it can open what `i` has sent. -/
theorem Undisturbed.entries {d : KeyedParties c L} {board : List (ℕ × List (ℕ × AEAD))} {i j : ℕ}
    (hboard : d.Undisturbed board i j) {sends : List (ℕ × AEAD)} {aeadPack : AEAD} {value : ZMod q}
    (hentry : sends.lookup j = some aeadPack)
    (hopen : openShare L (d.encKey j i) aeadPack = .ok value) :
    ∀ k ∈ others d.n j, ∃ aeadPack value,
      (((i, sends) :: board).lookup k).bind (·.lookup j) = some aeadPack ∧
        openShare L (d.encKey j k) aeadPack = .ok value := by
  intro k hk
  by_cases hki : k = i
  · rw [hki, List.lookup_cons_self, Option.bind_some]
    exact ⟨aeadPack, value, hentry, hopen⟩
  · obtain ⟨hk, hkj⟩ := mem_others.mp hk
    obtain ⟨-, pack, value, hlookup, hvalue⟩ := hboard k (mem_others.mpr ⟨hk, hki⟩) hkj
    refine ⟨pack, value, ?_, hvalue⟩
    rw [List.lookup_cons, beq_eq_false_iff_ne.mpr hki]
    exact hlookup

/-- **A share on its way**: unless a third party stops them, party `i` encrypts it in its loop and
party `j` has it after its own. -/
theorem exists_transfer [Fact q.Prime] (h : LawfulTransport c L) {i j : ℕ}
    (hji : j ∈ others d.n i) (hij : i ∈ others d.n j)
    (hlen : (L.toVec (d.encKey i j)).length = 32) {share : ℕ → ℕ → ZMod q} {aeadPack : AEAD}
    (hseal : sealShare L (d.encKey i j) (share i j) = .ok aeadPack)
    (hopen : openShare L (d.encKey j i) aeadPack = .ok (share i j))
    {board : List (ℕ × List (ℕ × AEAD))} (hboard : d.Undisturbed board i j) :
    ∃ sends ansVec, (d.party i).sendShares ((others d.n i).map (d.encKey i))
        (d.secretShares share i) = .ok sends ∧
      sends.lookup j = some aeadPack ∧ pollForP2p ((i, sends) :: board) j d.n = .ok ansVec ∧
      ∀ v : KeyGenLocals3 L, v.encKeys = (others d.n j).map (d.encKey j) →
        v.secretShares = d.secretShares share j →
        ∃ w, (d.party j).round4 v ansVec = .ok w ∧ w.partyShares[i - 1]? = some (share i j) := by
  obtain ⟨sent, hsends, hsent⟩ := d.exists_sendShares h (hboard.length_keys hlen) share
  have hentry : ((others d.n i).map (fun k => (k, sent k))).lookup j = some aeadPack := by
    rw [lookup_board sent hji]
    exact congrArg some (Except.ok.inj ((hsent j hji).1.symm.trans hseal))
  have hpost : (((i, (others d.n i).map (fun k => (k, sent k))) :: board).lookup i).bind
      (·.lookup j) = some aeadPack := by
    rw [List.lookup_cons_self, Option.bind_some, hentry]
  obtain ⟨ansVec, hpoll, hround⟩ :=
    d.exists_round4 (mem_others.mp hji).1 share (hboard.entries hentry hopen)
  refine ⟨_, ansVec, hsends, hentry, hpoll, fun v hencKeys hshares => ?_⟩
  obtain ⟨w, hw, hplace⟩ := hround v hencKeys hshares
  exact ⟨w, hw, hplace i hij aeadPack (share i j) hpost hopen⟩

/-- **The channel**: it works exactly when no public value is the opposite of one of the two and the
x-coordinate of the sum of the two has no leading zero byte. -/
theorem delivers_iff [Fact q.Prime] (h : LawfulTransport c L) {i j : ℕ} (hi : 1 ≤ i ∧ i ≤ d.n)
    (hj : 1 ≤ j ∧ j ≤ d.n) (hne : i ≠ j) (share : ℕ → ℕ → ZMod q) :
    d.Delivers share i j ↔ (∀ k ∈ others d.n i, d.y i + d.y k ≠ 0) ∧
      (∀ k ∈ others d.n j, d.y j + d.y k ≠ 0) ∧
      ∀ x, c.xCoor (d.y i + d.y j) = some x → 2 ^ 248 ≤ x := by
  have hji : j ∈ others d.n i := mem_others.mpr ⟨hj, hne.symm⟩
  have hij : i ∈ others d.n j := mem_others.mpr ⟨hi, hne⟩
  constructor
  · intro hdel
    obtain ⟨keysI, keysJ, -, -, -, hkeysI, hkeysJ, -⟩ := id hdel
    exact ⟨(d.exists_encKeys_iff h i).mp ⟨keysI, hkeysI⟩,
      (d.exists_encKeys_iff h j).mp ⟨keysJ, hkeysJ⟩, fun x => hdel.le_xCoor h hji⟩
  · rintro ⟨hsumI, hsumJ, hlow⟩
    obtain ⟨keysI, hkeysI⟩ := (d.exists_encKeys_iff h i).mpr hsumI
    obtain ⟨keysJ, hkeysJ⟩ := (d.exists_encKeys_iff h j).mpr hsumJ
    obtain rfl := (d.encKeys_outcome i).1 keysI hkeysI
    obtain rfl := (d.encKeys_outcome j).1 keysJ hkeysJ
    obtain ⟨x, hx⟩ := Option.isSome_iff_exists.mp ((h.xCoor_isSome _).mpr (hsumI j hji))
    have hkey : d.encKey i j = x := by
      rw [encKey, hx, Option.getD_some]
    have hlen : (L.toVec (d.encKey i j)).length = 32 := by
      rw [hkey, h.length_toVec_eq_iff]
      exact ⟨hlow x hx, h.xCoor_lt _ x hx⟩
    obtain ⟨aeadPack, hseal, hopen⟩ := openShare_sealShare h hlen (share i j)
    have hkeys : L.toVec (d.encKey i j) = L.toVec (d.encKey j i) := by
      rw [d.encKey_comm]
    rw [d.encKey_comm i j] at hopen
    exact ⟨_, _, d.encKey i j, d.encKey j i, aeadPack, hkeysI, hkeysJ, d.getElem?_encKeys hji,
      d.getElem?_encKeys hij, hkeys, hlen, hseal, hopen,
      fun board => d.exists_transfer h hji hij hlen hseal hopen⟩

end Keys

end KeyedParties

/-! ## Two parties -/

section TwoParties

variable [Fact q.Prime]

/-- The pad as a cipher, where the coordinates of points are their numbers after `a`. -/
theorem padLib_lawfulTransport {c : Curv q (ZMod q)} (a : ℕ)
    (hcoor : ∀ R, c.xCoor R = if R = 0 then none else some (a + R.val)) (ha : a + q ≤ 2 ^ 256) :
    LawfulTransport c (padLib q) where
  length_toVec_le_iff b k _ := by
    show (bytesOf b).length ≤ k ↔ b < 256 ^ k
    rw [bytesOf, List.length_reverse, List.length_map]
    exact Nat.digits_length_le_iff (by decide) b
  fromBytes_toVec := ofBytes_bytesOf
  newGcm_isSome key hlen := by
    show (if key.length = 32 then some key else none).isSome = true
    rw [if_pos hlen]
    rfl
  decrypt_encrypt _ gcm plaintext _ _ :=
    Prod.ext (beq_self_eq_true (α := List UInt8) gcm) (pad_pad gcm plaintext)
  xCoor_isSome R := by
    rw [hcoor]
    by_cases hR : R = 0
    · simp [hR]
    · simp [hR]
  xCoor_lt R x hx := by
    have hval : R.val < q := R.val_lt
    rw [hcoor] at hx
    by_cases hR : R = 0
    · rw [if_pos hR] at hx
      cases hx
    · rw [if_neg hR, Option.some_inj] at hx
      omega

/-- Two parties; the secret of party `i` is `i`. -/
def pair (c : Curv q (ZMod q)) (nonce : c.Nonce) : KeyedParties c (padLib q) where
  n := 2
  party i := ⟨⟨1, 2⟩, i, ⟨i, i, i, [0], nonce⟩⟩
  locals i := { Party.round1 ⟨⟨1, 2⟩, i, ⟨i, i, i, [0], nonce⟩⟩ with bc1Vec := [] }
  parties_eq _ := rfl
  partyNumInt_eq _ := rfl
  decomi_yi _ := rfl

end TwoParties

/-- With a coordinate of 32 bytes a share arrives, and with two parties nobody else can stop it. -/
theorem wide_delivers :
    (pair (wideCurv 7) (0 : ℕ)).Delivers (fun i j => ((3 * i + j : ℕ) : ZMod 7)) 1 2 ∧
      (pair (wideCurv 7) (0 : ℕ)).Undisturbed [] 1 2 := by
  have htransport : LawfulTransport (wideCurv 7) (padLib 7) :=
    padLib_lawfulTransport (2 ^ 255) (fun _ => rfl) (by norm_num)
  refine ⟨((pair (wideCurv 7) (0 : ℕ)).delivers_iff htransport (by decide) (by decide) (by decide)
    _).mpr ⟨by decide, by decide, fun x hx => ?_⟩, fun k hk hne => ?_⟩
  · have hx : some (2 ^ 255 + 3) = some x := hx
    cases hx
    norm_num
  · have hk : k ∈ [2] := hk
    exact absurd (List.mem_singleton.mp hk) hne

/-- With coordinates of one byte the two have a key of one byte: setting up the cipher panics, and no
share arrives. -/
theorem narrow_stuck : LawfulTransport (additiveCurv 7) (padLib 7) ∧
    (∃ keys, (pair (additiveCurv 7) (0 : ℕ)).encKeys 1 = .ok keys ∧
      ∀ share, ((pair (additiveCurv 7) (0 : ℕ)).party 1).sendShares keys
        ((pair (additiveCurv 7) (0 : ℕ)).secretShares share 1) =
          .error (.panicked "invalid key size")) ∧
    ¬ ∀ d : KeyedParties (additiveCurv 7) (padLib 7), ∀ i j : ℕ, (1 ≤ i ∧ i ≤ d.n) →
      (1 ≤ j ∧ j ≤ d.n) → i ≠ j → d.y i + d.y j ≠ 0 → ∀ share, d.Delivers share i j := by
  have htransport : LawfulTransport (additiveCurv 7) (padLib 7) := by
    refine padLib_lawfulTransport 0 (fun R => ?_) (by norm_num)
    rw [Nat.zero_add]
    rfl
  refine ⟨htransport, ⟨[3], by rfl, fun share => by rfl⟩, fun hall => ?_⟩
  have hdel := hall (pair (additiveCurv 7) (0 : ℕ)) 1 2 (by decide) (by decide) (by decide)
    (by decide) (fun _ _ => 0)
  have hlow : 2 ^ 248 ≤ 3 := hdel.le_xCoor htransport (by decide) rfl
  norm_num at hlow

end VDexNode.Mpt
