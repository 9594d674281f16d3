import VDexNode.Mpt.Channel
import VDexNode.Mpt.KeyProofs
import VDexNode.Mpt.Session

/-!
# VDexNode.Mpt.KeyGen — distributed key generation is correct

An honest run of `generate_key.rs`, round by round: `locals1` to `locals5` are the local variables
of party `i` in closed form, one lemma for each round says that its piece of `main` computes them.

The shares travel encrypted under the x-coordinate of the sum of two public keys.  `Usable` says
that this key exists and has the size the cipher asks for; it is all that a run depends on.

* `round3_outcome`, `round4_outcome` : the shares arrive, or the cipher cannot be set up.
* `generateKey_outcome` : **every party writes the key file `keyFile`, or the transport panics.**
* `keyGen_correct` : **the key files hold shares of one key.**
-/

namespace VDexNode.Mpt

open Finset

variable {q : ℕ} {G : Type} {P : Paillier}

/-- An honest run: the numbers of parties and of the threshold, and what each party samples. -/
structure HonestKeyGen (c : Curv q G) (L : KeyGenLib q G P) where
  n : ℕ
  t : ℕ
  coins : ℕ → KeyGenCoins c L
  two_le_n : 2 ≤ n
  t_lt_n : t < n
  /-- Indices are distinct scalars: a party count is a `u32`, the group order has 256 bits. -/
  n_lt_q : n < q
  length_coeffs : ∀ i, 1 ≤ i → i ≤ n → (coins i).coeffs.length = t

namespace HonestKeyGen

variable {c : Curv q G} {L : KeyGenLib q G P} (d : HonestKeyGen c L)

/-- Party `i`. -/
def party (i : ℕ) : Party c L := ⟨⟨d.t, d.n⟩, i, d.coins i⟩

/-- The coefficients of party `i`. -/
def poly (i : ℕ) : List (ZMod q) := (d.coins i).ui :: (d.coins i).coeffs

/-- A vector with an entry of every party. -/
def all {α : Type} (f : ℕ → α) : List α := (List.range' 1 d.n).map f

theorem length_all {α : Type} (f : ℕ → α) : (d.all f).length = d.n := by
  rw [all, List.length_map, List.length_range']

/-- The entries of a vector, one by one. -/
theorem index_all {α : Type} (f : ℕ → α) {i : ℕ} (hi : i < d.n) :
    index (d.all f) i = .ok (f (i + 1)) :=
  index_range'_map f (Nat.succ_pos i) hi

theorem all_ne_nil {α : Type} (f : ℕ → α) : d.all f ≠ [] := by
  intro h
  have hlen := d.length_all f
  have hn := d.two_le_n
  rw [h, List.length_nil] at hlen
  omega

/-- The first entry and the sum of the others. -/
theorem fold_all {M : Type} [AddCommMonoid M] (f : ℕ → M) :
    ∃ head, (d.all f).head? = some head ∧
      (d.all f).tail.foldl (· + ·) head = ∑ i ∈ Icc 1 d.n, f i := by
  obtain ⟨head, rest, hall⟩ := List.exists_cons_of_ne_nil (d.all_ne_nil f)
  refine ⟨head, by rw [hall]; rfl, ?_⟩
  rw [← sum_map_range', ← all, foldl_add_eq_sum, hall, List.tail_cons, List.sum_cons]

theorem length_poly {i : ℕ} (h1 : 1 ≤ i) (hn : i ≤ d.n) : (d.poly i).length = d.t + 1 := by
  rw [poly, List.length_cons, d.length_coeffs i h1 hn]

/-- The own value and those of the others, in order. -/
theorem collect_honest {α : Type} (f : ℕ → α) {i : ℕ} :
    (d.party i).collect ((others d.n i).map f) (f i) = .ok (d.all f) := by
  refine forOthers_eq_ok (fun pre => pre.map f) (fun pre => ?_) (fun pre k j _ hj => ?_)
  · rw [List.map_append]
    rfl
  · have hj : (others d.n i)[j]? = some k := hj
    simp only [index_map hj, ok_bind, List.map_append, List.map_cons, List.map_nil]
    rfl

/-- The entries of a round. -/
def posted {α : Type} (m : ℕ → α) : List (ℕ × α) := (List.range' 1 d.n).map (fun i => (i, m i))

theorem board_honest {V α : Type} (post : Party c L → V → α) (v : ℕ → V) :
    board post (d.all (fun i => (d.party i, v i))) = d.posted (fun i => post (d.party i) (v i)) := by
  rw [board, all, List.map_map]
  rfl

section Values

variable [Fact q.Prime]

/-- The share of party `i` for party `j`. -/
def share (i j : ℕ) : ZMod q := evalAt ((d.poly i).getD · 0) (d.t + 1) (j : ZMod q)

/-- The sum of the secrets. -/
def secret : ZMod q := ∑ i ∈ Icc 1 d.n, (d.coins i).ui

/-- The shares of party `i`, added up. -/
def xi (i : ℕ) : ZMod q := ∑ j ∈ Icc 1 d.n, d.share j i

/-- The shares of the parties are the values of the sum of the polynomials. -/
theorem xi_eq_evalAt (i : ℕ) :
    d.xi i = evalAt (fun k => ∑ j ∈ Icc 1 d.n, (d.poly j).getD k 0) (d.t + 1) (i : ZMod q) := by
  rw [evalAt_sum]
  rfl

/-- **Every `t + 1` shares recover the sum of the secrets.** -/
theorem sum_lagrange_xi {s : List ℕ} (hnodup : s.Nodup) (hlen : s.length = d.t + 1)
    (hs : ∀ i ∈ s, 1 ≤ i ∧ i ≤ d.n) :
    (s.map (fun i => lagrangeAtZero s.toFinset i * d.xi i)).sum = d.secret := by
  have hinj : Set.InjOn (Nat.cast : ℕ → ZMod q) (Set.Iic d.n) := injOn_cast d.n_lt_q
  have hsub : s.toFinset ⊆ Icc 1 d.n := fun i hi => mem_Icc.mpr (hs i (List.mem_toFinset.mp hi))
  have hcard : #s.toFinset = d.t + 1 := by rw [List.toFinset_card_of_nodup hnodup, hlen]
  have hrec := sum_lagrange_evalAt_of_le (F := ZMod q) hinj
    (fun k => ∑ j ∈ Icc 1 d.n, (d.poly j).getD k 0) (Nat.succ_pos d.t) (le_refl (d.t + 1)) hsub hcard
  rw [← List.sum_toFinset _ hnodup, secret]
  simp only [d.xi_eq_evalAt]
  exact hrec

variable [AddCommGroup G] [Module (ZMod q) G]

/-- The public key of party `i`. -/
def yi (i : ℕ) : G := (d.coins i).ui • c.generator

/-- The sharing scheme of party `i`. -/
def vss (i : ℕ) : VerifiableSS G := ⟨(d.t, d.n), (d.poly i).map (· • c.generator)⟩

/-- The commitments of party `j` at `i` are the point of its share. -/
theorem evalAt_vss (j i : ℕ) (h1 : 1 ≤ j) (hn : j ≤ d.n) :
    evalAt ((d.vss j).commitments.getD · 0) (d.vss j).commitments.length (i : ZMod q)
      = d.share j i • c.generator := by
  have hcoeff : (fun k => (d.vss j).commitments.getD k 0)
      = fun k => (d.poly j).getD k 0 • c.generator := by
    funext k
    show ((d.poly j).map (· • c.generator)).getD k 0 = _
    rw [List.getD_eq_getElem?_getD, List.getD_eq_getElem?_getD, List.getElem?_map]
    cases (d.poly j)[k]? with
    | none => exact (zero_smul (ZMod q) c.generator).symm
    | some a => rfl
  have hlen : (d.vss j).commitments.length = d.t + 1 := by
    rw [vss, List.length_map, d.length_poly h1 hn]
  rw [hcoeff, hlen, evalAt_smul, share]

/-- The key that parties `i` and `j` encrypt with, if it exists. -/
def encKey (i j : ℕ) : ℕ := (c.xCoor (d.yi i + d.yi j)).getD 0

theorem encKey_comm (i j : ℕ) : d.encKey i j = d.encKey j i := by
  rw [encKey, encKey, add_comm]

/-- Parties `i` and `j` have a key of the right size. -/
def Usable (i j : ℕ) : Prop :=
  ∃ x, c.xCoor (d.yi i + d.yi j) = some x ∧ (L.newGcm (L.toVec x) nonce3 []).isSome

theorem Usable.symm {d : HonestKeyGen c L} {i j : ℕ} (h : d.Usable i j) : d.Usable j i := by
  rw [Usable, add_comm]
  exact h

/-- The transport panics: two parties have no point to take the key from, or a key of another
size. -/
def TransportPanic (f : Failure) : Prop :=
  (f = .panicked "unwrap on None" ∨ f = .panicked "invalid key size") ∧
    ∃ i j, (1 ≤ i ∧ i ≤ d.n) ∧ (1 ≤ j ∧ j ≤ d.n) ∧ i ≠ j ∧ ¬ d.Usable i j

/-- What party `i` sends party `j` in round 3. -/
def sent (i j : ℕ) : AEAD :=
  match L.newGcm (L.toVec (d.encKey i j)) nonce3 [] with
  | some gcm =>
    let out := L.encrypt gcm (L.toVec (d.share i j).val)
    ⟨out.1, out.2⟩
  | none => ⟨[], []⟩

/-! ## Local variables in closed form -/

def locals1 (i : ℕ) : KeyGenLocals1 L := (d.party i).round1

def locals2 (i : ℕ) : KeyGenLocals2 L :=
  { d.locals1 i with bc1Vec := d.all (fun j => (d.locals1 j).bci) }

def locals3 (i : ℕ) : KeyGenLocals3 L :=
  { d.locals2 i with
    yVec := d.all d.yi
    encKeys := (others d.n i).map (d.encKey i)
    ySum := d.secret • c.generator
    vssScheme := d.vss i
    secretShares := d.all (d.share i)
    sends := (others d.n i).map (fun j => (j, d.sent i j)) }

def locals4 (i : ℕ) : KeyGenLocals4 L :=
  { d.locals3 i with partyShares := d.all (fun j => d.share j i) }

def locals5 (i : ℕ) : KeyGenLocals5 c L :=
  { d.locals4 i with
    vssSchemeVec := d.all d.vss
    sharedKeys := ⟨d.secret • c.generator, d.xi i⟩
    dlogProof := c.proveDLog (d.xi i) (d.coins i).nonce }

/-- The key file of party `i`. -/
def keyFile (i : ℕ) : KeyFile q G P where
  partyKeys := (d.locals1 i).partyKeys
  sharedKeys := ⟨d.secret • c.generator, d.xi i⟩
  partyId := i
  vssSchemeVec := d.all d.vss
  paillierKeyVector := d.all (fun j => (L.keypair (d.coins j).keySeed).1)
  ySum := d.secret • c.generator

/-- The sum of the public keys. -/
theorem sum_yi : ∑ i ∈ Icc 1 d.n, d.yi i = d.secret • c.generator := by
  rw [secret, sum_smul]
  rfl

/-! ## The rounds -/

theorem round2_honest {i : ℕ} :
    (d.party i).round2 (d.locals1 i) ((others d.n i).map (fun j => (d.locals1 j).bci)) =
      .ok (d.locals2 i) := by
  have hcollect := d.collect_honest (fun j => (d.locals1 j).bci) (i := i)
  rw [Party.round2, hcollect]
  rfl

theorem newGcm_outcome {i j : ℕ} (hi : 1 ≤ i ∧ i ≤ d.n) (hj : 1 ≤ j ∧ j ≤ d.n) (hne : i ≠ j) :
    Outcome (newGcm L (d.encKey i j))
      (fun gcm => L.newGcm (L.toVec (d.encKey i j)) nonce3 [] = some gcm) d.TransportPanic := by
  rw [newGcm]
  cases hgcm : L.newGcm (L.toVec (d.encKey i j)) nonce3 [] with
  | some gcm => exact outcome_ok rfl
  | none =>
    refine outcome_error ⟨Or.inr rfl, i, j, hi, hj, hne, ?_⟩
    rintro ⟨x, hx, hsome⟩
    rw [encKey, hx, Option.getD_some] at hgcm
    rw [hgcm] at hsome
    cases hsome

theorem sealShare_outcome {i j : ℕ} (hi : 1 ≤ i ∧ i ≤ d.n) (hj : 1 ≤ j ∧ j ≤ d.n) (hne : i ≠ j) :
    Outcome (sealShare L (d.encKey i j) (d.share i j)) (· = d.sent i j) d.TransportPanic := by
  refine (d.newGcm_outcome hi hj hne).bind (fun gcm hgcm => outcome_ok ?_)
  rw [sent, hgcm]

/-- A share arrives, or the transport panics. -/
theorem openShare_outcome (hL : L.Lawful c) {i j : ℕ} (hi : 1 ≤ i ∧ i ≤ d.n)
    (hj : 1 ≤ j ∧ j ≤ d.n) (hne : i ≠ j) :
    Outcome (openShare L (d.encKey i j) (d.sent j i)) (· = d.share j i) d.TransportPanic := by
  refine (d.newGcm_outcome hi hj hne).bind (fun gcm hgcm => ?_)
  rw [d.encKey_comm] at hgcm
  rw [sent, hgcm]
  simp only [hL.decrypt_encrypt]
  have hvalue : scalarFrom (L.fromBytes (L.toVec (d.share j i).val)) = d.share j i := by
    rw [hL.fromBytes_toVec, scalarFrom, ZMod.natCast_zmod_val]
  exact outcome_ok hvalue

/-- The parties before round 3. -/
def keyed : KeyedParties c L where
  n := d.n
  party := d.party
  locals := d.locals2
  parties_eq _ := rfl
  partyNumInt_eq _ := rfl
  decomi_yi _ := rfl

/-- Reading the decommitments. -/
theorem collectRound2_outcome {i : ℕ} (hi : 1 ≤ i ∧ i ≤ d.n) :
    Outcome ((d.party i).collectRound2 (d.locals2 i)
        ((others d.n i).map (fun j => (d.locals1 j).decomi)))
      (· = (d.all d.yi, d.all (fun j => (d.locals1 j).decomi), (others d.n i).map (d.encKey i)))
      d.TransportPanic := by
  refine (d.keyed.collectRound2_outcome i).mono (fun _ h => h) ?_
  rintro f ⟨hf, j, hj, hnone⟩
  obtain ⟨hj, hne⟩ := mem_others.mp hj
  refine ⟨Or.inl hf, i, j, hi, hj, hne.symm, ?_⟩
  rintro ⟨x, hx, -⟩
  have hnone : c.xCoor (d.yi i + d.yi j) = none := hnone
  rw [hnone] at hx
  cases hx

/-- Encrypting the shares. -/
theorem sendShares_outcome {i : ℕ} (hi : 1 ≤ i ∧ i ≤ d.n) :
    Outcome ((d.party i).sendShares ((others d.n i).map (d.encKey i)) (d.all (d.share i)))
      (· = (others d.n i).map (fun j => (j, d.sent i j))) d.TransportPanic := by
  refine Party.sendShares_outcome rfl rfl (fun k hk => ?_)
  obtain ⟨hk, hne⟩ := mem_others.mp hk
  exact d.sealShare_outcome hi hk hne.symm

/-- The commitments and the proofs of correct keys are accepted, and the secret is shared. -/
theorem phase1_honest (hL : L.Lawful c) {i : ℕ} (hi : 1 ≤ i ∧ i ≤ d.n) :
    (d.locals1 i).partyKeys.phase1VerifyComPhase3VerifyCorrectKeyPhase2Distribute c L ⟨d.t, d.n⟩
        (d.all (fun j => (d.locals1 j).decomi)) (d.all (fun j => (d.locals1 j).bci))
        (d.coins i).coeffs =
      .ok (d.vss i, d.all (d.share i), i) := by
  have hdecom : (d.all (fun j => (d.locals1 j).decomi)).length = d.n := d.length_all _
  have hbc : (d.all (fun j => (d.locals1 j).bci)).length = d.n := d.length_all _
  have htest : (List.range (d.all (fun j => (d.locals1 j).bci)).length).allM (verifyComAndKey c L
      (d.all (fun j => (d.locals1 j).decomi)) (d.all (fun j => (d.locals1 j).bci))) = .ok true := by
    refine allM_eq_ok_true.mpr (fun k hk => ?_)
    have hk : k < d.n := by
      rw [hbc] at hk
      exact List.mem_range.mp hk
    simp only [verifyComAndKey, d.index_all _ hk, ok_bind]
    refine (if_pos rfl).trans ?_
    exact congrArg Except.ok (hL.verifyCorrectKey_prove _)
  have hshare := hL.share_eq d.t d.n (d.coins i).ui (d.coins i).coeffs
    (d.length_coeffs i hi.1 hi.2) d.t_lt_n
  have hsecret : L.share d.t d.n (d.locals1 i).partyKeys.ui (d.coins i).coeffs
      = (d.vss i, d.all (d.share i)) := hshare
  have hdecomEq : assertEq (d.all (fun j => (d.locals1 j).decomi)).length d.n = .ok () :=
    assertEq_eq_ok.mpr hdecom
  have hbcEq : assertEq (d.all (fun j => (d.locals1 j).bci)).length d.n = .ok () :=
    assertEq_eq_ok.mpr hbc
  simp only [Keys.phase1VerifyComPhase3VerifyCorrectKeyPhase2Distribute, hdecomEq, hbcEq, htest,
    ok_bind, hsecret]
  rfl

/-- **Round 3**: every party encrypts its shares, or the transport panics. -/
theorem round3_outcome (hL : L.Lawful c) {i : ℕ} (hi : 1 ≤ i ∧ i ≤ d.n) :
    Outcome ((d.party i).round3 (d.locals2 i)
      ((others d.n i).map (fun j => (d.locals1 j).decomi))) (· = d.locals3 i) d.TransportPanic := by
  obtain ⟨head, hhead, hsum⟩ := d.fold_all d.yi
  have hphase := congrArg (expect "invalid key") (d.phase1_honest hL hi)
  refine (d.collectRound2_outcome hi).bind_eq ?_
  refine Outcome.bind_eq (.of_eq_ok (unwrap_eq_ok.mpr hhead)) ?_
  refine Outcome.bind_eq (.of_eq_ok hphase) ?_
  refine (d.sendShares_outcome hi).bind_eq (outcome_ok ?_)
  rw [hsum, d.sum_yi]
  rfl

/-- **Round 4**: every party decrypts the shares meant for it, or the transport panics. -/
theorem round4_outcome (hL : L.Lawful c) {i : ℕ} (hi : 1 ≤ i ∧ i ≤ d.n) :
    Outcome ((d.party i).round4 (d.locals3 i) ((others d.n i).map (fun j => d.sent j i)))
      (· = d.locals4 i) d.TransportPanic := by
  have hopen : ∀ k ∈ others d.n i,
      Outcome (openShare L (d.encKey i k) (d.sent k i)) (· = d.share k i) d.TransportPanic := by
    intro k hk
    obtain ⟨hk, hne⟩ := mem_others.mp hk
    exact d.openShare_outcome hL hi hk hne.symm
  have hshares : (d.locals3 i).secretShares = (List.range' 1 d.n).map (d.share i) := rfl
  exact Party.round4_outcome rfl rfl hi rfl hshares rfl hopen

/-- **The shares are accepted**, and added up to a share of the sum of the secrets. -/
theorem phase2_honest [DecidableEq G] (hc : c.LawfulSharing) (i : ℕ) :
    phase2VerifyVssConstructKeypairPhase3PokDlog c ⟨d.t, d.n⟩ (d.all d.yi)
        (d.all (fun j => d.share j i)) (d.all d.vss) i (d.coins i).nonce =
      .ok (⟨d.secret • c.generator, d.xi i⟩, c.proveDLog (d.xi i) (d.coins i).nonce) := by
  have hy : assertEq (d.all d.yi).length d.n = .ok () := assertEq_eq_ok.mpr (d.length_all _)
  have hshares : assertEq (d.all (fun j => d.share j i)).length d.n = .ok () :=
    assertEq_eq_ok.mpr (d.length_all _)
  have hvss : assertEq (d.all d.vss).length d.n = .ok () := assertEq_eq_ok.mpr (d.length_all _)
  have htest : (List.range (d.all d.yi).length).allM (verifyVss c (d.all d.yi)
      (d.all (fun j => d.share j i)) (d.all d.vss) i) = .ok true := by
    refine allM_eq_ok_true.mpr (fun k hk => ?_)
    have hk : k < d.n := by
      rw [d.length_all] at hk
      exact List.mem_range.mp hk
    have hvalid : c.validateShare (d.vss (k + 1)) (d.share (k + 1) i) i = true := by
      rw [hc.validateShare_iff, d.evalAt_vss (k + 1) i (Nat.succ_pos k) hk]
    simp only [verifyVss, d.index_all _ hk, ok_bind, hvalid, if_true]
    exact congrArg Except.ok (decide_eq_true rfl)
  obtain ⟨head, hhead, hsum⟩ := d.fold_all d.yi
  have hhead : unwrap (d.all d.yi).head? = .ok head := unwrap_eq_ok.mpr hhead
  have hxi : (d.all (fun j => d.share j i)).foldl (· + ·) 0 = d.xi i := by
    rw [foldl_add_eq_sum, zero_add, all, sum_map_range']
    rfl
  simp only [phase2VerifyVssConstructKeypairPhase3PokDlog, hy, hshares, hvss, htest, ok_bind,
    if_true, hhead, hsum, hxi, d.sum_yi]
  rfl

/-- **Round 5**: every party accepts its shares. -/
theorem round5_honest [DecidableEq G] (hc : c.LawfulSharing) (i : ℕ) :
    (d.party i).round5 (d.locals4 i) ((others d.n i).map d.vss) = .ok (d.locals5 i) := by
  have hcollect : (d.party i).collect ((others d.n i).map d.vss) (d.locals4 i).vssScheme
      = .ok (d.all d.vss) := d.collect_honest d.vss
  have hphase := congrArg (expect "invalid vss") (d.phase2_honest hc i)
  rw [Party.round5, hcollect, ok_bind]
  exact bind_eq_ok.mpr ⟨_, hphase, rfl⟩

/-- The proofs of the shares are accepted. -/
theorem verifyDlogProofs_honest (hdlog : ∀ x nonce, c.verifyDLog (c.proveDLog x nonce) = true) :
    verifyDlogProofs c ⟨d.t, d.n⟩ (d.all (fun j => (d.locals5 j).dlogProof)) (d.all d.yi)
      = .ok () := by
  refine (verifyDlogProofs_iff (d.length_all _)).mpr ⟨d.length_all _, fun proof hproof => ?_⟩
  obtain ⟨j, -, rfl⟩ := List.mem_map.mp hproof
  exact hdlog _ _

/-- **The key file** is written. -/
theorem round6_honest (hdlog : ∀ x nonce, c.verifyDLog (c.proveDLog x nonce) = true) (i : ℕ) :
    (d.party i).round6 (d.locals5 i) ((others d.n i).map (fun j => (d.locals5 j).dlogProof))
      = .ok (d.keyFile i) := by
  have hcollect : (d.party i).collect ((others d.n i).map (fun j => (d.locals5 j).dlogProof))
      (d.locals5 i).dlogProof = .ok (d.all (fun j => (d.locals5 j).dlogProof)) :=
    d.collect_honest (fun j => (d.locals5 j).dlogProof)
  have hverify := congrArg (expect "bad dlog proof") (d.verifyDlogProofs_honest hdlog)
  have hkeys : (List.range d.n).mapM (fun k => do
      let bc1 ← index (d.locals5 i).bc1Vec k
      return bc1.e : ℕ → Result P.EncryptionKey)
        = .ok (d.all (fun j => (L.keypair (d.coins j).keySeed).1)) := by
    refine (mapM_index (d.length_all (fun j => (d.locals1 j).bci)) (fun bc1 => bc1.e)).trans ?_
    rw [all, List.map_map]
    rfl
  rw [Party.round6, hcollect, ok_bind]
  exact bind_eq_ok.mpr ⟨(), hverify, bind_eq_ok.mpr ⟨_, hkeys, rfl⟩⟩

/-! ## The run -/

/-- What the parties post. -/
def transcript : Transcript c L where
  round1 := d.posted (fun i => (d.locals1 i).bci)
  round2 := d.posted (fun i => (d.locals2 i).decomi)
  round3 := d.posted (fun i => (d.locals3 i).sends)
  round4 := d.posted (fun i => (d.locals4 i).vssScheme)
  round5 := d.posted (fun i => (d.locals5 i).dlogProof)

/-- A round of broadcasts, where the piece of every party returns or the transport panics. -/
theorem broadcastRound_outcome {V W α : Type} {post : Party c L → V → α}
    {next : Party c L → V → List α → Result W} {v : ℕ → V} {w : ℕ → W}
    (h : ∀ i, 1 ≤ i ∧ i ≤ d.n → Outcome (next (d.party i) (v i)
      ((others d.n i).map (fun j => post (d.party j) (v j)))) (· = w i) d.TransportPanic) :
    Outcome (Party.broadcastRound post next (d.all (fun i => (d.party i, v i))))
      (· = d.all (fun i => (d.party i, w i))) d.TransportPanic :=
  syncRound_outcome (fun _ => rfl) (fun _ _ _ => rfl) (fun _ _ _ => pollForBroadcasts_board _)
    (fun i h1 hn => h i ⟨h1, hn⟩)

/-- The round of messages, in the same way. -/
theorem p2pRound_outcome {V W α : Type} {post : Party c L → V → List (ℕ × α)}
    {next : Party c L → V → List α → Result W} {v : ℕ → V} {w : ℕ → W} {f : ℕ → ℕ → α}
    (hpost : ∀ i, post (d.party i) (v i) = (others d.n i).map (fun j => (j, f i j)))
    (h : ∀ i, 1 ≤ i ∧ i ≤ d.n → Outcome (next (d.party i) (v i)
      ((others d.n i).map (fun j => f j i))) (· = w i) d.TransportPanic) :
    Outcome (Party.p2pRound post next (d.all (fun i => (d.party i, v i))))
      (· = d.all (fun i => (d.party i, w i))) d.TransportPanic :=
  syncRound_outcome (fun _ => rfl) (fun i _ _ => hpost i)
    (fun _ h1 hn => pollForP2p_board h1 hn f) (fun i h1 hn => h i ⟨h1, hn⟩)

theorem start_honest : (d.all d.party).map (fun p => (p, p.round1))
    = d.all (fun i => (d.party i, d.locals1 i)) := by
  rw [all, List.map_map]
  rfl

/-- **The run**: every party writes its key file, or the transport panics. -/
theorem generateKey_outcome [DecidableEq G] (hc : c.LawfulSharing) (hL : L.Lawful c)
    (hdlog : ∀ x nonce, c.verifyDLog (c.proveDLog x nonce) = true) :
    Outcome (generateKey (d.all d.party)) (· = (d.all d.keyFile, d.transcript))
      d.TransportPanic := by
  rw [generateKey, d.start_honest]
  simp only [board_honest]
  refine (d.broadcastRound_outcome (fun i hi => .of_eq_ok d.round2_honest)).bind_eq ?_
  simp only [board_honest]
  refine (d.broadcastRound_outcome (fun i hi => d.round3_outcome hL hi)).bind_eq ?_
  simp only [board_honest]
  refine (d.p2pRound_outcome (fun i => rfl) (fun i hi => d.round4_outcome hL hi)).bind_eq ?_
  simp only [board_honest]
  refine (d.broadcastRound_outcome (fun i hi => .of_eq_ok (d.round5_honest hc i))).bind_eq ?_
  simp only [board_honest]
  refine (d.broadcastRound_outcome (fun i hi => .of_eq_ok (d.round6_honest hdlog i))).bind_eq ?_
  refine outcome_ok ?_
  rw [all, List.map_map]
  rfl

/-- Reading the decommitments and encrypting the shares takes a key for every other party. -/
theorem usable_of_round3 {i j : ℕ} (hi : 1 ≤ i ∧ i ≤ d.n) (hj : j ∈ others d.n i)
    {w : KeyGenLocals3 L}
    (h : (d.party i).round3 (d.locals2 i) ((others d.n i).map (fun j => (d.locals1 j).decomi))
      = .ok w) : d.Usable i j := by
  obtain ⟨⟨yVec, decomVec, encKeys⟩, hcollect, h⟩ := bind_eq_ok.mp h
  obtain ⟨head, -, h⟩ := bind_eq_ok.mp h
  obtain ⟨⟨vssScheme, secretShares, _⟩, -, h⟩ := bind_eq_ok.mp h
  obtain ⟨sends, hsends, -⟩ := bind_eq_ok.mp h
  have hkeys : encKeys = (others d.n i).map (d.encKey i) := by
    obtain ⟨-, hrest⟩ := Prod.mk.inj ((d.collectRound2_outcome hi).1 _ hcollect)
    exact (Prod.mk.inj hrest).2
  have hpoint : ∃ x, c.xCoor (d.yi i + d.yi j) = some x := by
    obtain ⟨k, ⟨yPre, decomPre, keysPre⟩, b, hk, hturn⟩ := exists_ok_of_forOthers hcollect hj
    have hk : (others d.n i)[k]? = some j := hk
    simp only [index_map hk, ok_bind] at hturn
    obtain ⟨x, hx, -⟩ := bind_eq_ok.mp hturn
    exact ⟨x, unwrap_eq_ok.mp hx⟩
  have hgcm : ∃ gcm, L.newGcm (L.toVec (d.encKey i j)) nonce3 [] = some gcm := by
    obtain ⟨_, hloop, -⟩ := bind_eq_ok.mp hsends
    obtain ⟨k, ⟨sendsPre, m⟩, b, hk, hturn⟩ := exists_ok_of_forOthers hloop hj
    have hk : (others d.n i)[k]? = some j := hk
    simp only [hkeys, index_map hk, ok_bind] at hturn
    obtain ⟨share, -, hturn⟩ := bind_eq_ok.mp hturn
    obtain ⟨aeadPackI, hseal, -⟩ := bind_eq_ok.mp hturn
    obtain ⟨gcm, hgcm, -⟩ := bind_eq_ok.mp hseal
    exact ⟨gcm, newGcm_eq_ok.mp hgcm⟩
  obtain ⟨x, hx⟩ := hpoint
  obtain ⟨gcm, hgcm⟩ := hgcm
  rw [encKey, hx, Option.getD_some] at hgcm
  exact ⟨x, hx, by rw [hgcm]; rfl⟩

/-- **A run that completes** has had a key for every two parties. -/
theorem usable_of_generateKey [DecidableEq G] {r : List (KeyFile q G P) × Transcript c L}
    (h : generateKey (d.all d.party) = .ok r) {i j : ℕ} (hi : 1 ≤ i ∧ i ≤ d.n)
    (hj : 1 ≤ j ∧ j ≤ d.n) (hne : i ≠ j) : d.Usable i j := by
  rw [generateKey, d.start_honest] at h
  obtain ⟨parties2, h2, h⟩ := bind_eq_ok.mp h
  obtain ⟨parties3, h3, -⟩ := bind_eq_ok.mp h
  have hparties2 : parties2 = d.all (fun i => (d.party i, d.locals2 i)) :=
    (d.broadcastRound_outcome (fun i hi => .of_eq_ok d.round2_honest)).1 _ h2
  rw [hparties2] at h3
  have hmem : (d.party i, d.locals2 i) ∈ d.all (fun i => (d.party i, d.locals2 i)) :=
    List.mem_map_of_mem (mem_range'_one.mpr hi)
  obtain ⟨ansVec, w, hread, hw⟩ := exists_ok_of_syncRound h3 hmem
  have hans : ansVec = (others d.n i).map (fun j => (d.locals1 j).decomi) := by
    have hboard := d.board_honest (fun _ v => v.decomi) d.locals2
    have hread : pollForBroadcasts (board (fun _ v => v.decomi) (d.all (fun i =>
      (d.party i, d.locals2 i)))) i d.n = .ok ansVec := hread
    rw [hboard, posted, pollForBroadcasts_board] at hread
    exact (Except.ok.inj hread).symm
  rw [hans] at hw
  exact d.usable_of_round3 hi (mem_others.mpr ⟨hj, hne.symm⟩) hw

/-! ## The keys -/

/-- **The key files hold shares of one key**, the sum of the secrets. -/
structure SharesOneKey (file : ℕ → KeyFile q G P) : Prop where
  ySum : ∀ i, 1 ≤ i → i ≤ d.n → (file i).ySum = (∑ j ∈ Icc 1 d.n, (d.coins j).ui) • c.generator
  y : ∀ i, 1 ≤ i → i ≤ d.n → (file i).sharedKeys.y = (file i).ySum
  xi : ∀ i, 1 ≤ i → i ≤ d.n → (file i).sharedKeys.xi = ∑ j ∈ Icc 1 d.n, d.share j i
  /-- The public points, as every party computes them from its file. -/
  commitmentsToXi : ∀ i, 1 ≤ i → i ≤ d.n → getCommitmentsToXi c (file i).vssSchemeVec
    = .ok (d.all (fun k => (file k).sharedKeys.xi • c.generator))
  /-- Any `t + 1` parties, in any order. -/
  reconstruct : ∀ s : List ℕ, s.Nodup → s.length = d.t + 1 → (∀ i ∈ s, 1 ≤ i ∧ i ≤ d.n) →
    (s.map (fun i => lagrangeAtZero s.toFinset i * (file i).sharedKeys.xi)).sum
      = ∑ j ∈ Icc 1 d.n, (d.coins j).ui

/-- The public points of the honest commitments. -/
theorem getCommitmentsToXi_honest (hc : c.LawfulSharing) :
    getCommitmentsToXi c (d.all d.vss) = .ok (d.all (fun i => d.xi i • c.generator)) := by
  rw [getCommitmentsToXi_eq hc, d.length_all]
  refine congrArg Except.ok (List.map_congr_left (fun i _ => ?_))
  rw [← sum_getPointCommitment hc, all, List.map_map, sum_map_range', xi, sum_smul]
  refine sum_congr rfl (fun j hj => ?_)
  obtain ⟨h1, hn⟩ := mem_Icc.mp hj
  rw [← d.evalAt_vss j i h1 hn, ← hc.getPointCommitment_eq]
  rfl

theorem keyFile_sharesOneKey (hc : c.LawfulSharing) : d.SharesOneKey d.keyFile where
  ySum _ _ _ := rfl
  y _ _ _ := rfl
  xi _ _ _ := rfl
  commitmentsToXi _ _ _ := d.getCommitmentsToXi_honest hc
  reconstruct _ hnodup hlen hs := d.sum_lagrange_xi hnodup hlen hs

/-- **Distributed key generation is correct.**  The run completes exactly when every two parties
have a key for the transport; no check fails; and a completed run leaves every party a share of one
key. -/
theorem keyGen_correct [DecidableEq G] (hc : c.LawfulSharing) (hL : L.Lawful c)
    (hdlog : ∀ x nonce, c.verifyDLog (c.proveDLog x nonce) = true) :
    ((∃ r, generateKey (d.all d.party) = .ok r) ↔
      ∀ i j, (1 ≤ i ∧ i ≤ d.n) → (1 ≤ j ∧ j ≤ d.n) → i ≠ j → d.Usable i j) ∧
    (∀ f, generateKey (d.all d.party) = .error f → d.TransportPanic f) ∧
    (∀ i, 1 ≤ i → i ≤ d.n →
      (d.locals2 i).partyKeys.phase1VerifyComPhase3VerifyCorrectKeyPhase2Distribute c L ⟨d.t, d.n⟩
          (d.all (fun j => (d.locals1 j).decomi)) (d.locals2 i).bc1Vec (d.coins i).coeffs
        = .ok (d.vss i, d.all (d.share i), i) ∧
      phase2VerifyVssConstructKeypairPhase3PokDlog c ⟨d.t, d.n⟩ (d.locals4 i).yVec
          (d.locals4 i).partyShares (d.all d.vss) i (d.coins i).nonce
        = .ok ((d.locals5 i).sharedKeys, (d.locals5 i).dlogProof) ∧
      verifyDlogProofs c ⟨d.t, d.n⟩ (d.all (fun j => (d.locals5 j).dlogProof)) (d.locals5 i).yVec
        = .ok ()) ∧
    ∀ files tr, generateKey (d.all d.party) = .ok (files, tr) →
      ∃ file, files = d.all file ∧ d.SharesOneKey file := by
  have hrun := d.generateKey_outcome hc hL hdlog
  refine ⟨⟨?_, fun husable => ?_⟩, hrun.2, fun i h1 hn => ?_, fun files tr hok => ?_⟩
  · rintro ⟨r, hok⟩ i j hi hj hne
    exact d.usable_of_generateKey hok hi hj hne
  · refine ⟨(d.all d.keyFile, d.transcript), hrun.eq_ok ?_⟩
    rintro f ⟨-, i, j, hi, hj, hne, hnot⟩
    exact hnot (husable i j hi hj hne)
  · exact ⟨d.phase1_honest hL ⟨h1, hn⟩, d.phase2_honest hc i, d.verifyDlogProofs_honest hdlog⟩
  · obtain ⟨rfl, -⟩ := Prod.mk.inj (hrun.1 _ hok)
    exact ⟨d.keyFile, rfl, d.keyFile_sharesOneKey hc⟩

end Values

end HonestKeyGen

/-! ## Two parties -/

/-- Two parties with threshold one; the secret of party `i` is `i`, its polynomial `i + a X`. -/
def twoParties (a : ZMod 7) : HonestKeyGen (wideCurv 7) (padLib 7) where
  n := 2
  t := 1
  coins i := ⟨(i : ZMod 7), i, i, [a], i⟩
  two_le_n := le_refl 2
  t_lt_n := by decide
  n_lt_q := by decide
  length_coeffs _ _ _ := rfl

/-- The two parties have a key of 32 bytes. -/
theorem twoParties_usable (a : ZMod 7) {i j : ℕ} (hi : 1 ≤ i ∧ i ≤ 2) (hj : 1 ≤ j ∧ j ≤ 2)
    (hne : i ≠ j) : (twoParties a).Usable i j := by
  have hsum : (twoParties a).yi i + (twoParties a).yi j = 3 := by
    obtain ⟨rfl, rfl⟩ | ⟨rfl, rfl⟩ : i = 1 ∧ j = 2 ∨ i = 2 ∧ j = 1 := by omega
    · rfl
    · rfl
  have hlen : (bytesOf (2 ^ 255 + 3)).length = 32 :=
    length_bytesOf (k := 31) (by norm_num) (by norm_num)
  refine ⟨2 ^ 255 + 3, by rw [hsum]; rfl, ?_⟩
  show (if (bytesOf (2 ^ 255 + 3)).length = 32 then some (bytesOf (2 ^ 255 + 3)) else none).isSome
    = true
  rw [if_pos hlen]
  rfl

/-- The run of the two parties completes and leaves them shares of `3`. -/
theorem keyGen_correct_two : ∃ files tr,
    generateKey ((twoParties 5).all (twoParties 5).party) = .ok (files, tr) ∧
      ∃ file, files = (twoParties 5).all file ∧ (twoParties 5).SharesOneKey file := by
  obtain ⟨hcompletes, -, -, hkeys⟩ := (twoParties 5).keyGen_correct (wideCurv_lawfulSharing 7)
    (padLib_lawful 7) (fun _ _ => rfl)
  obtain ⟨⟨files, tr⟩, hok⟩ := hcompletes.mpr (fun i j => twoParties_usable 5)
  exact ⟨files, tr, hok, hkeys files tr hok⟩

end VDexNode.Mpt
