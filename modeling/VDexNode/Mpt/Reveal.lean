import VDexNode.Mpt.Adversary
import VDexNode.Mpt.Lifecycle
import VDexNode.Mpt.Peers

/-!
# VDexNode.Mpt.Reveal — signing among arbitrary signers

What a signer knows when it reveals its part of the signature, whatever it has read.

* `round1_ok` … `round10_ok` : what has been checked after each round.
* `sum_weights` : the weighted public points of the announced indices sum to the key.
* `reveal_bound` : **what a signer reveals is bound to the key of its file**, whoever the others
  are.
-/

namespace VDexNode.Mpt

open Finset

variable {q : ℕ} {G : Type} {c : Curv q G} {P : Paillier}

namespace Signer

variable (p : Signer c P) (reads : Reads c)

/-! ## What the others are bound to -/

/-- The key index signer `i` announces. -/
def idOf : ℕ → ℕ := p.withOwn p.keyFile.partyId reads.round0

/-- `signers_vec`. -/
def signersVec : List ℕ := (List.range' 1 (p.threshold + 1)).map (fun i => p.idOf reads i - 1)

section Rounds

variable {p reads}

theorem pred_ok {x y : ℕ} (h : pred x = .ok y) : 1 ≤ x ∧ y = x - 1 := by
  unfold pred at h
  split_ifs at h with h0
  cases h
  exact ⟨Nat.one_le_iff_ne_zero.mpr h0, rfl⟩

/-- One more index is collected. -/
theorem collected_concat {pre : List ℕ} (hpos : ∀ i ∈ pre, 1 ≤ p.idOf reads i) {i x s : ℕ}
    (hid : p.idOf reads i = x) (hs : pred x = .ok s) :
    pre.map (fun i => p.idOf reads i - 1) ++ [s]
        = (pre ++ [i]).map (fun i => p.idOf reads i - 1) ∧
      ∀ k ∈ pre ++ [i], 1 ≤ p.idOf reads k := by
  obtain ⟨hone, rfl⟩ := pred_ok hs
  refine ⟨?_, List.forall_mem_append.mpr ⟨hpos, ?_⟩⟩
  · rw [List.map_append, List.map_singleton, hid]
  · rw [List.forall_mem_singleton, hid]
    exact hone

/-- The indices that have been collected are those announced, and none of them is zero. -/
theorem collectSigners_ok {signers : List ℕ}
    (h : p.collectSigners (p.peers.map reads.round0) = .ok signers) :
    signers = p.signersVec reads ∧ ∀ i, 1 ≤ i → i ≤ p.threshold + 1 → 1 ≤ p.idOf reads i := by
  have hloop := forOthers_rule (fun pre (acc : List ℕ) =>
    acc = pre.map (fun i => p.idOf reads i - 1) ∧ ∀ i ∈ pre, 1 ≤ p.idOf reads i)
    ⟨rfl, fun i hi => absurd hi List.not_mem_nil⟩ ?_ ?_ h
  · obtain ⟨hlist, hpos⟩ := hloop
    exact ⟨hlist, fun i h1 hn => hpos i (mem_range'_one.mpr ⟨h1, hn⟩)⟩
  · rintro pre acc acc' ⟨rfl, hpos⟩ hturn
    obtain ⟨s, hs, hturn⟩ := bind_eq_ok.mp hturn
    cases hturn
    exact collected_concat hpos (if_pos rfl) hs
  · rintro pre i j acc acc' hi hj ⟨rfl, hpos⟩ hturn
    have hj : p.peers[j]? = some i := hj
    simp only [index_map hj, ok_bind] at hturn
    obtain ⟨s, hs, hturn⟩ := bind_eq_ok.mp hturn
    cases hturn
    exact collected_concat hpos (if_neg (mem_others.mp hi).2) hs

variable [Fact q.Prime] [AddCommGroup G] [Module (ZMod q) G]

/-- **Round 1**: the local keys come from the key file and the announced indices. -/
theorem round1_ok (hc : c.LawfulSharing) (h1 : 1 ≤ p.partyNumInt)
    (hn : p.partyNumInt ≤ p.threshold + 1) {v : Locals1 q G}
    (h : p.round1 (p.peers.map reads.round0) = .ok v) :
    (∀ i, 1 ≤ i → i ≤ p.threshold + 1 → 1 ≤ p.idOf reads i) ∧
      v.signersVec = p.signersVec reads ∧
      v.xiComVec = (List.range' 1 p.keyFile.vssSchemeVec.length).map
        (xiPoint q p.keyFile.vssSchemeVec) ∧
      v.decommit.gGammai = p.coins.gammai • c.generator ∧
      ∃ vss wi, p.keyFile.vssSchemeVec[p.keyFile.partyId - 1]? = some vss ∧
        wi = c.mapShareToNewParams vss (p.keyFile.partyId - 1) (p.signersVec reads)
          * p.keyFile.sharedKeys.xi ∧
        v.signKeys = ⟨wi, wi • c.generator, p.coins.ki, p.coins.gammai,
          p.coins.gammai • c.generator⟩ := by
  obtain ⟨signers, hsigners, h⟩ := bind_eq_ok.mp h
  obtain ⟨rfl, hpos⟩ := collectSigners_ok hsigners
  have hown : index (p.signersVec reads) (p.partyNumInt - 1) = .ok (p.keyFile.partyId - 1) := by
    have hid : p.idOf reads p.partyNumInt = p.keyFile.partyId := if_pos rfl
    rw [signersVec, index_range'_map _ h1 hn, hid]
  simp only [pred_eq_ok h1, ok_bind, hown, getCommitmentsToXi_eq hc] at h
  obtain ⟨vss, hvss, h⟩ := bind_eq_ok.mp h
  cases h
  exact ⟨hpos, rfl, rfl, rfl, vss, _, index_eq_ok.mp hvss, rfl, rfl⟩

omit [AddCommGroup G] [Module (ZMod q) G] in
/-- The answers of a signer: it keeps its negated masks. -/
theorem answerMta_ok {v : Locals1 q G} {mAVec : List MessageA} {vecs : MtaVecs c}
    (h : p.answerMta v mAVec = .ok vecs) :
    vecs.betaVec = p.peers.map (fun j => 0 - ((p.coins.mtaGamma j).betaTag : ZMod q)) ∧
      vecs.niVec = p.peers.map (fun j => 0 - ((p.coins.mtaW j).betaTag : ZMod q)) := by
  refine forOthers_skip_rule (fun pre (vecs : MtaVecs c) =>
    vecs.betaVec = pre.map (fun j => 0 - ((p.coins.mtaGamma j).betaTag : ZMod q)) ∧
      vecs.niVec = pre.map (fun j => 0 - ((p.coins.mtaW j).betaTag : ZMod q))) ⟨rfl, rfl⟩ ?_ h
  rintro pre i j vecs vecs' - - ⟨hbeta, hni⟩ hturn
  obtain ⟨signer, -, hturn⟩ := bind_eq_ok.mp hturn
  obtain ⟨ek, -, hturn⟩ := bind_eq_ok.mp hturn
  obtain ⟨mA, -, hturn⟩ := bind_eq_ok.mp hturn
  cases hturn
  constructor
  · rw [List.map_append, ← hbeta]
    rfl
  · rw [List.map_append, ← hni]
    rfl

omit [Fact q.Prime] [AddCommGroup G] [Module (ZMod q) G] in
/-- The commitments that have been read, with the own one in place. -/
theorem collectRound1_ok {com : SignBroadcastPhase1} {bc1Vec : List SignBroadcastPhase1}
    {mAVec : List MessageA}
    (h : p.collectRound1 com (p.peers.map reads.round1) = .ok (bc1Vec, mAVec)) :
    bc1Vec = (List.range' 1 (p.threshold + 1)).map
      (p.withOwn com (fun i => (reads.round1 i).1)) := by
  refine forOthers_rule (fun pre (acc : List SignBroadcastPhase1 × List MessageA) =>
    acc.1 = pre.map (p.withOwn com (fun i => (reads.round1 i).1))) rfl ?_ ?_ h
  · rintro pre ⟨bc1Vec, mAVec⟩ acc' hI hturn
    cases hturn
    simp only at hI ⊢
    rw [List.map_append, ← hI, List.map_singleton, withOwn_self]
  · rintro pre i j ⟨bc1Vec, mAVec⟩ acc' hi hj hI hturn
    have hj : p.peers[j]? = some i := hj
    simp only [index_map hj, ok_bind] at hturn
    cases hturn
    simp only at hI ⊢
    rw [List.map_append, ← hI, List.map_singleton, withOwn, if_neg (mem_others.mp hi).2]

omit [AddCommGroup G] [Module (ZMod q) G] in
/-- **Round 2** keeps what has been read and the masks. -/
theorem round2_ok {v : Locals1 q G} {w : Locals2 c}
    (h : p.round2 v (p.peers.map reads.round1) = .ok w) :
    w.toLocals1 = v ∧
      w.bc1Vec = (List.range' 1 (p.threshold + 1)).map
        (p.withOwn v.com (fun i => (reads.round1 i).1)) ∧
      w.betaVec = p.peers.map (fun j => 0 - ((p.coins.mtaGamma j).betaTag : ZMod q)) ∧
      w.niVec = p.peers.map (fun j => 0 - ((p.coins.mtaW j).betaTag : ZMod q)) := by
  obtain ⟨⟨bc1Vec, mAVec⟩, hcollect, h⟩ := bind_eq_ok.mp h
  obtain ⟨-, -, h⟩ := bind_eq_ok.mp h
  obtain ⟨vecs, hvecs, h⟩ := bind_eq_ok.mp h
  obtain ⟨sends, -, h⟩ := bind_eq_ok.mp h
  cases h
  obtain ⟨hbeta, hni⟩ := answerMta_ok hvecs
  exact ⟨rfl, collectRound1_ok hcollect, hbeta, hni⟩

/-! ### The exchange -/

variable (p reads) in
/-- What signer `j` has proved to know in its answers to the ciphertext: its `gamma`, its `w` and
its two masks. -/
def gammaPoint (j : ℕ) : G := c.pk (reads.round2 j).1.bProof

variable (reads) in
def wPoint (j : ℕ) : G := c.pk (reads.round2 j).2.bProof

variable (reads) in
def gammaMask (j : ℕ) : G := c.pk (reads.round2 j).1.betaTagProof

variable (reads) in
def wMask (j : ℕ) : G := c.pk (reads.round2 j).2.betaTagProof

/-- An answer that passes its check: both proofs verify, and what it decrypts to is `a` times the
point of the first, masked by that of the second. -/
structure Tied (dk : P.DecryptionKey) (a : ZMod q) (mB : MessageB c) : Prop where
  bProof : c.verifyDLog mB.bProof = true
  betaTagProof : c.verifyDLog mB.betaTagProof = true
  alpha : (scalarFrom (P.decrypt dk mB.c) : ZMod q) • c.generator
    = a • c.pk mB.bProof + c.pk mB.betaTagProof

theorem verifyProofsGetAlpha_ok [DecidableEq G] {mB : MessageB c} {dk : P.DecryptionKey}
    {a alpha : ZMod q} (h : mB.verifyProofsGetAlpha dk a = .ok alpha) :
    Tied dk a mB ∧ alpha • c.generator = a • c.pk mB.bProof + c.pk mB.betaTagProof := by
  unfold MessageB.verifyProofsGetAlpha at h
  dsimp only at h
  split_ifs at h with hcheck
  cases h
  rw [Bool.and_eq_true, Bool.and_eq_true] at hcheck
  obtain ⟨⟨hb, hbetaTag⟩, heq⟩ := hcheck
  have heq := (of_decide_eq_true heq).symm
  exact ⟨⟨hb, hbetaTag, heq⟩, heq⟩

variable (p reads) in
/-- What the answers of signer `j` have passed: both checks of the exchange, with `k_i` and the own
Paillier key, and the point of its `w` is the weighted point of the share whose index it has
announced. -/
structure Answered (j : ℕ) : Prop where
  gamma : Tied p.keyFile.partyKeys.dk p.coins.ki (reads.round2 j).1
  w : Tied p.keyFile.partyKeys.dk p.coins.ki (reads.round2 j).2
  idOf_pos : 1 ≤ p.idOf reads j
  share : ∃ vss, p.keyFile.vssSchemeVec[p.idOf reads j - 1]? = some vss ∧
    wPoint reads j = c.mapShareToNewParams vss (p.idOf reads j - 1) (p.signersVec reads)
      • xiPoint q p.keyFile.vssSchemeVec (p.idOf reads j)

/-- The sums over the signers so far. -/
theorem sum_smul_concat {a : List (ZMod q)} {x : ZMod q} {f : ℕ → G} {pre : List ℕ} {i : ℕ}
    (ha : a.sum • c.generator = (pre.map f).sum) (hx : x • c.generator = f i) :
    (a ++ [x]).sum • c.generator = ((pre ++ [i]).map f).sum := by
  rw [List.sum_append, List.sum_singleton, List.map_append, List.sum_append, List.map_singleton,
    List.sum_singleton, add_smul, ha, hx]

/-- **Each answer** has been checked against the points its sender has proved, and the point of its
`w` against the sharing schemes. -/
theorem verifyMta_ok [DecidableEq G] {v : Locals2 c}
    (hsigners : v.signersVec = p.signersVec reads)
    (hxi : v.xiComVec = (List.range' 1 p.keyFile.vssSchemeVec.length).map
      (xiPoint q p.keyFile.vssSchemeVec))
    (hpos : ∀ i, 1 ≤ i → i ≤ p.threshold + 1 → 1 ≤ p.idOf reads i)
    (hki : v.signKeys.ki = p.coins.ki) {alphaVec miuVec : List (ZMod q)}
    (h : p.verifyMta v (p.peers.map (fun j => (reads.round2 j).1))
      (p.peers.map (fun j => (reads.round2 j).2)) = .ok (alphaVec, miuVec)) :
    alphaVec.sum • c.generator = (p.peers.map (fun j =>
        p.coins.ki • gammaPoint reads j + gammaMask reads j)).sum ∧
      miuVec.sum • c.generator = (p.peers.map (fun j =>
        p.coins.ki • wPoint reads j + wMask reads j)).sum ∧
      ∀ j ∈ p.peers, p.Answered reads j := by
  refine forOthers_skip_rule (fun pre (acc : List (ZMod q) × List (ZMod q)) =>
    acc.1.sum • c.generator = (pre.map (fun j =>
        p.coins.ki • gammaPoint reads j + gammaMask reads j)).sum ∧
      acc.2.sum • c.generator = (pre.map (fun j =>
        p.coins.ki • wPoint reads j + wMask reads j)).sum ∧
      ∀ j ∈ pre, p.Answered reads j)
    ⟨zero_smul _ _, zero_smul _ _, fun j hj => absurd hj List.not_mem_nil⟩ ?_ h
  rintro pre i j ⟨alphaVec, miuVec⟩ acc' hi hj ⟨halpha, hmiu, hw⟩ hturn
  obtain ⟨⟨hi1, hin⟩, -⟩ := mem_others.mp hi
  have hj : p.peers[j]? = some i := hj
  have hsigner : index v.signersVec (i - 1) = .ok (p.idOf reads i - 1) := by
    rw [hsigners, signersVec, index_range'_map _ hi1 hin]
  simp only [index_map hj, ok_bind, bind_eq_ok, expect_eq_ok, hsigner, index_eq_ok,
    assertEq_eq_ok, exists_const, hki] at hturn
  obtain ⟨alpha, hcheck, miu, hcheckW, xiCom, hxiCom, vss, hvss, hpoint, hturn⟩ := hturn
  cases hturn
  obtain ⟨hgamma, hcheck⟩ := verifyProofsGetAlpha_ok hcheck
  obtain ⟨hwTied, hcheckW⟩ := verifyProofsGetAlpha_ok hcheckW
  have hone := hpos i hi1 hin
  have hlt : p.idOf reads i - 1 < p.keyFile.vssSchemeVec.length :=
    (List.getElem?_eq_some_iff.mp hvss).1
  rw [hxi, getElem?_range'_map _ hone (by omega)] at hxiCom
  refine ⟨sum_smul_concat halpha hcheck, sum_smul_concat hmiu hcheckW, fun k hk => ?_⟩
  rcases List.mem_append.mp hk with hk | hk
  · exact hw k hk
  · obtain rfl := List.mem_singleton.mp hk
    refine ⟨hgamma, hwTied, hone, vss, hvss, ?_⟩
    show c.pk (reads.round2 k).2.bProof = _
    rw [hpoint, hsigners, updateCommitmentsToXi, Option.some.inj hxiCom]

/-- The sum of a part of a product, as a point. -/
theorem phase2Sum_ok {k x s : ZMod q} {aVec : List (ZMod q)} {l : List ℕ} {A T : ℕ → G}
    {b : ℕ → ZMod q} (ha : aVec.sum • c.generator = (l.map (fun j => k • A j + T j)).sum)
    (h : phase2Sum (k * x) aVec (l.map (fun j => 0 - b j)) = .ok s) :
    s • c.generator = k • (x • c.generator + (l.map A).sum)
      + (l.map (fun j => T j - b j • c.generator)).sum := by
  simp only [phase2Sum, bind_eq_ok, assertEq_eq_ok, exists_const, pure_eq_ok] at h
  obtain ⟨hlen, rfl⟩ := h
  have hb : (l.map (fun j => 0 - b j)).sum • c.generator
      = (l.map (fun j => 0 - b j • c.generator)).sum := by
    rw [List.sum_smul, List.map_map]
    refine congrArg List.sum (List.map_congr_left (fun j _ => ?_))
    show (0 - b j) • c.generator = 0 - b j • c.generator
    rw [sub_smul, zero_smul]
  have hA : (l.map (fun j => k • A j + T j)).sum = k • (l.map A).sum + (l.map T).sum := by
    rw [List.sum_map_add, List.smul_sum, List.map_map]
    rfl
  have hT : (l.map (fun j => T j - b j • c.generator)).sum
      = (l.map T).sum + (l.map (fun j => 0 - b j • c.generator)).sum := by
    rw [← List.sum_map_add]
    refine congrArg List.sum (List.map_congr_left (fun j _ => ?_))
    rw [zero_sub, sub_eq_add_neg]
  rw [foldl_add_eq_sum, ← List.sum_add_sum_eq_sum_zipWith_of_length_eq _ _ hlen, add_smul,
    add_smul, ha, hb, hA, hT, mul_smul, smul_add]
  abel

/-- **Round 3**: both parts of the signer are bound to the points the others have proved. -/
theorem round3_ok [DecidableEq G] (h1 : 1 ≤ p.partyNumInt) (hn : p.partyNumInt ≤ p.threshold + 1)
    {v : Locals2 c} (hsigners : v.signersVec = p.signersVec reads)
    (hxi : v.xiComVec = (List.range' 1 p.keyFile.vssSchemeVec.length).map
      (xiPoint q p.keyFile.vssSchemeVec))
    (hpos : ∀ i, 1 ≤ i → i ≤ p.threshold + 1 → 1 ≤ p.idOf reads i)
    (hki : v.signKeys.ki = p.coins.ki)
    (hbeta : v.betaVec = p.peers.map (fun j => 0 - ((p.coins.mtaGamma j).betaTag : ZMod q)))
    (hni : v.niVec = p.peers.map (fun j => 0 - ((p.coins.mtaW j).betaTag : ZMod q)))
    {w : Locals3 c} (h : p.round3 v (p.peers.map reads.round2) = .ok w) :
    w.toLocals2 = v ∧ w.mBGammaRecVec = p.peers.map (fun j => (reads.round2 j).1) ∧
      w.deltai • c.generator
        = p.coins.ki • (v.signKeys.gammai • c.generator + (p.peers.map (gammaPoint reads)).sum)
          + (p.peers.map (fun j => gammaMask reads j
            - ((p.coins.mtaGamma j).betaTag : ZMod q) • c.generator)).sum ∧
      w.sigma • c.generator
        = p.coins.ki • (v.signKeys.wi • c.generator + (p.peers.map (wPoint reads)).sum)
          + (p.peers.map (fun j => wMask reads j
            - ((p.coins.mtaW j).betaTag : ZMod q) • c.generator)).sum ∧
      ∀ j ∈ p.peers, p.Answered reads j := by
  have hlen : (p.peers.map reads.round2).length = p.threshold := by
    rw [List.length_map, length_peers h1 hn]
  unfold round3 at h
  rw [mapM_index_self hlen, ok_bind] at h
  simp only [List.map_map, Function.comp_def] at h
  obtain ⟨⟨alphaVec, miuVec⟩, hverify, h⟩ := bind_eq_ok.mp h
  obtain ⟨deltai, hdelta, h⟩ := bind_eq_ok.mp h
  obtain ⟨sigma, hsigma, h⟩ := bind_eq_ok.mp h
  cases h
  obtain ⟨halpha, hmiu, hanswered⟩ := verifyMta_ok hsigners hxi hpos hki hverify
  unfold SignKeys.phase2Deltai at hdelta
  unfold SignKeys.phase2Sigmai at hsigma
  rw [hbeta, hki] at hdelta
  rw [hni, hki] at hsigma
  exact ⟨rfl, rfl, phase2Sum_ok halpha hdelta, phase2Sum_ok hmiu hsigma, hanswered⟩

omit [AddCommGroup G] [Module (ZMod q) G] in
/-- **Round 4** inverts the sum of the `delta_i`. -/
theorem round4_ok (h1 : 1 ≤ p.partyNumInt) (hn : p.partyNumInt ≤ p.threshold + 1)
    {v : Locals3 c} {w : Locals4 c} (h : p.round4 v (p.peers.map reads.round3) = .ok w) :
    w.toLocals3 = v ∧ v.deltai + (p.peers.map reads.round3).sum ≠ 0 ∧
      w.deltaInv = (v.deltai + (p.peers.map reads.round3).sum)⁻¹ := by
  unfold round4 at h
  rw [formatVec_withOwn h1 hn, ok_bind] at h
  obtain ⟨deltaInv, hinv, h⟩ := bind_eq_ok.mp h
  cases h
  rw [phase3ReconstructDelta, foldl_add_eq_sum, zero_add, sum_withOwn h1 hn] at hinv
  unfold invert at hinv
  split_ifs at hinv with hzero
  cases hinv
  exact ⟨rfl, hzero, rfl⟩

/-! ### The point `R` -/

/-- The index of an entry is in the range of a test. -/
theorem test_of_mem {α : Type} {l : List ℕ} {C : ℕ → α} {f : ℕ → Result Bool}
    (htest : (List.range (l.map C).length).allM f = .ok true) {j : ℕ} (hj : j ∈ l) :
    ∃ k, l[k]? = some j ∧ f k = .ok true := by
  obtain ⟨k, hk⟩ := List.mem_iff_getElem?.mp hj
  have hlt : k < (l.map C).length := by
    rw [List.length_map]
    exact (List.getElem?_eq_some_iff.mp hk).1
  exact ⟨k, hk, allM_eq_ok_true.mp htest k (List.mem_range.mpr hlt)⟩

/-- Phase 4 returns for commitments that open to the proved points. -/
theorem phase4_ok [DecidableEq G] {deltaInv : ZMod q} {l : List ℕ} {B : ℕ → c.DLogProof}
    {D : ℕ → SignDecommitPhase1 G} {C : ℕ → SignBroadcastPhase1} {R : G}
    (h : phase4 c deltaInv (l.map B) (l.map D) (l.map C) = .ok R) :
    (∀ j ∈ l, c.pk (B j) = (D j).gGammai ∧
      c.createCommitment (c.bytesCompressedToBigInt (D j).gGammai) (D j).blindFactor
        = (C j).com) ∧ R = deltaInv • (l.map (fun j => (D j).gGammai)).sum := by
  have hopen : ∀ j ∈ l, c.pk (B j) = (D j).gGammai ∧
      c.createCommitment (c.bytesCompressedToBigInt (D j).gGammai) (D j).blindFactor
        = (C j).com := by
    intro j hj
    obtain ⟨test, htest, h⟩ := bind_eq_ok.mp h
    obtain ⟨head, -, h⟩ := bind_eq_ok.mp h
    cases test with
    | false => cases h
    | true =>
      obtain ⟨k, hk, hone⟩ := test_of_mem htest hj
      simp only [verifyGammaCom, index_map hk, ok_bind] at hone
      by_cases hpk : c.pk (B j) = (D j).gGammai
      · rw [if_pos hpk] at hone
        exact ⟨hpk, of_decide_eq_true (Except.ok.inj hone)⟩
      · rw [if_neg hpk] at hone
        cases hone
  refine ⟨hopen, ?_⟩
  have hne : l ≠ [] := by
    rintro rfl
    obtain ⟨test, -, h⟩ := bind_eq_ok.mp h
    cases h
  exact (Except.ok.inj ((phase4_map deltaInv hne hopen).symm.trans h)).symm

/-- **Round 5**: `R` is made of the points the others have committed to and proved. -/
theorem round5_ok [DecidableEq G] (h1 : 1 ≤ p.partyNumInt) (hn : p.partyNumInt ≤ p.threshold + 1)
    {v : Locals4 c} (hown : v.decommit.gGammai = p.coins.gammai • c.generator)
    (hbc : ∃ com, v.bc1Vec = (List.range' 1 (p.threshold + 1)).map
      (p.withOwn com (fun i => (reads.round1 i).1)))
    (hrec : v.mBGammaRecVec = p.peers.map (fun j => (reads.round2 j).1))
    {w : Locals5 c} (h : p.round5 v (p.peers.map reads.round4) = .ok w) :
    (∀ j ∈ p.peers, (reads.round4 j).gGammai = gammaPoint reads j ∧
      c.createCommitment (c.bytesCompressedToBigInt (gammaPoint reads j))
        (reads.round4 j).blindFactor = (reads.round1 j).1.com) ∧
    w.R = v.deltaInv • (p.coins.gammai • c.generator + (p.peers.map (gammaPoint reads)).sum) ∧
    ∃ r, c.rOf w.R = .ok r ∧
      w.localSig = ⟨p.coins.li, p.coins.rhoi, w.R,
        scalarFrom (p.message % 2 ^ 256) * v.signKeys.ki + r * v.sigma, p.message % 2 ^ 256,
        p.keyFile.ySum⟩ ∧
      w.phase5aDecom = (w.localSig.phase5aBroadcast5bZkproof c p.coins.blindFactor5a
        p.coins.nonce5b).2.1 := by
  obtain ⟨com, hbc⟩ := hbc
  unfold round5 at h
  simp only [formatVec_withOwn h1 hn, ok_bind, pred_eq_ok h1, remove_withOwn h1 hn, hbc, hrec,
    List.map_map, Function.comp_def] at h
  obtain ⟨R, hR, h⟩ := bind_eq_ok.mp h
  obtain ⟨localSig, hsig, h⟩ := bind_eq_ok.mp h
  cases h
  rw [expect_eq_ok] at hR
  obtain ⟨hopen, rfl⟩ := phase4_ok hR
  obtain ⟨r, hr, hsig⟩ := bind_eq_ok.mp hsig
  cases hsig
  have hpoints : p.peers.map (fun j => (reads.round4 j).gGammai)
      = p.peers.map (gammaPoint reads) :=
    List.map_congr_left (fun j hj => (hopen j hj).1.symm)
  refine ⟨fun j hj => ?_, ?_, r, hr, rfl, rfl⟩
  · obtain ⟨hpk, hcom⟩ := hopen j hj
    have hpk : gammaPoint reads j = (reads.round4 j).gGammai := hpk
    rw [← hpk] at hcom
    exact ⟨hpk.symm, hcom⟩
  · show v.deltaInv • _ + v.deltaInv • v.decommit.gGammai = _
    rw [hown, hpoints, ← smul_add, add_comm]

/-! ### The checks of phase 5 -/

/-- Phase 5C returns for commitments that open and proofs that verify. -/
theorem phase5c_ok {sig : LocalSignature q G} {l : List ℕ} {D : ℕ → Phase5ADecom1 G}
    {C : ℕ → Phase5Com1} {E : ℕ → c.HomoElGamalProof} {vi R : G} {blindFactor : ℕ}
    {x : Phase5Com2 × Phase5DDecom2 G}
    (h : sig.phase5c c (l.map D) (l.map C) (l.map E) vi R blindFactor = .ok x) :
    ∀ j ∈ l, c.createCommitment (c.createHashFromGe [(D j).Vi, (D j).Ai, (D j).Bi])
        (D j).blindFactor = (C j).com ∧
      c.verifyHomoElGamal (E j) ⟨(D j).Ai, R, c.generator, (D j).Vi, (D j).Bi⟩ = true := by
  obtain ⟨-, -, h⟩ := bind_eq_ok.mp h
  obtain ⟨test, htest, h⟩ := bind_eq_ok.mp h
  obtain ⟨head, -, h⟩ := bind_eq_ok.mp h
  obtain ⟨r, -, h⟩ := bind_eq_ok.mp h
  cases test with
  | false => cases h
  | true =>
    intro j hj
    obtain ⟨k, hk, hone⟩ := test_of_mem htest hj
    simp only [LocalSignature.verifyElGamalCom, index_map hk, ok_bind] at hone
    by_cases hcom : c.createCommitment (c.createHashFromGe [(D j).Vi, (D j).Ai, (D j).Bi])
        (D j).blindFactor = (C j).com
    · rw [if_pos hcom] at hone
      exact ⟨hcom, Except.ok.inj hone⟩
    · rw [if_neg hcom] at hone
      cases hone

omit [Fact q.Prime] [Module (ZMod q) G] in
/-- Phase 5D returns the own part for commitments that open and sums that balance. -/
theorem phase5d_ok [DecidableEq G] {sig : LocalSignature q G} {l : List ℕ}
    {D2 : ℕ → Phase5DDecom2 G} {C2 : ℕ → Phase5Com2} {D1 : ℕ → Phase5ADecom1 G} {s : ZMod q}
    (h : sig.phase5d c (l.map D2) (l.map C2) (l.map D1) = .ok s) :
    (∀ j ∈ l, c.createCommitment (c.createHashFromGe [(D2 j).ui, (D2 j).ti]) (D2 j).blindFactor
      = (C2 j).com) ∧
    (l.map (fun j => (D2 j).ti + (D1 j).Bi)).sum = (l.map (fun j => (D2 j).ui)).sum ∧
    s = sig.si := by
  have hopen : ∀ j ∈ l, c.createCommitment (c.createHashFromGe [(D2 j).ui, (D2 j).ti])
      (D2 j).blindFactor = (C2 j).com := by
    intro j hj
    obtain ⟨-, -, h⟩ := bind_eq_ok.mp h
    obtain ⟨-, -, h⟩ := bind_eq_ok.mp h
    obtain ⟨test, htest, h⟩ := bind_eq_ok.mp h
    cases test with
    | false => cases h
    | true =>
      obtain ⟨k, hk, hone⟩ := test_of_mem htest hj
      simp only [LocalSignature.verifyCom2, index_map hk, ok_bind] at hone
      exact of_decide_eq_true (Except.ok.inj hone)
  rw [LocalSignature.phase5d_map hopen] at h
  split_ifs at h with hsum
  cases h
  exact ⟨hopen, hsum, rfl⟩

omit [Fact q.Prime] [AddCommGroup G] [Module (ZMod q) G] in
theorem round6_ok (h1 : 1 ≤ p.partyNumInt) (hn : p.partyNumInt ≤ p.threshold + 1)
    {v : Locals5 c} {w : Locals6 c} (h : p.round6 v (p.peers.map reads.round5) = .ok w) :
    w.toLocals5 = v ∧ w.commit5aVec = (List.range' 1 (p.threshold + 1)).map
      (p.withOwn v.phase5Com reads.round5) := by
  unfold round6 at h
  rw [formatVec_withOwn h1 hn, ok_bind] at h
  cases h
  exact ⟨rfl, rfl⟩

/-- **Round 7**: the commitments of phase 5A open, and the proofs of phase 5B verify. -/
theorem round7_ok (h1 : 1 ≤ p.partyNumInt) (hn : p.partyNumInt ≤ p.threshold + 1)
    {v : Locals6 c} (hcom : ∃ com, v.commit5aVec = (List.range' 1 (p.threshold + 1)).map
      (p.withOwn com reads.round5)) {w : Locals7 c}
    (h : p.round7 v (p.peers.map reads.round6) = .ok w) :
    w.toLocals5 = v.toLocals5 ∧
      w.decommit5aAndElgamalVecIncludesI = (List.range' 1 (p.threshold + 1)).map
        (p.withOwn (v.phase5aDecom, v.helgamalProof) reads.round6) ∧
      ∀ j ∈ p.peers,
        c.createCommitment (c.createHashFromGe
          [(reads.round6 j).1.Vi, (reads.round6 j).1.Ai, (reads.round6 j).1.Bi])
          (reads.round6 j).1.blindFactor = (reads.round5 j).com ∧
        c.verifyHomoElGamal (reads.round6 j).2
          ⟨(reads.round6 j).1.Ai, v.R, c.generator, (reads.round6 j).1.Vi,
            (reads.round6 j).1.Bi⟩ = true := by
  obtain ⟨com, hcom⟩ := hcom
  have hlen : (p.peers.map reads.round6).length = p.threshold := by
    rw [List.length_map, length_peers h1 hn]
  unfold round7 at h
  simp only [formatVec_withOwn h1 hn, ok_bind, pred_eq_ok h1, remove_withOwn h1 hn, hcom,
    mapM_index hlen, List.map_map, Function.comp_def] at h
  obtain ⟨⟨phase5Com2, phase5dDecom2⟩, hphase, h⟩ := bind_eq_ok.mp h
  cases h
  rw [expect_eq_ok] at hphase
  exact ⟨rfl, rfl, phase5c_ok hphase⟩

omit [Fact q.Prime] [AddCommGroup G] [Module (ZMod q) G] in
theorem round8_ok (h1 : 1 ≤ p.partyNumInt) (hn : p.partyNumInt ≤ p.threshold + 1)
    {v : Locals7 c} {w : Locals8 c} (h : p.round8 v (p.peers.map reads.round7) = .ok w) :
    w.toLocals7 = v ∧ w.commit5cVec = (List.range' 1 (p.threshold + 1)).map
      (p.withOwn v.phase5Com2 reads.round7) := by
  unfold round8 at h
  rw [formatVec_withOwn h1 hn, ok_bind] at h
  cases h
  exact ⟨rfl, rfl⟩

omit [Fact q.Prime] [Module (ZMod q) G] in
/-- **Round 9**: the commitments of phase 5C open and the sums of all signers balance; only then is
the own part revealed. -/
theorem round9_ok [DecidableEq G] (h1 : 1 ≤ p.partyNumInt) (hn : p.partyNumInt ≤ p.threshold + 1)
    {v : Locals8 c} (hcom : v.commit5cVec = (List.range' 1 (p.threshold + 1)).map
      (p.withOwn v.phase5Com2 reads.round7))
    (hdecom : v.decommit5aAndElgamalVecIncludesI = (List.range' 1 (p.threshold + 1)).map
      (p.withOwn (v.phase5aDecom, v.helgamalProof) reads.round6)) {w : Locals9 c}
    (h : p.round9 v (p.peers.map reads.round8) = .ok w) :
    w.toLocals8 = v ∧ w.si = v.localSig.si ∧
      (∀ j ∈ p.peers, c.createCommitment (c.createHashFromGe
        [(reads.round8 j).ui, (reads.round8 j).ti]) (reads.round8 j).blindFactor
          = (reads.round7 j).com) ∧
      v.phase5dDecom2.ti + v.phase5aDecom.Bi
          + (p.peers.map (fun j => (reads.round8 j).ti + (reads.round6 j).1.Bi)).sum
        = v.phase5dDecom2.ui + (p.peers.map (fun j => (reads.round8 j).ui)).sum := by
  have hlen : ((List.range' 1 (p.threshold + 1)).map
      (p.withOwn (v.phase5aDecom, v.helgamalProof) reads.round6)).length = p.threshold + 1 := by
    rw [List.length_map, List.length_range']
  unfold round9 at h
  simp only [formatVec_withOwn h1 hn, ok_bind, hcom, hdecom, mapM_index hlen, List.map_map,
    Function.comp_def] at h
  obtain ⟨si, hphase, h⟩ := bind_eq_ok.mp h
  cases h
  rw [expect_eq_ok] at hphase
  obtain ⟨hopen, hsum, rfl⟩ := phase5d_ok hphase
  have hleft : (fun i => (p.withOwn v.phase5dDecom2 reads.round8 i).ti
      + (p.withOwn (v.phase5aDecom, v.helgamalProof) reads.round6 i).1.Bi)
        = p.withOwn (v.phase5dDecom2.ti + v.phase5aDecom.Bi)
          (fun j => (reads.round8 j).ti + (reads.round6 j).1.Bi) := by
    funext i
    unfold withOwn
    split_ifs <;> rfl
  have hright : (fun i => (p.withOwn v.phase5dDecom2 reads.round8 i).ui)
      = p.withOwn v.phase5dDecom2.ui (fun j => (reads.round8 j).ui) := by
    funext i
    unfold withOwn
    split_ifs <;> rfl
  rw [hleft, hright, sum_withOwn h1 hn, sum_withOwn h1 hn] at hsum
  refine ⟨rfl, rfl, fun j hj => ?_, hsum⟩
  have hone := hopen j (mem_range'_one.mpr (mem_others.mp hj).1)
  rw [withOwn_of_mem _ _ hj, withOwn_of_mem _ _ hj] at hone
  exact hone

/-! ### The key -/

/-- The weighted shares of the announced indices sum to the key of the file. -/
theorem sum_weights (hsign : c.LawfulSigning) {schemes : List (VerifiableSS G)}
    (hq : schemes.length < q) (hcolumns : 0 < columns schemes)
    (hshort : ∀ vss ∈ schemes, vss.commitments.length ≤ p.threshold + 1)
    (h1 : 1 ≤ p.partyNumInt) (hn : p.partyNumInt ≤ p.threshold + 1)
    (hdistinct : (p.signersVec reads).Nodup)
    (hid : ∀ i, 1 ≤ i → i ≤ p.threshold + 1 → 1 ≤ p.idOf reads i ∧ p.idOf reads i ≤ schemes.length)
    {own : G} {W : ℕ → G}
    (hown : ∃ vss, own = c.mapShareToNewParams vss (p.idOf reads p.partyNumInt - 1)
      (p.signersVec reads) • xiPoint q schemes (p.idOf reads p.partyNumInt))
    (hW : ∀ j ∈ p.peers, ∃ vss, W j = c.mapShareToNewParams vss (p.idOf reads j - 1)
      (p.signersVec reads) • xiPoint q schemes (p.idOf reads j)) :
    own + (p.peers.map W).sum = columnSum schemes 0 := by
  have hids : (p.signersVec reads).map (· + 1)
      = (List.range' 1 (p.threshold + 1)).map (p.idOf reads) := by
    rw [signersVec, List.map_map]
    refine List.map_congr_left (fun i hi => ?_)
    obtain ⟨hi1, hin⟩ := mem_range'_one.mp hi
    exact Nat.sub_add_cancel (hid i hi1 hin).1
  have hnodup : ((p.signersVec reads).map (· + 1)).Nodup :=
    hdistinct.map (fun _ _ h => Nat.succ.inj h)
  -- the term of every index is a Lagrange coefficient times its public point
  let F : ℕ → G := fun x =>
    (lagrangeAtZero ((p.signersVec reads).map (· + 1)).toFinset x : ZMod q) • xiPoint q schemes x
  have hterm : ∀ i, 1 ≤ i → i ≤ p.threshold + 1 → ∀ vss, c.mapShareToNewParams vss
      (p.idOf reads i - 1) (p.signersVec reads) • xiPoint q schemes (p.idOf reads i)
        = F (p.idOf reads i) := by
    intro i hi1 hin vss
    have hmem : p.idOf reads i - 1 ∈ p.signersVec reads :=
      List.mem_map_of_mem (mem_range'_one.mpr ⟨hi1, hin⟩)
    rw [hsign.mapShareToNewParams_eq vss _ _ hdistinct hmem,
      Nat.sub_add_cancel (hid i hi1 hin).1]
  have hpeers : p.peers.map W = p.peers.map (F ∘ p.idOf reads) := by
    refine List.map_congr_left (fun j hj => ?_)
    obtain ⟨vss, hj'⟩ := hW j hj
    obtain ⟨⟨hj1, hjn⟩, -⟩ := mem_others.mp hj
    rw [hj', hterm j hj1 hjn vss]
    rfl
  obtain ⟨vss, rfl⟩ := hown
  have hall := add_sum_map_others (F ∘ p.idOf reads) h1 hn
  have hS : ((p.signersVec reads).map (· + 1)).toFinset ⊆ Icc 1 schemes.length := by
    intro x hx
    rw [List.mem_toFinset, hids] at hx
    obtain ⟨i, hi, rfl⟩ := List.mem_map.mp hx
    obtain ⟨hi1, hin⟩ := mem_range'_one.mp hi
    exact mem_Icc.mpr (hid i hi1 hin)
  have hcard : #((p.signersVec reads).map (· + 1)).toFinset = p.threshold + 1 := by
    rw [List.toFinset_card_of_nodup hnodup, hids, List.length_map, List.length_range']
  have hinj : Set.InjOn (Nat.cast : ℕ → ZMod q) (Set.Iic schemes.length) := injOn_cast hq
  have hrec := sum_lagrange_evalAt_of_le hinj (columnSum schemes) hcolumns
    (columns_le_of_forall hshort) hS hcard
  rw [hterm p.partyNumInt h1 hn vss, hpeers, ← hrec]
  calc F (p.idOf reads p.partyNumInt) + (p.peers.map (F ∘ p.idOf reads)).sum
      = ∑ i ∈ Icc 1 (p.threshold + 1), (F ∘ p.idOf reads) i := hall
    _ = (((p.signersVec reads).map (· + 1)).map F).sum := by
        rw [← sum_map_range', hids, List.map_map]
    _ = ∑ x ∈ ((p.signersVec reads).map (· + 1)).toFinset, F x :=
        (List.sum_toFinset F hnodup).symm

/-- The weighted shares of a key file that has been checked, and of the signers whose points have
been, sum to its key. -/
theorem sum_wPoints [DecidableEq G] (hsign : c.LawfulSigning) {L : KeyGenLib q G P}
    {params : Parameters} {i : ℕ} {bc1Vec : List (KeyGenBroadcastMessage1 L)}
    (hfile : Checked L c params i bc1Vec p.keyFile) (hq : p.keyFile.vssSchemeVec.length < q)
    (hshort : ∀ vss ∈ p.keyFile.vssSchemeVec, vss.commitments.length ≤ p.threshold + 1)
    (h1 : 1 ≤ p.partyNumInt) (hn : p.partyNumInt ≤ p.threshold + 1)
    (hdistinct : (p.signersVec reads).Nodup)
    (hpos : ∀ i, 1 ≤ i → i ≤ p.threshold + 1 → 1 ≤ p.idOf reads i)
    (hanswered : ∀ j ∈ p.peers, p.Answered reads j)
    {vss : VerifiableSS G} (hvss : p.keyFile.vssSchemeVec[p.keyFile.partyId - 1]? = some vss)
    {wi : ZMod q} (hwi : wi = c.mapShareToNewParams vss (p.keyFile.partyId - 1)
      (p.signersVec reads) * p.keyFile.sharedKeys.xi) :
    wi • c.generator + (p.peers.map (wPoint reads)).sum = p.keyFile.ySum := by
  have hlt : p.keyFile.partyId - 1 < p.keyFile.vssSchemeVec.length :=
    (List.getElem?_eq_some_iff.mp hvss).1
  have hownId : p.idOf reads p.partyNumInt = p.keyFile.partyId := withOwn_self _ _
  have hid : ∀ i, 1 ≤ i → i ≤ p.threshold + 1 →
      1 ≤ p.idOf reads i ∧ p.idOf reads i ≤ p.keyFile.vssSchemeVec.length := by
    intro i hi1 hin
    refine ⟨hpos i hi1 hin, ?_⟩
    by_cases hi : i = p.partyNumInt
    · have := hpos i hi1 hin
      rw [hi, hownId] at this ⊢
      omega
    · obtain ⟨vss, hvss, -⟩ := (hanswered i (mem_others.mpr ⟨⟨hi1, hin⟩, hi⟩)).share
      have hlt := (List.getElem?_eq_some_iff.mp hvss).1
      omega
  have hcolumns : 0 < columns p.keyFile.vssSchemeVec := by
    obtain ⟨vss0, -, y, -, hv0, -, hcom0, -⟩ := hfile.committed 0 (by
      rw [← hfile.length_schemes]
      omega)
    refine lt_of_lt_of_le ?_ (length_le_columns (List.mem_of_getElem? hv0))
    exact (List.getElem?_eq_some_iff.mp hcom0).1
  rw [hfile.ySum]
  refine sum_weights hsign hq hcolumns hshort h1 hn hdistinct hid ⟨vss, ?_⟩ (fun j hj => ?_)
  · rw [hownId, hwi, mul_smul, hfile.point, hfile.partyId]
  · obtain ⟨vss', -, hpoint⟩ := (hanswered j hj).share
    exact ⟨vss', hpoint⟩

/-! ### The part of the signature -/

variable (p reads) in
/-- What a signer knows of the part it reveals, where `delta` is the sum of the `delta_i` and `r`
the coordinate of `R`. -/
structure Bound (v : Locals9 c) (delta r : ZMod q) : Prop where
  /-- The points in `R` were committed to before any was opened. -/
  opened : ∀ j ∈ p.peers, (reads.round4 j).gGammai = gammaPoint reads j ∧
    c.createCommitment (c.bytesCompressedToBigInt (gammaPoint reads j))
      (reads.round4 j).blindFactor = (reads.round1 j).1.com
  /-- The answers of every other signer have been checked. -/
  answered : ∀ j ∈ p.peers, p.Answered reads j
  delta_ne_zero : delta ≠ 0
  delta_eq : (delta - (p.peers.map reads.round3).sum) • c.generator
    = p.coins.ki • (p.coins.gammai • c.generator + (p.peers.map (gammaPoint reads)).sum)
      + (p.peers.map (fun j => gammaMask reads j
        - ((p.coins.mtaGamma j).betaTag : ZMod q) • c.generator)).sum
  R_eq : v.R = delta⁻¹ • (p.coins.gammai • c.generator + (p.peers.map (gammaPoint reads)).sum)
  rOf_R : c.rOf v.R = .ok r
  /-- The part, from the own weighted share and the points of the answers. -/
  si_eq : ∃ vss, p.keyFile.vssSchemeVec[p.keyFile.partyId - 1]? = some vss ∧ v.si • c.generator
    = p.coins.ki • ((scalarFrom (p.message % 2 ^ 256) : ZMod q) • c.generator
        + r • ((c.mapShareToNewParams vss (p.keyFile.partyId - 1) (p.signersVec reads)
          * p.keyFile.sharedKeys.xi) • c.generator + (p.peers.map (wPoint reads)).sum))
      + r • (p.peers.map (fun j => wMask reads j
        - ((p.coins.mtaW j).betaTag : ZMod q) • c.generator)).sum
  /-- With distinct indices and schemes that are not too long the points add up to the key. -/
  si_key : (p.signersVec reads).Nodup →
    (∀ vss ∈ p.keyFile.vssSchemeVec, vss.commitments.length ≤ p.threshold + 1) →
    p.keyFile.vssSchemeVec.length < q → v.si • c.generator
      = p.coins.ki • ((scalarFrom (p.message % 2 ^ 256) : ZMod q) • c.generator
          + r • p.keyFile.ySum)
        + r • (p.peers.map (fun j => wMask reads j
          - ((p.coins.mtaW j).betaTag : ZMod q) • c.generator)).sum
  opened5a : ∀ j ∈ p.peers, c.createCommitment (c.createHashFromGe
      [(reads.round6 j).1.Vi, (reads.round6 j).1.Ai, (reads.round6 j).1.Bi])
      (reads.round6 j).1.blindFactor = (reads.round5 j).com ∧
    c.verifyHomoElGamal (reads.round6 j).2 ⟨(reads.round6 j).1.Ai, v.R, c.generator,
      (reads.round6 j).1.Vi, (reads.round6 j).1.Bi⟩ = true
  opened5c : ∀ j ∈ p.peers, c.createCommitment (c.createHashFromGe
    [(reads.round8 j).ui, (reads.round8 j).ti]) (reads.round8 j).blindFactor = (reads.round7 j).com
  balanced : v.phase5dDecom2.ti + v.phase5aDecom.Bi
      + (p.peers.map (fun j => (reads.round8 j).ti + (reads.round6 j).1.Bi)).sum
    = v.phase5dDecom2.ui + (p.peers.map (fun j => (reads.round8 j).ui)).sum

/-- An output signature has passed the check of the whole. -/
theorem round10_ok {v : Locals9 c} {ansVec : List (ZMod q)} {sig : Signature q}
    (h : p.round10 v ansVec = .ok sig) :
    c.rOf v.localSig.R = .ok sig.r ∧ verify c sig v.localSig.y v.localSig.m = .ok () := by
  obtain ⟨siVec, -, h⟩ := bind_eq_ok.mp h
  obtain ⟨own, -, h⟩ := bind_eq_ok.mp h
  obtain ⟨⟨_, siVec'⟩, -, h⟩ := bind_eq_ok.mp h
  rw [expect_eq_ok] at h
  obtain ⟨r, hr, h⟩ := bind_eq_ok.mp h
  obtain ⟨ver, hver, h⟩ := bind_eq_ok.mp h
  cases ver with
  | false => cases h
  | true =>
    cases h
    refine ⟨hr, ?_⟩
    cases hv : verify c ⟨r, siVec'.foldl (· + ·) v.localSig.si⟩ v.localSig.y v.localSig.m with
    | ok u => rfl
    | error f =>
      rw [hv] at hver
      cases f with
      | err e => cases hver
      | panicked msg => cases hver
      | waiting => cases hver

/-- **What a signer reveals is bound to its key.**  A party has written its key file against
whatever it has read, and signs with signers that post whatever they like.  If it gets to reveal its
part `s_i`, `R` is made of points that were committed to first, the answers of every signer have
been checked against its points and the share it has announced, the part satisfies the signing
equation for these points up to the masks of the exchange, and all checks of phase 5 have passed;
with distinct indices and short schemes the equation is that for the key of the file.  A signature
it outputs verifies. -/
theorem reveal_bound [DecidableEq G] {L : KeyGenLib q G P} (hshare : c.LawfulSharing)
    (hsign : c.LawfulSigning) {party : Party c L} {keyReads : KeyGenReads c L}
    (hkey : party.main keyReads = .ok p.keyFile)
    (h1 : 1 ≤ p.partyNumInt) (hn : p.partyNumInt ≤ p.threshold + 1)
    {v : Locals9 c} (h : p.reveal reads = .ok v) :
    (∃ delta r, p.Bound reads v delta r) ∧
      ∀ sig, p.round10 v (p.peers.map reads.round9) = .ok sig →
        c.rOf v.R = .ok sig.r ∧
          verify c sig p.keyFile.ySum (p.message % 2 ^ 256) = .ok () := by
  obtain ⟨bc1Vec, hfile⟩ := exists_checked hshare hkey
  obtain ⟨v1, hv1, h⟩ := bind_eq_ok.mp h
  obtain ⟨v2, hv2, h⟩ := bind_eq_ok.mp h
  obtain ⟨v3, hv3, h⟩ := bind_eq_ok.mp h
  obtain ⟨v4, hv4, h⟩ := bind_eq_ok.mp h
  obtain ⟨v5, hv5, h⟩ := bind_eq_ok.mp h
  obtain ⟨v6, hv6, h⟩ := bind_eq_ok.mp h
  obtain ⟨v7, hv7, h⟩ := bind_eq_ok.mp h
  obtain ⟨v8, hv8, hv9⟩ := bind_eq_ok.mp h
  obtain ⟨hpos, hsigners, hxi, hown, vss, wi, hvss, hwi, hkeys⟩ := round1_ok hshare h1 hn hv1
  obtain ⟨rfl, hbc, hbeta, hni⟩ := round2_ok hv2
  have hki : v2.signKeys.ki = p.coins.ki := by rw [hkeys]
  obtain ⟨rfl, hrec, hdelta, hsigma, hanswered⟩ :=
    round3_ok h1 hn hsigners hxi hpos hki hbeta hni hv3
  obtain ⟨rfl, hne, hinv⟩ := round4_ok h1 hn hv4
  obtain ⟨hopen, hR, r, hr, hsig, hdecom⟩ := round5_ok h1 hn hown ⟨_, hbc⟩ hrec hv5
  obtain ⟨rfl, hcom5a⟩ := round6_ok h1 hn hv6
  obtain ⟨hv7', hdecom7, hopen5a⟩ := round7_ok h1 hn ⟨_, hcom5a⟩ hv7
  obtain ⟨rfl, hcom5c⟩ := round8_ok h1 hn hv8
  rw [← hv7'] at hdecom7 hopen5a hR hr hsig hdecom
  obtain ⟨rfl, hsi, hopen5c, hbalanced⟩ := round9_ok h1 hn hcom5c hdecom7 hv9
  have hgammai : v4.signKeys.gammai = p.coins.gammai := by rw [hkeys]
  have hwi' : v4.signKeys.wi = wi := by rw [hkeys]
  rw [hgammai] at hdelta
  rw [hwi'] at hsigma
  rw [hki] at hsig
  constructor
  · have hpart : v.si • c.generator
        = p.coins.ki • ((scalarFrom (p.message % 2 ^ 256) : ZMod q) • c.generator
            + r • (wi • c.generator + (p.peers.map (wPoint reads)).sum))
          + r • (p.peers.map (fun j => wMask reads j
            - ((p.coins.mtaW j).betaTag : ZMod q) • c.generator)).sum := by
      rw [hsi, hsig]
      simp only
      rw [add_smul, mul_smul, mul_smul, hsigma]
      module
    refine ⟨v4.deltai + (p.peers.map reads.round3).sum, r, ?_⟩
    refine ⟨hopen, hanswered, hne, ?_, ?_, hr, ⟨vss, hvss, ?_⟩, fun hdistinct hshort hq => ?_,
      hopen5a, hopen5c, hbalanced⟩
    · rw [add_sub_cancel_right]
      exact hdelta
    · rw [← hinv]
      exact hR
    · rw [← hwi]
      exact hpart
    · rw [← sum_wPoints hsign hfile hq hshort h1 hn hdistinct hpos hanswered hvss hwi]
      exact hpart
  · intro sig hout
    obtain ⟨hrsig, hver⟩ := round10_ok hout
    rw [hsig] at hrsig hver
    exact ⟨hrsig, hver⟩

end Rounds

end Signer

/-! ## Honest signers -/

namespace SigningGroup

variable [Fact q.Prime] [AddCommGroup G] [Module (ZMod q) G] {d : Deal q P} (g : SigningGroup d)
  (coins : ℕ → Coins c P) (message : ℕ) (r : ZMod q)

/-- What the signers of an honest group read of each other, as signer `i`. -/
def reads (i : ℕ) : Reads c where
  round0 := g.ids
  round1 j := (com coins j, g.mAK coins j)
  round2 j := ((g.mBGamma coins j i).1, (g.mBW coins j i).1)
  round3 := deltai d coins
  round4 := decommit coins
  round5 j := (g.locals5 coins message r j).phase5Com
  round6 j := ((g.locals5 coins message r j).phase5aDecom,
    (g.locals5 coins message r j).helgamalProof)
  round7 j := (g.locals7 coins message r j).phase5Com2
  round8 j := (g.locals8 coins message r j).phase5dDecom2
  round9 j := (g.locals9 coins message r j).si

variable {g coins message r} {i : ℕ}

/-- An honest signer among honest signers reveals its part. -/
theorem reveal_honest [DecidableEq G] (hshare : c.LawfulSharing) (hsign : c.LawfulSigning)
    (hwrap : g.NoWrap coins) (hk : kSum d coins ≠ 0) (hgamma : gammaSum d coins ≠ 0)
    (hr : c.rOf (pointR d coins) = .ok r) (h1 : 1 ≤ i) (hn : i ≤ d.t + 1) :
    (g.signer c message coins i).reveal (g.reads coins message r i)
      = .ok (g.locals9 coins message r i) := by
  unfold Signer.reveal
  refine bind_eq_ok.mpr ⟨_, g.round1_honest coins hshare hsign h1 hn, ?_⟩
  refine bind_eq_ok.mpr ⟨_, g.round2_honest coins, ?_⟩
  refine bind_eq_ok.mpr ⟨_, g.round3_honest coins hsign hwrap h1 hn, ?_⟩
  refine bind_eq_ok.mpr ⟨_, g.round4_honest coins hk hgamma h1 hn, ?_⟩
  refine bind_eq_ok.mpr ⟨_, g.round5_honest coins hsign hgamma hr h1 hn, ?_⟩
  refine bind_eq_ok.mpr ⟨_, g.round6_honest coins h1 hn, ?_⟩
  refine bind_eq_ok.mpr ⟨_, g.round7_honest coins hsign hr h1 hn, ?_⟩
  refine bind_eq_ok.mpr ⟨_, g.round8_honest coins h1 hn, ?_⟩
  exact g.round9_honest coins hk h1 hn

end SigningGroup

/-- The coordinate of the point the two signers of `twoSigners` reconstruct. -/
def twoR : ZMod 7 := scalarFrom ((2 ^ 255 + 6) % 7)

theorem twoSigners_reveal :
    (twoSigners.signer (wideCurv 7) 5 twoCoins 1).reveal (twoSigners.reads twoCoins 5 twoR 1)
      = .ok (twoSigners.locals9 twoCoins 5 twoR 1) := by
  have hr : (wideCurv 7).rOf (SigningGroup.pointR (threeParties.deal (le_refl 1) padLib_paired)
      twoCoins) = .ok twoR := by decide +kernel
  exact SigningGroup.reveal_honest (wideCurv_lawfulSharing 7) (wideCurv_lawfulSigning 7)
    twoSigners_completes.noWrap twoSigners_completes.kSum_ne_zero
    twoSigners_completes.gammaSum_ne_zero hr (le_refl 1) one_le_two

/-- Party 3 reveals its part to party 1, and both parts of what it knows apply. -/
theorem reveal_bound_third :
    (∃ delta r, (twoSigners.signer (wideCurv 7) 5 twoCoins 1).Bound
      (twoSigners.reads twoCoins 5 twoR 1) (twoSigners.locals9 twoCoins 5 twoR 1) delta r) ∧
      ((twoSigners.signer (wideCurv 7) 5 twoCoins 1).signersVec
        (twoSigners.reads twoCoins 5 twoR 1)).Nodup ∧
      ∀ vss ∈ (twoSigners.signer (wideCurv 7) 5 twoCoins 1).keyFile.vssSchemeVec,
        vss.commitments.length ≤ 2 := by
  obtain ⟨keyReads, hmain⟩ := threeParties.exists_main threeParties_run
    (show 1 ≤ 3 by decide) (le_refl 3)
  have hfile : (twoSigners.signer (wideCurv 7) 5 twoCoins 1).keyFile = threeParties.keyFile 3 :=
    threeParties.deal_keyFile (show 1 ≤ 3 by decide) (le_refl 3)
  rw [← hfile] at hmain
  refine ⟨(Signer.reveal_bound (wideCurv_lawfulSharing 7) (wideCurv_lawfulSigning 7) hmain
    (le_refl 1) one_le_two twoSigners_reveal).1, by decide +kernel, fun vss hvss => ?_⟩
  rw [hfile] at hvss
  obtain ⟨i, -, rfl⟩ := List.mem_map.mp hvss
  exact le_refl 2

end VDexNode.Mpt
