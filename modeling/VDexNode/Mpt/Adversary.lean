import VDexNode.Mpt.KeyGen
import VDexNode.Mpt.Reconstruct

/-!
# VDexNode.Mpt.Adversary — key generation among arbitrary parties

`Party.main` is the program of one party: it reads whatever the others post and writes a key file or
stops.  Nothing is assumed of the others.

* `exists_main_of_generateKey` : every file of a run of `generateKey` is written by a `main`.
* `main_checked` : **what a party knows of the file it writes**, whoever the others are: every part
  of the key was committed to before any was opened, the key is their sum, and what the own share is
  the sum of lies on the curves of the sharing schemes, one by one.
* `shares_recover_key` : **`t + 1` files with the same schemes recover the key.**
-/

namespace VDexNode.Mpt

open Finset

variable {q : ℕ} {G : Type} {c : Curv q G} {P : Paillier} {L : KeyGenLib q G P}

/-! ## One party -/

/-- The entries a party reads, round by round. -/
structure KeyGenReads (c : Curv q G) (L : KeyGenLib q G P) where
  round1 : List (KeyGenBroadcastMessage1 L)
  round2 : List (KeyGenDecommitMessage1 G)
  round3 : List AEAD
  round4 : List (VerifiableSS G)
  round5 : List c.DLogProof

variable [Fact q.Prime] [AddCommGroup G] [Module (ZMod q) G] [DecidableEq G]

/-- `main`, from signup to the key file. -/
def Party.main (p : Party c L) (reads : KeyGenReads c L) : Result (KeyFile q G P) := do
  let v ← p.round2 p.round1 reads.round1
  let v ← p.round3 v reads.round2
  let v ← p.round4 v reads.round3
  let v ← p.round5 v reads.round4
  p.round6 v reads.round5

/-- **Every file** of a key generation is written by the program of one of the parties. -/
theorem exists_main_of_generateKey {parties : List (Party c L)} {files : List (KeyFile q G P)}
    {tr : Transcript c L} (h : generateKey parties = .ok (files, tr)) {file : KeyFile q G P}
    (hfile : file ∈ files) : ∃ p ∈ parties, ∃ reads, p.main reads = .ok file := by
  unfold generateKey at h
  obtain ⟨parties2, h2, h⟩ := bind_eq_ok.mp h
  obtain ⟨parties3, h3, h⟩ := bind_eq_ok.mp h
  obtain ⟨parties4, h4, h⟩ := bind_eq_ok.mp h
  obtain ⟨parties5, h5, h⟩ := bind_eq_ok.mp h
  obtain ⟨parties6, h6, h⟩ := bind_eq_ok.mp h
  cases h
  obtain ⟨⟨p, _⟩, hp, rfl⟩ := List.mem_map.mp hfile
  obtain ⟨v5, ans5, hv5, -, h6⟩ := exists_of_syncRound h6 hp
  obtain ⟨v4, ans4, hv4, -, h5⟩ := exists_of_syncRound h5 hv5
  obtain ⟨v3, ans3, hv3, -, h4⟩ := exists_of_syncRound h4 hv4
  obtain ⟨v2, ans2, hv2, -, h3⟩ := exists_of_syncRound h3 hv3
  obtain ⟨v1, ans1, hv1, -, h2⟩ := exists_of_syncRound h2 hv2
  obtain ⟨p', hp', heq⟩ := List.mem_map.mp hv1
  cases heq
  refine ⟨p, hp', ⟨ans1, ans2, ans3, ans4, ans5⟩, ?_⟩
  unfold Party.main
  rw [h2, ok_bind, h3, ok_bind, h4, ok_bind, h5, ok_bind]
  exact h6

/-! ## What has been checked -/

/-- What party `i` knows of its key file: the entries of round 1 have committed everybody to a part
of the key, which is the first entry of its scheme, and to a Paillier key.  The other entries of the
schemes are seen in round 4 for the first time; the shares have been checked against them. -/
structure Checked (L : KeyGenLib q G P) (c : Curv q G) (params : Parameters) (i : ℕ)
    (bc1Vec : List (KeyGenBroadcastMessage1 L)) (file : KeyFile q G P) : Prop where
  partyId : file.partyId = i
  length_schemes : file.vssSchemeVec.length = params.shareCount
  length_keys : file.paillierKeyVector.length = params.shareCount
  committed : ∀ k < params.shareCount, ∃ vss bc1 y blindFactor,
    file.vssSchemeVec[k]? = some vss ∧ bc1Vec[k]? = some bc1 ∧ vss.commitments[0]? = some y ∧
    c.createCommitment (c.bytesCompressedToBigInt y) blindFactor = bc1.com ∧
    L.verifyCorrectKey bc1.correctKeyProof bc1.e = true ∧
    file.paillierKeyVector[k]? = some bc1.e
  y : file.sharedKeys.y = file.ySum
  ySum : file.ySum = columnSum file.vssSchemeVec 0
  /-- The own share is the sum of what everybody has sent, each on the curve of its scheme. -/
  shares : ∃ shares : List (ZMod q), shares.length = params.shareCount ∧
    file.sharedKeys.xi = shares.sum ∧ ∀ k < params.shareCount, ∃ vss share,
      file.vssSchemeVec[k]? = some vss ∧ shares[k]? = some share ∧
      c.validateShare vss share i = true ∧ share • c.generator =
        evalAt (vss.commitments.getD · 0) vss.commitments.length (i : ZMod q)
  /-- The share is the value of the curve of the sums. -/
  point : file.sharedKeys.xi • c.generator = xiPoint q file.vssSchemeVec i

variable {p : Party c L}

omit [Fact q.Prime] [Module (ZMod q) G] [DecidableEq G] in
/-- The points a party collects are those of the decommitments. -/
theorem collectRound2_points {v : KeyGenLocals2 L} (hown : v.decomi.yi = v.partyKeys.yi)
    {ansVec : List (KeyGenDecommitMessage1 G)} {yVec : List G}
    {decomVec : List (KeyGenDecommitMessage1 G)} {encKeys : List ℕ}
    (h : p.collectRound2 v ansVec = .ok (yVec, decomVec, encKeys)) :
    yVec = decomVec.map (·.yi) := by
  refine forOthers_rule (fun _ acc => acc.1 = acc.2.1.map (·.yi)) rfl ?_ ?_ h
  · rintro _ ⟨yVec, decomVec, encKeys⟩ _ hI hturn
    cases hturn
    simp only at hI ⊢
    rw [List.map_append, hI, List.map_singleton, hown]
  · rintro _ i j ⟨yVec, decomVec, encKeys⟩ _ - - hI hturn
    obtain ⟨decomJ, -, hturn⟩ := bind_eq_ok.mp hturn
    obtain ⟨encKey, -, hturn⟩ := bind_eq_ok.mp hturn
    cases hturn
    simp only at hI ⊢
    rw [List.map_append, hI, List.map_singleton]

omit [Fact q.Prime] [AddCommGroup G] [Module (ZMod q) G] [DecidableEq G] in
/-- One entry: the commitment opens and the key is proved correct. -/
theorem verifyComAndKey_ok {decomVec : List (KeyGenDecommitMessage1 G)}
    {bc1Vec : List (KeyGenBroadcastMessage1 L)} {k : ℕ}
    (h : verifyComAndKey c L decomVec bc1Vec k = .ok true) :
    ∃ decom bc1, decomVec[k]? = some decom ∧ bc1Vec[k]? = some bc1 ∧
      c.createCommitment (c.bytesCompressedToBigInt decom.yi) decom.blindFactor = bc1.com ∧
      L.verifyCorrectKey bc1.correctKeyProof bc1.e = true := by
  simp only [verifyComAndKey, bind_eq_ok, index_eq_ok] at h
  obtain ⟨decom, hdecom, bc1, hbc1, h⟩ := h
  by_cases hcom : c.createCommitment (c.bytesCompressedToBigInt decom.yi) decom.blindFactor
      = bc1.com
  · rw [if_pos hcom] at h
    exact ⟨decom, bc1, hdecom, hbc1, hcom, Except.ok.inj h⟩
  · rw [if_neg hcom] at h
    cases h

omit [Fact q.Prime] [Module (ZMod q) G] [DecidableEq G] in
/-- **Commitments** were opened by the entries of round 2. -/
theorem round3_ok {v : KeyGenLocals2 L} (hown : v.decomi.yi = v.partyKeys.yi)
    {ansVec : List (KeyGenDecommitMessage1 G)} {w : KeyGenLocals3 L}
    (h : p.round3 v ansVec = .ok w) :
    w.toKeyGenLocals2 = v ∧ w.ySum = w.yVec.sum ∧ v.bc1Vec.length = p.params.shareCount ∧
      ∀ k < p.params.shareCount, ∃ bc1 y blindFactor, w.yVec[k]? = some y ∧
        v.bc1Vec[k]? = some bc1 ∧
        c.createCommitment (c.bytesCompressedToBigInt y) blindFactor = bc1.com ∧
        L.verifyCorrectKey bc1.correctKeyProof bc1.e = true := by
  obtain ⟨⟨yVec, decomVec, encKeys⟩, hcollect, h⟩ := bind_eq_ok.mp h
  obtain ⟨head, hhead, h⟩ := bind_eq_ok.mp h
  obtain ⟨⟨vssScheme, secretShares, index⟩, hphase, h⟩ := bind_eq_ok.mp h
  obtain ⟨sends, -, h⟩ := bind_eq_ok.mp h
  cases h
  have hpoints := collectRound2_points hown hcollect
  rw [expect_eq_ok] at hphase
  simp only [Keys.phase1VerifyComPhase3VerifyCorrectKeyPhase2Distribute, bind_eq_ok,
    assertEq_eq_ok, exists_const] at hphase
  obtain ⟨hdecom, hbc1, test, htest, hphase⟩ := hphase
  refine ⟨rfl, ?_, hbc1, fun k hk => ?_⟩
  · obtain ⟨ys, hys⟩ := List.head?_eq_some_iff.mp (unwrap_eq_ok.mp hhead)
    show yVec.tail.foldl (· + ·) head = yVec.sum
    rw [foldl_add_eq_sum, hys, List.tail_cons, List.sum_cons]
  · cases test with
    | false => cases hphase
    | true =>
      obtain ⟨decom, bc1, hd, hb, hcom, hkey⟩ :=
        verifyComAndKey_ok (allM_eq_ok_true.mp htest k (List.mem_range.mpr (by omega)))
      refine ⟨bc1, decom.yi, decom.blindFactor, ?_, hb, hcom, hkey⟩
      show yVec[k]? = some decom.yi
      rw [hpoints, List.getElem?_map, hd, Option.map_some]

/-- **The shares** are the values of the curves of the schemes at the own number. -/
theorem round5_ok (hc : c.LawfulSharing) {v : KeyGenLocals4 L}
    {ansVec : List (VerifiableSS G)} {w : KeyGenLocals5 c L} (h : p.round5 v ansVec = .ok w) :
    w.toKeyGenLocals4 = v ∧ v.yVec.length = p.params.shareCount ∧
      w.vssSchemeVec.length = p.params.shareCount ∧
      (∀ k < p.params.shareCount, ∃ vss y, w.vssSchemeVec[k]? = some vss ∧
        v.yVec[k]? = some y ∧ vss.commitments[0]? = some y) ∧
      w.sharedKeys.y = v.yVec.sum ∧
      (v.partyShares.length = p.params.shareCount ∧ w.sharedKeys.xi = v.partyShares.sum ∧
        ∀ k < p.params.shareCount, ∃ vss share, w.vssSchemeVec[k]? = some vss ∧
          v.partyShares[k]? = some share ∧ c.validateShare vss share p.partyNumInt = true ∧
          share • c.generator = evalAt (vss.commitments.getD · 0) vss.commitments.length
            (p.partyNumInt : ZMod q)) ∧
      w.sharedKeys.xi • c.generator = xiPoint q w.vssSchemeVec p.partyNumInt := by
  obtain ⟨vssSchemeVec, -, h⟩ := bind_eq_ok.mp h
  obtain ⟨⟨sharedKeys, dlogProof⟩, hphase, h⟩ := bind_eq_ok.mp h
  cases h
  rw [expect_eq_ok] at hphase
  obtain ⟨hy, hshares, hvss, hentries, hkeys⟩ := phase2_ok hphase
  have hkeys : sharedKeys = ⟨v.yVec.sum, v.partyShares.sum⟩ := hkeys
  refine ⟨rfl, hy, hvss, fun k hk => ?_, by rw [hkeys], ⟨hshares, by rw [hkeys], fun k hk => ?_⟩,
    ?_⟩
  · obtain ⟨vss, -, y, hv, -, hyk, -, hcom⟩ := hentries k hk
    exact ⟨vss, y, hv, hyk, hcom⟩
  · obtain ⟨vss, share, -, hv, hs, -, hvalid, -⟩ := hentries k hk
    exact ⟨vss, share, hv, hs, hvalid, (hc.validateShare_iff vss share p.partyNumInt).mp hvalid⟩
  · have hpoints : v.partyShares.map (· • c.generator)
        = vssSchemeVec.map (c.getPointCommitment · p.partyNumInt) := by
      refine List.ext_getElem? (fun k => ?_)
      rw [List.getElem?_map, List.getElem?_map]
      by_cases hk : k < p.params.shareCount
      · obtain ⟨vss, share, -, hv, hs, -, hvalid, -⟩ := hentries k hk
        rw [hv, hs, Option.map_some, Option.map_some, hc.getPointCommitment_eq]
        exact congrArg some ((hc.validateShare_iff vss share p.partyNumInt).mp hvalid)
      · rw [List.getElem?_eq_none (by omega), List.getElem?_eq_none (by omega)]
        rfl
    show sharedKeys.xi • c.generator = xiPoint q vssSchemeVec p.partyNumInt
    rw [hkeys, ← sum_getPointCommitment hc, ← hpoints]
    exact List.sum_smul

omit [Fact q.Prime] [AddCommGroup G] [Module (ZMod q) G] [DecidableEq G] in
theorem round4_ok {v : KeyGenLocals3 L} {ansVec : List AEAD} {w : KeyGenLocals4 L}
    (h : p.round4 v ansVec = .ok w) : w.toKeyGenLocals3 = v := by
  obtain ⟨partyShares, -, h⟩ := bind_eq_ok.mp h
  cases h
  rfl

omit [Fact q.Prime] [AddCommGroup G] [Module (ZMod q) G] [DecidableEq G] in
/-- **The key file** holds what has been computed. -/
theorem round6_ok {v : KeyGenLocals5 c L} (hlen : v.bc1Vec.length = p.params.shareCount)
    {ansVec : List c.DLogProof} {file : KeyFile q G P} (h : p.round6 v ansVec = .ok file) :
    file = ⟨v.partyKeys, v.sharedKeys, p.partyNumInt, v.vssSchemeVec, v.bc1Vec.map (·.e),
      v.ySum⟩ := by
  obtain ⟨dlogProofVec, -, h⟩ := bind_eq_ok.mp h
  obtain ⟨-, -, h⟩ := bind_eq_ok.mp h
  obtain ⟨keys, hkeys, h⟩ := bind_eq_ok.mp h
  cases h
  have hkeys : (List.range p.params.shareCount).mapM (fun i => do
      let bc1 ← index v.bc1Vec i
      return bc1.e : ℕ → Result P.EncryptionKey) = .ok keys := hkeys
  rw [mapM_index hlen] at hkeys
  rw [Except.ok.inj hkeys]

/-- The checks of all rounds, together. -/
theorem checked_of_rounds (hc : c.LawfulSharing) {v2 : KeyGenLocals2 L}
    (hown : v2.decomi.yi = v2.partyKeys.yi) {decoms : List (KeyGenDecommitMessage1 G)}
    {v3 : KeyGenLocals3 L} (h3 : p.round3 v2 decoms = .ok v3) {shares : List AEAD}
    {v4 : KeyGenLocals4 L} (h4 : p.round4 v3 shares = .ok v4) {schemes : List (VerifiableSS G)}
    {v5 : KeyGenLocals5 c L} (h5 : p.round5 v4 schemes = .ok v5) {proofs : List c.DLogProof}
    {file : KeyFile q G P} (h6 : p.round6 v5 proofs = .ok file) :
    Checked L c p.params p.partyNumInt v2.bc1Vec file := by
  obtain ⟨hv3, hySum, hlen, hcom⟩ := round3_ok hown h3
  have hv4 := round4_ok h4
  obtain ⟨hv5, hy, hvss, hfirst, hkey, hshares, hpoint⟩ := round5_ok hc h5
  -- the vectors of the earlier rounds are kept
  have hbc : v5.bc1Vec = v2.bc1Vec := by
    rw [hv5, hv4, hv3]
  have hyVec : v4.yVec = v3.yVec := by rw [hv4]
  rw [← hbc] at hlen hcom
  obtain rfl := round6_ok hlen h6
  rw [hyVec] at hy hfirst hkey
  have hsum : v5.ySum = v3.yVec.sum := by
    rw [hv5, hv4, hySum]
  refine ⟨rfl, hvss, ?_, fun k hk => ?_, ?_, ?_, ⟨v4.partyShares, hshares⟩, hpoint⟩
  · rw [List.length_map]
    exact hlen
  · obtain ⟨bc1, y, blindFactor, hyk, hbc1, hopen, hcorrect⟩ := hcom k hk
    obtain ⟨vss, y', hv, hyk', hcom0⟩ := hfirst k hk
    obtain rfl : y = y' := Option.some.inj (hyk.symm.trans hyk')
    refine ⟨vss, bc1, y, blindFactor, hv, ?_, hcom0, hopen, hcorrect, ?_⟩
    · rw [← hbc]
      exact hbc1
    · show (v5.bc1Vec.map (·.e))[k]? = some bc1.e
      rw [List.getElem?_map, hbc1, Option.map_some]
  · show v5.sharedKeys.y = v5.ySum
    rw [hkey, hsum]
  · show v5.ySum = columnSum v5.vssSchemeVec 0
    rw [hsum]
    refine sum_yVec_eq hy hvss (fun k hk => ?_)
    obtain ⟨vss, y, hv, hyk, hcom0⟩ := hfirst k hk
    exact ⟨vss, y, hv, hyk, hcom0⟩

/-- A key file that has been written: the rounds, one by one. -/
theorem main_ok {reads : KeyGenReads c L} {file : KeyFile q G P}
    (h : p.main reads = .ok file) : ∃ bc1Vec v3 v4 v5,
      p.collect reads.round1 p.round1.bci = .ok bc1Vec ∧
      p.round3 { p.round1 with bc1Vec } reads.round2 = .ok v3 ∧
      p.round4 v3 reads.round3 = .ok v4 ∧ p.round5 v4 reads.round4 = .ok v5 ∧
      p.round6 v5 reads.round5 = .ok file := by
  obtain ⟨v2, h2, h⟩ := bind_eq_ok.mp h
  obtain ⟨v3, h3, h⟩ := bind_eq_ok.mp h
  obtain ⟨v4, h4, h⟩ := bind_eq_ok.mp h
  obtain ⟨v5, h5, h6⟩ := bind_eq_ok.mp h
  obtain ⟨bc1Vec, hcollect, h2⟩ := bind_eq_ok.mp h2
  cases h2
  exact ⟨bc1Vec, v3, v4, v5, hcollect, h3, h4, h5, h6⟩

/-- A key file that has been written has been checked. -/
theorem exists_checked (hc : c.LawfulSharing) {reads : KeyGenReads c L} {file : KeyFile q G P}
    (h : p.main reads = .ok file) :
    ∃ bc1Vec, Checked L c p.params p.partyNumInt bc1Vec file := by
  obtain ⟨bc1Vec, v3, v4, v5, -, h3, h4, h5, h6⟩ := main_ok h
  exact ⟨bc1Vec, checked_of_rounds hc rfl h3 h4 h5 h6⟩

/-- **What a party knows of its key file**, whatever the others have posted: the commitments are
those it has read in round 1. -/
theorem main_checked (hc : c.LawfulSharing) {reads : KeyGenReads c L} {file : KeyFile q G P}
    (h : p.main reads = .ok file) :
    ∃ bc1Vec, p.collect reads.round1 p.round1.bci = .ok bc1Vec ∧
      Checked L c p.params p.partyNumInt bc1Vec file := by
  obtain ⟨bc1Vec, v3, v4, v5, hcollect, h3, h4, h5, h6⟩ := main_ok h
  exact ⟨bc1Vec, hcollect, checked_of_rounds hc rfl h3 h4 h5 h6⟩

/-- Each party of an honest run writes its file. -/
theorem HonestKeyGen.exists_main (d : HonestKeyGen c L) {tr : Transcript c L}
    (h : generateKey (d.all d.party) = .ok (d.all d.keyFile, tr)) {i : ℕ} (h1 : 1 ≤ i)
    (hn : i ≤ d.n) : ∃ reads, (d.party i).main reads = .ok (d.keyFile i) := by
  have hmem : d.keyFile i ∈ d.all d.keyFile := List.mem_map_of_mem (mem_range'_one.mpr ⟨h1, hn⟩)
  obtain ⟨p, hp, reads, hmain⟩ := exists_main_of_generateKey h hmem
  obtain ⟨j, -, rfl⟩ := List.mem_map.mp hp
  have hj : i = j := by
    obtain ⟨bc1Vec, v3, v4, v5, -, -, -, -, h⟩ := main_ok hmain
    obtain ⟨dlogProofVec, -, h⟩ := bind_eq_ok.mp h
    obtain ⟨-, -, h⟩ := bind_eq_ok.mp h
    obtain ⟨keys, -, h⟩ := bind_eq_ok.mp h
    exact (congrArg KeyFile.partyId (Except.ok.inj h)).symm
  rw [← hj] at hmain
  exact ⟨reads, hmain⟩

/-! ### Two parties -/

theorem twoParties_run : generateKey ((twoParties 5).all (twoParties 5).party)
    = .ok ((twoParties 5).all (twoParties 5).keyFile, (twoParties 5).transcript) := by
  refine ((twoParties 5).generateKey_outcome (wideCurv_lawfulSharing 7) (padLib_lawful 7)
    (fun _ _ => rfl)).eq_ok ?_
  rintro f ⟨-, i, j, hi, hj, hne, hnot⟩
  exact hnot (twoParties_usable 5 hi hj hne)

theorem main_checked_first : ∃ reads bc1Vec,
    ((twoParties 5).party 1).main reads = .ok ((twoParties 5).keyFile 1) ∧
      Checked (padLib 7) (wideCurv 7) ⟨1, 2⟩ 1 bc1Vec ((twoParties 5).keyFile 1) := by
  obtain ⟨reads, hmain⟩ := (twoParties 5).exists_main twoParties_run (le_refl 1) one_le_two
  obtain ⟨bc1Vec, -, hchecked⟩ := main_checked (wideCurv_lawfulSharing 7) hmain
  exact ⟨reads, bc1Vec, hmain, hchecked⟩

/-! ## Groups of parties -/

/-- **Shares recover the key.**  Any `threshold + 1` parties that have each come through against
whatever they have read, hold the same schemes, none longer than `threshold + 1`, have shares of one
key: the weighted sum of the shares is the logarithm of the key in every file. -/
theorem shares_recover_key (hc : c.LawfulSharing) {params : Parameters}
    (hq : params.shareCount < q) {S : Finset ℕ} (hS : S ⊆ Icc 1 params.shareCount)
    (hcard : #S = params.threshold + 1) {file : ℕ → KeyFile q G P}
    (hmain : ∀ i ∈ S, ∃ p : Party c L, p.params = params ∧ p.partyNumInt = i ∧
      ∃ reads, p.main reads = .ok (file i))
    {schemes : List (VerifiableSS G)} (hsame : ∀ i ∈ S, (file i).vssSchemeVec = schemes)
    (hshort : ∀ vss ∈ schemes, vss.commitments.length ≤ params.threshold + 1) :
    ∀ j ∈ S, (∑ i ∈ S, lagrangeAtZero S i * (file i).sharedKeys.xi) • c.generator
      = (file j).ySum := by
  have hpoint : ∀ i ∈ S, (file i).sharedKeys.xi • c.generator = xiPoint q schemes i ∧
      (file i).ySum = columnSum schemes 0 ∧ 0 < columns schemes := by
    intro i hi
    obtain ⟨p, rfl, rfl, reads, hfile⟩ := hmain i hi
    obtain ⟨bc1Vec, hchecked⟩ := exists_checked hc hfile
    have hpt := hchecked.point
    have hsum := hchecked.ySum
    have hlen := hchecked.committed 0 (by have := mem_Icc.mp (hS hi); omega)
    rw [hsame _ hi] at hpt hsum hlen
    obtain ⟨vss, -, y, -, hv, -, hcom, -⟩ := hlen
    refine ⟨hpt, hsum, lt_of_lt_of_le ?_ (length_le_columns (List.mem_of_getElem? hv))⟩
    exact (List.getElem?_eq_some_iff.mp hcom).1
  intro j hj
  have hinj : Set.InjOn (Nat.cast : ℕ → ZMod q) (Set.Iic params.shareCount) := injOn_cast hq
  have hrec := sum_lagrange_evalAt_of_le hinj (columnSum schemes) (hpoint j hj).2.2
    (columns_le_of_forall hshort) hS hcard
  rw [(hpoint j hj).2.1, ← hrec, sum_smul]
  refine sum_congr rfl (fun i hi => ?_)
  rw [mul_smul, (hpoint i hi).1]
  rfl

/-- The parameters of `twoParties`. -/
def twoOfTwo : Parameters := ⟨1, 2⟩

/-- The shares of the two parties recover `3`. -/
theorem shares_recover_key_two :
    (∑ i ∈ Icc 1 twoOfTwo.shareCount, lagrangeAtZero (Icc 1 twoOfTwo.shareCount) i
        * ((twoParties 5).keyFile i).sharedKeys.xi) • (wideCurv 7).generator
      = ((twoParties 5).keyFile 1).ySum := by
  have hmain : ∀ i ∈ Icc 1 twoOfTwo.shareCount, ∃ p : Party (wideCurv 7) (padLib 7),
      p.params = twoOfTwo ∧ p.partyNumInt = i ∧
        ∃ reads, p.main reads = .ok ((twoParties 5).keyFile i) := by
    intro i hi
    obtain ⟨h1, h2⟩ := mem_Icc.mp hi
    exact ⟨(twoParties 5).party i, rfl, rfl, (twoParties 5).exists_main twoParties_run h1 h2⟩
  have hsame : ∀ i ∈ Icc 1 twoOfTwo.shareCount,
      ((twoParties 5).keyFile i).vssSchemeVec = (twoParties 5).all (twoParties 5).vss :=
    fun _ _ => rfl
  have hshort : ∀ vss ∈ (twoParties 5).all (twoParties 5).vss,
      vss.commitments.length ≤ twoOfTwo.threshold + 1 := by
    intro vss hvss
    obtain ⟨i, -, rfl⟩ := List.mem_map.mp hvss
    exact le_refl 2
  have hcard : #(Icc 1 twoOfTwo.shareCount) = twoOfTwo.threshold + 1 := by decide
  have hq : twoOfTwo.shareCount < 7 := by decide
  exact shares_recover_key (wideCurv_lawfulSharing 7) hq (Finset.Subset.refl _) hcard hmain hsame
    hshort 1 (by decide)

end VDexNode.Mpt
