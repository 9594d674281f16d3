import VDexNode.Mpt.KeyGen

/-!
# VDexNode.Mpt.KeyGenSecrecy — the shares in the message store

The key that two parties encrypt their shares with is the x-coordinate of `y_i + y_j`, and both
points are posted in round 2.  `eavesdrop` does what party `j` does in round 4, with the entries of
rounds 2 and 3 and nothing of party `j`'s own.

* `eavesdrop_transcript` : it finds the share in the transcript of every run.
* `share_never_secret` : **no share is secret from a reader of the message store.**
-/

namespace VDexNode.Mpt

variable {q : ℕ} {G : Type} {P : Paillier}

section Secrecy

variable [Fact q.Prime] [AddCommGroup G] [Module (ZMod q) G] [DecidableEq G]

/-- `decode` finds the share of party `i` for party `j` in the transcript of every run of `n`
parties with threshold `t`. -/
def Reveals {c : Curv q G} {L : KeyGenLib q G P} (decode : Transcript c L → ZMod q)
    (n t i j : ℕ) : Prop :=
  ∀ d : HonestKeyGen c L, d.n = n → d.t = t → ∀ files tr,
    generateKey (d.all d.party) = .ok (files, tr) → decode tr = d.share i j

/-- The share of party `i` for party `j` is not a function of the transcript. -/
def ShareSecret (c : Curv q G) (L : KeyGenLib q G P) (n t i j : ℕ) : Prop :=
  ¬ ∃ decode : Transcript c L → ZMod q, Reveals decode n t i j

/-- What a reader of the store makes of the entries of rounds 2 and 3. -/
def eavesdrop (c : Curv q G) (L : KeyGenLib q G P)
    (round2 : List (ℕ × KeyGenDecommitMessage1 G)) (round3 : List (ℕ × List (ℕ × AEAD)))
    (i j : ℕ) : Result (ZMod q) := do
  let decomI ← unwrap (round2.lookup i)
  let decomJ ← unwrap (round2.lookup j)
  let sends ← unwrap (round3.lookup i)
  let aeadPack ← unwrap (sends.lookup j)
  let encKey ← unwrap (c.xCoor (decomJ.yi + decomI.yi))
  openShare L encKey aeadPack

variable {c : Curv q G} {L : KeyGenLib q G P}

namespace HonestKeyGen

variable (d : HonestKeyGen c L)

/-- **The share is read off the transcript** of a run that completes. -/
theorem eavesdrop_transcript (hL : L.Lawful c) {r : List (KeyFile q G P) × Transcript c L}
    (hok : generateKey (d.all d.party) = .ok r) {i j : ℕ} (hi : 1 ≤ i ∧ i ≤ d.n)
    (hj : 1 ≤ j ∧ j ≤ d.n) (hne : i ≠ j) :
    eavesdrop c L d.transcript.round2 d.transcript.round3 i j = .ok (d.share i j) := by
  have hdecom : ∀ k, 1 ≤ k ∧ k ≤ d.n →
      d.transcript.round2.lookup k = some (d.locals2 k).decomi := fun k hk =>
    lookup_board (fun k => (d.locals2 k).decomi) (mem_range'_one.mpr hk)
  have hsends : d.transcript.round3.lookup i = some (d.locals3 i).sends :=
    lookup_board (fun k => (d.locals3 k).sends) (mem_range'_one.mpr hi)
  have hsent : (d.locals3 i).sends.lookup j = some (d.sent i j) :=
    lookup_board (d.sent i) (mem_others.mpr ⟨hj, hne.symm⟩)
  obtain ⟨x, hx, -⟩ := d.usable_of_generateKey hok hj hi hne.symm
  have hpoint : c.xCoor ((d.locals2 j).decomi.yi + (d.locals2 i).decomi.yi)
      = some (d.encKey j i) := by
    rw [encKey, hx]
    exact hx
  have hopen : openShare L (d.encKey j i) (d.sent i j) = .ok (d.share i j) := by
    refine (d.openShare_outcome hL hj hi hne.symm).eq_ok ?_
    rintro f ⟨-, k, l, hk, hl, hkl, hnot⟩
    exact hnot (d.usable_of_generateKey hok hk hl hkl)
  simp only [eavesdrop, hdecom i hi, hdecom j hj, hsends, hsent, hpoint, unwrap, ok_bind, hopen]

end HonestKeyGen

/-- A reader of rounds 2 and 3 finds the share. -/
theorem eavesdrop_run (hc : c.LawfulSharing) (hL : L.Lawful c)
    (hdlog : ∀ x nonce, c.verifyDLog (c.proveDLog x nonce) = true) (d : HonestKeyGen c L)
    {files : List (KeyFile q G P)} {tr : Transcript c L}
    (hok : generateKey (d.all d.party) = .ok (files, tr)) {i j : ℕ} (hi : 1 ≤ i ∧ i ≤ d.n)
    (hj : 1 ≤ j ∧ j ≤ d.n) (hne : i ≠ j) :
    eavesdrop c L tr.round2 tr.round3 i j = .ok (d.share i j) := by
  have htr : tr = d.transcript := (Prod.mk.inj ((d.generateKey_outcome hc hL hdlog).1 _ hok)).2
  rw [htr]
  exact d.eavesdrop_transcript hL hok hi hj hne

/-- What `eavesdrop` returns is a function of the transcript. -/
theorem not_shareSecret (hc : c.LawfulSharing) (hL : L.Lawful c)
    (hdlog : ∀ x nonce, c.verifyDLog (c.proveDLog x nonce) = true) {n t i j : ℕ}
    (hi : 1 ≤ i ∧ i ≤ n) (hj : 1 ≤ j ∧ j ≤ n) (hne : i ≠ j) : ¬ ShareSecret c L n t i j := by
  intro hsecret
  refine hsecret ⟨fun tr => (eavesdrop c L tr.round2 tr.round3 i j).toOption.getD 0, ?_⟩
  rintro d rfl rfl files tr hok
  show (eavesdrop c L tr.round2 tr.round3 i j).toOption.getD 0 = _
  rw [eavesdrop_run hc hL hdlog d hok hi hj hne]
  rfl

/-- **No share is secret**: the transcript determines every share that is sent, and `eavesdrop` finds
it in rounds 2 and 3 alone, in every run that completes. -/
theorem share_never_secret (hc : c.LawfulSharing) (hL : L.Lawful c)
    (hdlog : ∀ x nonce, c.verifyDLog (c.proveDLog x nonce) = true) {n t i j : ℕ}
    (hi : 1 ≤ i ∧ i ≤ n) (hj : 1 ≤ j ∧ j ≤ n) (hne : i ≠ j) :
    ¬ ShareSecret c L n t i j ∧ ∀ d : HonestKeyGen c L, d.n = n → d.t = t → ∀ files tr,
      generateKey (d.all d.party) = .ok (files, tr) →
        eavesdrop c L tr.round2 tr.round3 i j = .ok (d.share i j) := by
  refine ⟨not_shareSecret hc hL hdlog hi hj hne, ?_⟩
  rintro d rfl - files tr hok
  exact eavesdrop_run hc hL hdlog d hok hi hj hne

/-- The share that the first of two parties sends the second is not secret. -/
theorem share_never_secret_two : ¬ ShareSecret (wideCurv 7) (padLib 7) 2 1 1 2 ∧
    ∀ a files tr, generateKey ((twoParties a).all (twoParties a).party) = .ok (files, tr) →
      eavesdrop (wideCurv 7) (padLib 7) tr.round2 tr.round3 1 2 =
        .ok ((twoParties a).share 1 2) := by
  obtain ⟨hsecret, hread⟩ := share_never_secret (t := 1) (wideCurv_lawfulSharing 7)
    (padLib_lawful 7) (fun _ _ => rfl) ⟨le_refl 1, one_le_two⟩ ⟨one_le_two, le_refl 2⟩
    (show 1 ≠ 2 by decide)
  exact ⟨hsecret, fun a files tr hok => hread (twoParties a) rfl rfl files tr hok⟩

/-- The runs of the two parties complete with different shares, and yet a reader of the store finds
the share in the transcript of every run. -/
theorem twoParties_revealed :
    (∀ a, ∃ r, generateKey ((twoParties a).all (twoParties a).party) = .ok r) ∧
      (twoParties 0).share 1 2 ≠ (twoParties 1).share 1 2 ∧
      ¬ ShareSecret (wideCurv 7) (padLib 7) 2 1 1 2 := by
  refine ⟨fun a => ?_, by decide, not_shareSecret (wideCurv_lawfulSharing 7) (padLib_lawful 7)
    (fun _ _ => rfl) ⟨le_refl 1, one_le_two⟩ ⟨one_le_two, le_refl 2⟩ (by decide)⟩
  have hrun := (twoParties a).generateKey_outcome (wideCurv_lawfulSharing 7) (padLib_lawful 7)
    (fun _ _ => rfl)
  refine ⟨_, hrun.eq_ok ?_⟩
  rintro f ⟨-, i, j, hi, hj, hne, hnot⟩
  exact hnot (twoParties_usable a hi hj hne)

end Secrecy

end VDexNode.Mpt
