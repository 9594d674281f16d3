import VDexNode.Mpt.KeyGen
import VDexNode.Mpt.Signing

/-!
# VDexNode.Mpt.Lifecycle — signing with the files of a key generation

The files `generate_key` leaves behind are those of a `Deal`, so `t + 1` of the parties can sign
with them.  A session of honest signers is followed for all coins: it stops in round 3 where a
plaintext has wrapped, in round 4 where the sum of the `delta_i` is zero and in round 10 where the
signature would be zero, and nowhere else.

* `deal_keyFile` : the files of the key generation are those of the deal.
* `session_outcome` : what a session returns, and that it fails otherwise.
* `generated_key_signs` : **a session on generated files completes exactly when its coins allow it,
  and then all signers output one signature that verifies under the key of every file.**
-/

namespace VDexNode.Mpt

open Finset

variable {q : ℕ} {G : Type} [Fact q.Prime] {P : Paillier} {c : Curv q G}

/-! ## The deal of a key generation -/

namespace HonestKeyGen

variable {L : KeyGenLib q G P} (d : HonestKeyGen c L)

/-- What the key generation leaves behind, where its Paillier keys are pairs. -/
def deal (ht : 1 ≤ d.t) (hpaired : ∀ seed, P.Paired (L.keypair seed).1 (L.keypair seed).2) :
    Deal q P where
  n := d.n
  t := d.t
  polys := d.all d.poly
  ek i := (L.keypair (d.coins i).keySeed).1
  dk i := (L.keypair (d.coins i).keySeed).2
  one_le_t := ht
  t_lt_n := d.t_lt_n
  n_lt_q := d.n_lt_q
  length_polys := d.length_all d.poly
  length_coeffs f hf := by
    obtain ⟨i, hi, rfl⟩ := List.mem_map.mp hf
    obtain ⟨h1, hn⟩ := mem_range'_one.mp hi
    exact d.length_poly h1 hn
  paired _ _ _ := hpaired _

variable {ht : 1 ≤ d.t} {hpaired : ∀ seed, P.Paired (L.keypair seed).1 (L.keypair seed).2}

theorem deal_coeff (k : ℕ) :
    (d.deal ht hpaired).coeff k = ∑ j ∈ Icc 1 d.n, (d.poly j).getD k 0 := by
  show ((d.all d.poly).map (·.getD k 0)).sum = _
  rw [all, List.map_map]
  exact sum_map_range' (fun j => (d.poly j).getD k 0) d.n

theorem deal_secretAt_zero : (d.deal ht hpaired).secretAt 0 = d.secret := by
  rw [Deal.secretAt_zero, deal_coeff]
  rfl

theorem deal_secretAt (i : ℕ) : (d.deal ht hpaired).secretAt i = d.xi i := by
  rw [Deal.secretAt, funext d.deal_coeff, xi_eq_evalAt]
  rfl

variable [AddCommGroup G] [Module (ZMod q) G]

/-- **The files** of the key generation are those of the deal. -/
theorem deal_keyFile {i : ℕ} (h1 : 1 ≤ i) (hn : i ≤ d.n) :
    (d.deal ht hpaired).keyFile c i = d.keyFile i := by
  have hpoly : (d.all d.poly).getD (i - 1) [] = d.poly i := by
    rw [List.getD_eq_getElem?_getD, all, getElem?_range'_map d.poly h1 hn, Option.getD_some]
  have hvss : (d.deal ht hpaired).vssSchemeVec c = d.all d.vss := by
    show (d.all d.poly).map (fun f => (⟨(d.t, d.n), f.map (· • c.generator)⟩ : VerifiableSS G)) = _
    rw [all, List.map_map]
    rfl
  have hui : ((d.all d.poly).getD (i - 1) []).getD 0 0 = (d.coins i).ui := by
    rw [hpoly]
    rfl
  unfold Deal.keyFile keyFile
  rw [deal_secretAt_zero, deal_secretAt, hvss]
  show (⟨(⟨((d.all d.poly).getD (i - 1) []).getD 0 0,
    ((d.all d.poly).getD (i - 1) []).getD 0 0 • c.generator, _, _, i⟩ : Keys q G P), _, i, _, _,
      _⟩ : KeyFile q G P) = _
  rw [hui]
  rfl

end HonestKeyGen

/-! ## A session for all coins -/

namespace SigningGroup

variable {d : Deal q P} (g : SigningGroup d) (coins : ℕ → Coins c P) (message : ℕ)

/-- The modulus of a Paillier key is above `q²` and not a multiple of `q`. -/
def Wide (P : Paillier) (q : ℕ) (ek : P.EncryptionKey) : Prop := q * q < P.n ek ∧ ¬ q ∣ P.n ek

/-- Masks are sampled below the modulus of the receiver. -/
def Masked : Prop :=
  ∀ i ∈ Icc 1 (d.t + 1), ∀ j ∈ Icc 1 (d.t + 1), i ≠ j →
    ((coins i).mtaGamma j).betaTag < P.n (d.ek (g.ids j)) ∧
    ((coins i).mtaW j).betaTag < P.n (d.ek (g.ids j))

variable [AddCommGroup G] [Module (ZMod q) G]

/-- The coins with which a session completes. -/
structure Completes : Prop where
  noWrap : g.NoWrap coins
  kSum_ne_zero : kSum d coins ≠ 0
  gammaSum_ne_zero : gammaSum d coins ≠ 0
  sSum_ne_zero : ∀ r, c.rOf (pointR d coins) = .ok r → sSum d coins message r ≠ 0

section Stops

variable {g coins message} {i : ℕ}

/-- **Round 3** passes only where no plaintext of the signer has wrapped. -/
theorem noWrap_of_round3 [DecidableEq G] (hsign : c.LawfulSigning)
    (hwide : ∀ x, 1 ≤ x → x ≤ d.n → Wide P q (d.ek x)) (hmasked : g.Masked coins) (h1 : 1 ≤ i)
    (hn : i ≤ d.t + 1) {w : Locals3 c}
    (h : (g.signer c message coins i).round3 (g.locals2 coins i)
        ((others (d.t + 1) i).map (fun j => ((g.mBGamma coins j i).1, (g.mBW coins j i).1)))
      = .ok w) {j : ℕ} (hj : j ∈ others (d.t + 1) i) :
    (coins i).ki.val * (coins j).gammai.val + ((coins j).mtaGamma i).betaTag
        < P.n (d.ek (g.ids i)) ∧
      (coins i).ki.val * (g.wi j).val + ((coins j).mtaW i).betaTag < P.n (d.ek (g.ids i)) := by
  obtain ⟨⟨hj1, hjn⟩, hne⟩ := mem_others.mp hj
  obtain ⟨hid1, hidn⟩ := g.ids_mem i h1 hn
  obtain ⟨hbig, hdvd⟩ := hwide (g.ids i) hid1 hidn
  have hpair := d.paired (g.ids i) hid1 hidn
  obtain ⟨hgamma, hw⟩ :=
    hmasked j (mem_Icc.mpr ⟨hj1, hjn⟩) i (mem_Icc.mpr ⟨h1, hn⟩) hne
  have hlen : ((others (d.t + 1) i).map
      (fun j => ((g.mBGamma coins j i).1, (g.mBW coins j i).1))).length = d.t := by
    rw [List.length_map]
    exact Nat.succ.inj (length_others h1 hn)
  obtain ⟨recVec, hread, h⟩ := bind_eq_ok.mp h
  have hrec : (List.range d.t).mapM (index ((others (d.t + 1) i).map
      (fun j => ((g.mBGamma coins j i).1, (g.mBW coins j i).1)))) = .ok recVec := hread
  rw [mapM_index_self hlen] at hrec
  cases hrec
  simp only [List.map_map, Function.comp_def] at h
  obtain ⟨⟨alphaVec, miuVec⟩, hloop, -⟩ := bind_eq_ok.mp h
  obtain ⟨k, acc, b, hk, hturn⟩ := exists_ok_of_forOthers hloop hj
  have hk : (others (d.t + 1) i)[k]? = some j := hk
  simp only [index_map hk, ok_bind, bind_eq_ok, expect_eq_ok] at hturn
  obtain ⟨alpha, halpha, miu, hmiu, -⟩ := hturn
  constructor
  · by_contra hwrap
    have hfail := verifyProofsGetAlpha_b_wrapped hsign hpair (coins i).ki (coins j).gammai
      (coins i).encryption ((coins j).mtaGamma i) hbig hdvd hgamma (Nat.le_of_not_lt hwrap)
    cases hfail.symm.trans halpha
  · by_contra hwrap
    have hfail := verifyProofsGetAlpha_b_wrapped hsign hpair (coins i).ki (g.wi j)
      (coins i).encryption ((coins j).mtaW i) hbig hdvd hw (Nat.le_of_not_lt hwrap)
    cases hfail.symm.trans hmiu

theorem ne_zero_of_invert_ok {x y : ZMod q} (h : invert x = .ok y) : x ≠ 0 := by
  rintro rfl
  rw [invert, if_pos rfl] at h
  cases h

/-- **Round 4** passes only where the sum of the `delta_i` can be inverted. -/
theorem ne_zero_of_round4 (h1 : 1 ≤ i) (hn : i ≤ d.t + 1) {w : Locals4 c}
    (h : (g.signer c message coins i).round4 (g.locals3 coins i)
      ((others (d.t + 1) i).map (deltai d coins)) = .ok w) :
    kSum d coins ≠ 0 ∧ gammaSum d coins ≠ 0 := by
  have hread : formatVecFromReads ((others (d.t + 1) i).map (deltai d coins)) i (deltai d coins i)
      = .ok ((List.range' 1 (d.t + 1)).map (deltai d coins)) := formatVecFromReads_others h1 hn _
  obtain ⟨deltaVec, hvec, h⟩ := bind_eq_ok.mp h
  have hvec : formatVecFromReads ((others (d.t + 1) i).map (deltai d coins)) i (deltai d coins i)
      = .ok deltaVec := hvec
  rw [hread] at hvec
  cases hvec
  obtain ⟨deltaInv, hinv, -⟩ := bind_eq_ok.mp h
  rw [phase3ReconstructDelta, foldl_add_eq_sum, zero_add, sum_deltai] at hinv
  exact mul_ne_zero_iff.mp (ne_zero_of_invert_ok hinv)

/-- **Round 10** passes only for a signature that is not zero. -/
theorem ne_zero_of_round10 {r : ZMod q} (h1 : 1 ≤ i) (hn : i ≤ d.t + 1) {sig : Signature q}
    (h : (g.signer c message coins i).round10 (g.locals9 coins message r i)
        ((others (d.t + 1) i).map (fun j => (g.locals9 coins message r j).si)) = .ok sig) :
    sSum d coins message r ≠ 0 := by
  have hread : formatVecFromReads ((others (d.t + 1) i).map
      (fun j => (g.locals9 coins message r j).si)) i (g.locals9 coins message r i).si
      = .ok ((List.range' 1 (d.t + 1)).map (g.si coins message r)) :=
    formatVecFromReads_others h1 hn (g.si coins message r)
  have hsum : ((others (d.t + 1) i).map (g.si coins message r)).foldl (· + ·)
      (g.locals9 coins message r i).localSig.si = sSum d coins message r := by
    rw [foldl_add_eq_sum, ← g.sum_si]
    exact add_sum_map_others (g.si coins message r) h1 hn
  dsimp only [Signer.round10, signer] at h
  rw [hread, ok_bind, pred_eq_ok h1, ok_bind, remove_own h1 hn, ok_bind] at h
  dsimp only at h
  rw [expect_eq_ok] at h
  simp only [LocalSignature.outputSignature, hsum] at h
  obtain ⟨r', -, h⟩ := bind_eq_ok.mp h
  obtain ⟨b, hver, -⟩ := bind_eq_ok.mp h
  rintro hzero
  rw [hzero, verify, invert, if_pos rfl] at hver
  cases hver

end Stops

/-- **The session**: where the coins allow it, every signer outputs the same signature; otherwise
the session fails. -/
theorem session_outcome [DecidableEq G] (hshare : c.LawfulSharing) (hsign : c.LawfulSigning)
    (hwide : ∀ x, 1 ≤ x → x ≤ d.n → Wide P q (d.ek x)) (hmasked : g.Masked coins) :
    Outcome (session ((List.range' 1 (d.t + 1)).map (g.signer c message coins)))
      (fun out => g.Completes coins message ∧ ∃ r, c.rOf (pointR d coins) = .ok r ∧
        out = List.replicate (d.t + 1) ⟨pointR d coins, ⟨r, sSum d coins message r⟩⟩)
      (fun _ => ¬ g.Completes coins message) := by
  have hnum : ∀ i, (g.signer c message coins i).partyNumInt = i := fun _ => rfl
  have hthreshold : ∀ i, (g.signer c message coins i).threshold + 1 = d.t + 1 := fun _ => rfl
  have hone : 1 ≤ d.t + 1 := Nat.succ_pos d.t
  rw [session, List.map_map]
  simp only [Function.comp_def]
  refine Outcome.bind_eq (.of_eq_ok (broadcastRound_eq_ok hnum hthreshold (w := g.locals1 coins)
    (fun i h1 hn => g.round1_honest coins hshare hsign h1 hn))) ?_
  refine Outcome.bind_eq (.of_eq_ok (broadcastRound_eq_ok hnum hthreshold (w := g.locals2 coins)
    (fun i _ _ => g.round2_honest coins))) ?_
  by_cases hwrap : g.NoWrap coins
  swap
  · refine Outcome.bind_of_ne_ok (fun r hr => hwrap ?_) (fun _ h => hwrap h.noWrap)
    intro i hi j hj hne
    obtain ⟨hi1, hin⟩ := mem_Icc.mp hi
    obtain ⟨hj1, hjn⟩ := mem_Icc.mp hj
    obtain ⟨w, hw⟩ := exists_ok_of_p2pRound hnum hthreshold (fun i _ _ => rfl) hr hj1 hjn
    exact noWrap_of_round3 hsign hwide hmasked hj1 hjn hw (mem_others.mpr ⟨⟨hi1, hin⟩, hne⟩)
  refine Outcome.bind_eq (.of_eq_ok (p2pRound_eq_ok hnum hthreshold (w := g.locals3 coins)
    (fun i _ _ => rfl) (fun i h1 hn => g.round3_honest coins hsign hwrap h1 hn))) ?_
  by_cases hsums : kSum d coins ≠ 0 ∧ gammaSum d coins ≠ 0
  swap
  · refine Outcome.bind_of_ne_ok (fun r hr => hsums ?_)
      (fun _ h => hsums ⟨h.kSum_ne_zero, h.gammaSum_ne_zero⟩)
    obtain ⟨w, hw⟩ := exists_ok_of_broadcastRound hnum hthreshold hr (le_refl 1) hone
    exact ne_zero_of_round4 (le_refl 1) hone hw
  obtain ⟨hk, hgamma⟩ := hsums
  have hR : pointR d coins ≠ 0 := smul_ne_zero (inv_ne_zero hk) hsign.generator_ne_zero
  obtain ⟨x, hx⟩ := Option.isSome_iff_exists.mp (hsign.xCoor_isSome _ hR)
  have hr : c.rOf (pointR d coins) = .ok (scalarFrom (x % q)) := by
    rw [Curv.rOf, hx]
    rfl
  generalize (scalarFrom (x % q) : ZMod q) = r at hr
  refine Outcome.bind_eq (.of_eq_ok (broadcastRound_eq_ok hnum hthreshold (w := g.locals4 coins)
    (fun i h1 hn => g.round4_honest coins hk hgamma h1 hn))) ?_
  refine Outcome.bind_eq (.of_eq_ok (broadcastRound_eq_ok hnum hthreshold
    (w := g.locals5 coins message r)
    (fun i h1 hn => g.round5_honest coins hsign hgamma hr h1 hn))) ?_
  refine Outcome.bind_eq (.of_eq_ok (broadcastRound_eq_ok hnum hthreshold
    (w := g.locals6 coins message r) (fun i h1 hn => g.round6_honest coins h1 hn))) ?_
  refine Outcome.bind_eq (.of_eq_ok (broadcastRound_eq_ok hnum hthreshold
    (w := g.locals7 coins message r) (fun i h1 hn => g.round7_honest coins hsign hr h1 hn))) ?_
  refine Outcome.bind_eq (.of_eq_ok (broadcastRound_eq_ok hnum hthreshold
    (w := g.locals8 coins message r) (fun i h1 hn => g.round8_honest coins h1 hn))) ?_
  refine Outcome.bind_eq (.of_eq_ok (broadcastRound_eq_ok hnum hthreshold
    (w := g.locals9 coins message r) (fun i h1 hn => g.round9_honest coins hk h1 hn))) ?_
  by_cases hs : sSum d coins message r ≠ 0
  swap
  · refine Outcome.bind_of_ne_ok (fun out hout => hs ?_) (fun _ h => hs (h.sSum_ne_zero r hr))
    obtain ⟨w, hw⟩ := exists_ok_of_broadcastRound hnum hthreshold hout (le_refl 1) hone
    obtain ⟨sig, hsig, -⟩ := bind_eq_ok.mp hw
    exact ne_zero_of_round10 (le_refl 1) hone hsig
  refine Outcome.bind_eq (.of_eq_ok (broadcastRound_eq_ok hnum hthreshold
    (w := fun _ => ⟨pointR d coins, ⟨r, sSum d coins message r⟩⟩) (fun i h1 hn => ?_)))
    (outcome_ok ⟨⟨hwrap, hk, hgamma, fun r' hr' => ?_⟩, r, hr, ?_⟩)
  · rw [g.round10_honest coins hr hk hs h1 hn, ok_bind]
    rfl
  · cases hr.symm.trans hr'
    exact hs
  · rw [List.map_map]
    simp only [Function.comp_def, List.map_const', List.length_range']

end SigningGroup

/-! ## From key generation to signature -/

/-- **Generated keys sign.**  Any `t + 1` parties of a key generation that has completed, in any
signup order, sign any message with their files: the session completes exactly when the coins allow
it, and then all output one signature, which verifies under the key in the file of every party. -/
theorem generated_key_signs [AddCommGroup G] [Module (ZMod q) G] [DecidableEq G]
    {L : KeyGenLib q G P} (hshare : c.LawfulSharing) (hsign : c.LawfulSigning) (hL : L.Lawful c)
    (hpaired : ∀ seed, P.Paired (L.keypair seed).1 (L.keypair seed).2)
    (d : HonestKeyGen c L) (ht : 1 ≤ d.t)
    (hwide : ∀ i, 1 ≤ i → i ≤ d.n → SigningGroup.Wide P q (L.keypair (d.coins i).keySeed).1)
    {files : List (KeyFile q G P)} {tr : Transcript c L}
    (hrun : generateKey (d.all d.party) = .ok (files, tr))
    (g : SigningGroup (d.deal ht hpaired)) (file : ℕ → KeyFile q G P)
    (hfile : ∀ i, 1 ≤ i → i ≤ d.t + 1 → files[g.ids i - 1]? = some (file i))
    (coins : ℕ → Coins c P) (hmasked : g.Masked coins) (message : ℕ) :
    let signers := (List.range' 1 (d.t + 1)).map
      (fun i => (⟨file i, d.t, i, message, coins i⟩ : Signer c P))
    ((∃ out, session signers = .ok out) ↔ g.Completes coins message) ∧
      ∀ out, session signers = .ok out → ∃ o : Output q G, out = List.replicate (d.t + 1) o ∧
        ∀ f ∈ files, verify c o.signature f.ySum (message % 2 ^ 256) = .ok () := by
  intro signers
  obtain ⟨rfl, -⟩ := Prod.mk.inj
    ((d.generateKey_outcome hshare hL hsign.verifyDLog_prove).1 _ hrun)
  have hsigners : signers = (List.range' 1 (d.t + 1)).map (g.signer c message coins) := by
    refine List.map_congr_left (fun i hi => ?_)
    obtain ⟨h1, hn⟩ := mem_range'_one.mp hi
    obtain ⟨hid1, hidn⟩ := g.ids_mem i h1 hn
    have hentry : (d.all d.keyFile)[g.ids i - 1]? = some (d.keyFile (g.ids i)) :=
      getElem?_range'_map d.keyFile hid1 hidn
    have hkey : (d.deal ht hpaired).keyFile c (g.ids i) = d.keyFile (g.ids i) :=
      d.deal_keyFile hid1 hidn
    rw [← Option.some.inj (hentry.symm.trans (hfile i h1 hn)), ← hkey]
    rfl
  have hout := g.session_outcome coins message hshare hsign hwide hmasked
  have hsame : session ((List.range' 1 ((d.deal ht hpaired).t + 1)).map
      (g.signer c message coins)) = session signers := congrArg session hsigners.symm
  rw [hsame] at hout
  refine ⟨⟨?_, fun hcompletes => ?_⟩, fun out hok => ?_⟩
  · rintro ⟨out, hok⟩
    exact (hout.1 out hok).1
  · cases h : session signers with
    | ok out => exact ⟨out, rfl⟩
    | error e => exact absurd hcompletes (hout.2 e h)
  · obtain ⟨hcompletes, r, hr, rfl⟩ := hout.1 out hok
    refine ⟨_, rfl, fun f hf => ?_⟩
    obtain ⟨i, -, rfl⟩ := List.mem_map.mp hf
    have hkey : SigningGroup.sSum (d.deal ht hpaired) coins message r •
        SigningGroup.pointR (d.deal ht hpaired) coins =
          (scalarFrom (message % 2 ^ 256) : ZMod q) • c.generator +
            r • (d.deal ht hpaired).secretAt 0 • c.generator :=
      SigningGroup.sSum_smul_pointR coins hcompletes.kSum_ne_zero
    rw [d.deal_secretAt_zero] at hkey
    exact verify_ok (hcompletes.sSum_ne_zero r hr) hr hkey

/-! ### Two of three parties -/

theorem wideCurv_lawfulSigning (q : ℕ) [Fact q.Prime] : (wideCurv q).LawfulSigning where
  generator_ne_zero := one_ne_zero
  xCoor_isSome R hR := by simp [wideCurv, hR]
  mapShareToNewParams_eq := (additiveCurv_lawfulSigning q).mapShareToNewParams_eq
  pk_proveDLog := (additiveCurv_lawfulSigning q).pk_proveDLog
  verifyDLog_prove := (additiveCurv_lawfulSigning q).verifyDLog_prove
  verifyHomoElGamal_prove := (additiveCurv_lawfulSigning q).verifyHomoElGamal_prove

/-- Three parties with threshold one; the secret of party `i` is `i`, its modulus `1000`. -/
def threeParties : HonestKeyGen (wideCurv 7) (padLib 7) where
  n := 3
  t := 1
  coins i := ⟨(i : ZMod 7), (1000 : ℕ), i, [((i + 1 : ℕ) : ZMod 7)], i⟩
  two_le_n := by decide
  t_lt_n := by decide
  n_lt_q := by decide
  length_coeffs _ _ _ := rfl

theorem padLib_paired (seed : (padLib 7).KeySeed) :
    clearPaillier.Paired ((padLib 7).keypair seed).1 ((padLib 7).keypair seed).2 :=
  clearPaillier_paired seed

/-- Parties 3 and 1 sign up in this order. -/
def twoSigners : SigningGroup (threeParties.deal (le_refl 1) padLib_paired) where
  ids i := if i = 1 then 3 else 1
  ids_mem i _ _ := by
    show 1 ≤ (if i = 1 then 3 else 1) ∧ (if i = 1 then 3 else 1) ≤ 3
    split_ifs <;> decide
  ids_inj i hi j hj hij := by
    have hi : 1 ≤ i ∧ i ≤ 2 := mem_Icc.mp (mem_coe.mp hi)
    have hj : 1 ≤ j ∧ j ≤ 2 := mem_Icc.mp (mem_coe.mp hj)
    simp only at hij
    split_ifs at hij <;> omega

def twoCoins (i : ℕ) : Coins (wideCurv 7) clearPaillier where
  gammai := ((i + 1 : ℕ) : ZMod 7)
  ki := ((2 * i : ℕ) : ZMod 7)
  blindFactor1 := i
  encryption := (0 : ℕ)
  mtaGamma j := ⟨17 * j + 3, (0 : ℕ), (0 : ℕ), (0 : ℕ)⟩
  mtaW j := ⟨5 * j + i, (0 : ℕ), (0 : ℕ), (0 : ℕ)⟩
  li := ((i + 3 : ℕ) : ZMod 7)
  rhoi := ((3 * i : ℕ) : ZMod 7)
  blindFactor5a := 9
  nonce5b := (0 : ℕ)
  blindFactor5c := 4

theorem threeParties_run :
    generateKey (threeParties.all threeParties.party)
      = .ok (threeParties.all threeParties.keyFile, threeParties.transcript) := by
  refine (threeParties.generateKey_outcome (wideCurv_lawfulSharing 7) (padLib_lawful 7)
    (fun _ _ => rfl)).eq_ok ?_
  rintro f ⟨-, i, j, hi, hj, hne, hnot⟩
  apply hnot
  have hvalue : ∃ x < 7, (wideCurv 7).xCoor (threeParties.yi i + threeParties.yi j)
      = some (2 ^ 255 + x) := by
    have hi : 1 ≤ i ∧ i ≤ 3 := hi
    have hj : 1 ≤ j ∧ j ≤ 3 := hj
    obtain h | h | h : i + j = 3 ∨ i + j = 4 ∨ i + j = 5 := by omega
    all_goals
      have hsum : threeParties.yi i + threeParties.yi j = ((i + j : ℕ) : ZMod 7) := by
        show (i : ZMod 7) • (1 : ZMod 7) + (j : ZMod 7) • (1 : ZMod 7) = _
        rw [smul_eq_mul, smul_eq_mul, mul_one, mul_one, Nat.cast_add]
      refine ⟨i + j, by omega, ?_⟩
      rw [hsum, h]
      rfl
  obtain ⟨x, hx, hcoor⟩ := hvalue
  have hlen : (bytesOf (2 ^ 255 + x)).length = 32 :=
    length_bytesOf (k := 31) (by norm_num; omega) (by norm_num; omega)
  refine ⟨2 ^ 255 + x, hcoor, ?_⟩
  show (if (bytesOf (2 ^ 255 + x)).length = 32 then some (bytesOf (2 ^ 255 + x)) else none).isSome
    = true
  rw [if_pos hlen]
  rfl

theorem twoSigners_completes : twoSigners.Completes twoCoins 5 := by
  have hr : (wideCurv 7).rOf (SigningGroup.pointR (threeParties.deal (le_refl 1) padLib_paired)
      twoCoins) = .ok ((scalarFrom ((2 ^ 255 + 6) % 7) : ZMod 7)) := by decide +kernel
  refine ⟨?_, by decide +kernel, by decide +kernel, fun r hr' => ?_⟩
  · unfold SigningGroup.NoWrap
    decide +kernel
  · cases hr.symm.trans hr'
    decide +kernel

theorem twoSigners_masked : twoSigners.Masked twoCoins := by
  unfold SigningGroup.Masked
  decide +kernel

theorem threeParties_wide (i : ℕ) :
    SigningGroup.Wide clearPaillier 7 ((padLib 7).keypair (threeParties.coins i).keySeed).1 := by
  show 7 * 7 < 1000 ∧ ¬ 7 ∣ 1000
  decide

/-- Two of the three parties sign with the files of the key generation. -/
theorem generated_key_signs_two : ∃ out, session ((List.range' 1 2).map (fun i =>
    (⟨threeParties.keyFile (twoSigners.ids i), 1, i, 5, twoCoins i⟩ :
      Signer (wideCurv 7) clearPaillier))) = .ok out := by
  refine (generated_key_signs (wideCurv_lawfulSharing 7) (wideCurv_lawfulSigning 7)
    (padLib_lawful 7) padLib_paired threeParties (le_refl 1) (fun i _ _ => threeParties_wide i)
    threeParties_run twoSigners (fun i => threeParties.keyFile (twoSigners.ids i))
    (fun i h1 hn => ?_) twoCoins twoSigners_masked 5).1.mpr twoSigners_completes
  obtain ⟨hid1, hidn⟩ := twoSigners.ids_mem i h1 hn
  exact getElem?_range'_map threeParties.keyFile hid1 hidn

end VDexNode.Mpt
