import VDexNode.Mpt.Phases
import VDexNode.Mpt.Session
import VDexNode.Mpt.Reconstruct

/-!
# VDexNode.Mpt.Balance — what the check before the reveal accepts

`Phase5` is what the signers `1, …, t + 1` bring into phase 5: the point `R`, the message and the
key they agree on, and scalars `l_i`, `ρ_i` and `s_i` of each, which may be wrong.  Everything they
publish from there on is computed by the phases, and their vectors are those of `main`: with the own
entry in `phase5d`, without it in `phase5c`.

* `phase5c_eq`, `phase5d_eq` : what the phases return at a signer.
* `round7_eq`, `round9_eq` : the pieces of `main` around them.
* `phase5_accepts_iff` : **the check passes exactly when `ρ (s R - m g - r y) = 0`** for the sums
  `ρ` and `s`, and otherwise `main` ends before the `s_i` are posted.
-/

namespace VDexNode.Mpt

open Finset

variable {q : ℕ} {G : Type}

/-- What the signers `1, …, t + 1` bring into phase 5. -/
structure Phase5 (c : Curv q G) where
  t : ℕ
  R : G
  m : ℕ
  y : G
  l : ℕ → ZMod q
  rho : ℕ → ZMod q
  s : ℕ → ZMod q
  blindFactor5a : ℕ → ℕ
  nonce5b : ℕ → c.Nonce
  blindFactor5c : ℕ → ℕ

namespace Phase5

variable {c : Curv q G} (d : Phase5 c)

def localSig (i : ℕ) : LocalSignature q G :=
  { li := d.l i, rhoi := d.rho i, R := d.R, si := d.s i, m := d.m, y := d.y }

variable [Fact q.Prime] [AddCommGroup G] [Module (ZMod q) G] (r : ZMod q)

/-- What signer `i` publishes in phases 5A and 5B. -/
def phase5a (i : ℕ) : Phase5Com1 × Phase5ADecom1 G × c.HomoElGamalProof :=
  (d.localSig i).phase5aBroadcast5bZkproof c (d.blindFactor5a i) (d.nonce5b i)

/-- The two points signer `i` commits to in phase 5C. -/
def decom2 (i : ℕ) : Phase5DDecom2 G where
  ui := d.rho i • ((d.phase5a i).2.1.Vi
    + ((others (d.t + 1) i).map (fun j => (d.phase5a j).2.1.Vi)).sum
    - (scalarFrom d.m : ZMod q) • c.generator - r • d.y)
  ti := d.l i • ((others (d.t + 1) i).map (fun j => (d.phase5a j).2.1.Ai)).sum
  blindFactor := d.blindFactor5c i

def com2 (i : ℕ) : Phase5Com2 :=
  ⟨c.createCommitment (c.createHashFromGe [(d.decom2 r i).ui, (d.decom2 r i).ti])
    (d.blindFactor5c i)⟩

/-- By how much the sums are off: `ρ (s R - m g - r y)`. -/
def imbalance : G :=
  (∑ i ∈ Icc 1 (d.t + 1), d.rho i) •
    ((∑ i ∈ Icc 1 (d.t + 1), d.s i) • d.R - (scalarFrom d.m : ZMod q) • c.generator - r • d.y)

/-! ## The phases -/

section Phases

variable {d r} [DecidableEq G] {i : ℕ}

omit [DecidableEq G] in
/-- The commitments of phase 5A open and the proofs are of true statements. -/
theorem phase5c_eq (hsign : c.LawfulSigning) (hr : c.rOf d.R = .ok r) (ht : 1 ≤ d.t) (h1 : 1 ≤ i)
    (hn : i ≤ d.t + 1) :
    (d.localSig i).phase5c c ((others (d.t + 1) i).map (fun j => (d.phase5a j).2.1))
        ((others (d.t + 1) i).map (fun j => (d.phase5a j).1))
        ((others (d.t + 1) i).map (fun j => (d.phase5a j).2.2)) (d.phase5a i).2.1.Vi d.R
        (d.blindFactor5c i)
      = .ok (d.com2 r i, d.decom2 r i) := by
  rw [LocalSignature.phase5c_map (others_ne_nil (Nat.succ_le_succ ht) h1 hn) (r := r) hr]
  · rfl
  · refine fun j _ => ⟨rfl, hsign.verifyHomoElGamal_prove _ _ _ rfl ?_⟩
    show (d.l j * d.rho j) • c.generator = d.l j • d.rho j • c.generator
    rw [mul_smul]

/-- The last check, on the vectors with the own entries. -/
theorem phase5d_eq :
    (d.localSig i).phase5d c ((List.range' 1 (d.t + 1)).map (d.decom2 r))
        ((List.range' 1 (d.t + 1)).map (d.com2 r))
        ((List.range' 1 (d.t + 1)).map (fun j => (d.phase5a j).2.1))
      = if d.imbalance r = 0 then .ok (d.s i) else .error (.err .invalidKey) := by
  have hcoms : ∀ j ∈ List.range' 1 (d.t + 1), c.createCommitment
      (c.createHashFromGe [(d.decom2 r j).ui, (d.decom2 r j).ti]) (d.decom2 r j).blindFactor
        = (d.com2 r j).com := fun _ _ => rfl
  rw [LocalSignature.phase5d_map hcoms]
  refine if_congr ?_ rfl rfl
  rw [sum_map_range', sum_map_range']
  exact phase5_balance_iff d.s d.l d.rho d.R c.generator _ _ (d.t + 1)

end Phases

/-- The sums balance exactly when the signature equation holds, or the `ρ_i` sum to zero. -/
theorem imbalance_eq_zero_iff (hrho : ∑ i ∈ Icc 1 (d.t + 1), d.rho i ≠ 0) :
    d.imbalance r = 0 ↔
      (∑ i ∈ Icc 1 (d.t + 1), d.s i) • d.R
        = (scalarFrom d.m : ZMod q) • c.generator + r • d.y := by
  rw [imbalance, smul_eq_zero, or_iff_right hrho, sub_sub, sub_eq_zero]

/-! ## The rounds of `main` -/

def locals5 (i : ℕ) : Locals5 c where
  R := d.R
  localSig := d.localSig i
  phase5Com := (d.phase5a i).1
  phase5aDecom := (d.phase5a i).2.1
  helgamalProof := (d.phase5a i).2.2

def locals6 (i : ℕ) : Locals6 c :=
  { d.locals5 i with commit5aVec := (List.range' 1 (d.t + 1)).map (fun j => (d.phase5a j).1) }

def locals7 (i : ℕ) : Locals7 c :=
  { d.locals5 i with
    decommit5aAndElgamalVecIncludesI :=
      (List.range' 1 (d.t + 1)).map (fun j => (d.phase5a j).2)
    phase5Com2 := d.com2 r i
    phase5dDecom2 := d.decom2 r i }

def locals8 (i : ℕ) : Locals8 c :=
  { d.locals7 r i with commit5cVec := (List.range' 1 (d.t + 1)).map (d.com2 r) }

def locals9 (i : ℕ) : Locals9 c :=
  { d.locals8 r i with si := d.s i }

section Rounds

variable {d r} [DecidableEq G] {P : Paillier} {p : Signer c P} {i : ℕ} (hnum : p.partyNumInt = i)
  (h1 : 1 ≤ i) (hn : i ≤ d.t + 1)

include hnum h1 hn

omit [DecidableEq G] in
theorem round6_eq :
    p.round6 (d.locals5 i) ((others (d.t + 1) i).map (fun j => (d.locals5 j).phase5Com))
      = .ok (d.locals6 i) := by
  have hread := formatVecFromReads_others h1 hn (fun j => (d.locals5 j).phase5Com)
  rw [Signer.round6, hnum, hread]
  rfl

omit [DecidableEq G] in
/-- `phase5c` gets the entries of the others. -/
theorem round7_eq (hsign : c.LawfulSigning) (hr : c.rOf d.R = .ok r) (ht : 1 ≤ d.t)
    (hthreshold : p.threshold = d.t) (hblind : p.coins.blindFactor5c = d.blindFactor5c i) :
    p.round7 (d.locals6 i) ((others (d.t + 1) i).map (fun j =>
        ((d.locals5 j).phase5aDecom, (d.locals5 j).helgamalProof)))
      = .ok (d.locals7 r i) := by
  have hlen : ((others (d.t + 1) i).map (fun j => (d.phase5a j).2)).length = d.t := by
    rw [List.length_map]
    exact Nat.succ.inj (length_others h1 hn)
  have hread : formatVecFromReads ((others (d.t + 1) i).map (fun j =>
      ((d.locals5 j).phase5aDecom, (d.locals5 j).helgamalProof))) i
      ((d.locals6 i).phase5aDecom, (d.locals6 i).helgamalProof)
      = .ok ((List.range' 1 (d.t + 1)).map (fun j => (d.phase5a j).2)) :=
    formatVecFromReads_others h1 hn (fun j => (d.phase5a j).2)
  have hcom : (d.locals6 i).commit5aVec
      = (List.range' 1 (d.t + 1)).map (fun j => (d.phase5a j).1) := rfl
  have hsig : (d.locals6 i).localSig = d.localSig i := rfl
  have hVi : (d.locals6 i).phase5aDecom.Vi = (d.phase5a i).2.1.Vi := rfl
  have hR : (d.locals6 i).R = d.R := rfl
  rw [Signer.round7, hnum, hthreshold, hblind]
  rw [hread, ok_bind, pred_eq_ok h1, ok_bind, remove_own h1 hn, ok_bind]
  dsimp only
  rw [hcom, remove_own h1 hn, ok_bind]
  dsimp only
  rw [mapM_index hlen (fun x => x.1), ok_bind, mapM_index hlen (fun x => x.2), ok_bind,
    List.map_map, List.map_map, hsig, hVi, hR]
  simp only [Function.comp_def]
  rw [phase5c_eq hsign hr ht h1 hn]
  rfl

omit [DecidableEq G] in
theorem round8_eq :
    p.round8 (d.locals7 r i) ((others (d.t + 1) i).map (fun j => (d.locals7 r j).phase5Com2))
      = .ok (d.locals8 r i) := by
  have hread := formatVecFromReads_others h1 hn (fun j => (d.locals7 r j).phase5Com2)
  rw [Signer.round8, hnum, hread]
  rfl

/-- `phase5d` gets the entries of all; where it fails, so does the piece. -/
theorem round9_eq (hthreshold : p.threshold = d.t) :
    p.round9 (d.locals8 r i) ((others (d.t + 1) i).map (fun j => (d.locals8 r j).phase5dDecom2))
      = if d.imbalance r = 0 then .ok (d.locals9 r i)
        else .error (.panicked "bad com 5d") := by
  have hread : formatVecFromReads ((others (d.t + 1) i).map
      (fun j => (d.locals8 r j).phase5dDecom2)) i (d.locals8 r i).phase5dDecom2
      = .ok ((List.range' 1 (d.t + 1)).map (d.decom2 r)) :=
    formatVecFromReads_others h1 hn (d.decom2 r)
  have hsig : (d.locals8 r i).localSig = d.localSig i := rfl
  have hcom : (d.locals8 r i).commit5cVec = (List.range' 1 (d.t + 1)).map (d.com2 r) := rfl
  have hvec : (d.locals8 r i).decommit5aAndElgamalVecIncludesI
      = (List.range' 1 (d.t + 1)).map (fun j => (d.phase5a j).2) := rfl
  have hlen : ((List.range' 1 (d.t + 1)).map (fun j => (d.phase5a j).2)).length = d.t + 1 := by
    rw [List.length_map, List.length_range']
  rw [Signer.round9, hnum, hthreshold]
  rw [hread, ok_bind, hvec, mapM_index hlen (fun x => x.1), ok_bind, List.map_map, hsig, hcom]
  simp only [Function.comp_def]
  rw [phase5d_eq]
  by_cases hzero : d.imbalance r = 0
  · rw [if_pos hzero, if_pos hzero]
    rfl
  · rw [if_neg hzero, if_neg hzero]
    rfl

end Rounds

/-! ## The check -/

section Check

variable [DecidableEq G] {P : Paillier}

/-- The piece of `session` from the commitments of phase 5A to the check; the `s_i` are posted in
the round after it. -/
def checkRounds (parties : List (Signer c P × Locals5 c)) :
    Result (List (Signer c P × Locals9 c)) := do
  let parties ← broadcastRound (fun _ v => v.phase5Com) Signer.round6 parties
  let parties ← broadcastRound (fun _ v => (v.phase5aDecom, v.helgamalProof)) Signer.round7 parties
  let parties ← broadcastRound (fun _ v => v.phase5Com2) Signer.round8 parties
  broadcastRound (fun _ v => v.phase5dDecom2) Signer.round9 parties

/-- The program of signer `i` is run with its number, the threshold and its blinding. -/
structure RunBy (signer : ℕ → Signer c P) : Prop where
  partyNumInt : ∀ i, (signer i).partyNumInt = i
  threshold : ∀ i, (signer i).threshold = d.t
  blindFactor5c : ∀ i, (signer i).coins.blindFactor5c = d.blindFactor5c i

variable {d r}

/-- **The rounds of the check** end exactly when the sums balance. -/
theorem checkRounds_iff (hsign : c.LawfulSigning) (hr : c.rOf d.R = .ok r) (ht : 1 ≤ d.t)
    {signer : ℕ → Signer c P} (hrun : d.RunBy signer) :
    (∃ parties, checkRounds ((List.range' 1 (d.t + 1)).map (fun i => (signer i, d.locals5 i)))
      = .ok parties) ↔ d.imbalance r = 0 := by
  have hthreshold : ∀ i, (signer i).threshold + 1 = d.t + 1 := fun i =>
    congrArg (· + 1) (hrun.threshold i)
  rw [checkRounds, broadcastRound_eq_ok hrun.partyNumInt hthreshold (w := d.locals6)
      (fun i h1 hn => round6_eq (hrun.partyNumInt i) h1 hn), ok_bind,
    broadcastRound_eq_ok hrun.partyNumInt hthreshold (w := d.locals7 r)
      (fun i h1 hn => round7_eq (hrun.partyNumInt i) h1 hn hsign hr ht (hrun.threshold i)
        (hrun.blindFactor5c i)), ok_bind,
    broadcastRound_eq_ok hrun.partyNumInt hthreshold (w := d.locals8 r)
      (fun i h1 hn => round8_eq (hrun.partyNumInt i) h1 hn), ok_bind]
  constructor
  · rintro ⟨parties, hok⟩
    -- already the first signer's piece tells
    obtain ⟨w, hnext⟩ := exists_ok_of_broadcastRound hrun.partyNumInt hthreshold hok (le_refl 1)
      (Nat.le_add_left 1 d.t)
    rw [round9_eq (hrun.partyNumInt 1) (le_refl 1) (Nat.le_add_left 1 d.t)
      (hrun.threshold 1)] at hnext
    by_contra hne
    rw [if_neg hne] at hnext
    cases hnext
  · intro hzero
    refine ⟨_, broadcastRound_eq_ok hrun.partyNumInt hthreshold (w := d.locals9 r)
      (fun i h1 hn => ?_)⟩
    rw [round9_eq (hrun.partyNumInt i) h1 hn (hrun.threshold i), if_pos hzero]

variable (d) in
/-- **The check accepts exactly the right sums**: with what the phases publish for any scalars
`l_i`, `ρ_i` and `s_i`, `phase5d` returns at a signer exactly when `ρ (s R - m g - r y) = 0`, and
for `ρ ≠ 0` exactly when `s R = m g + r y`; and so do the rounds of `main` that end before the `s_i`
are posted. -/
theorem phase5_accepts_iff (hsign : c.LawfulSigning) (ht : 1 ≤ d.t) (hr : c.rOf d.R = .ok r) :
    ∃ phase5Com2 : ℕ → Phase5Com2 × Phase5DDecom2 G,
      (∀ i, 1 ≤ i → i ≤ d.t + 1 →
        (d.localSig i).phase5c c ((others (d.t + 1) i).map (fun j => (d.phase5a j).2.1))
          ((others (d.t + 1) i).map (fun j => (d.phase5a j).1))
          ((others (d.t + 1) i).map (fun j => (d.phase5a j).2.2)) (d.phase5a i).2.1.Vi d.R
          (d.blindFactor5c i) = .ok (phase5Com2 i)) ∧
      (∀ i, 1 ≤ i → i ≤ d.t + 1 →
        let checked := (d.localSig i).phase5d c
          ((List.range' 1 (d.t + 1)).map (fun j => (phase5Com2 j).2))
          ((List.range' 1 (d.t + 1)).map (fun j => (phase5Com2 j).1))
          ((List.range' 1 (d.t + 1)).map (fun j => (d.phase5a j).2.1))
        ((∃ si, checked = .ok si) ↔ d.imbalance r = 0) ∧
        (∑ j ∈ Icc 1 (d.t + 1), d.rho j ≠ 0 → ((∃ si, checked = .ok si) ↔
          (∑ j ∈ Icc 1 (d.t + 1), d.s j) • d.R
            = (scalarFrom d.m : ZMod q) • c.generator + r • d.y))) ∧
      ∀ signer : ℕ → Signer c P, d.RunBy signer →
        ((∃ parties, checkRounds
          ((List.range' 1 (d.t + 1)).map (fun i => (signer i, d.locals5 i))) = .ok parties) ↔
            d.imbalance r = 0) := by
  refine ⟨fun i => (d.com2 r i, d.decom2 r i), fun i h1 hn => phase5c_eq hsign hr ht h1 hn,
    fun i h1 hn => ?_, fun signer hrun => checkRounds_iff hsign hr ht hrun⟩
  intro checked
  have hchecked : checked = if d.imbalance r = 0 then .ok (d.s i) else .error (.err .invalidKey) :=
    phase5d_eq
  have hiff : (∃ si, checked = .ok si) ↔ d.imbalance r = 0 := by
    rw [hchecked]
    by_cases hzero : d.imbalance r = 0
    · rw [if_pos hzero]
      exact iff_of_true ⟨_, rfl⟩ hzero
    · rw [if_neg hzero]
      refine iff_of_false ?_ hzero
      rintro ⟨si, hsi⟩
      cases hsi
  exact ⟨hiff, fun hrho => hiff.trans (d.imbalance_eq_zero_iff r hrho)⟩

end Check

end Phase5

/-! ## Three signers -/

section ThreeSigners

/-- Three signers whose `s_i` are 1, 1 and 0; twice their sum is `m + 2 y`. -/
def balancedSigners : Phase5 (additiveCurv 7) where
  t := 2
  R := (2 : ℕ)
  m := 5
  y := (3 : ℕ)
  l i := i
  rho i := i + 1
  s i := if i ≤ 2 then 1 else 0
  blindFactor5a i := i
  nonce5b _ := (0 : ℕ)
  blindFactor5c i := i

/-- Each of the three accepts. -/
theorem balancedSigners_accept :
    ∃ phase5Com2 : ℕ → Phase5Com2 × Phase5DDecom2 (ZMod 7), ∀ i, 1 ≤ i → i ≤ 3 →
      ∃ si, (balancedSigners.localSig i).phase5d (additiveCurv 7)
        ((List.range' 1 3).map (fun j => (phase5Com2 j).2))
        ((List.range' 1 3).map (fun j => (phase5Com2 j).1))
        ((List.range' 1 3).map (fun j => (balancedSigners.phase5a j).2.1)) = .ok si := by
  obtain ⟨phase5Com2, -, hchecked, -⟩ := balancedSigners.phase5_accepts_iff (P := clearPaillier)
    (additiveCurv_lawfulSigning 7) (by decide) (r := 2) rfl
  exact ⟨phase5Com2, fun i h1 h3 => (hchecked i h1 h3).1.mpr (by decide +kernel)⟩

end ThreeSigners

end VDexNode.Mpt
