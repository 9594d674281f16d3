import VDexNode.Mpt.KeyGenUtils

/-!
# VDexNode.Mpt.KeyProofs — what a verified proof of a key share is about

A proof of knowledge is about the point it carries.  `verify_dlog_proofs` checks the proofs and the
lengths of the vectors and looks at no point, neither at the one of the proof nor at the commitments
to the shares.

* `verifyDlogProofs_iff` : what is accepted.
* `proofsTied_iff` : **an accepted vector is a vector of proofs of the parties' shares only where
  there are no parties.**
-/

namespace VDexNode.Mpt

variable {q : ℕ} {G : Type} [Fact q.Prime] [AddCommGroup G] [Module (ZMod q) G] {c : Curv q G}

omit [Fact q.Prime] [AddCommGroup G] [Module (ZMod q) G] in
/-- **What is accepted**: any vector of the right length of proofs that verify. -/
theorem verifyDlogProofs_iff {params : Parameters} {proofs : List c.DLogProof} {yVec : List G}
    (hy : yVec.length = params.shareCount) :
    verifyDlogProofs c params proofs yVec = .ok () ↔
      proofs.length = params.shareCount ∧ ∀ proof ∈ proofs, c.verifyDLog proof = true := by
  unfold verifyDlogProofs
  simp only [bind_eq_ok, assertEq_eq_ok, exists_const]
  constructor
  · rintro ⟨-, hlen, b, htest, hres⟩
    refine ⟨hlen, fun proof hproof => ?_⟩
    cases b with
    | false => cases hres
    | true =>
      obtain ⟨i, hi⟩ := List.mem_iff_getElem?.mp hproof
      have hlt : i < yVec.length := by
        rw [hy, ← hlen]
        exact (List.getElem?_eq_some_iff.mp hi).1
      have hone := allM_eq_ok_true.mp htest i (List.mem_range.mpr hlt)
      rw [index_eq_ok.mpr hi, ok_bind] at hone
      exact Except.ok.inj hone
  · rintro ⟨hlen, hall⟩
    refine ⟨hy, hlen, true, allM_eq_ok_true.mpr (fun i hi => ?_), rfl⟩
    have hlt : i < proofs.length := by
      rw [hlen, ← hy]
      exact List.mem_range.mp hi
    rw [index_eq_ok.mpr (List.getElem?_eq_getElem hlt), ok_bind, hall _ (List.getElem_mem hlt)]
    rfl

omit [Fact q.Prime] [Module (ZMod q) G] in
/-- There is a commitment to the share of every party. -/
theorem exists_getCommitmentsToXi (vssSchemeVec : List (VerifiableSS G)) :
    ∃ coms, getCommitmentsToXi c vssSchemeVec = .ok coms ∧ coms.length = vssSchemeVec.length := by
  cases vssSchemeVec with
  | nil => exact ⟨[], rfl, rfl⟩
  | cons vss rest =>
    refine ⟨(List.range' 1 (rest.length + 1)).map (fun i =>
      (rest.map (c.getPointCommitment · i)).foldl (· + ·) (c.getPointCommitment vss i)),
      mapM_eq_ok_map (fun i _ => rfl), ?_⟩
    rw [List.length_map, List.length_range', List.length_cons]

variable (c) in
/-- An accepted vector proves the commitments to the shares, point by point. -/
def ProofsTied (params : Parameters) (vssSchemeVec : List (VerifiableSS G)) (yVec : List G) :
    Prop :=
  ∀ proofs coms, verifyDlogProofs c params proofs yVec = .ok () →
    getCommitmentsToXi c vssSchemeVec = .ok coms → proofs.map c.pk = coms

/-- **Proofs and shares**: whatever the commitments of one or more parties, a vector of proofs of
other points is accepted; only where there are no parties is an accepted vector tied to them. -/
theorem proofsTied_iff (hsign : c.LawfulSigning) (nonce : c.Nonce) {params : Parameters}
    {vssSchemeVec : List (VerifiableSS G)} {yVec : List G}
    (hvss : vssSchemeVec.length = params.shareCount) (hy : yVec.length = params.shareCount) :
    ProofsTied c params vssSchemeVec yVec ↔ params.shareCount = 0 := by
  obtain ⟨coms, hcoms, hlen⟩ := exists_getCommitmentsToXi (c := c) vssSchemeVec
  constructor
  · intro htied
    by_contra hne
    -- everybody proves the same scalar, one that is not the first share
    have hother : ∃ x : ZMod q, coms[0]? ≠ some (x • c.generator) := by
      by_contra hall
      push Not at hall
      have hsame : (0 : ZMod q) • c.generator = (1 : ZMod q) • c.generator :=
        Option.some.inj ((hall 0).symm.trans (hall 1))
      rw [zero_smul, one_smul] at hsame
      exact hsign.generator_ne_zero hsame.symm
    obtain ⟨x, hx⟩ := hother
    have haccepted : verifyDlogProofs c params
        (List.replicate params.shareCount (c.proveDLog x nonce)) yVec = .ok () := by
      refine (verifyDlogProofs_iff hy).mpr ⟨List.length_replicate, fun proof hproof => ?_⟩
      rw [(List.mem_replicate.mp hproof).2]
      exact hsign.verifyDLog_prove x nonce
    have heq := htied _ coms haccepted hcoms
    rw [List.map_replicate, hsign.pk_proveDLog] at heq
    apply hx
    rw [← heq, List.getElem?_replicate_of_lt (Nat.pos_of_ne_zero hne)]
  · intro hzero proofs coms' hver hcoms'
    cases hcoms.symm.trans hcoms'
    obtain ⟨hproofs, -⟩ := (verifyDlogProofs_iff hy).mp hver
    rw [hzero] at hproofs hvss
    rw [List.length_eq_zero_iff.mp hproofs, List.length_eq_zero_iff.mp (hlen.trans hvss)]
    rfl

/-! ## Two parties -/

/-- Two parties with threshold one. -/
def twoLines : List (VerifiableSS (ZMod 3)) := [⟨(1, 2), [1, 1]⟩, ⟨(1, 2), [1, 0]⟩]

theorem twoLines_untied : ¬ ProofsTied (additiveCurv 3) ⟨1, 2⟩ twoLines [1, 1] := by
  intro htied
  have hzero := (proofsTied_iff (additiveCurv_lawfulSigning 3) (0 : ℕ) rfl rfl).mp htied
  cases hzero

/-- Two proofs of the logarithm of zero are accepted, where the shares are 0 and 1. -/
theorem twoLines_accepted : ¬ ∀ (params : Parameters) (vssSchemeVec : List (VerifiableSS (ZMod 3)))
    (yVec : List (ZMod 3)), vssSchemeVec.length = params.shareCount →
    yVec.length = params.shareCount → ProofsTied (additiveCurv 3) params vssSchemeVec yVec := by
  intro hall
  have htied := hall ⟨1, 2⟩ twoLines [1, 1] rfl rfl [(0 : ZMod 3), (0 : ZMod 3)] [0, 1] rfl
    (by decide +kernel)
  exact absurd (show [(0 : ZMod 3), 0] = [0, 1] from htied) (by decide)

end VDexNode.Mpt
