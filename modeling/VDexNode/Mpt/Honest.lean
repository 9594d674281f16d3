import VDexNode.Mpt.Phases
import VDexNode.Mpt.Reconstruct
import VDexNode.Mpt.Session

/-!
# VDexNode.Mpt.Honest — an honest key and a group of its signers

`Deal` is what an honest key generation of `n` parties leaves behind: the coefficients each party
shared with, and the Paillier keys.  Party `x` holds the value `secretAt x` of the sum of the
polynomials.  A `SigningGroup` gives the key index of each of the signers `1, …, t + 1`.

* `xiPoint_eq` : the public points of the key file are those of the shares.
* `sum_wi` : **the weighted shares of a signing group sum to the key.**
-/

namespace VDexNode.Mpt

open Finset

variable {q : ℕ} {G : Type}

/-! ## Keys -/

/-- What an honest key generation leaves behind. -/
structure Deal (q : ℕ) (P : Paillier) where
  n : ℕ
  t : ℕ
  /-- The coefficients of the polynomial of each party. -/
  polys : List (List (ZMod q))
  ek : ℕ → P.EncryptionKey
  dk : ℕ → P.DecryptionKey
  one_le_t : 1 ≤ t
  t_lt_n : t < n
  /-- Indices are distinct scalars: a party count is a `u32`, the group order has 256 bits. -/
  n_lt_q : n < q
  length_polys : polys.length = n
  length_coeffs : ∀ f ∈ polys, f.length = t + 1
  paired : ∀ x, 1 ≤ x → x ≤ n → P.Paired (ek x) (dk x)

variable {P : Paillier}

namespace Deal

variable [Fact q.Prime] (d : Deal q P)

/-- The coefficients of the sum of the polynomials. -/
def coeff (k : ℕ) : ZMod q := (d.polys.map (·.getD k 0)).sum

/-- The sum of the polynomials at `x`. -/
def secretAt (x : ℕ) : ZMod q := evalAt d.coeff (d.t + 1) (x : ZMod q)

variable [AddCommGroup G] [Module (ZMod q) G] (c : Curv q G)

/-- The commitments of all parties. -/
def vssSchemeVec : List (VerifiableSS G) :=
  d.polys.map (fun f => ⟨(d.t, d.n), f.map (· • c.generator)⟩)

/-- The key file of party `x`. -/
def keyFile (x : ℕ) : KeyFile q G P where
  partyKeys :=
    let ui := (d.polys.getD (x - 1) []).getD 0 0
    ⟨ui, ui • c.generator, d.dk x, d.ek x, x⟩
  sharedKeys := ⟨d.secretAt 0 • c.generator, d.secretAt x⟩
  partyId := x
  vssSchemeVec := d.vssSchemeVec c
  paillierKeyVector := (List.range' 1 d.n).map d.ek
  ySum := d.secretAt 0 • c.generator

theorem secretAt_zero : d.secretAt 0 = d.coeff 0 := by
  rw [secretAt, Nat.cast_zero, evalAt_zero d.coeff (Nat.succ_pos d.t)]

theorem length_vssSchemeVec : (d.vssSchemeVec c).length = d.n := by
  rw [vssSchemeVec, List.length_map, d.length_polys]

theorem columnSum_eq (k : ℕ) : columnSum (d.vssSchemeVec c) k = d.coeff k • c.generator := by
  rw [columnSum, coeff, vssSchemeVec, List.map_map, List.sum_smul, List.map_map]
  refine congrArg List.sum (List.map_congr_left (fun f _ => ?_))
  show (f.map (· • c.generator)).getD k 0 = f.getD k 0 • c.generator
  rw [List.getD_eq_getElem?_getD, List.getD_eq_getElem?_getD, List.getElem?_map]
  cases f[k]? with
  | none => exact (zero_smul (ZMod q) c.generator).symm
  | some a => rfl

theorem columns_le : columns (d.vssSchemeVec c) ≤ d.t + 1 := by
  refine columns_le_of_forall (fun vss hvss => ?_)
  obtain ⟨f, hf, rfl⟩ := List.mem_map.mp hvss
  rw [List.length_map, d.length_coeffs f hf]

/-- **The public points** are the points of the shares. -/
theorem xiPoint_eq (x : ℕ) : xiPoint q (d.vssSchemeVec c) x = d.secretAt x • c.generator := by
  have hzero : ∀ k, columns (d.vssSchemeVec c) ≤ k → columnSum (d.vssSchemeVec c) k = 0 := by
    intro k hk
    exact columnSum_eq_zero_of_le hk
  rw [xiPoint, evalAt_of_le (d.columns_le c) hzero, secretAt, ← evalAt_smul]
  exact congrArg (fun C => evalAt C (d.t + 1) (x : ZMod q)) (funext (d.columnSum_eq c))

end Deal

/-! ## Groups of signers -/

/-- The key indices of the signers `1, …, t + 1`, in the order of their signup. -/
structure SigningGroup (d : Deal q P) where
  ids : ℕ → ℕ
  ids_mem : ∀ i, 1 ≤ i → i ≤ d.t + 1 → 1 ≤ ids i ∧ ids i ≤ d.n
  ids_inj : Set.InjOn ids (Icc 1 (d.t + 1) : Finset ℕ)

namespace SigningGroup

variable {d : Deal q P} (g : SigningGroup d)

/-- `signers_vec` of every signer of the group. -/
def signersVec : List ℕ := (List.range' 1 (d.t + 1)).map (fun i => g.ids i - 1)

/-- The key indices of the group. -/
def nodes : Finset ℕ := (Icc 1 (d.t + 1)).image g.ids

theorem nodes_subset : g.nodes ⊆ Icc 1 d.n := by
  intro x hx
  obtain ⟨i, hi, rfl⟩ := mem_image.mp hx
  rw [mem_Icc] at hi ⊢
  exact g.ids_mem i hi.1 hi.2

theorem card_nodes : #g.nodes = d.t + 1 := by
  rw [nodes, card_image_of_injOn g.ids_inj, Nat.card_Icc, Nat.add_sub_cancel]

theorem pred_add_one {i : ℕ} (h1 : 1 ≤ i) (hn : i ≤ d.t + 1) : g.ids i - 1 + 1 = g.ids i :=
  Nat.sub_add_cancel (g.ids_mem i h1 hn).1

theorem nodup_signersVec : g.signersVec.Nodup := by
  refine List.Nodup.map_on (fun i hi j hj hij => ?_) List.nodup_range'
  rw [mem_range'_one] at hi hj
  refine g.ids_inj (mem_coe.mpr (mem_Icc.mpr hi)) (mem_coe.mpr (mem_Icc.mpr hj)) ?_
  rw [← g.pred_add_one hi.1 hi.2, ← g.pred_add_one hj.1 hj.2, hij]

theorem toFinset_signersVec : (g.signersVec.map (· + 1)).toFinset = g.nodes := by
  ext x
  rw [List.mem_toFinset, signersVec, List.map_map, List.mem_map, nodes, mem_image]
  constructor
  · rintro ⟨i, hi, rfl⟩
    obtain ⟨h1, hn⟩ := mem_range'_one.mp hi
    exact ⟨i, mem_Icc.mpr ⟨h1, hn⟩, (g.pred_add_one h1 hn).symm⟩
  · rintro ⟨i, hi, rfl⟩
    obtain ⟨h1, hn⟩ := mem_Icc.mp hi
    exact ⟨i, mem_range'_one.mpr ⟨h1, hn⟩, g.pred_add_one h1 hn⟩

/-- The vectors of the key file with an entry of every party, read at a signer. -/
theorem index_keyVec {α : Type} (f : ℕ → α) {i : ℕ} (h1 : 1 ≤ i) (hn : i ≤ d.t + 1) :
    index ((List.range' 1 d.n).map f) (g.ids i - 1) = .ok (f (g.ids i)) := by
  obtain ⟨hid1, hidn⟩ := g.ids_mem i h1 hn
  exact index_range'_map f hid1 hidn

variable [Fact q.Prime]

/-- The Lagrange coefficient of signer `i`. -/
def weight (i : ℕ) : ZMod q := lagrangeAtZero g.nodes (g.ids i)

/-- The weighted share of signer `i`. -/
def wi (i : ℕ) : ZMod q := g.weight i * d.secretAt (g.ids i)

/-- **The weighted shares sum to the key.** -/
theorem sum_wi : ∑ i ∈ Icc 1 (d.t + 1), g.wi i = d.secretAt 0 := by
  have hinj : Set.InjOn (Nat.cast : ℕ → ZMod q) (Set.Iic d.n) := injOn_cast d.n_lt_q
  have hrec := sum_lagrange_evalAt_of_le (F := ZMod q) hinj d.coeff (Nat.succ_pos d.t)
    (le_refl (d.t + 1)) g.nodes_subset g.card_nodes
  rw [d.secretAt_zero, ← hrec, nodes, sum_image g.ids_inj]
  rfl

variable [AddCommGroup G] [Module (ZMod q) G] {c : Curv q G}

theorem mapShareToNewParams_eq (hlaw : c.LawfulSigning) (vss : VerifiableSS G) {i : ℕ} (h1 : 1 ≤ i)
    (hn : i ≤ d.t + 1) :
    c.mapShareToNewParams vss (g.ids i - 1) g.signersVec = g.weight i := by
  have hmem : g.ids i - 1 ∈ g.signersVec :=
    List.mem_map.mpr ⟨i, mem_range'_one.mpr ⟨h1, hn⟩, rfl⟩
  rw [hlaw.mapShareToNewParams_eq vss _ _ g.nodup_signersVec hmem, g.toFinset_signersVec,
    g.pred_add_one h1 hn, weight]

/-- Every signer has a row in the vectors of the key file. -/
theorem index_vssSchemeVec {i : ℕ} (h1 : 1 ≤ i) (hn : i ≤ d.t + 1) :
    ∃ vss, index (d.vssSchemeVec c) (g.ids i - 1) = .ok vss := by
  obtain ⟨hid1, hidn⟩ := g.ids_mem i h1 hn
  have hlt : g.ids i - 1 < (d.vssSchemeVec c).length := by
    rw [d.length_vssSchemeVec]
    omega
  exact ⟨_, index_eq_ok.mpr (List.getElem?_eq_getElem hlt)⟩

variable (c) in
/-- Signer `i` of the group. -/
def signer (message : ℕ) (coins : ℕ → Coins c P) (i : ℕ) : Signer c P where
  keyFile := d.keyFile c (g.ids i)
  threshold := d.t
  partyNumInt := i
  message := message
  coins := coins i

/-- No plaintext of the exchange between two signers reaches the modulus: signer `i` answers the
`ki` of signer `j` with its `gammai` and its `wi`. -/
def NoWrap (coins : ℕ → Coins c P) : Prop :=
  ∀ i ∈ Icc 1 (d.t + 1), ∀ j ∈ Icc 1 (d.t + 1), i ≠ j →
    (coins j).ki.val * (coins i).gammai.val + ((coins i).mtaGamma j).betaTag <
        P.n (d.ek (g.ids j)) ∧
    (coins j).ki.val * (g.wi i).val + ((coins i).mtaW j).betaTag < P.n (d.ek (g.ids j))

end SigningGroup

end VDexNode.Mpt
