import Mathlib.Algebra.Field.ZMod
import Mathlib.Data.Nat.Digits.Lemmas
import VDexNode.Lib.Machine
import VDexNode.Lib.Shares

/-!
# VDexNode.Mpt.Libraries — what the multiparty code uses of `curv` and `paillier`

The two crates are not part of the repository.  `Curv` and `Paillier` hold the functions the code
calls; what it relies on is stated in the `Lawful…` structures, one for each group of functions.
Scalars (`FE`) are `ZMod q`, points (`GE`) a module `G` over them, and a `BigInt` is a natural
number.  Whatever a function samples is an argument of it here.

A function of the code returns, returns one of the `Error`s of the crate, panics, or polls the
message store for an entry that is never posted.
-/

namespace VDexNode.Mpt

/-! ## Failures -/

/-- `Error`. -/
inductive Error where
  | invalidKey
  | invalidSS
  | invalidCom
  | invalidSig
deriving DecidableEq, Repr

/-- Why a function does not return its value. -/
inductive Failure where
  | err (e : Error)
  | panicked (msg : String)
  | waiting
deriving DecidableEq, Repr

abbrev Result := Except Failure

variable {α : Type}

/-- `unwrap` of an `Option`. -/
def unwrap : Option α → Result α
  | some a => .ok a
  | none => .error (.panicked "unwrap on None")

/-- `xs[i]`. -/
def index (xs : List α) (i : ℕ) : Result α :=
  match xs[i]? with
  | some a => .ok a
  | none => .error (.panicked "index out of bounds")

/-- `assert_eq!`. -/
def assertEq [DecidableEq α] (a b : α) : Result Unit :=
  if a = b then .ok () else .error (.panicked "assertion failed")

/-- `Result::expect`. -/
def expect (msg : String) : Result α → Result α
  | .error (.err _) => .error (.panicked msg)
  | x => x

/-- `Result::is_ok`. -/
def isOk : Result α → Result Bool
  | .ok _ => .ok true
  | .error (.err _) => .ok false
  | .error f => .error f

@[simp] theorem unwrap_eq_ok {o : Option α} {a : α} : unwrap o = .ok a ↔ o = some a := by
  cases o with
  | none => exact iff_of_false nofun nofun
  | some b => exact ⟨fun h => by cases h; rfl, fun h => by cases h; rfl⟩

@[simp] theorem index_eq_ok {xs : List α} {i : ℕ} {a : α} :
    index xs i = .ok a ↔ xs[i]? = some a := by
  rw [index]
  cases xs[i]? with
  | none => exact iff_of_false nofun nofun
  | some b => exact ⟨fun h => by cases h; rfl, fun h => by cases h; rfl⟩

/-- A vector with an entry for each party of a list, read at one of them. -/
theorem index_map {ι : Type} {l : List ι} {f : ι → α} {j : ℕ} {i : ι} (h : l[j]? = some i) :
    index (l.map f) j = .ok (f i) := by
  rw [index_eq_ok, List.getElem?_map, h, Option.map_some]

@[simp] theorem assertEq_eq_ok [DecidableEq α] {a b : α} {u : Unit} :
    assertEq a b = .ok u ↔ a = b := by
  rw [assertEq]
  by_cases h : a = b
  · rw [if_pos h]
    exact ⟨fun _ => h, fun _ => rfl⟩
  · rw [if_neg h]
    exact iff_of_false nofun h

@[simp] theorem expect_ok (msg : String) (a : α) : expect msg (.ok a) = .ok a := rfl

theorem expect_eq_ok {msg : String} {x : Result α} {a : α} : expect msg x = .ok a ↔ x = .ok a := by
  cases x with
  | ok b => exact Iff.rfl
  | error f => cases f <;> exact iff_of_false nofun nofun

@[simp] theorem isOk_ok (a : α) : isOk (.ok a) = .ok true := rfl

/-- `(0..len).map(f).all(|x| x == true)` is `true` exactly when every test is. -/
theorem allM_eq_ok_true {f : α → Result Bool} {l : List α} :
    l.allM f = .ok true ↔ ∀ a ∈ l, f a = .ok true := by
  induction l with
  | nil => exact ⟨fun _ _ ha => absurd ha List.not_mem_nil, fun _ => rfl⟩
  | cons a l ih =>
    rw [List.allM, bind_eq_ok, List.forall_mem_cons, ← ih]
    constructor
    · rintro ⟨b, hb, hl⟩
      cases b with
      | true => exact ⟨hb, hl⟩
      | false => cases hl
    · rintro ⟨ha, hl⟩
      exact ⟨true, ha, hl⟩

/-- `fold(a, |acc, x| acc + x)`. -/
theorem foldl_add_eq_sum {M : Type} [AddMonoid M] (a : M) (l : List M) :
    l.foldl (· + ·) a = a + l.sum := by
  rw [List.sum_eq_foldl, ← @List.foldl_assoc M (· + ·) _ l a 0, add_zero]

/-! ## The elliptic curve -/

/-- `VerifiableSS`: the commitments to the coefficients of a sharing polynomial. -/
structure VerifiableSS (G : Type) where
  parameters : ℕ × ℕ
  commitments : List G
deriving DecidableEq, Repr

/-- `HomoElGamalStatement`: the prover knows `r` and `x` with `D = x H + r Y` and `E = r G`. -/
structure HomoElGamalStatement (Pt : Type) where
  G : Pt
  H : Pt
  Y : Pt
  D : Pt
  E : Pt
deriving DecidableEq, Repr

/-- `HomoElGamalWitness`. -/
structure HomoElGamalWitness (q : ℕ) where
  r : ZMod q
  x : ZMod q
deriving DecidableEq

/-- `curv`. -/
structure Curv (q : ℕ) (G : Type) where
  /-- What a proof samples. -/
  Nonce : Type
  DLogProof : Type
  HomoElGamalProof : Type
  generator : G
  xCoor : G → Option ℕ
  bytesCompressedToBigInt : G → ℕ
  /-- `HashCommitment::create_commitment_with_user_defined_randomness`. -/
  createCommitment : ℕ → ℕ → ℕ
  /-- `HSha256::create_hash_from_ge`, as a `BigInt`. -/
  createHashFromGe : List G → ℕ
  validateShare : VerifiableSS G → ZMod q → ℕ → Bool
  getPointCommitment : VerifiableSS G → ℕ → G
  mapShareToNewParams : VerifiableSS G → ℕ → List ℕ → ZMod q
  /-- `DLogProof::prove` and `DLogProof::verify`; `pk` is the point the proof is about. -/
  proveDLog : ZMod q → Nonce → DLogProof
  verifyDLog : DLogProof → Bool
  pk : DLogProof → G
  /-- `HomoELGamalProof::prove` and `HomoELGamalProof::verify`. -/
  proveHomoElGamal : HomoElGamalWitness q → HomoElGamalStatement G → Nonce → HomoElGamalProof
  verifyHomoElGamal : HomoElGamalProof → HomoElGamalStatement G → Bool

section Curv

variable {q : ℕ} {G : Type} (c : Curv q G)

/-- `ECScalar::from`. -/
def scalarFrom (b : ℕ) : ZMod q := b

/-- `invert`, which panics at zero. -/
def invert (x : ZMod q) : Result (ZMod q) :=
  if x = 0 then .error (.panicked "not invertible") else .ok x⁻¹

/-- `ECScalar::from(&R.x_coor().unwrap().mod_floor(&FE::q()))`. -/
def Curv.rOf (R : G) : Result (ZMod q) := do
  let x ← unwrap (c.xCoor R)
  return scalarFrom (x % q)

variable [Fact q.Prime] [AddCommGroup G] [Module (ZMod q) G]

/-- Shares are checked, and commitments evaluated, along the whole commitments vector. -/
structure Curv.LawfulSharing : Prop where
  validateShare_iff : ∀ vss share i, c.validateShare vss share i = true ↔
    share • c.generator = evalAt (vss.commitments.getD · 0) vss.commitments.length (i : ZMod q)
  getPointCommitment_eq : ∀ vss i, c.getPointCommitment vss i =
    evalAt (vss.commitments.getD · 0) vss.commitments.length (i : ZMod q)

/-- Proofs of true statements verify, and the weights of signers are Lagrange coefficients. -/
structure Curv.LawfulSigning : Prop where
  generator_ne_zero : c.generator ≠ 0
  xCoor_isSome : ∀ R : G, R ≠ 0 → (c.xCoor R).isSome
  mapShareToNewParams_eq : ∀ vss i s, s.Nodup → i ∈ s →
    c.mapShareToNewParams vss i s = lagrangeAtZero (s.map (· + 1)).toFinset (i + 1)
  pk_proveDLog : ∀ x nonce, c.pk (c.proveDLog x nonce) = x • c.generator
  verifyDLog_prove : ∀ x nonce, c.verifyDLog (c.proveDLog x nonce) = true
  verifyHomoElGamal_prove : ∀ w st nonce, st.D = w.x • st.H + w.r • st.Y → st.E = w.r • st.G →
    c.verifyHomoElGamal (c.proveHomoElGamal w st nonce) st = true

end Curv

/-! ### The additive group of the scalars as a curve -/

section Additive

variable (q : ℕ) [Fact q.Prime]

/-- Points are scalars; a proof is its witness. -/
def additiveCurv : Curv q (ZMod q) where
  Nonce := ℕ
  DLogProof := ZMod q
  HomoElGamalProof := HomoElGamalWitness q
  generator := 1
  xCoor R := if R = 0 then none else some R.val
  bytesCompressedToBigInt := ZMod.val
  createCommitment := Nat.pair
  createHashFromGe l := l.foldl (fun acc x => acc * q + x.val) 0
  validateShare vss share i :=
    decide (share = evalAt (vss.commitments.getD · 0) vss.commitments.length (i : ZMod q))
  getPointCommitment vss i :=
    evalAt (vss.commitments.getD · 0) vss.commitments.length (i : ZMod q)
  mapShareToNewParams _ i s := lagrangeAtZero (s.map (· + 1)).toFinset (i + 1)
  proveDLog x _ := x
  verifyDLog _ := true
  pk x := x
  proveHomoElGamal w _ _ := w
  verifyHomoElGamal w st := decide (st.D = w.x * st.H + w.r * st.Y ∧ st.E = w.r * st.G)

theorem additiveCurv_lawfulSharing : (additiveCurv q).LawfulSharing where
  validateShare_iff vss share i := by simp [additiveCurv]
  getPointCommitment_eq _ _ := rfl

theorem additiveCurv_lawfulSigning : (additiveCurv q).LawfulSigning where
  generator_ne_zero := one_ne_zero
  xCoor_isSome R hR := by simp [additiveCurv, hR]
  mapShareToNewParams_eq _ _ _ _ _ := rfl
  pk_proveDLog x _ := (mul_one x).symm
  verifyDLog_prove _ _ := rfl
  verifyHomoElGamal_prove w st _ hD hE := decide_eq_true ⟨hD, hE⟩

end Additive

/-! ## Paillier encryption -/

/-- `paillier`. -/
structure Paillier where
  EncryptionKey : Type
  DecryptionKey : Type
  /-- What an encryption samples. -/
  Randomness : Type
  n : EncryptionKey → ℕ
  encrypt : EncryptionKey → ℕ → Randomness → ℕ
  mul : EncryptionKey → ℕ → ℕ → ℕ
  add : EncryptionKey → ℕ → ℕ → ℕ
  decrypt : DecryptionKey → ℕ → ℕ

/-- The two keys of one pair: a product with a plaintext plus an encryption decrypts to the
combination of the plaintexts modulo `n`. -/
def Paillier.Paired (P : Paillier) (ek : P.EncryptionKey) (dk : P.DecryptionKey) : Prop :=
  ∀ a b b' r r', P.decrypt dk (P.add ek (P.mul ek (P.encrypt ek a r) b) (P.encrypt ek b' r'))
    = (a * b + b') % P.n ek

/-- Keys are moduli and a ciphertext is its plaintext. -/
def clearPaillier : Paillier where
  EncryptionKey := ℕ
  DecryptionKey := ℕ
  Randomness := ℕ
  n ek := ek
  encrypt ek m _ := m % ek
  mul ek c m := c * m % ek
  add ek c c' := (c + c') % ek
  decrypt dk c := c % dk

theorem clearPaillier_paired (n : ℕ) : clearPaillier.Paired n n := by
  intro a b b' _ _
  show (a % n * b % n + b' % n) % n % n = (a * b + b') % n
  rw [Nat.mod_mod, ← Nat.add_mod, Nat.add_mod, Nat.mod_mul_mod, ← Nat.add_mod]

/-! ## Key generation -/

/-- What key generation uses besides: key pairs, proofs of correct keys, the sharing of a secret,
the bytes of a `BigInt` and AES-GCM. -/
structure KeyGenLib (q : ℕ) (G : Type) (P : Paillier) where
  /-- What `Paillier::keypair` samples. -/
  KeySeed : Type
  CorrectKeyProof : Type
  /-- An `AesGcm` object. -/
  Gcm : Type
  /-- `Paillier::keypair().keys()`. -/
  keypair : KeySeed → P.EncryptionKey × P.DecryptionKey
  /-- `NICorrectKeyProof::proof` and `NICorrectKeyProof::verify`. -/
  proveCorrectKey : P.DecryptionKey → CorrectKeyProof
  verifyCorrectKey : CorrectKeyProof → P.EncryptionKey → Bool
  /-- `VerifiableSS::share` of a secret, with the other coefficients it samples. -/
  share : ℕ → ℕ → ZMod q → List (ZMod q) → VerifiableSS G × List (ZMod q)
  /-- `BigInt::to_vec` and `BigInt::from`. -/
  toVec : ℕ → List UInt8
  fromBytes : List UInt8 → ℕ
  /-- `AesGcm::new(KeySize256, key, nonce, aad)`, which panics on a key of another size. -/
  newGcm : List UInt8 → List UInt8 → List UInt8 → Option Gcm
  /-- `encrypt`: the ciphertext and the tag. -/
  encrypt : Gcm → List UInt8 → List UInt8 × List UInt8
  /-- `decrypt`: whether the tag is right, and the plaintext. -/
  decrypt : Gcm → List UInt8 → List UInt8 → Bool × List UInt8

section KeyGenLib

variable {q : ℕ} {G : Type} [Fact q.Prime] [AddCommGroup G] [Module (ZMod q) G] {P : Paillier}

/-- Proofs of the keys of one pair verify; shares are the values at `1, …, n` of the polynomial
whose coefficients are committed to; what has been encrypted is decrypted. -/
structure KeyGenLib.Lawful (L : KeyGenLib q G P) (c : Curv q G) : Prop where
  verifyCorrectKey_prove : ∀ seed,
    L.verifyCorrectKey (L.proveCorrectKey (L.keypair seed).2) (L.keypair seed).1 = true
  share_eq : ∀ t n u (coeffs : List (ZMod q)), coeffs.length = t → t < n →
    L.share t n u coeffs = (⟨(t, n), (u :: coeffs).map (· • c.generator)⟩,
      (List.range' 1 n).map (fun i : ℕ => evalAt ((u :: coeffs).getD · 0) (t + 1) (i : ZMod q)))
  fromBytes_toVec : ∀ b, L.fromBytes (L.toVec b) = b
  decrypt_encrypt : ∀ gcm plaintext,
    L.decrypt gcm (L.encrypt gcm plaintext).1 (L.encrypt gcm plaintext).2 = (true, plaintext)

end KeyGenLib

/-! ### A pad as a cipher -/

/-- The bytes of a number, the highest first. -/
def bytesOf (b : ℕ) : List UInt8 := ((Nat.digits 256 b).map UInt8.ofNat).reverse

/-- The number of the bytes. -/
def ofBytes (l : List UInt8) : ℕ := Nat.ofDigits 256 (l.reverse.map UInt8.toNat)

theorem ofBytes_bytesOf (b : ℕ) : ofBytes (bytesOf b) = b := by
  have hdigit : ∀ d ∈ Nat.digits 256 b, (UInt8.toNat ∘ UInt8.ofNat) d = id d := by
    intro d hd
    have hlt : d < 256 := Nat.digits_lt_base (by decide) hd
    exact Nat.mod_eq_of_lt hlt
  rw [ofBytes, bytesOf, List.reverse_reverse, List.map_map, List.map_congr_left hdigit, List.map_id,
    Nat.ofDigits_digits]

theorem length_bytesOf {b k : ℕ} (hlow : 256 ^ k ≤ b) (hhigh : b < 256 ^ (k + 1)) :
    (bytesOf b).length = k + 1 := by
  have hb : b ≠ 0 := (lt_of_lt_of_le (Nat.pow_pos (by decide)) hlow).ne'
  have hlog : Nat.log 256 b = k := Nat.log_eq_of_pow_le_of_lt_pow hlow hhigh
  rw [bytesOf, List.length_reverse, List.length_map, Nat.length_digits 256 b (by decide) hb, hlog]

/-- `bytes` combined with the key, which is repeated. -/
def pad (key bytes : List UInt8) : List UInt8 :=
  bytes.mapIdx (fun i b => b ^^^ key.getD (i % key.length) 0)

theorem pad_pad (key bytes : List UInt8) : pad key (pad key bytes) = bytes := by
  rw [pad, pad, List.mapIdx_mapIdx]
  refine List.ext_getElem (by rw [List.length_mapIdx]) (fun i h1 h2 => ?_)
  rw [List.getElem_mapIdx, Function.comp_apply, UInt8.xor_assoc, UInt8.xor_self, UInt8.xor_zero]

/-- The curve of the additive group with x-coordinates of 32 bytes. -/
def wideCurv (q : ℕ) [Fact q.Prime] : Curv q (ZMod q) :=
  { additiveCurv q with xCoor := fun R => if R = 0 then none else some (2 ^ 255 + R.val) }

/-- Key pairs are moduli, ciphertexts are pads, and the tag is the key. -/
def padLib (q : ℕ) [Fact q.Prime] : KeyGenLib q (ZMod q) clearPaillier where
  KeySeed := ℕ
  CorrectKeyProof := ℕ
  Gcm := List UInt8
  keypair seed := (seed, seed)
  proveCorrectKey dk := dk
  verifyCorrectKey proof ek := proof == ek
  share t n u coeffs := (⟨(t, n), (u :: coeffs).map (· • 1)⟩,
    (List.range' 1 n).map (fun i : ℕ => evalAt ((u :: coeffs).getD · 0) (t + 1) (i : ZMod q)))
  toVec := bytesOf
  fromBytes := ofBytes
  newGcm key _ _ := if key.length = 32 then some key else none
  encrypt key plaintext := (pad key plaintext, key)
  decrypt key ciphertext tag := (tag == key, pad key ciphertext)

theorem padLib_lawful (q : ℕ) [Fact q.Prime] : (padLib q).Lawful (wideCurv q) where
  verifyCorrectKey_prove seed := beq_self_eq_true (α := ℕ) seed
  share_eq _ _ _ _ _ _ := rfl
  fromBytes_toVec := ofBytes_bytesOf
  decrypt_encrypt key plaintext :=
    Prod.ext (beq_self_eq_true (α := List UInt8) key) (pad_pad key plaintext)

theorem wideCurv_lawfulSharing (q : ℕ) [Fact q.Prime] : (wideCurv q).LawfulSharing where
  validateShare_iff := (additiveCurv_lawfulSharing q).validateShare_iff
  getPointCommitment_eq := (additiveCurv_lawfulSharing q).getPointCommitment_eq

end VDexNode.Mpt
