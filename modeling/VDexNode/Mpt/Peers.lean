import VDexNode.Mpt.Session

/-!
# VDexNode.Mpt.Peers — one signer among others

`Signer.reveal` is the program of one signer up to the entry in which it reveals its part `s_i` of
the signature, `Signer.main` the whole program.  The entries of the others are given by `Reads`, and
nothing is assumed of them.

* `formatVec_withOwn`, `remove_withOwn`, `sum_withOwn` : the vectors a signer makes of its own value
  and what it has read.
* `exists_main_of_session` : **every output of a session is one of a `main`.**
-/

namespace VDexNode.Mpt

variable {q : ℕ} {G : Type} {c : Curv q G} {P : Paillier}

/-! ## One signer -/

/-- The entries a signer reads, round by round, by the numbers of the other signers. -/
structure Reads (c : Curv q G) where
  round0 : ℕ → ℕ
  round1 : ℕ → SignBroadcastPhase1 × MessageA
  round2 : ℕ → MessageB c × MessageB c
  round3 : ℕ → ZMod q
  round4 : ℕ → SignDecommitPhase1 G
  round5 : ℕ → Phase5Com1
  round6 : ℕ → Phase5ADecom1 G × c.HomoElGamalProof
  round7 : ℕ → Phase5Com2
  round8 : ℕ → Phase5DDecom2 G
  round9 : ℕ → ZMod q

namespace Signer

variable (p : Signer c P) (reads : Reads c)

/-- The numbers of the other signers. -/
def peers : List ℕ := others (p.threshold + 1) p.partyNumInt

/-- The values of all signers, the own one in place. -/
def withOwn {α : Type} (own : α) (f : ℕ → α) (i : ℕ) : α := if i = p.partyNumInt then own else f i

section WithOwn

variable {p} {α : Type}

theorem withOwn_self (own : α) (f : ℕ → α) : p.withOwn own f p.partyNumInt = own := if_pos rfl

theorem withOwn_of_mem (own : α) (f : ℕ → α) {j : ℕ} (hj : j ∈ p.peers) :
    p.withOwn own f j = f j := if_neg (mem_others.mp hj).2

theorem map_withOwn (own : α) (f : ℕ → α) : p.peers.map (p.withOwn own f) = p.peers.map f :=
  List.map_congr_left (fun _ hj => withOwn_of_mem own f hj)

variable (h1 : 1 ≤ p.partyNumInt) (hn : p.partyNumInt ≤ p.threshold + 1)

include h1 hn

theorem length_peers : p.peers.length = p.threshold := Nat.succ.inj (length_others h1 hn)

theorem formatVec_withOwn (own : α) (f : ℕ → α) :
    formatVecFromReads (p.peers.map f) p.partyNumInt own
      = .ok ((List.range' 1 (p.threshold + 1)).map (p.withOwn own f)) := by
  have hread := formatVecFromReads_others h1 hn (p.withOwn own f)
  rw [withOwn_self] at hread
  rw [← map_withOwn own f]
  exact hread

/-- Taking the own value out again leaves what has been read. -/
theorem remove_withOwn (own : α) (f : ℕ → α) :
    remove ((List.range' 1 (p.threshold + 1)).map (p.withOwn own f)) (p.partyNumInt - 1)
      = .ok (own, p.peers.map f) := by
  have hremove := remove_own h1 hn (p.withOwn own f)
  rw [withOwn_self] at hremove
  rw [← map_withOwn own f]
  exact hremove

theorem sum_withOwn [AddCommMonoid α] (own : α) (f : ℕ → α) :
    ((List.range' 1 (p.threshold + 1)).map (p.withOwn own f)).sum
      = own + (p.peers.map f).sum := by
  have hsum := add_sum_map_others (p.withOwn own f) h1 hn
  rw [withOwn_self] at hsum
  rw [sum_map_range', ← hsum, ← map_withOwn own f]
  rfl

end WithOwn

section Main

variable [Fact q.Prime] [AddCommGroup G] [Module (ZMod q) G] [DecidableEq G]

/-- `main` up to round 9. -/
def reveal : Result (Locals9 c) := do
  let v ← p.round1 (p.peers.map reads.round0)
  let v ← p.round2 v (p.peers.map reads.round1)
  let v ← p.round3 v (p.peers.map reads.round2)
  let v ← p.round4 v (p.peers.map reads.round3)
  let v ← p.round5 v (p.peers.map reads.round4)
  let v ← p.round6 v (p.peers.map reads.round5)
  let v ← p.round7 v (p.peers.map reads.round6)
  let v ← p.round8 v (p.peers.map reads.round7)
  p.round9 v (p.peers.map reads.round8)

/-- `main`. -/
def main : Result (Output q G) := do
  let v ← p.reveal reads
  let signature ← p.round10 v (p.peers.map reads.round9)
  return { R := v.R, signature }

end Main

/-! ## Sessions -/

section Session

variable {p}

theorem exists_peers {α : Type} (h1 : 1 ≤ p.partyNumInt) (hn : p.partyNumInt ≤ p.threshold + 1)
    {ansVec : List α} (hlen : ansVec.length = p.peers.length) (v : α) :
    ∃ f : ℕ → α, p.peers.map f = ansVec := by
  rw [length_peers h1 hn] at hlen
  have hshort : p.partyNumInt ≤ ansVec.length + 1 := by omega
  obtain ⟨f, -, hf, -⟩ := exists_map_others h1 hshort v
  rw [hlen] at hf
  exact ⟨f, hf⟩

/-- Who has come through a round of broadcasts has read an entry of every other signer. -/
theorem exists_of_broadcastRound {V W α : Type} {post : Signer c P → V → α}
    {next : Signer c P → V → List α → Result W} {parties : List (Signer c P × V)}
    {r : List (Signer c P × W)} (h : broadcastRound post next parties = .ok r) {w : W}
    (hp : (p, w) ∈ r) : ∃ v ansVec, (p, v) ∈ parties ∧ ansVec.length = p.peers.length ∧
      next p v ansVec = .ok w := by
  have hsync : broadcastRound post next = syncRound Signer.partyNumInt post
      (fun board p => pollForBroadcasts board p.partyNumInt (p.threshold + 1)) next := rfl
  rw [hsync] at h
  obtain ⟨v, ansVec, hmem, hread, hnext⟩ := exists_of_syncRound h hp
  exact ⟨v, ansVec, hmem, length_of_mapM hread, hnext⟩

theorem exists_of_p2pRound {V W α : Type} {post : Signer c P → V → List (ℕ × α)}
    {next : Signer c P → V → List α → Result W} {parties : List (Signer c P × V)}
    {r : List (Signer c P × W)} (h : p2pRound post next parties = .ok r) {w : W}
    (hp : (p, w) ∈ r) : ∃ v ansVec, (p, v) ∈ parties ∧ ansVec.length = p.peers.length ∧
      next p v ansVec = .ok w := by
  have hsync : p2pRound post next = syncRound Signer.partyNumInt post
      (fun board p => pollForP2p board p.partyNumInt (p.threshold + 1)) next := rfl
  rw [hsync] at h
  obtain ⟨v, ansVec, hmem, hread, hnext⟩ := exists_of_syncRound h hp
  exact ⟨v, ansVec, hmem, length_of_mapM hread, hnext⟩

variable [Fact q.Prime] [AddCommGroup G] [Module (ZMod q) G] [DecidableEq G]

/-- **Every output** of a session is one of the program of a signer. -/
theorem exists_main_of_session {signers : List (Signer c P)}
    (hnum : ∀ p ∈ signers, 1 ≤ p.partyNumInt ∧ p.partyNumInt ≤ p.threshold + 1)
    {outs : List (Output q G)} (h : session signers = .ok outs) {out : Output q G}
    (hout : out ∈ outs) : ∃ p ∈ signers, ∃ reads, p.main reads = .ok out := by
  unfold session at h
  obtain ⟨parties1, h1, h⟩ := bind_eq_ok.mp h
  obtain ⟨parties2, h2, h⟩ := bind_eq_ok.mp h
  obtain ⟨parties3, h3, h⟩ := bind_eq_ok.mp h
  obtain ⟨parties4, h4, h⟩ := bind_eq_ok.mp h
  obtain ⟨parties5, h5, h⟩ := bind_eq_ok.mp h
  obtain ⟨parties6, h6, h⟩ := bind_eq_ok.mp h
  obtain ⟨parties7, h7, h⟩ := bind_eq_ok.mp h
  obtain ⟨parties8, h8, h⟩ := bind_eq_ok.mp h
  obtain ⟨parties9, h9, h⟩ := bind_eq_ok.mp h
  obtain ⟨parties10, h10, h⟩ := bind_eq_ok.mp h
  cases h
  obtain ⟨⟨p, _⟩, hp, rfl⟩ := List.mem_map.mp hout
  obtain ⟨v9, ans9, hv9, hlen9, h10⟩ := exists_of_broadcastRound h10 hp
  obtain ⟨v8, ans8, hv8, hlen8, h9⟩ := exists_of_broadcastRound h9 hv9
  obtain ⟨v7, ans7, hv7, hlen7, h8⟩ := exists_of_broadcastRound h8 hv8
  obtain ⟨v6, ans6, hv6, hlen6, h7⟩ := exists_of_broadcastRound h7 hv7
  obtain ⟨v5, ans5, hv5, hlen5, h6⟩ := exists_of_broadcastRound h6 hv6
  obtain ⟨v4, ans4, hv4, hlen4, h5⟩ := exists_of_broadcastRound h5 hv5
  obtain ⟨v3, ans3, hv3, hlen3, h4⟩ := exists_of_broadcastRound h4 hv4
  obtain ⟨v2, ans2, hv2, hlen2, h3⟩ := exists_of_p2pRound h3 hv3
  obtain ⟨v1, ans1, hv1, hlen1, h2⟩ := exists_of_broadcastRound h2 hv2
  obtain ⟨v0, ans0, hv0, hlen0, h1⟩ := exists_of_broadcastRound h1 hv1
  obtain ⟨p', hp', heq⟩ := List.mem_map.mp hv0
  cases heq
  obtain ⟨hfirst, hlast⟩ := hnum p hp'
  let message : MessageB c :=
    ⟨0, c.proveDLog 0 p.coins.nonce5b, c.proveDLog 0 p.coins.nonce5b⟩
  obtain ⟨f0, rfl⟩ := exists_peers hfirst hlast hlen0 0
  obtain ⟨f1, rfl⟩ := exists_peers hfirst hlast hlen1 (v1.com, v1.mAK)
  obtain ⟨f2, rfl⟩ := exists_peers hfirst hlast hlen2 (message, message)
  obtain ⟨f3, rfl⟩ := exists_peers hfirst hlast hlen3 0
  obtain ⟨f4, rfl⟩ := exists_peers hfirst hlast hlen4 v4.decommit
  obtain ⟨f5, rfl⟩ := exists_peers hfirst hlast hlen5 v5.phase5Com
  obtain ⟨f6, rfl⟩ := exists_peers hfirst hlast hlen6 (v5.phase5aDecom, v5.helgamalProof)
  obtain ⟨f7, rfl⟩ := exists_peers hfirst hlast hlen7 v7.phase5Com2
  obtain ⟨f8, rfl⟩ := exists_peers hfirst hlast hlen8 v7.phase5dDecom2
  obtain ⟨f9, rfl⟩ := exists_peers hfirst hlast hlen9 0
  refine ⟨p, hp', ⟨f0, f1, f2, f3, f4, f5, f6, f7, f8, f9⟩, ?_⟩
  unfold main reveal
  rw [h1, ok_bind, h2, ok_bind, h3, ok_bind, h4, ok_bind, h5, ok_bind, h6, ok_bind, h7, ok_bind,
    h8, ok_bind, h9, ok_bind]
  exact h10

end Session

end Signer

end VDexNode.Mpt
