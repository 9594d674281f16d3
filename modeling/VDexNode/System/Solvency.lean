import VDexNode.Stak.Ledger
import VDexNode.System.Model

/-!
# VDexNode.System.Solvency — what the staking account holds

The staking contract pays a subsidy on every stake and never looks at its balance.  Its VTX balance
is, after every run, the principal of the live stakes and the funding received from the token
account, less the subsidies paid and what was transferred out of the account (`Balanced`).  So the
principal is covered exactly when the funding covers the rest.
-/

namespace VDexNode.System

open Eosio

/-! ## What a run moved -/

/-- The VTX in a quantity. -/
def vtxIn (q : Asset) : ℤ := if q.symbol.code = Stak.vtx.code then q.amount else 0

/-- The funding a transfer brings: `onTransfer` ignores what the token account sends. -/
def Receipt.funding (self : Name) (e : Receipt) : ℤ :=
  match e.transfer with
  | some (sender, recipient, q) =>
    if sender = Stak.tokenAcc ∧ recipient = self then vtxIn q else 0
  | none => 0

/-- What a transfer takes out of the staking account. -/
def Receipt.withdrawal (self : Name) (e : Receipt) : ℤ :=
  match e.transfer with
  | some (sender, _, q) => if sender = self then vtxIn q else 0
  | none => 0

/-- The subsidies of the rows paid. -/
def Receipt.subsidies (e : Receipt) : ℤ := (e.paid.map (fun r => r.subsidy.amount)).sum

/-- The funding received in a run. -/
def funded (self : Name) (log : List Receipt) : ℤ := (log.map (Receipt.funding self)).sum

/-- What was transferred out of the staking account in a run. -/
def withdrawn (self : Name) (log : List Receipt) : ℤ := (log.map (Receipt.withdrawal self)).sum

/-- The subsidies paid in a run. -/
def subsidized (log : List Receipt) : ℤ := (log.map Receipt.subsidies).sum

/-- The VTX balance of the staking account. -/
def Bank.balance (s : Bank) (self : Name) : ℤ := s.token.balance self Stak.vtx.code

/-! ## The invariant -/

/-- Balance, subsidies and withdrawals are principal and funding. -/
def Balanced (self : Name) (s : Bank) (log : List Receipt) : Prop :=
  s.balance self + subsidized log + withdrawn self log = s.stak.staked + funded self log

section Balanced

variable {rule : Stak.SubsidyRule} {self : Name} {s s' : Bank} {log : List Receipt}

theorem Balanced.extend (h : Balanced self s log) {e : Receipt}
    (hstep : s'.balance self + e.subsidies + e.withdrawal self - s'.stak.staked =
      s.balance self - s.stak.staked + e.funding self) : Balanced self s' (log ++ [e]) := by
  unfold Balanced subsidized withdrawn funded at h ⊢
  simp only [List.map_append, List.map_cons, List.map_nil, List.sum_append, List.sum_singleton]
  omega

/-- What a transfer does to the staking account's balance and to its live principal. -/
theorem deliver_ok {env : Token.Env} {sender recipient : Name} {quantity : Asset} {memo : String}
    (h : deliver rule self env s sender recipient quantity memo = .ok s') :
    sender ≠ recipient ∧
      ((sender = self ∧ s'.stak = s.stak ∧ s'.balance self = s.balance self - vtxIn quantity) ∨
      (sender ≠ self ∧ recipient = self ∧ sender = Stak.tokenAcc ∧ s'.stak = s.stak ∧
        s'.balance self = s.balance self + vtxIn quantity) ∨
      (sender ≠ self ∧ recipient = self ∧ sender ≠ Stak.tokenAcc ∧
        (∃ periodsNum, Stak.stake rule env.now s.stak sender quantity periodsNum = .ok s'.stak) ∧
        s'.balance self = s.balance self + vtxIn quantity) ∨
      (sender ≠ self ∧ recipient ≠ self ∧ s'.stak = s.stak ∧
        s'.balance self = s.balance self)) := by
  simp only [deliver, bind_eq_ok, pure_eq_ok] at h
  obtain ⟨token, htransfer, stak, hnotify, rfl⟩ := h
  have hne : sender ≠ recipient := (Token.transfer_ok htransfer).2.1
  have hbal := Token.transfer_balance htransfer self Stak.vtx.code
  have hcode : ∀ p : Prop, [Decidable p] →
      (if p ∧ Stak.vtx.code = quantity.symbol.code then quantity.amount else 0) =
        if p then vtxIn quantity else 0 := fun p _ => by
    unfold vtxIn
    by_cases hp : p <;> simp [hp, eq_comm]
  rw [hcode, hcode] at hbal
  refine ⟨hne, ?_⟩
  by_cases hs : sender = self
  · have hr : ¬ self = recipient := fun he => hne (hs.trans he)
    rw [if_pos (Or.inl hs)] at hnotify
    rcases Stak.onTransfer_ok hnotify with ⟨-, rfl⟩ | ⟨hs', -⟩
    · rw [if_pos hs.symm, if_neg hr, add_zero] at hbal
      exact Or.inl ⟨hs, rfl, hbal⟩
    · exact absurd hs hs'
  · have hs' : ¬ self = sender := fun he => hs he.symm
    by_cases hr : recipient = self
    · rw [if_pos (Or.inr hr)] at hnotify
      rw [if_neg hs', if_pos hr.symm, sub_zero] at hbal
      rcases Stak.onTransfer_ok hnotify with ⟨hc, rfl⟩ | ⟨-, -, hne', n, -, hstake⟩
      · have hacc : sender = Stak.tokenAcc := by
          rcases hc with hc | hc | hc
          · exact absurd hc hs
          · exact absurd hr hc
          · exact hc
        exact Or.inr (Or.inl ⟨hs, hr, hacc, rfl, hbal⟩)
      · exact Or.inr (Or.inr (Or.inl ⟨hs, hr, hne', ⟨_, hstake⟩, hbal⟩))
    · have hr' : ¬ self = recipient := fun he => hr he.symm
      rw [if_neg (by tauto)] at hnotify
      cases hnotify
      rw [if_neg hs', if_neg hr', sub_zero, add_zero] at hbal
      exact Or.inr (Or.inr (Or.inr ⟨hs, hr, rfl, hbal⟩))

/-- A stake adds its quantity to the live principal. -/
theorem stake_staked {now : ℕ} {st st' : Stak.State} {account : Name} {quantity : Asset}
    {periodsNum : ℕ} (h : Stak.stake rule now st account quantity periodsNum = .ok st') :
    st'.staked = st.staked + vtxIn quantity := by
  obtain ⟨row, g, hsym, -, -, -, -, hamt, -, -, hnew, -, -, rfl⟩ := Stak.stake_ok h
  have hvtx : vtxIn quantity = quantity.amount := if_pos (by rw [hsym])
  simp only [Stak.State.staked, Table.sum_put_new hnew, hamt, hvtx]

/-- An `unstake` takes the principal of the due rows out, and principal and subsidy out of the
balance. -/
theorem unstake_ok {env : Env} {owner : Name} (h : unstake rule self env s owner = .ok s') :
    s'.stak.staked = s.stak.staked -
        ((s.stak.due owner env.now).map (fun r => r.amount.amount)).sum ∧
      s'.balance self = s.balance self - ((s.stak.due owner env.now).map Stak.Stake.owed).sum := by
  simp only [unstake, bind_eq_ok, check_eq_ok, exists_const] at h
  obtain ⟨⟨stak, t⟩, hun, -, h⟩ := h
  obtain ⟨-, -, rfl, rfl⟩ := Stak.unstake_ok hun
  have hsum := Stak.sum_due s.stak owner env.now (fun r => r.amount.amount)
  obtain ⟨-, ⟨-, hstak, hbal⟩ | ⟨hne, -⟩ | ⟨hne, -⟩ | ⟨hne, -⟩⟩ := deliver_ok h
  · refine ⟨?_, ?_⟩
    · rw [hstak]
      simp only [Stak.State.staked]
      omega
    · rw [hbal]
      have hvtx : ∀ x : ℤ, vtxIn ⟨x, Stak.vtx⟩ = x := fun x => if_pos rfl
      rw [hvtx]
      rfl
  all_goals exact absurd rfl hne

/-- **Step lemma**: every transaction keeps the account balanced. -/
theorem balanced_step (h : Balanced self s log) {call : Env × Action} {out : List Receipt}
    (hs : bankStep rule self s call = .ok (s', out)) : Balanced self s' (log ++ out) := by
  obtain ⟨env, action⟩ := call
  cases action with
  | transfer sender recipient quantity memo =>
    simp only [bankStep, bind_eq_ok, check_eq_ok, exists_const, pure_eq_ok] at hs
    obtain ⟨s₁, hd, -, heq⟩ := hs
    cases heq
    refine h.extend ?_
    simp only [Receipt.subsidies, Receipt.withdrawal, Receipt.funding, List.map_nil, List.sum_nil,
      add_zero]
    obtain ⟨hne, ⟨hsend, hstak, hbal⟩ | ⟨hsend, hrec, hacc, hstak, hbal⟩ |
      ⟨hsend, hrec, hacc, ⟨p, hstake⟩, hbal⟩ | ⟨hsend, hrec, hstak, hbal⟩⟩ := deliver_ok hd
    · have hrec : ¬ (sender = Stak.tokenAcc ∧ recipient = self) := fun hc =>
        hne (hsend.trans hc.2.symm)
      rw [if_pos hsend, if_neg hrec, hstak, hbal]
      omega
    · rw [if_neg hsend, if_pos ⟨hacc, hrec⟩, hstak, hbal]
      omega
    · rw [if_neg hsend, if_neg (fun hc => hacc hc.1), stake_staked hstake, hbal]
      omega
    · rw [if_neg hsend, if_neg (fun hc => hrec hc.2), hstak, hbal]
      omega
  | unstake owner =>
    simp only [bankStep, bind_eq_ok, pure_eq_ok] at hs
    obtain ⟨s₁, hu, heq⟩ := hs
    cases heq
    refine h.extend ?_
    obtain ⟨hstaked, hbal⟩ := unstake_ok hu
    have howed : ((s.stak.due owner env.now).map Stak.Stake.owed).sum =
        ((s.stak.due owner env.now).map (fun r => r.amount.amount)).sum +
          ((s.stak.due owner env.now).map (fun r => r.subsidy.amount)).sum :=
      List.sum_map_add
    simp only [Receipt.subsidies, Receipt.withdrawal, Receipt.funding]
    omega
  | initglobal =>
    cases hs
    exact h.extend (by simp [Receipt.subsidies, Receipt.withdrawal, Receipt.funding, Bank.balance,
      Stak.State.staked, Stak.initglobal])
  | addblacklist account =>
    simp only [bankStep, bind_eq_ok, pure_eq_ok] at hs
    obtain ⟨stak, hbl, heq⟩ := hs
    cases heq
    have hrows := (Stak.addblacklist_ok hbl).1
    exact h.extend (by simp [Receipt.subsidies, Receipt.withdrawal, Receipt.funding, Bank.balance,
      Stak.State.staked, hrows])
  | rmblacklist account =>
    simp only [bankStep, bind_eq_ok, pure_eq_ok] at hs
    obtain ⟨stak, hbl, heq⟩ := hs
    cases heq
    have hrows := (Stak.rmblacklist_ok hbl).1
    exact h.extend (by simp [Receipt.subsidies, Receipt.withdrawal, Receipt.funding, Bank.balance,
      Stak.State.staked, hrows])

end Balanced

/-! ## Solvency -/

/-- **Solvency**: from an empty staking account, after every run, the VTX balance of the account
with the subsidies paid and what was transferred out of it is the live principal with the funding
received; the balance covers the principal exactly when the funding covers the rest. -/
theorem solvency_iff_funded (rule : Stak.SubsidyRule) (self : Name) (s₀ : Bank)
    (hrows : s₀.stak.accountStake = Table.empty) (hbalance : s₀.balance self = 0)
    (calls : List (Env × Action)) :
    let s := (run (bankStep rule self) s₀ calls).1
    let log := (run (bankStep rule self) s₀ calls).2
    s.balance self + subsidized log + withdrawn self log = s.stak.staked + funded self log ∧
    (s.stak.staked ≤ s.balance self ↔ subsidized log + withdrawn self log ≤ funded self log) := by
  intro s log
  have h0 : Balanced self s₀ [] := by
    simp [Balanced, hbalance, subsidized, withdrawn, funded, Stak.State.staked, hrows]
  have h : Balanced self s log :=
    run_invariant (Balanced self) h0 (fun _ _ _ _ _ h hs => balanced_step h hs) calls
  unfold Balanced at h
  exact ⟨h, by omega⟩

/-- Two holders of 1000 VTX each, and nothing staked. -/
def twoHolders : Bank where
  token :=
    { accounts := (Table.empty.put ⟨Name.ofString "alice", ⟨100000000000, Stak.vtx⟩⟩).put
        ⟨Name.ofString "bob", ⟨100000000000, Stak.vtx⟩⟩
      stats := Table.empty.put
        ⟨⟨200000000000, Stak.vtx⟩, ⟨1000000000000000, Stak.vtx⟩, Name.ofString "issuer"⟩ }
  stak := {}

/-- Both stake their 1000 VTX for no period at all, and the first unstakes. -/
def earlyLeaver : List (Env × Action) :=
  let alice := Name.ofString "alice"
  let bob := Name.ofString "bob"
  let staking := Name.ofString "vltxstakenow"
  let env (signer : Name) : Env := ⟨⟨⟨[⟨signer, active⟩], 1000⟩, fun _ => true⟩, true⟩
  [(env staking, .initglobal),
    (env alice, .transfer alice staking ⟨100000000000, Stak.vtx⟩ "0"),
    (env bob, .transfer bob staking ⟨100000000000, Stak.vtx⟩ "0"),
    (env alice, .unstake alice)]

theorem solvency_iff_funded_earlyLeaver :
    let s := (run (bankStep .exact (Name.ofString "vltxstakenow")) twoHolders earlyLeaver).1
    let log := (run (bankStep .exact (Name.ofString "vltxstakenow")) twoHolders earlyLeaver).2
    s.balance (Name.ofString "vltxstakenow") + subsidized log +
        withdrawn (Name.ofString "vltxstakenow") log =
      s.stak.staked + funded (Name.ofString "vltxstakenow") log ∧
    (s.stak.staked ≤ s.balance (Name.ofString "vltxstakenow") ↔
      subsidized log + withdrawn (Name.ofString "vltxstakenow") log ≤
        funded (Name.ofString "vltxstakenow") log) :=
  solvency_iff_funded .exact (Name.ofString "vltxstakenow") twoHolders rfl (by decide +kernel)
    earlyLeaver

/-- The early leaver's subsidy is paid from the other's principal. -/
theorem earlyLeaver_insolvent : ¬ ∀ (rule : Stak.SubsidyRule) (self : Name) (s₀ : Bank)
    (calls : List (Env × Action)), s₀.stak.accountStake = Table.empty → s₀.balance self = 0 →
    (run (bankStep rule self) s₀ calls).1.stak.staked ≤
      (run (bankStep rule self) s₀ calls).1.balance self :=
  fun h => absurd (h .exact (Name.ofString "vltxstakenow") twoHolders earlyLeaver rfl
    (by decide +kernel)) (by decide +kernel)

end VDexNode.System
