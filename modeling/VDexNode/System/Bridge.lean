import VDexNode.Custodian.Accounting
import VDexNode.Token.Issuance

/-!
# VDexNode.System.Bridge — the custodian and the token contract it retires from

`updtblnc` sends its `retire` to the contract deployed at `volentixtsys`, under the permission of
that account.  Here the inline action is run: a report that retires goes through only when the token
contract carries the retirement out, and is undone as a whole otherwise.

* `Overshoots` : a report above the stored balance that finds its majority, its range and the funds.
* `pegged_iff` : **the supply and the stored balance move together, up to what the issuer issues and
  retires itself, exactly when no report overshoots.**
* `inert` : a bridge whose token has another issuer than `volentixtsys` never retires anything.
-/

namespace VDexNode.System

open Eosio

/-! ## The two contracts -/

/-- The tables of the two contracts. -/
structure Bridge where
  token : Token.State
  custodian : Custodian.State

/-- The calls of both contracts.  One to the custodian brings what the locals of `updtblnc` start
from. -/
inductive BridgeCall where
  | token (env : Token.Env) (action : Token.Action)
  | custodian (same previous : UInt64) (env : Custodian.Env) (action : Custodian.Action)

/-- The inline `retire` runs with the one authority it was sent with. -/
def runRetire (env : Custodian.Env) (token : Token.State) (a : Custodian.RetireAction) :
    Result Token.State :=
  Token.retire ⟨⟨[a.auth], env.now⟩, fun _ => true⟩ token a.quantity a.memo

/-- One call, with the retirements it sends. -/
def bridgeStep (self : Name) (s : Bridge) :
    BridgeCall → Result (Bridge × List Custodian.Retirement)
  | .token env action => do
    let (token, _) ← Token.step Custodian.tokenAcc s.token (env, action)
    return ({ s with token := token }, [])
  | .custodian same previous env action => do
    let (custodian, sent) ← Custodian.step self same.toNat previous s.custodian (env, action)
    let token ← sent.foldlM (fun token e => runRetire env token e.action) s.token
    return (⟨token, custodian⟩, sent)

/-- The call that files the report `c`. -/
def reportCall (c : Custodian.Submission) : BridgeCall :=
  .custodian c.same c.previous c.env (.updtblnc c.account c.balance c.timestamp)

/-- What a call adds to the supply of VTX by itself, not counting what a report retires. -/
def BridgeCall.minted : BridgeCall → ℤ
  | .token _ action => action.minted Stak.vtx.code
  | .custodian _ _ _ _ => 0

/-- The call stores a balance that was not reported. -/
def BridgeCall.Rebases (c : BridgeCall) : Prop :=
  ∃ same previous env balance, c = .custodian same previous env (.initbalance balance)

/-- The token contract lets `volentixtsys` retire `amount`: it is the issuer and has the funds. -/
def CanRetire (s : Token.State) (amount : ℤ) : Prop :=
  ∃ st, s.stats.find Stak.vtx.code = some st ∧ st.issuer = Custodian.tokenAcc ∧
    st.supply.symbol = Stak.vtx ∧ amount ≤ s.balance Custodian.tokenAcc Stak.vtx.code

/-- The call is a report above the stored balance, and nothing stops the retirement it causes: the
difference has wrapped around. -/
def Overshoots (s : Bridge) (call : BridgeCall) : Prop :=
  ∃ c cur, call = reportCall c ∧ Custodian.Sends s.custodian c cur ∧ cur < c.balance ∧
    CanRetire s.token (cur - c.balance).toNat

/-- The stored balance, `0` before `initbalance`. -/
def stored (s : Custodian.State) : ℤ := ((s.currentbal.map UInt64.toNat).getD 0 : ℕ)

/-- The supply of VTX less the stored balance. -/
def Bridge.gap (s : Bridge) : ℤ := s.token.supply Stak.vtx.code - stored s.custodian

/-! ## One call -/

/-- The inline action that retires `amount`. -/
def retireAction (amount : ℤ) : Custodian.RetireAction :=
  ⟨⟨Custodian.tokenAcc, active⟩, ⟨amount, Stak.vtx⟩, "test"⟩

/-- A report that goes through by itself: it sends the retirement of the difference, or it leaves
the stored balance alone. -/
theorem submit_cases {s s' : Custodian.State} {c : Custodian.Submission}
    {out : List Custodian.Retirement} (h : Custodian.submit s c = .ok (s', out)) :
    (out = [] ∧ s'.currentbal = s.currentbal) ∨
      ∃ cur e, Custodian.Sends s c cur ∧ out = [e] ∧
        e.action = retireAction (cur - c.balance).toNat ∧ s'.currentbal = some c.balance := by
  rcases Custodian.updtblnc_sends h with hnone | ⟨cur, e, hsend, rfl, hamount, hnew⟩
  · exact Or.inl hnone
  · obtain ⟨report, _, cur', -, -, ⟨-, -, -, -, hout⟩ | ⟨-, -, hout⟩⟩ := Custodian.updtblnc_cases h
    · obtain rfl := List.singleton_inj.mp hout
      refine Or.inr ⟨cur, _, hsend, rfl, ?_, hnew⟩
      rw [← hamount]
      rfl
    · cases hout

/-- What a call of the custodian sends: nothing, or the retirement of a report. -/
theorem custodian_cases {self : Name} {same previous : UInt64} {s s' : Custodian.State}
    {env : Custodian.Env} {action : Custodian.Action} {out : List Custodian.Retirement}
    (h : Custodian.step self same.toNat previous s (env, action) = .ok (s', out)) :
    (out = [] ∧ ((∀ balance, action ≠ .initbalance balance) → s'.currentbal = s.currentbal)) ∨
      ∃ c cur e, BridgeCall.custodian same previous env action = reportCall c ∧
        Custodian.Sends s c cur ∧ out = [e] ∧
        e.action = retireAction (cur - c.balance).toNat ∧ s'.currentbal = some c.balance := by
  cases action with
  | updtblnc account balance timestamp =>
    have hsubmit : Custodian.submit s ⟨env, same, previous, account, balance, timestamp⟩ =
        .ok (s', out) := h
    rcases submit_cases hsubmit with ⟨hout, hsame⟩ | ⟨cur, e, hsend, hout, haction, hnew⟩
    · exact Or.inl ⟨hout, fun _ => hsame⟩
    · exact Or.inr ⟨_, cur, e, rfl, hsend, hout, haction, hnew⟩
  | initbalance balance =>
    obtain ⟨_, -, heq⟩ := bind_eq_ok.mp h
    cases heq
    exact Or.inl ⟨rfl, fun hne => absurd rfl (hne balance)⟩
  | clearblnc =>
    simp only [Custodian.step, Custodian.clearblnc, bind_eq_ok, pure_eq_ok] at h
    obtain ⟨_, ⟨_, -, rfl⟩, heq⟩ := h
    cases heq
    exact Or.inl ⟨rfl, fun _ => rfl⟩
  | regnode account =>
    simp only [Custodian.step, Custodian.regnode, bind_eq_ok, pure_eq_ok] at h
    obtain ⟨s₁, ⟨_, -, hreg⟩, heq⟩ := h
    cases heq
    refine Or.inl ⟨rfl, fun _ => ?_⟩
    split_ifs at hreg with hnew
    · obtain ⟨_, -, heq⟩ := bind_eq_ok.mp hreg
      cases heq
      rfl
    · cases hreg
      rfl
  | rmnode account =>
    simp only [Custodian.step, Custodian.rmnode, bind_eq_ok, pure_eq_ok] at h
    obtain ⟨s₁, ⟨_, -, hrm⟩, heq⟩ := h
    cases heq
    refine Or.inl ⟨rfl, fun _ => ?_⟩
    split_ifs at hrm with hold
    · cases hrm
      rfl
    · cases hrm
      rfl

section Step

variable {self : Name} {s s' : Bridge} {call : BridgeCall} {out : List Custodian.Retirement}

/-- **What a call does**: the token contract acts, or the custodian does and retires nothing, or a
report retires the difference to the stored balance and becomes the stored balance. -/
theorem bridgeStep_cases (h : bridgeStep self s call = .ok (s', out)) :
    (∃ env action t, call = .token env action ∧
      Token.step Custodian.tokenAcc s.token (env, action) = .ok (s'.token, t) ∧
      s'.custodian = s.custodian ∧ out = []) ∨
    (out = [] ∧ s'.token = s.token ∧ call.minted = 0 ∧
      (¬ call.Rebases → s'.custodian.currentbal = s.custodian.currentbal)) ∨
    ∃ c cur e, call = reportCall c ∧ Custodian.Sends s.custodian c cur ∧ out = [e] ∧
      e.action = retireAction (cur - c.balance).toNat ∧
      runRetire c.env s.token e.action = .ok s'.token ∧
      s'.custodian.currentbal = some c.balance := by
  cases call with
  | token env action =>
    simp only [bridgeStep, bind_eq_ok, pure_eq_ok] at h
    obtain ⟨⟨token, t⟩, ht, heq⟩ := h
    cases heq
    exact Or.inl ⟨env, action, t, rfl, ht, rfl, rfl⟩
  | custodian same previous env action =>
    simp only [bridgeStep, bind_eq_ok, pure_eq_ok] at h
    obtain ⟨⟨custodian, sent⟩, hc, token, ht, heq⟩ := h
    cases heq
    rcases custodian_cases hc with ⟨rfl, hsame⟩ | ⟨c, cur, e, hcall, hsend, rfl, haction, hnew⟩
    · cases ht
      refine Or.inr (Or.inl ⟨rfl, rfl, rfl, fun hbase => hsame ?_⟩)
      rintro balance rfl
      exact hbase ⟨same, previous, env, balance, rfl⟩
    · have henv : env = c.env := (BridgeCall.custodian.inj hcall).2.2.1
      rw [List.foldlM_cons, henv] at ht
      obtain ⟨token', ht, heq⟩ := bind_eq_ok.mp ht
      cases heq
      exact Or.inr (Or.inr ⟨c, cur, e, hcall, hsend, rfl, haction, ht, hnew⟩)

/-- A report that finds what it needs is left to the token contract. -/
theorem bridgeStep_report (self : Name) {c : Custodian.Submission} {cur : UInt64}
    (hsend : Custodian.Sends s.custodian c cur) :
    ∃ custodian e, custodian.currentbal = some c.balance ∧ bridgeStep self s (reportCall c) = do
      let token ← runRetire c.env s.token (retireAction (cur - c.balance).toNat)
      return (⟨token, custodian⟩, [e]) := by
  obtain ⟨custodian, sent, hs, hnew⟩ := hsend.ok
  rcases submit_cases hs with ⟨-, hsame⟩ | ⟨cur', e, hsend', rfl, haction, -⟩
  · -- the stored balance would be the report, and there would be no difference
    have hpos := hsend.positive
    rw [hnew, hsend.current] at hsame
    rw [Option.some.inj hsame, UInt64.sub_self] at hpos
    exact absurd hpos (lt_irrefl 0)
  · obtain rfl : cur' = cur := Option.some.inj (hsend'.current.symm.trans hsend.current)
    have hstep : Custodian.step self c.same.toNat c.previous s.custodian
        (c.env, .updtblnc c.account c.balance c.timestamp) = .ok (custodian, [e]) := hs
    refine ⟨custodian, e, hnew, ?_⟩
    simp only [bridgeStep, reportCall, hstep, ok_bind, List.foldlM_cons, List.foldlM_nil, haction,
      bind_pure]

/-- In a state in order, the token contract carries a retirement out exactly when it can pay. -/
theorem canRetire_iff {token : Token.State} (h : Token.Sound token) (env : Custodian.Env)
    {amount : ℤ} (hpos : 0 < amount) (hle : amount ≤ Asset.maxAmount) :
    (∃ token', runRetire env token (retireAction amount) = .ok token') ↔
      CanRetire token amount := by
  unfold runRetire
  rw [Token.retire_iff h]
  constructor
  · rintro ⟨st, hst, ⟨p, hp, hissuer⟩, -, -, hsym, -, hcov⟩
    rw [List.mem_singleton.mp hp] at hissuer
    have hissuer' : Custodian.tokenAcc = st.issuer := hissuer
    rw [← hissuer'] at hcov
    exact ⟨st, hst, hissuer'.symm, hsym.symm, hcov⟩
  · rintro ⟨st, hst, hissuer, hsym, hcov⟩
    have hvtx : Stak.vtx.isValid := by decide
    have hmemo : "test".utf8ByteSize ≤ 256 := by decide
    refine ⟨st, hst, ⟨_, List.mem_singleton_self _, hissuer.symm⟩, ⟨⟨?_, hle⟩, hvtx⟩, hpos,
      hsym.symm, hmemo, ?_⟩
    · show -Asset.maxAmount ≤ amount
      omega
    · rw [hissuer]
      exact hcov

/-- **Step lemma**: the token contract stays in order. -/
theorem sound_bridge (h : Token.Sound s.token) (hs : bridgeStep self s call = .ok (s', out)) :
    Token.Sound s'.token := by
  rcases bridgeStep_cases hs with ⟨env, action, t, -, ht, -, -⟩ | ⟨-, htoken, -, -⟩ |
      ⟨c, cur, e, -, -, -, -, ht, -⟩
  · exact Token.sound_step h ht
  · rw [htoken]
    exact h
  · exact h.of_retire ht

/-- What is retired comes off the supply. -/
theorem runRetire_supply {env : Custodian.Env} {token token' : Token.State} {amount : ℤ}
    (h : runRetire env token (retireAction amount) = .ok token') :
    token'.supply Stak.vtx.code = token.supply Stak.vtx.code - amount := by
  obtain ⟨st, hst, hstats⟩ := Token.retire_stats h
  have hcode : (retireAction amount).quantity.symbol.code = Stak.vtx.code := rfl
  rw [Token.supply_of_shift hst hstats, if_pos hcode]
  rfl

/-- **Step lemma**: the supply changes by what the call mints and what it retires. -/
theorem supply_bridge (hs : bridgeStep self s call = .ok (s', out)) :
    s'.token.supply Stak.vtx.code =
      s.token.supply Stak.vtx.code + call.minted - Custodian.retired out := by
  rcases bridgeStep_cases hs with ⟨env, action, t, rfl, ht, -, rfl⟩ | ⟨rfl, htoken, hminted, -⟩ |
      ⟨c, cur, e, rfl, -, rfl, haction, ht, -⟩
  · rw [Token.supply_step ht]
    exact (sub_zero _).symm
  · rw [htoken, hminted, add_zero]
    exact (sub_zero _).symm
  · rw [haction] at ht
    rw [runRetire_supply ht]
    simp only [Custodian.retired, List.map_cons, List.map_nil, List.sum_cons, List.sum_nil, haction,
      retireAction, reportCall, BridgeCall.minted, add_zero]

/-- The difference of two balances, as an integer. -/
theorem toNat_sub_eq (cur b : UInt64) :
    ((cur - b).toNat : ℤ) = cur.toNat - b.toNat + if cur < b then 2 ^ 64 else 0 := by
  split_ifs with hlt
  · have hcur := cur.toNat_lt
    have hb := b.toNat_lt
    rw [UInt64.lt_iff_toNat_lt] at hlt
    rw [UInt64.toNat_sub, Nat.mod_eq_of_lt (by omega)]
    omega
  · have := Custodian.toNat_sub_add hlt
    omega

/-- What the retirement of the difference and the new stored balance do to the gap. -/
theorem gap_of_report {c : Custodian.Submission} {cur : UInt64}
    (hcur : s.custodian.currentbal = some cur) (hnew : s'.custodian.currentbal = some c.balance)
    (ht : runRetire c.env s.token (retireAction (cur - c.balance).toNat) = .ok s'.token) :
    s'.gap = s.gap - if cur < c.balance then 2 ^ 64 else 0 := by
  have hsupply := runRetire_supply ht
  rw [toNat_sub_eq] at hsupply
  simp only [Bridge.gap, stored, hcur, hnew, Option.map_some, Option.getD_some, hsupply]
  omega

/-- **Step lemma**: a call moves the gap by what it mints, unless it overshoots. -/
theorem gap_step (hs : bridgeStep self s call = .ok (s', out)) (h : Token.Sound s.token)
    (hbase : ¬ call.Rebases) (hover : ¬ Overshoots s call) : s'.gap = s.gap + call.minted := by
  have hsupply := supply_bridge hs
  rcases bridgeStep_cases hs with ⟨env, action, t, rfl, -, hc, rfl⟩ |
      ⟨rfl, -, -, hsame⟩ | ⟨c, cur, e, rfl, hsend, -, haction, ht, hnew⟩
  · simp only [Bridge.gap, hsupply, hc, Custodian.retired, List.map_nil, List.sum_nil]
    omega
  · simp only [Bridge.gap, stored, hsupply, hsame hbase, Custodian.retired, List.map_nil,
      List.sum_nil]
    omega
  · rw [haction] at ht
    have hpos : (0 : ℤ) < (cur - c.balance).toNat := by
      have := hsend.positive
      omega
    have hpay := (canRetire_iff h c.env hpos hsend.inRange).mp ⟨s'.token, ht⟩
    rw [gap_of_report hsend.current hnew ht,
      if_neg (fun hlt => hover ⟨c, cur, rfl, hsend, hlt, hpay⟩)]
    exact (sub_zero _).trans (add_zero _).symm

/-- A report that overshoots goes through, and the gap falls by `2 ^ 64`. -/
theorem Overshoots.ok (self : Name) (hover : Overshoots s call) (h : Token.Sound s.token) :
    ∃ s' out, bridgeStep self s call = .ok (s', out) ∧ s'.gap = s.gap + call.minted - 2 ^ 64 := by
  obtain ⟨c, cur, rfl, hsend, hlt, hpay⟩ := hover
  have hpos : (0 : ℤ) < (cur - c.balance).toNat := by
    have := hsend.positive
    omega
  obtain ⟨token, ht⟩ := (canRetire_iff h c.env hpos hsend.inRange).mpr hpay
  obtain ⟨custodian, e, hnew, hs⟩ := bridgeStep_report self hsend
  rw [ht] at hs
  refine ⟨⟨token, custodian⟩, [e], hs, ?_⟩
  have hgap : Bridge.gap ⟨token, custodian⟩ = s.gap - if cur < c.balance then 2 ^ 64 else 0 :=
    gap_of_report hsend.current hnew ht
  rw [hgap, if_pos hlt]
  show _ = s.gap + 0 - 2 ^ 64
  omega

end Step

/-! ## Runs -/

section Run

variable {self : Name} {s : Bridge}

/-- What calls add to the supply of VTX by themselves. -/
def mintedBy (calls : List BridgeCall) : ℤ := (calls.map BridgeCall.minted).sum

theorem mintedBy_concat (calls : List BridgeCall) (call : BridgeCall) :
    mintedBy (calls ++ [call]) = mintedBy calls + call.minted := by
  simp [mintedBy]

theorem sound_bridge_run (h : Token.Sound s.token) (calls : List BridgeCall) :
    Token.Sound (run (bridgeStep self) s calls).1.token :=
  run_invariant (fun s _ => Token.Sound s.token) h (fun _ _ _ _ _ h hs => sound_bridge h hs) calls

/-- **Run lemma**: the supply is what it was, with what has been minted and without what reports
have retired. -/
theorem supply_bridge_run (calls : List BridgeCall) :
    (run (bridgeStep self) s calls).1.token.supply Stak.vtx.code =
      s.token.supply Stak.vtx.code + mintedBy (returned (bridgeStep self) s calls) -
        Custodian.retired (run (bridgeStep self) s calls).2 := by
  refine run_trace_of (fun (s' : Bridge) log past => s'.token.supply Stak.vtx.code =
    s.token.supply Stak.vtx.code + mintedBy past - Custodian.retired log) (fun _ _ => True) ?_ ?_
    calls (Along.of_forall (fun _ _ _ => trivial))
  · simp [mintedBy, Custodian.retired]
  · intro s₁ log past call s₂ out h _ hs
    have hretired : Custodian.retired (log ++ out) =
        Custodian.retired log + Custodian.retired out := by
      simp [Custodian.retired]
    rw [supply_bridge hs, h, mintedBy_concat, hretired]
    omega

/-- **Run lemma**: while no report overshoots, the gap moves with what is minted. -/
theorem gap_run (h : Token.Sound s.token) (calls : List BridgeCall)
    (hbase : ∀ c ∈ calls, ¬ c.Rebases)
    (hover : Along (bridgeStep self) (fun s c => ¬ Overshoots s c) s calls) :
    (run (bridgeStep self) s calls).1.gap =
      s.gap + mintedBy (returned (bridgeStep self) s calls) := by
  have hbases : Along (bridgeStep self) (fun _ c => ¬ c.Rebases) s calls :=
    Along.of_forall (fun c hc _ => hbase c hc)
  refine (run_history_of (fun s' past => Token.Sound s'.token ∧ s'.gap = s.gap + mintedBy past)
    (fun s c => ¬ c.Rebases ∧ ¬ Overshoots s c) ⟨h, ?_⟩ ?_ calls (hbases.and hover)).2
  · simp [mintedBy]
  · rintro s₁ past call s₂ out ⟨hsound, hgap⟩ ⟨hbase, hover⟩ hs
    refine ⟨sound_bridge hsound hs, ?_⟩
    rw [gap_step hs hsound hbase hover, hgap, mintedBy_concat, add_assoc]

/-- **Peg**: the supply of VTX and the stored balance move together at every moment, up to what the
issuer issues and retires itself, exactly when no report overshoots. -/
theorem pegged_iff (self : Name) {s : Bridge} (h : Token.Sound s.token) (calls : List BridgeCall)
    (hbase : ∀ c ∈ calls, ¬ c.Rebases) :
    (∀ pre, pre <+: calls → (run (bridgeStep self) s pre).1.gap =
      s.gap + mintedBy (returned (bridgeStep self) s pre)) ↔
    Along (bridgeStep self) (fun s c => ¬ Overshoots s c) s calls := by
  constructor
  · intro hpeg
    rw [along_iff_forall_append]
    rintro pre call post rfl hover
    have hpre : pre ++ [call] <+: pre ++ call :: post := ⟨post, by rw [List.append_assoc]; rfl⟩
    obtain ⟨s', out, hs, hgap⟩ := hover.ok self (sound_bridge_run h pre)
    have hbefore := hpeg pre (List.prefix_append pre _)
    have hafter := hpeg (pre ++ [call]) hpre
    have hreturned : returned (bridgeStep self) s (pre ++ [call]) =
        returned (bridgeStep self) s pre ++ [call] := by
      rw [returned_concat, hs]
      rfl
    rw [run_concat, commit_of_ok hs, hreturned, mintedBy_concat] at hafter
    have hfell : s'.gap = s.gap + (mintedBy (returned (bridgeStep self) s pre) + call.minted) :=
      hafter
    omega
  · intro hover pre hpre
    exact gap_run h pre (fun c hc => hbase c (hpre.subset hc)) (hover.initial hpre)

end Run

/-- 500 units of VTX, created for `issuer` and issued to it. -/
def issuedTo (issuer : Name) : List (Token.Env × Token.Action) :=
  let env : Token.Env := ⟨⟨[⟨Custodian.tokenAcc, active⟩, ⟨issuer, active⟩], 0⟩, fun _ => true⟩
  [(env, .create issuer ⟨1000, Stak.vtx⟩), (env, .issue issuer ⟨500, Stak.vtx⟩ "")]

/-- The 500 units stand against a stored balance of 500. -/
def bridgeOf (issuer : Name) : Bridge where
  token := (run (Token.step Custodian.tokenAcc) {} (issuedTo issuer)).1
  custodian := { currentbal := some 500 }

theorem reports_not_rebases {c₁ c₂ : Custodian.Submission} :
    ∀ c ∈ [reportCall c₁, reportCall c₂], ¬ c.Rebases := by
  rintro c hc ⟨same, previous, env, balance, rfl⟩
  simp [reportCall] at hc

/-- The balance is reported to have fallen to 300, twice. -/
def spentReports : List BridgeCall :=
  [reportCall (Custodian.reportOf 300), reportCall (Custodian.reportOf 300)]

theorem pegged_iff_spent :
    (run (bridgeStep (Name.ofString "vltxcstdn")) (bridgeOf Custodian.tokenAcc)
      spentReports).1.gap = (bridgeOf Custodian.tokenAcc).gap + mintedBy (returned
        (bridgeStep (Name.ofString "vltxcstdn")) (bridgeOf Custodian.tokenAcc) spentReports) := by
  have hbelow : ∀ s : Bridge, s.custodian.currentbal = some 500 →
      ¬ Overshoots s (reportCall (Custodian.reportOf 300)) := by
    rintro s hcur ⟨c, cur, hcall, hsend, hlt, -⟩
    obtain rfl : cur = 500 := Option.some.inj (hsend.current.symm.trans hcur)
    have hbalance : c.balance = 300 :=
      (Custodian.Action.updtblnc.inj (BridgeCall.custodian.inj hcall).2.2.2).2.1.symm
    rw [hbalance] at hlt
    exact absurd hlt (by decide)
  exact (pegged_iff _ (Token.sound_run Custodian.tokenAcc _) _ reports_not_rebases).mpr
    ⟨hbelow _ rfl, hbelow _ (by decide +kernel), trivial⟩ spentReports
    (List.prefix_refl spentReports)

/-! ## Whose token it is -/

section Run

variable {self : Name} {s : Bridge}

/-- A retirement has been paid by `volentixtsys` as the issuer. -/
theorem issuer_of_runRetire {env : Custodian.Env} {token token' : Token.State} {amount : ℤ}
    (h : runRetire env token (retireAction amount) = .ok token') {st : Token.CurrencyStats}
    (hst : token.stats.find Stak.vtx.code = some st) : st.issuer = Custodian.tokenAcc := by
  obtain ⟨st', hret, -⟩ := Token.retire_balance h
  obtain rfl : st' = st := Option.some.inj (hret.stat.symm.trans hst)
  obtain ⟨p, hp, hissuer⟩ := hret.auth
  rw [← hissuer, List.mem_singleton.mp hp]
  rfl

/-- **Step lemma**: under another issuer nothing is retired, and the issuer stays. -/
theorem inert_step {s' : Bridge} {call : BridgeCall} {out : List Custodian.Retirement}
    (hs : bridgeStep self s call = .ok (s', out)) {st : Token.CurrencyStats}
    (hst : s.token.stats.find Stak.vtx.code = some st) (hissuer : st.issuer ≠ Custodian.tokenAcc) :
    out = [] ∧ (¬ call.Rebases → s'.custodian.currentbal = s.custodian.currentbal) ∧
      ∃ st', s'.token.stats.find Stak.vtx.code = some st' ∧ st'.issuer = st.issuer := by
  rcases bridgeStep_cases hs with ⟨env, action, t, -, ht, hc, rfl⟩ | ⟨rfl, htoken, -, hsame⟩ |
      ⟨c, cur, e, -, -, -, haction, ht, -⟩
  · exact ⟨rfl, fun _ => by rw [hc], Token.issuer_step ht hst⟩
  · exact ⟨rfl, hsame, st, by rw [htoken, hst], rfl⟩
  · rw [haction] at ht
    exact absurd (issuer_of_runRetire ht hst) hissuer

/-- **Run lemma**: under another issuer no report of a run retires anything. -/
theorem inert_run (self : Name) {st : Token.CurrencyStats}
    (hst : s.token.stats.find Stak.vtx.code = some st) (hissuer : st.issuer ≠ Custodian.tokenAcc)
    (calls : List BridgeCall) (hbase : ∀ c ∈ calls, ¬ c.Rebases) :
    (run (bridgeStep self) s calls).2 = [] ∧
      (run (bridgeStep self) s calls).1.custodian.currentbal = s.custodian.currentbal := by
  have hbases : Along (bridgeStep self) (fun _ c => ¬ c.Rebases) s calls :=
    Along.of_forall (fun c hc _ => hbase c hc)
  have hrun := run_invariant_of (fun s' log => log = [] ∧
      s'.custodian.currentbal = s.custodian.currentbal ∧
      ∃ st', s'.token.stats.find Stak.vtx.code = some st' ∧ st'.issuer ≠ Custodian.tokenAcc)
    (fun _ c => ¬ c.Rebases) ⟨rfl, rfl, st, hst, hissuer⟩ ?_ calls hbases
  · exact ⟨hrun.1, hrun.2.1⟩
  · rintro s₁ log call s₂ out ⟨rfl, hcur, st₁, hst₁, hissuer₁⟩ hbase hs
    obtain ⟨rfl, hsame, st₂, hst₂, heq⟩ := inert_step hs hst₁ hissuer₁
    exact ⟨rfl, (hsame hbase).trans hcur, st₂, hst₂, heq ▸ hissuer₁⟩

/-- **Who pays**: in every state a run reaches, a report that the custodian would act on goes
through exactly when `volentixtsys` issues VTX and holds the difference.  Under another issuer no
run ever retires anything: the stored balance stays, and the supply changes only by hand. -/
theorem retirement_paid_iff (self : Name) {s : Bridge} (h : Token.Sound s.token)
    (calls : List BridgeCall) :
    (∀ c cur, Custodian.Sends (run (bridgeStep self) s calls).1.custodian c cur →
      ((∃ r, bridgeStep self (run (bridgeStep self) s calls).1 (reportCall c) = .ok r) ↔
        CanRetire (run (bridgeStep self) s calls).1.token (cur - c.balance).toNat)) ∧
    ∀ st, s.token.stats.find Stak.vtx.code = some st → st.issuer ≠ Custodian.tokenAcc →
      (∀ c ∈ calls, ¬ c.Rebases) →
      (run (bridgeStep self) s calls).1.custodian.currentbal = s.custodian.currentbal ∧
      (run (bridgeStep self) s calls).1.token.supply Stak.vtx.code =
        s.token.supply Stak.vtx.code + mintedBy (returned (bridgeStep self) s calls) := by
  refine ⟨fun c cur hsend => ?_, fun st hst hissuer hbase => ?_⟩
  · have hsound : Token.Sound (run (bridgeStep self) s calls).1.token := sound_bridge_run h calls
    have hpos : (0 : ℤ) < (cur - c.balance).toNat := by
      have := hsend.positive
      omega
    obtain ⟨custodian, e, -, hs⟩ := bridgeStep_report self hsend
    rw [← canRetire_iff hsound c.env hpos hsend.inRange, hs]
    constructor
    · rintro ⟨r, hr⟩
      obtain ⟨token, ht, -⟩ := bind_eq_ok.mp hr
      exact ⟨token, ht⟩
    · rintro ⟨token, ht⟩
      exact ⟨_, bind_eq_ok.mpr ⟨token, ht, rfl⟩⟩
  · obtain ⟨hlog, hcur⟩ := inert_run self hst hissuer calls hbase
    refine ⟨hcur, ?_⟩
    rw [supply_bridge_run, hlog]
    exact sub_zero _

end Run

theorem retirement_paid_iff_foreign :
    (run (bridgeStep (Name.ofString "vltxcstdn")) (bridgeOf (Name.ofString "issuer"))
      spentReports).1.custodian.currentbal = some 500 := by
  exact ((retirement_paid_iff _ (Token.sound_run Custodian.tokenAcc _) _).2
    ⟨⟨500, Stak.vtx⟩, ⟨1000, Stak.vtx⟩, Name.ofString "issuer"⟩ (by decide +kernel)
    (by decide +kernel) reports_not_rebases).1

end VDexNode.System
