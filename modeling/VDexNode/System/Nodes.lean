import VDexNode.Distribut.Rate

/-!
# VDexNode.System.Nodes — the voting contract and the reward contract together

`calcrewards` asks the voting contract for the nodes to credit, with a number and a job.

* `selected` : the active producers that list the job, in the order of the index, so many of them.
* `AllSelected` : these are all the producers there are.
* `credited_selected` : **a calculation credits selected producers only exactly when all producers
  are selected.**
-/

namespace VDexNode.System

open Eosio

/-- The tables of the two contracts. -/
structure Nodes (D : Type) where
  vote : Vote.State D := {}
  distribut : Distribut.State := {}

/-- The calls of both contracts.  One to the voting contract reads the staking and token tables; of
one to the reward contract, the token contract lets through the transfers it accepts. -/
inductive NodesCall where
  | vote (env : Vote.Env) (action : Vote.Action)
  | distribut (ctx : Ctx) (accepted : TransferAction → Bool) (action : Distribut.Action)

section Nodes

variable {D : Type} [Field D] [LinearOrder D]

/-- One call; the reward contract reads the tables of `volentixvote` as they are. -/
def nodesStep (sqrt : D → D) (self : Name) (s : Nodes D) :
    NodesCall → Result (Nodes D × List Distribut.Receipt)
  | .vote env action => do
    let vote ← Vote.perform sqrt Stak.votingContract env s.vote action
    return ({ s with vote := vote }, [])
  | .distribut ctx accepted action => do
    let (distribut, out) ← Distribut.step self s.distribut (⟨ctx, s.vote, accepted⟩, action)
    return ({ s with distribut := distribut }, out)

/-! ## Selection -/

/-- The first `top` of the active producers that list `jobId`, in the order of the index. -/
def selected (v : Vote.State D) (top jobId : ℕ) : List Name :=
  ((v.protoTotalVote.filter (fun p => decide (p.isActive = true ∧ jobId ∈ p.jobIds))).take top).map
    Vote.Producer.owner

/-- Every producer is active and lists `jobId`, and there are no more than `top`. -/
def AllSelected (v : Vote.State D) (top jobId : ℕ) : Prop :=
  (∀ p ∈ v.producers.rows, p.isActive = true ∧ jobId ∈ p.jobIds) ∧ v.producers.rows.length ≤ top

omit [Field D] [LinearOrder D] in
/-- A beginning that holds every entry is the whole list. -/
theorem length_le_of_subset_take {α : Type} {l : List α} {n : ℕ} (hl : l.Nodup)
    (h : ∀ a ∈ l, a ∈ l.take n) : l.length ≤ n :=
  (hl.subperm h).length_le.trans (List.length_take_le n l)

/-- All producers are selected exactly when none is left out for its flag, its jobs or its rank. -/
theorem forall_mem_selected (v : Vote.State D) (top jobId : ℕ) :
    (∀ p ∈ v.producers.rows, p.owner ∈ selected v top jobId) ↔ AllSelected v top jobId := by
  have hperm := Vote.protoTotalVote_perm v
  have hnodup : v.protoTotalVote.Nodup := hperm.nodup_iff.mpr v.producers.nodup_rows
  constructor
  · intro h
    -- the owner names the row, so the row itself is among the selected ones
    have hrow : ∀ p ∈ v.producers.rows, p ∈ (v.protoTotalVote.filter
        (fun p => decide (p.isActive = true ∧ jobId ∈ p.jobIds))).take top := by
      intro p hp
      obtain ⟨q, hq, howner⟩ := List.mem_map.mp (h p hp)
      have hqrow : q ∈ v.producers.rows :=
        hperm.mem_iff.mp (List.mem_filter.mp (List.mem_of_mem_take hq)).1
      rw [← v.producers.key_injOn hqrow hp howner]
      exact hq
    have helig : ∀ p ∈ v.producers.rows, p.isActive = true ∧ jobId ∈ p.jobIds := by
      intro p hp
      exact of_decide_eq_true (List.mem_filter.mp (List.mem_of_mem_take (hrow p hp))).2
    refine ⟨helig, ?_⟩
    rw [← hperm.length_eq]
    apply length_le_of_subset_take hnodup
    intro p hp
    have hall : v.protoTotalVote.filter (fun p => decide (p.isActive = true ∧ jobId ∈ p.jobIds)) =
        v.protoTotalVote :=
      List.filter_eq_self.mpr (fun q hq => decide_eq_true (helig q (hperm.mem_iff.mp hq)))
    have := hrow p (hperm.mem_iff.mp hp)
    rwa [hall] at this
  · rintro ⟨helig, hlen⟩ p hp
    have hall : v.protoTotalVote.filter (fun p => decide (p.isActive = true ∧ jobId ∈ p.jobIds)) =
        v.protoTotalVote :=
      List.filter_eq_self.mpr (fun q hq => decide_eq_true (helig q (hperm.mem_iff.mp hq)))
    have htake : v.protoTotalVote.take top = v.protoTotalVote :=
      List.take_of_length_le (hperm.length_eq.trans_le hlen)
    rw [selected, hall, htake]
    exact List.mem_map_of_mem (hperm.mem_iff.mpr hp)

/-! ## Calculations -/

/-- The call, if it goes through, credits selected producers only. -/
def CreditsSelected (sqrt : D → D) (self : Name) (s : Nodes D) (call : NodesCall) : Prop :=
  ∀ s' out, nodesStep sqrt self s call = .ok (s', out) → ∀ c ∈ Distribut.credits out,
    ∃ rule ∈ s.distribut.rewards.find 2,
      c.row.node ∈ selected s.vote rule.standbyRankThreshold c.jobId

instance (sqrt : D → D) (self : Name) (s : Nodes D) (call : NodesCall) :
    Decidable (CreditsSelected sqrt self s call) :=
  match h : nodesStep sqrt self s call with
  | .ok _ => decidable_of_iff _ (forall_ok_iff h).symm
  | .error _ => isTrue (fun _ _ h' => by rw [h] at h'; cases h')

/-- All producers are selected for the jobs the call calculates. -/
def SelectsAll (s : Nodes D) : NodesCall → Prop
  | .distribut _ _ (.calcrewards _ jobId) =>
    ∀ rule ∈ s.distribut.rewards.find 2, AllSelected s.vote rule.standbyRankThreshold jobId
  | .distribut _ _ (.uptime _ _ _) =>
    ∀ rule ∈ s.distribut.rewards.find 2, ∀ jobId ∈ [1, 2],
      AllSelected s.vote rule.standbyRankThreshold jobId
  | _ => True

/-- One calculation credits every producer, for its job. -/
theorem forall_credited {env : Distribut.Env D} {s s' : Distribut.State} {account : Name}
    {jobId : ℕ} {credits : List Distribut.Credit} {rule : Distribut.RewardInfo}
    (h : Distribut.calcrewards env s account jobId = .ok (s', credits))
    (hrule : s.rewards.find 2 = some rule) :
    (∀ c ∈ credits, ∃ rule ∈ s.rewards.find 2,
      c.row.node ∈ selected env.voting rule.standbyRankThreshold c.jobId) ↔
      AllSelected env.voting rule.standbyRankThreshold jobId := by
  obtain ⟨_, -, -, -, -, hcredited, -⟩ := Distribut.calcrewards_ok account h
  rw [← forall_mem_selected, hrule]
  constructor
  · intro hall p hp
    obtain ⟨c, hc, hnode⟩ := hcredited.mem hp
    obtain ⟨rule', hrule', hmem⟩ := hall c hc
    cases hrule'
    rw [hnode, (hcredited.2 c hc).2] at hmem
    exact hmem
  · intro hall c hc
    obtain ⟨p, hp, hnode⟩ := hcredited.producer hc
    refine ⟨rule, rfl, ?_⟩
    rw [(hcredited.2 c hc).2, hnode]
    exact hall p hp

/-- **Step lemma**: a call that goes through credits selected producers only exactly when all are
selected for its jobs. -/
theorem creditsSelected_iff {sqrt : D → D} {self : Name} {s s' : Nodes D} {call : NodesCall}
    {out : List Distribut.Receipt} (h : nodesStep sqrt self s call = .ok (s', out)) :
    CreditsSelected sqrt self s call ↔ SelectsAll s call := by
  rw [CreditsSelected, forall_ok_iff h]
  cases call with
  | vote env action =>
    simp only [nodesStep, bind_eq_ok, pure_eq_ok] at h
    obtain ⟨_, -, heq⟩ := h
    cases heq
    exact iff_of_true (by simp [Distribut.credits]) trivial
  | distribut ctx accepted action =>
    simp only [nodesStep, bind_eq_ok, pure_eq_ok] at h
    obtain ⟨⟨d, out⟩, hstep, heq⟩ := h
    cases heq
    obtain ⟨receipt, hp, rfl⟩ := Distribut.step_ok hstep
    have hone : Distribut.credits [receipt] = receipt.credits := List.flatMap_singleton ..
    rw [hone]
    cases action with
    | calcrewards account jobId =>
      obtain ⟨hcalc, -⟩ := Distribut.perform_calcrewards hp
      obtain ⟨rule, hrule, -⟩ := Distribut.calcrewards_ok self hcalc
      rw [forall_credited hcalc hrule]
      simp only [SelectsAll, hrule, Option.mem_some, forall_eq']
    | uptime account nodeId memo =>
      obtain ⟨s₁, s₂, credits₁, credits₂, h₁, h₂, hcredits, -⟩ :=
        Distribut.uptime_ok (Distribut.perform_uptime hp)
      obtain ⟨rule, hrule, -, hrewards, -⟩ := Distribut.calcrewards_ok self h₁
      simp only at hrewards hcredits
      have hrule₁ : s₁.rewards.find 2 = some rule := by rw [hrewards, hrule]
      have hfirst := forall_credited h₁ hrule
      have hsecond := forall_credited h₂ hrule₁
      rw [hrewards] at hsecond
      rw [hcredits, List.forall_mem_append, hfirst, hsecond]
      simp [SelectsAll, hrule]
    | getreward node =>
      cases hp
      exact iff_of_true (by simp) trivial
    | _ =>
      obtain ⟨rfl, -, -⟩ := Distribut.perform_still rfl hp
      exact iff_of_true (by simp) trivial

/-- **Selection**: in a run in which all producers are selected whenever rewards are calculated,
only selected producers are credited; and in a state a run reaches, a call that goes through credits
selected producers only exactly when all of them are. -/
theorem credited_selected (sqrt : D → D) (self : Name) (calls : List NodesCall) :
    (Along (nodesStep sqrt self) SelectsAll {} calls →
      Along (nodesStep sqrt self) (CreditsSelected sqrt self) {} calls) ∧
    ∀ call s' out,
      nodesStep sqrt self (run (nodesStep sqrt self) {} calls).1 call = .ok (s', out) →
        (CreditsSelected sqrt self (run (nodesStep sqrt self) {} calls).1 call ↔
          SelectsAll (run (nodesStep sqrt self) {} calls).1 call) := by
  refine ⟨fun hall => hall.mono ?_, fun call s' out h => creditsSelected_iff h⟩
  intro s call hsel s' out h
  exact (creditsSelected_iff h).mpr hsel s' out h

/-- A producer that has retired and lists no job is credited. -/
theorem retired_credited : ¬ ∀ (self : Name) (calls : List NodesCall),
    Along (nodesStep (id : ℚ → ℚ) self) (CreditsSelected id self) {} calls := by
  intro h
  let node := Name.ofString "node"
  let ctx (account : Name) (now : ℕ) : Ctx := ⟨[⟨account, active⟩], now⟩
  let env (now : ℕ) : Vote.Env := { ctx node now with staking := {}, token := {} }
  exact absurd (h (Name.ofString "vtxdistribut")
    [.vote (env 1000) (.regproducer node "node" "" "" "" []),
      .vote (env 1001) (.unregprod node),
      .distribut (ctx Distribut.treasury 1002) (fun _ => true)
        (.setrewardrule ⟨2, 86400, ⟨500, Stak.vtx⟩, ⟨100, Stak.vtx⟩, 3, 3, "", ""⟩),
      .distribut (ctx node 1003) (fun _ => true) (.calcrewards node 1)]) (by decide +kernel)

end Nodes

end VDexNode.System
