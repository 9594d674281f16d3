import Mathlib.Algebra.Order.Group.Multiset
import VDexNode.Distribut.Model
import VDexNode.Vote.Spec

/-!
# VDexNode.Distribut.Rewards — every reward is pending or paid, once

`Moves s s' credits transfers`: from `s` to `s'` the rows of `credits` were added to the pending
table, and some rows were taken out of it, each for one transfer of its own amount and memo.  Every
function that touches the table is such a move, moves compose, and so a whole run is one move from
the empty table (`moves_run`).
-/

namespace VDexNode.Distribut

open Eosio

/-! ## Moves -/

/-- The transfer that pays a row. -/
def NodeReward.payment (self : Name) (r : NodeReward) : TransferAction :=
  payreward self r.node r.amount r.memo

/-- `credits` were added to the pending rows, and rows were removed for `transfers`. -/
def Moves (self : Name) (s s' : State) (credits : List Credit) (transfers : List TransferAction) :
    Prop :=
  ∃ removed : List NodeReward, transfers = removed.map (NodeReward.payment self) ∧
    (s'.nodeReward.rows ++ removed).Perm (credits.map Credit.row ++ s.nodeReward.rows)

section Moves

variable {self : Name} {s s' s'' : State}

theorem Moves.refl (s : State) : Moves self s s [] [] :=
  ⟨[], rfl, by simp⟩

theorem Moves.of_same (h : s'.nodeReward = s.nodeReward) : Moves self s s' [] [] :=
  ⟨[], rfl, by simp [h]⟩

theorem Moves.trans {c₁ c₂ : List Credit} {t₁ t₂ : List TransferAction}
    (h₁ : Moves self s s' c₁ t₁) (h₂ : Moves self s' s'' c₂ t₂) :
    Moves self s s'' (c₁ ++ c₂) (t₁ ++ t₂) := by
  obtain ⟨r₁, rfl, hp₁⟩ := h₁
  obtain ⟨r₂, rfl, hp₂⟩ := h₂
  refine ⟨r₁ ++ r₂, by simp, ?_⟩
  simp only [List.map_append, ← Multiset.coe_eq_coe, ← Multiset.coe_add] at hp₁ hp₂ ⊢
  calc (s''.nodeReward.rows + (r₁ + r₂) : Multiset NodeReward)
    _ = (s''.nodeReward.rows + r₂ : Multiset NodeReward) + r₁ := by abel
    _ = (c₂.map Credit.row : Multiset NodeReward) + (s'.nodeReward.rows + r₁) := by
        rw [hp₂, add_assoc]
    _ = (c₁.map Credit.row + c₂.map Credit.row : Multiset NodeReward) + s.nodeReward.rows := by
        rw [hp₁]
        abel

/-! ### What the functions do -/

theorem addReward_ok {node : Name} {amount : Asset} {memo : String} {r : State × NodeReward}
    (h : addReward s node amount memo = .ok r) :
    r.2.node = node ∧ r.2.amount = amount ∧ r.2.memo = memo ∧
      s.nodeReward.find r.2.key = none ∧
      r.1 = { s with nodeReward := s.nodeReward.put r.2 } := by
  simp only [addReward, bind_eq_ok, Table.emplace_eq_ok, pure_eq_ok] at h
  obtain ⟨id, -, _, ⟨hnew, rfl⟩, rfl⟩ := h
  exact ⟨rfl, rfl, rfl, hnew, rfl⟩

/-- What leaves everything but the pending rows as it was. -/
def SameRules (s s' : State) : Prop :=
  s'.rewards = s.rewards ∧ s'.rewardhistory = s.rewardhistory

section Votes

variable {D : Type} [Field D] [LinearOrder D] {env : Env D} {rule : RewardInfo} {jobId : ℕ}

/-- What a rule gives at a rank. -/
def RewardInfo.amountAt (rule : RewardInfo) (rank : ℕ) : Asset :=
  if rank < rule.rankThreshold then rule.rewardAmount else rule.standbyAmount

/-- One credit for each node of the list, in order, at the time of the call. -/
def Credited (now jobId : ℕ) (nodes : List Name) (credits : List Credit) : Prop :=
  credits.map (fun c => c.row.node) = nodes ∧ ∀ c ∈ credits, c.time = now ∧ c.jobId = jobId

theorem creditNode_ok (self : Name) {acc acc' : State × List Credit} {node : Name}
    (h : creditNode env rule jobId acc node = .ok acc') :
    ∃ c : Credit, acc'.2 = acc.2 ++ [c] ∧ c.time = env.now ∧ c.jobId = jobId ∧ c.row.node = node ∧
      c.row.amount = rule.amountAt (Vote.getRank env.voting node) ∧
      SameRules acc.1 acc'.1 ∧ Moves self acc.1 acc'.1 [c] [] := by
  simp only [creditNode, bind_eq_ok, pure_eq_ok] at h
  obtain ⟨⟨s₁, row⟩, hadd, rfl⟩ := h
  obtain ⟨hnode, hamount, -, hnew, hs⟩ := addReward_ok hadd
  simp only at hnode hamount hnew hs
  refine ⟨⟨env.now, jobId, row⟩, rfl, rfl, rfl, hnode, hamount, ?_, [], rfl, ?_⟩
  · rw [hs]
    exact ⟨rfl, rfl⟩
  · have hperm := acc.1.nodeReward.put_perm row
    rw [Table.erase_of_find_none hnew] at hperm
    simpa [hs] using hperm

/-- The loop of `calcrewards`. -/
theorem creditLoop_ok (self : Name) : ∀ {nodes : List Name} {acc acc' : State × List Credit},
    nodes.foldlM (creditNode env rule jobId) acc = .ok acc' →
      ∃ credits, acc'.2 = acc.2 ++ credits ∧ Credited env.now jobId nodes credits ∧
        (∀ c ∈ credits, c.row.amount = rule.amountAt (Vote.getRank env.voting c.row.node)) ∧
        SameRules acc.1 acc'.1 ∧ Moves self acc.1 acc'.1 credits []
  | [], acc, acc', h => by
    cases h
    exact ⟨[], by simp, ⟨rfl, by simp⟩, by simp, ⟨rfl, rfl⟩, Moves.refl _⟩
  | node :: nodes, acc, acc', h => by
    obtain ⟨mid, hmid, h⟩ := foldlM_cons_eq_ok.mp h
    obtain ⟨c, hc, htime, hjob, hnode, hamount, hsame, hmove⟩ := creditNode_ok self hmid
    obtain ⟨credits, hcredits, ⟨hnodes, hall⟩, hamounts, hsame', hmove'⟩ := creditLoop_ok self h
    refine ⟨c :: credits, by rw [hcredits, hc]; simp, ⟨by simp [hnode, hnodes], ?_⟩, ?_, ?_, ?_⟩
    · intro c' hc'
      rcases List.mem_cons.mp hc' with rfl | hc'
      · exact ⟨htime, hjob⟩
      · exact hall c' hc'
    · intro c' hc'
      rcases List.mem_cons.mp hc' with rfl | hc'
      · rw [hnode]
        exact hamount
      · exact hamounts c' hc'
    · exact ⟨hsame'.1.trans hsame.1, hsame'.2.trans hsame.2⟩
    · exact hmove.trans hmove'

theorem stampHistory_ok {now : ℕ} (h : stampHistory now s rule jobId = .ok s') :
    (∀ last, s.rewardhistory.find jobId = some last →
      (last.lastTimestamp + rule.rewardPeriod) % 2 ^ 32 ≤ now) ∧
      s' = { s with rewardhistory := s.rewardhistory.put ⟨jobId, now⟩ } := by
  unfold stampHistory at h
  cases hlast : s.rewardhistory.find jobId with
  | none =>
    simp only [hlast, bind_eq_ok, Table.emplace_eq_ok, pure_eq_ok] at h
    obtain ⟨_, ⟨-, rfl⟩, rfl⟩ := h
    refine ⟨?_, rfl⟩
    intro last hsome
    cases hsome
  | some last =>
    simp only [hlast, bind_eq_ok, check_eq_ok, exists_const, pure_eq_ok] at h
    obtain ⟨hle, rfl⟩ := h
    have hid : last.rewardId = jobId := Table.find_key hlast
    refine ⟨fun l hl => by cases hl; exact hle, ?_⟩
    rw [hid]

/-- A `calcrewards` that goes through: the period check against the rule of id 2, the new time under
`jobId`, and one credit for every producer. -/
theorem calcrewards_ok (self : Name) {account : Name} {r : State × List Credit}
    (h : calcrewards env s account jobId = .ok r) :
    ∃ rule, s.rewards.find 2 = some rule ∧
      (∀ last, s.rewardhistory.find jobId = some last →
        (last.lastTimestamp + rule.rewardPeriod) % 2 ^ 32 ≤ env.now) ∧
      r.1.rewards = s.rewards ∧ r.1.rewardhistory = s.rewardhistory.put ⟨jobId, env.now⟩ ∧
      Credited env.now jobId (env.voting.protoTotalVote.map Vote.Producer.owner) r.2 ∧
      Moves self s r.1 r.2 [] := by
  simp only [calcrewards, bind_eq_ok, Table.get_eq_ok] at h
  obtain ⟨rule, hrule, s₁, hstamp, h⟩ := h
  obtain ⟨hlast, rfl⟩ := stampHistory_ok hstamp
  obtain ⟨credits, hcredits, hnodes, -, hsame, hmove⟩ := creditLoop_ok self h
  rw [List.nil_append] at hcredits
  refine ⟨rule, hrule, hlast, hsame.1, hsame.2, ?_, ?_⟩
  · rw [hcredits]
    exact hnodes
  · rw [hcredits]
    exact hmove

/-- The amounts of the credits, by rank. -/
theorem calcrewards_amounts {account : Name} {r : State × List Credit}
    (h : calcrewards env s account jobId = .ok r) (hrule : s.rewards.find 2 = some rule) :
    ∀ c ∈ r.2, c.row.amount = rule.amountAt (Vote.getRank env.voting c.row.node) := by
  simp only [calcrewards, bind_eq_ok, Table.get_eq_ok] at h
  obtain ⟨rule', hrule', s₁, -, h⟩ := h
  rw [hrule] at hrule'
  cases hrule'
  obtain ⟨credits, hcredits, -, hamounts, -, -⟩ := creditLoop_ok account h
  rw [List.nil_append] at hcredits
  rw [hcredits]
  exact hamounts

/-- Every producer is credited. -/
theorem Credited.mem {now : ℕ} {v : Vote.State D} {credits : List Credit}
    (h : Credited now jobId (v.protoTotalVote.map Vote.Producer.owner) credits)
    {p : Vote.Producer D} (hp : p ∈ v.producers.rows) : ∃ c ∈ credits, c.row.node = p.owner := by
  have hmem : p.owner ∈ credits.map (fun c => c.row.node) := by
    rw [h.1]
    exact List.mem_map_of_mem ((Vote.protoTotalVote_perm v).mem_iff.mpr hp)
  exact List.mem_map.mp hmem

/-- Only producers are credited. -/
theorem Credited.producer {now : ℕ} {v : Vote.State D} {credits : List Credit}
    (h : Credited now jobId (v.protoTotalVote.map Vote.Producer.owner) credits) {c : Credit}
    (hc : c ∈ credits) : ∃ p ∈ v.producers.rows, c.row.node = p.owner := by
  have hmem : c.row.node ∈ v.protoTotalVote.map Vote.Producer.owner := by
    rw [← h.1]
    exact List.mem_map_of_mem hc
  obtain ⟨p, hp, hnode⟩ := List.mem_map.mp hmem
  exact ⟨p, (Vote.protoTotalVote_perm v).mem_iff.mp hp, hnode.symm⟩

end Votes

/-- `getreward` pays and erases all pending rows of the node, and no others. -/
theorem getreward_eq (self : Name) (s : State) (node : Name) :
    getreward self s node =
      ({ s with nodeReward := s.nodeReward.filter (fun r => decide (r.node ≠ node)) },
        (s.rewardsOf node).map (NodeReward.payment self)) := by
  have hloop : ∀ (l : List NodeReward) (acc : State × List TransferAction),
      l.foldl (payRow self) acc =
        ({ acc.1 with nodeReward :=
            acc.1.nodeReward.filter (fun r => decide (∀ x ∈ l, r.key ≠ x.key)) },
          acc.2 ++ l.map (NodeReward.payment self)) := by
    intro l
    induction l with
    | nil =>
      intro acc
      have hall : acc.1.nodeReward.filter (fun _ => true) = acc.1.nodeReward := by
        ext1
        simp [Table.filter]
      simp [hall]
    | cons itr l ih =>
      intro acc
      rw [List.foldl_cons, ih]
      simp only [payRow, List.map_cons, List.append_assoc, List.singleton_append, Prod.mk.injEq]
      refine ⟨?_, rfl⟩
      congr 1
      ext1
      simp only [Table.filter, Table.erase, List.filter_filter]
      refine List.filter_congr (fun r _ => ?_)
      simp [Bool.and_comm]
  have hrows : s.nodeReward.filter (fun r => decide (∀ x ∈ s.rewardsOf node, r.key ≠ x.key)) =
      s.nodeReward.filter (fun r => decide (r.node ≠ node)) := by
    ext1
    refine List.filter_congr (fun r hr => ?_)
    rw [decide_eq_decide]
    constructor
    · intro hne hnode
      exact hne r (Table.mem_filter.mpr ⟨hr, decide_eq_true hnode⟩) rfl
    · intro hne x hx hkey
      obtain ⟨hx, hnode⟩ := Table.mem_filter.mp hx
      rw [s.nodeReward.key_injOn hr hx hkey] at hne
      exact hne (of_decide_eq_true hnode)
  unfold getreward
  rw [hloop, hrows, List.nil_append]

theorem getreward_moves (self : Name) (s : State) (node : Name) :
    SameRules s (getreward self s node).1 ∧
      Moves self s (getreward self s node).1 [] (getreward self s node).2 := by
  rw [getreward_eq]
  refine ⟨⟨rfl, rfl⟩, s.rewardsOf node, rfl, ?_⟩
  have hsplit := List.filter_append_perm (fun r : NodeReward => decide (r.node ≠ node))
    s.nodeReward.rows
  simpa [Table.filter, State.rewardsOf] using hsplit

/-- The loop of `uptime` over the producers. -/
theorem payLoop_moves {D : Type} (self : Name) : ∀ (l : List (Vote.Producer D))
    (acc : State × List TransferAction),
      ∃ ts, (l.foldl (payProducer self) acc).2 = acc.2 ++ ts ∧
        SameRules acc.1 (l.foldl (payProducer self) acc).1 ∧
        Moves self acc.1 (l.foldl (payProducer self) acc).1 [] ts
  | [], acc => ⟨[], by simp, ⟨rfl, rfl⟩, Moves.refl _⟩
  | p :: l, acc => by
    obtain ⟨ts, hts, hsame, hmove⟩ := payLoop_moves self l (payProducer self acc p)
    obtain ⟨hsame', hmove'⟩ := getreward_moves self acc.1 p.owner
    rw [List.foldl_cons]
    refine ⟨(getreward self acc.1 p.owner).2 ++ ts, ?_, ?_, ?_⟩
    · rw [hts, payProducer, List.append_assoc]
    · exact ⟨hsame.1.trans hsame'.1, hsame.2.trans hsame'.2⟩
    · exact hmove'.trans hmove

/-- The pending rows of the listed producers, in order. -/
def State.rewardsOfAll {D : Type} (s : State) (l : List (Vote.Producer D)) : List NodeReward :=
  l.flatMap (fun p => s.rewardsOf p.owner)

/-- What the loop sends: one transfer for every row pending for a listed producer. -/
theorem payLoop_transfers {D : Type} (self : Name) : ∀ (l : List (Vote.Producer D))
    (acc : State × List TransferAction), (l.map Vote.Producer.owner).Nodup →
      (l.foldl (payProducer self) acc).2 =
        acc.2 ++ (acc.1.rewardsOfAll l).map (NodeReward.payment self)
  | [], acc, _ => by simp [State.rewardsOfAll]
  | p :: l, acc, hl => by
    obtain ⟨hp, hl⟩ := List.nodup_cons.mp hl
    have hrest : (payProducer self acc p).1.rewardsOfAll l = acc.1.rewardsOfAll l := by
      -- the rows of another producer are still there
      refine List.flatMap_congr (fun q hq => ?_)
      have hne : q.owner ≠ p.owner := fun he => hp (he ▸ List.mem_map_of_mem hq)
      show (Table.filter (getreward self acc.1 p.owner).1.nodeReward _).rows = _
      rw [getreward_eq]
      show ((acc.1.nodeReward.rows.filter _).filter _) = acc.1.nodeReward.rows.filter _
      rw [List.filter_filter]
      refine List.filter_congr (fun r _ => ?_)
      by_cases hr : r.node = q.owner
      · have hr' : r.node ≠ p.owner := fun he => hne (hr.symm.trans he)
        simp [hr, hne]
      · simp [hr]
    rw [List.foldl_cons, payLoop_transfers self l _ hl, hrest, payProducer, getreward_eq,
      List.append_assoc, ← List.map_append]
    rfl

section Runs

variable {D : Type} [Field D] [LinearOrder D] {env : Env D}

/-- An `uptime` that goes through is a `calcrewards` for job 1, one for job 2, and payments. -/
theorem uptime_ok {account : Name} {nodeId memo : String}
    {r : State × List Credit × List TransferAction}
    (h : uptime self env s account nodeId memo = .ok r) :
    ∃ s₁ s₂ credits₁ credits₂, calcrewards env s account 1 = .ok (s₁, credits₁) ∧
      calcrewards env s₁ account 2 = .ok (s₂, credits₂) ∧ r.2.1 = credits₁ ++ credits₂ ∧
      SameRules s₂ r.1 ∧ Moves self s₂ r.1 [] r.2.2 ∧
      r.2.2 = (s₂.rewardsOfAll env.voting.producers.rows).map (NodeReward.payment self) := by
  simp only [uptime, bind_eq_ok, pure_eq_ok] at h
  obtain ⟨_, -, ⟨s₁, credits₁⟩, h₁, ⟨s₂, credits₂⟩, h₂, rfl⟩ := h
  obtain ⟨ts, hts, hsame, hmove⟩ := payLoop_moves self env.voting.producers.rows (s₂, [])
  rw [List.nil_append] at hts
  refine ⟨s₁, s₂, credits₁, credits₂, h₁, h₂, rfl, hsame, ?_, ?_⟩
  · simp only
    rw [hts]
    exact hmove
  · exact payLoop_transfers self _ _ env.voting.producers.nodup_keys

/-- The actions that credit or pay nodes. -/
def Action.rewards : Action → Bool
  | .getreward _ => true
  | .calcrewards _ _ => true
  | .uptime _ _ _ => true
  | _ => false

/-- The other actions credit and pay nothing, and leave the pending rows and the history alone. -/
theorem perform_still {receipt : Receipt} {action : Action} (hact : action.rewards = false)
    (h : perform self s env action = .ok (s', receipt)) :
    receipt = ⟨[], []⟩ ∧ s'.nodeReward = s.nodeReward ∧ s'.rewardhistory = s.rewardhistory := by
  cases action with
  | getreward node => cases hact
  | calcrewards account jobId => cases hact
  | uptime account nodeId memo => cases hact
  | setrewardrule rule =>
    simp only [perform, setrewardrule, bind_eq_ok, pure_eq_ok] at h
    obtain ⟨_, ⟨_, -, rfl⟩, heq⟩ := h
    cases heq
    exact ⟨rfl, rfl, rfl⟩
  | addblacklist account ip =>
    simp only [perform, addblacklist, bind_eq_ok, pure_eq_ok] at h
    obtain ⟨_, ⟨_, -, _, -, _, -, rfl⟩, heq⟩ := h
    cases heq
    exact ⟨rfl, rfl, rfl⟩
  | rmblacklist account =>
    simp only [perform, rmblacklist, bind_eq_ok, pure_eq_ok] at h
    obtain ⟨_, ⟨_, -, _, -, rfl⟩, heq⟩ := h
    cases heq
    exact ⟨rfl, rfl, rfl⟩
  | initup account =>
    simp only [perform, initup, bind_eq_ok, pure_eq_ok] at h
    obtain ⟨_, ⟨_, -, _, -, _, -, rfl⟩, heq⟩ := h
    cases heq
    exact ⟨rfl, rfl, rfl⟩
  | rmup account =>
    simp only [perform, rmup, bind_eq_ok, pure_eq_ok] at h
    obtain ⟨_, ⟨_, -, _, -, rfl⟩, heq⟩ := h
    cases heq
    exact ⟨rfl, rfl, rfl⟩

/-- A `calcrewards` call is a `calcrewards`. -/
theorem perform_calcrewards {receipt : Receipt} {account : Name} {jobId : ℕ}
    (h : perform self s env (.calcrewards account jobId) = .ok (s', receipt)) :
    calcrewards env s account jobId = .ok (s', receipt.credits) ∧ receipt.transfers = [] := by
  simp only [perform, bind_eq_ok, pure_eq_ok] at h
  obtain ⟨r, h, heq⟩ := h
  cases heq
  exact ⟨h, rfl⟩

/-- An `uptime` call is an `uptime`. -/
theorem perform_uptime {receipt : Receipt} {account : Name} {nodeId memo : String}
    (h : perform self s env (.uptime account nodeId memo) = .ok (s', receipt)) :
    uptime self env s account nodeId memo = .ok (s', receipt.credits, receipt.transfers) := by
  simp only [perform, bind_eq_ok, pure_eq_ok] at h
  obtain ⟨r, h, heq⟩ := h
  cases heq
  exact h

/-- **Step lemma**: every call is a move. -/
theorem moves_perform {receipt : Receipt} {action : Action}
    (h : perform self s env action = .ok (s', receipt)) :
    Moves self s s' receipt.credits receipt.transfers := by
  cases action with
  | getreward node =>
    cases h
    exact (getreward_moves self s node).2
  | calcrewards account jobId =>
    obtain ⟨h, htransfers⟩ := perform_calcrewards h
    obtain ⟨_, -, -, -, -, -, hmove⟩ := calcrewards_ok self h
    rw [htransfers]
    exact hmove
  | uptime account nodeId memo =>
    obtain ⟨s₁, s₂, credits₁, credits₂, h₁, h₂, hcredits, -, hmove, -⟩ :=
      uptime_ok (perform_uptime h)
    obtain ⟨_, -, -, -, -, -, hmove₁⟩ := calcrewards_ok self h₁
    obtain ⟨_, -, -, -, -, -, hmove₂⟩ := calcrewards_ok self h₂
    have hall := (hmove₁.trans hmove₂).trans hmove
    rw [List.append_nil, List.nil_append, List.nil_append] at hall
    simp only at hcredits
    rw [hcredits]
    exact hall
  | _ =>
    obtain ⟨rfl, hrows, -⟩ := perform_still rfl h
    exact Moves.of_same hrows

theorem step_ok {call : Env D × Action} {out : List Receipt}
    (h : step self s call = .ok (s', out)) :
    ∃ receipt, perform self s call.1 call.2 = .ok (s', receipt) ∧ out = [receipt] := by
  simp only [step, bind_eq_ok, pure_eq_ok] at h
  obtain ⟨⟨s₁, receipt⟩, hp, _, -, heq⟩ := h
  cases heq
  exact ⟨receipt, hp, rfl⟩

/-- All rows added by the calls of a run. -/
def credits (log : List Receipt) : List Credit := log.flatMap Receipt.credits

/-- All transfers sent by the calls of a run. -/
def transfers (log : List Receipt) : List TransferAction := log.flatMap Receipt.transfers

/-- **Run lemma**: a whole run is one move from the empty tables. -/
theorem moves_run (self : Name) (calls : List (Env D × Action)) :
    Moves self {} (run (step self) {} calls).1 (credits (run (step self) {} calls).2)
      (transfers (run (step self) {} calls).2) := by
  refine run_invariant (fun s log => Moves self {} s (credits log) (transfers log))
    (Moves.refl _) (fun s log call s' out hmove hs => ?_) calls
  obtain ⟨receipt, hp, rfl⟩ := step_ok hs
  have hall := hmove.trans (moves_perform hp)
  simpa [credits, transfers] using hall

end Runs

end Moves

/-! ## Nodes -/

/-- What is credited to `node`: amounts and memos. -/
def creditedTo (node : Name) (log : List Receipt) : List (Asset × String) :=
  (((credits log).map Credit.row).filter (fun r => decide (r.node = node))).map
    (fun r => (r.amount, r.memo))

/-- What is transferred to `node`: amounts and memos. -/
def paidTo (node : Name) (log : List Receipt) : List (Asset × String) :=
  ((transfers log).filter (fun t => decide (t.recipient = node))).map
    (fun t => (t.quantity, t.memo))

/-- What is pending for `node`: amounts and memos. -/
def State.pendingOf (s : State) (node : Name) : List (Asset × String) :=
  (s.rewardsOf node).map (fun r => (r.amount, r.memo))

/-- The total of a list of amounts. -/
def total (l : List (Asset × String)) : ℤ := (l.map (fun p => p.1.amount)).sum

/-- The rows of a node after a `getreward`. -/
theorem rewardsOf_getreward (self : Name) (s : State) (node other : Name) :
    (getreward self s node).1.rewardsOf other =
      if other = node then [] else s.rewardsOf other := by
  rw [getreward_eq]
  show (s.nodeReward.rows.filter (fun r => decide (r.node ≠ node))).filter
    (fun r => decide (r.node = other)) = _
  rw [List.filter_filter]
  by_cases hother : other = node
  · rw [if_pos hother, List.filter_eq_nil_iff]
    intro r _
    simp [hother]
  · rw [if_neg hother]
    refine List.filter_congr (fun r _ => ?_)
    by_cases hr : r.node = other
    · simp [hr, hother]
    · simp [hr]

/-- What a `getreward` sends to a node. -/
theorem paidTo_getreward (self : Name) (s : State) (node other : Name) :
    paidTo other [⟨[], (getreward self s node).2⟩] =
      if other = node then s.pendingOf node else [] := by
  have hrows : ∀ r ∈ s.rewardsOf node, r.node = node := fun r hr =>
    of_decide_eq_true (List.mem_filter.mp hr).2
  have hsent : transfers [⟨[], (getreward self s node).2⟩] =
      (s.rewardsOf node).map (NodeReward.payment self) := by
    rw [getreward_eq]
    exact List.append_nil _
  rw [paidTo, hsent, List.filter_map, List.map_map]
  by_cases hother : other = node
  · have hall : (s.rewardsOf node).filter (fun r => decide (r.node = other)) = s.rewardsOf node :=
      List.filter_eq_self.mpr (fun r hr => decide_eq_true ((hrows r hr).trans hother.symm))
    rw [if_pos hother]
    exact congrArg (List.map _) hall
  · have hnone : (s.rewardsOf node).filter (fun r => decide (r.node = other)) = [] := by
      refine List.filter_eq_nil_iff.mpr (fun r hr hnode => ?_)
      exact hother ((of_decide_eq_true hnode).symm.trans (hrows r hr))
    rw [if_neg hother]
    exact congrArg (List.map _) hnone

/-- **A `getreward` that goes through** pays the node what was pending for it, row by row, leaves it
nothing, and the other nodes what they had. -/
theorem getreward_pays {D : Type} [Field D] [LinearOrder D] {self : Name} {s s' : State}
    {env : Env D} {node : Name} {out : List Receipt}
    (h : step self s (env, .getreward node) = .ok (s', out)) :
    paidTo node out = s.pendingOf node ∧ s'.pendingOf node = [] ∧
      ∀ other ≠ node, paidTo other out = [] ∧ s'.pendingOf other = s.pendingOf other := by
  obtain ⟨receipt, hp, rfl⟩ := step_ok h
  cases hp
  simp only [State.pendingOf, rewardsOf_getreward, paidTo_getreward, if_true, List.map_nil,
    true_and]
  intro other hother
  rw [if_neg hother, if_neg hother]
  exact ⟨rfl, rfl⟩

/-- **Rewards**: after every run, what was credited to a node is, entry by entry, what was
transferred to it and what is pending for it, and so are the totals; every transfer is the
contract's own; a `getreward` that goes through pays the node exactly its pending rows and leaves
it nothing; and a call that aborts changes nothing. -/
theorem rewards_accounted {D : Type} [Field D] [LinearOrder D] (self : Name)
    (calls : List (Env D × Action)) :
    let s := (run (step self) {} calls).1
    let log := (run (step self) {} calls).2
    (∀ node, (creditedTo node log).Perm (paidTo node log ++ s.pendingOf node) ∧
      total (paidTo node log) + total (s.pendingOf node) = total (creditedTo node log)) ∧
    (∀ t ∈ transfers log, t.auth = ⟨self, active⟩ ∧ t.sender = self) ∧
    (∀ (env : Env D) node s' out, step self s (env, .getreward node) = .ok (s', out) →
      paidTo node out = s.pendingOf node ∧ s'.pendingOf node = [] ∧
        ∀ other ≠ node, paidTo other out = [] ∧ s'.pendingOf other = s.pendingOf other) ∧
    ∀ call e, step self s call = .error e → run (step self) {} (calls ++ [call]) = (s, log) := by
  intro s log
  obtain ⟨removed, htransfers, hperm⟩ := moves_run self calls
  have hentries : ∀ node, (creditedTo node log).Perm (paidTo node log ++ s.pendingOf node) := by
    intro node
    have hmap := (hperm.filter (fun r => decide (r.node = node))).map
      (fun r => (r.amount, r.memo))
    have hpaid : paidTo node log = (removed.filter (fun r => decide (r.node = node))).map
        (fun r => (r.amount, r.memo)) := by
      unfold paidTo
      rw [htransfers, List.filter_map, List.map_map]
      rfl
    rw [List.filter_append, List.map_append, ← hpaid] at hmap
    have hcred : creditedTo node log = (((credits log).map Credit.row ++
        ({} : State).nodeReward.rows).filter (fun r => decide (r.node = node))).map
          (fun r => (r.amount, r.memo)) := by
      simp [creditedTo]
    rw [hcred]
    exact hmap.symm.trans List.perm_append_comm
  refine ⟨fun node => ⟨hentries node, ?_⟩, fun t ht => ?_,
    fun env node s' out hs => getreward_pays hs, fun call e he => ?_⟩
  · have hsum := ((hentries node).map (fun p => p.1.amount)).sum_eq
    rw [List.map_append, List.sum_append] at hsum
    exact hsum.symm
  · rw [htransfers] at ht
    obtain ⟨r, -, rfl⟩ := List.mem_map.mp ht
    exact ⟨rfl, rfl⟩
  · rw [run_concat, commit_of_error he]

end VDexNode.Distribut
