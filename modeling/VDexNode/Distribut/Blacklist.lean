import VDexNode.Distribut.Rate

/-!
# VDexNode.Distribut.Blacklist — who is paid while blacklisted

`checkblacklist` refuses an account of `usblacklist`; no action calls it.  `getreward` pays what is
pending for its node, and `uptime`, which has just credited every producer, pays every producer.  So
a call pays nobody on the list exactly when the accounts it pays are not there (`SparesListed`).
-/

namespace VDexNode.Distribut

open Eosio

section Blacklist

variable {D : Type} [Field D] [LinearOrder D] {self : Name} {s s' : State} {env : Env D}

/-- The call, if it goes through, sends no transfer to an account that `checkblacklist` refuses. -/
def PaysUnlisted (self : Name) (s : State) (call : Env D × Action) : Prop :=
  ∀ s' out, step self s call = .ok (s', out) →
    ∀ t ∈ transfers out, checkblacklist s t.recipient = .ok ()

/-- Nobody the call pays is on the list: neither the node of a `getreward` that has rewards pending,
nor a producer at an `uptime`. -/
def SparesListed (s : State) (call : Env D × Action) : Prop :=
  match call.2 with
  | .getreward node => s.rewardsOf node = [] ∨ s.usblacklist.find node = none
  | .uptime _ _ _ => ∀ p ∈ call.1.voting.producers.rows, s.usblacklist.find p.owner = none
  | _ => True

instance (s : State) (call : Env D × Action) : Decidable (SparesListed s call) :=
  match call with
  | (_, .getreward node) =>
    inferInstanceAs (Decidable (s.rewardsOf node = [] ∨ s.usblacklist.find node = none))
  | (env, .uptime _ _ _) =>
    inferInstanceAs (Decidable (∀ p ∈ env.voting.producers.rows, s.usblacklist.find p.owner = none))
  | (_, .setrewardrule _) | (_, .calcrewards _ _) | (_, .addblacklist _ _)
  | (_, .rmblacklist _) | (_, .initup _) | (_, .rmup _) => isTrue trivial

/-- The transfers a call that goes through sends. -/
theorem paysUnlisted_of_ok {call : Env D × Action} {out : List Receipt}
    (h : step self s call = .ok (s', out)) :
    PaysUnlisted self s call ↔ ∀ t ∈ transfers out, s.usblacklist.find t.recipient = none := by
  rw [PaysUnlisted, forall_ok_iff h]
  simp only [checkblacklist, check_eq_ok]

instance (self : Name) (s : State) (call : Env D × Action) :
    Decidable (PaysUnlisted self s call) :=
  match h : step self s call with
  | .ok _ => decidable_of_iff _ (paysUnlisted_of_ok h).symm
  | .error _ => isTrue (fun _ _ h' => by rw [h] at h'; cases h')

theorem mem_rewardsOf {r : NodeReward} {node : Name} :
    r ∈ s.rewardsOf node ↔ r ∈ s.nodeReward.rows ∧ r.node = node := by
  rw [State.rewardsOf, Table.mem_filter, decide_eq_true_iff]

omit [Field D] [LinearOrder D] in
theorem mem_rewardsOfAll {r : NodeReward} {l : List (Vote.Producer D)} :
    r ∈ s.rewardsOfAll l ↔ r ∈ s.nodeReward.rows ∧ ∃ p ∈ l, r.node = p.owner := by
  rw [State.rewardsOfAll, List.mem_flatMap]
  constructor
  · rintro ⟨p, hp, hr⟩
    obtain ⟨hr, hnode⟩ := mem_rewardsOf.mp hr
    exact ⟨hr, p, hp, hnode⟩
  · rintro ⟨hr, p, hp, hnode⟩
    exact ⟨p, hp, mem_rewardsOf.mpr ⟨hr, hnode⟩⟩

/-- Nothing is paid between the two calculations of an `uptime` and its payments. -/
theorem mem_of_moves {r : NodeReward} {cs : List Credit} (h : Moves self s s' cs []) :
    r ∈ s'.nodeReward.rows ↔ r ∈ cs.map Credit.row ∨ r ∈ s.nodeReward.rows := by
  obtain ⟨removed, hnil, hperm⟩ := h
  rw [List.map_eq_nil_iff.mp hnil.symm, List.append_nil] at hperm
  rw [hperm.mem_iff, List.mem_append]

/-- The accounts a `getreward` pays. -/
theorem getreward_recipients (s : State) (node : Name) (P : Name → Prop) :
    (∀ t ∈ (getreward self s node).2, P t.recipient) ↔ s.rewardsOf node = [] ∨ P node := by
  rw [getreward_eq]
  constructor
  · intro h
    by_cases hnil : s.rewardsOf node = []
    · exact Or.inl hnil
    · obtain ⟨r, hr⟩ := List.exists_mem_of_ne_nil _ hnil
      have hpaid := h _ (List.mem_map_of_mem hr)
      rw [← (mem_rewardsOf.mp hr).2]
      exact Or.inr hpaid
  · intro h t ht
    obtain ⟨r, hr, rfl⟩ := List.mem_map.mp ht
    rcases h with hnil | hP
    · rw [hnil] at hr
      cases hr
    · show P r.node
      rw [(mem_rewardsOf.mp hr).2]
      exact hP

/-- The accounts an `uptime` pays: the producers, all of them. -/
theorem uptime_recipients {account : Name} {nodeId memo : String}
    {r : State × List Credit × List TransferAction}
    (h : uptime self env s account nodeId memo = .ok r) (P : Name → Prop) :
    (∀ t ∈ r.2.2, P t.recipient) ↔ ∀ p ∈ env.voting.producers.rows, P p.owner := by
  obtain ⟨s₁, s₂, credits₁, credits₂, -, h₂, -, -, -, hpaid⟩ := uptime_ok h
  obtain ⟨_, -, -, -, -, hcredited, hmove⟩ := calcrewards_ok self h₂
  rw [hpaid]
  constructor
  · intro hall p hp
    -- job 2 has left a row for every producer
    obtain ⟨c, hc, hnode⟩ := hcredited.mem hp
    have hrow : c.row ∈ s₂.nodeReward.rows :=
      (mem_of_moves hmove).mpr (Or.inl (List.mem_map_of_mem hc))
    have hmem := mem_rewardsOfAll.mpr ⟨hrow, p, hp, hnode⟩
    rw [← hnode]
    exact hall _ (List.mem_map_of_mem hmem)
  · intro hall t ht
    obtain ⟨row, hrow, rfl⟩ := List.mem_map.mp ht
    obtain ⟨-, p, hp, hnode⟩ := mem_rewardsOfAll.mp hrow
    show P row.node
    rw [hnode]
    exact hall p hp

/-- **Step lemma**: a call that goes through pays nobody on the list exactly when it spares them. -/
theorem paysUnlisted_iff {call : Env D × Action} {out : List Receipt}
    (h : step self s call = .ok (s', out)) : PaysUnlisted self s call ↔ SparesListed s call := by
  obtain ⟨env, action⟩ := call
  rw [paysUnlisted_of_ok h]
  obtain ⟨receipt, hp, rfl⟩ := step_ok h
  have hone : transfers [receipt] = receipt.transfers := List.flatMap_singleton ..
  rw [hone]
  cases action with
  | getreward node =>
    cases hp
    exact getreward_recipients s node (fun n => s.usblacklist.find n = none)
  | uptime account nodeId memo =>
    exact uptime_recipients (perform_uptime hp) (fun n => s.usblacklist.find n = none)
  | calcrewards account jobId =>
    rw [(perform_calcrewards hp).2]
    exact iff_of_true (by simp) trivial
  | _ =>
    obtain ⟨rfl, -, -⟩ := perform_still rfl hp
    exact iff_of_true (by simp) trivial

/-- **Blacklist**: a run whose calls spare the accounts on the list never pays one of them, and a
call that goes through in a state a run reaches pays none exactly when it spares them. -/
theorem blacklisted_unpaid (self : Name) (calls : List (Env D × Action)) :
    (Along (step self) SparesListed {} calls → Along (step self) (PaysUnlisted self) {} calls) ∧
    ∀ (call : Env D × Action) s' out, step self (run (step self) {} calls).1 call = .ok (s', out) →
      (PaysUnlisted self (run (step self) {} calls).1 call ↔
        SparesListed (run (step self) {} calls).1 call) := by
  refine ⟨fun hall => hall.mono ?_, fun call s' out h => paysUnlisted_iff h⟩
  intro s call hspare s' out h
  exact (paysUnlisted_iff h).mpr hspare s' out h

/-- A node that puts itself on the list is paid. -/
theorem blacklisted_paid : ¬ ∀ (self : Name) (calls : List (Env ℚ × Action)),
    Along (step self) (PaysUnlisted self) {} calls := by
  intro h
  let node := Name.ofString "node"
  exact absurd (h (Name.ofString "vtxdistribut")
    [({ onlyProducer 1000 with auths := [⟨treasury, active⟩] },
        .setrewardrule ⟨2, 86400, ⟨500, Stak.vtx⟩, ⟨100, Stak.vtx⟩, 3, 3, "", ""⟩),
      (onlyProducer 1000, .calcrewards node 2),
      ({ onlyProducer 1001 with auths := [⟨node, active⟩] }, .addblacklist node "10.0.0.1"),
      (onlyProducer 1002, .getreward node)]) (by decide +kernel)

end Blacklist

end VDexNode.Distribut
