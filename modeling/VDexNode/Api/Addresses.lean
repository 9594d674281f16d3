import VDexNode.Api.Directory

/-!
# VDexNode.Api.Addresses — the listing of first ips

`get_connected_ips` takes the first ip of every node in the map and files the node's key under it,
in whatever order the map yields its entries.  A node without ips stops it, and of nodes with the
same first ip one key is left (`lookup_getConnectedIps`).

* `listsAll_iff` : **the listing survives and shows every key exactly when every current node has an
  ip and every key has a first ip of its own.**
-/

namespace VDexNode.Api

variable {V : Type}

/-- The entries of a map. -/
abbrev Entry := Sigma (fun _ : String => EosNodeInfo)

/-- The last entry of `order` with the first ip `ip`. -/
def lastAt (ip : String) (order : List Entry) : Option Entry :=
  (order.filter (fun e => decide (e.2.firstIp = some ip))).getLast?

theorem getConnectedIps_concat (order : List Entry) (e : Entry) :
    getConnectedIps (order ++ [e]) = (getConnectedIps order).bind (fun result =>
      e.2.firstIp.map (fun ip => result.insert ip e.2.key)) := by
  unfold getConnectedIps
  rw [List.foldlM_append]
  refine congrArg (Option.bind _) (funext fun result => ?_)
  rw [List.foldlM_cons]
  cases e.2.firstIp <;> rfl

theorem lastAt_append (ip : String) (order order' : List Entry) :
    lastAt ip (order ++ order') = (lastAt ip order').or (lastAt ip order) := by
  rw [lastAt, List.filter_append, List.getLast?_append, lastAt, lastAt]

theorem lastAt_concat (ip : String) (order : List Entry) (e : Entry) :
    lastAt ip (order ++ [e]) = if e.2.firstIp = some ip then some e else lastAt ip order := by
  rw [lastAt_append]
  by_cases hip : e.2.firstIp = some ip
  · rw [if_pos hip]
    simp [lastAt, hip]
  · rw [if_neg hip]
    simp [lastAt, hip]

theorem lastAt_mem {ip : String} {order : List Entry} {e : Entry} (h : lastAt ip order = some e) :
    e ∈ order ∧ e.2.firstIp = some ip := by
  obtain ⟨he, hip⟩ := List.mem_filter.mp (List.mem_of_getLast? h)
  exact ⟨he, of_decide_eq_true hip⟩

theorem exists_lastAt {ip : String} {order : List Entry} {e : Entry} (he : e ∈ order)
    (hip : e.2.firstIp = some ip) : ∃ last, lastAt ip order = some last := by
  refine Option.ne_none_iff_exists'.mp (fun hnone => ?_)
  have hnot := List.filter_eq_nil_iff.mp (List.getLast?_eq_none_iff.mp hnone) e he
  exact hnot (decide_eq_true hip)

/-- The listing goes through exactly when every node has an ip. -/
theorem exists_getConnectedIps {order : List Entry} :
    (∃ result, getConnectedIps order = some result) ↔ ∀ e ∈ order, ∃ ip, e.2.firstIp = some ip := by
  induction order using List.reverseRecOn with
  | nil => exact iff_of_true ⟨∅, rfl⟩ (fun e he => absurd he List.not_mem_nil)
  | append_singleton order e ih =>
    rw [List.forall_mem_append, List.forall_mem_singleton, ← ih]
    simp only [getConnectedIps_concat, Option.bind_eq_some_iff, Option.map_eq_some_iff]
    constructor
    · rintro ⟨_, result, hresult, ip, hip, -⟩
      exact ⟨⟨result, hresult⟩, ip, hip⟩
    · rintro ⟨⟨result, hresult⟩, ip, hip⟩
      exact ⟨_, result, hresult, ip, hip, rfl⟩

/-- Under an ip stands the key of the last node that has it first. -/
theorem lookup_getConnectedIps {order : List Entry} {result : AList (fun _ : String => String)}
    (h : getConnectedIps order = some result) (ip : String) :
    result.lookup ip = (lastAt ip order).map (fun e => e.2.key) := by
  induction order using List.reverseRecOn generalizing result with
  | nil =>
    cases h
    rfl
  | append_singleton order e ih =>
    rw [getConnectedIps_concat, Option.bind_eq_some_iff] at h
    obtain ⟨before, hbefore, h⟩ := h
    obtain ⟨ip', hip', rfl⟩ := Option.map_eq_some_iff.mp h
    rw [lastAt_concat, hip']
    by_cases hip : ip' = ip
    · rw [if_pos (congrArg some hip), hip, AList.lookup_insert, Option.map_some]
    · rw [if_neg (fun heq => hip (Option.some.inj heq)), AList.lookup_insert_ne (Ne.symm hip),
        ih hbefore]

/-- However the map is iterated, the listing returns, and the key of every node is a value of it. -/
def ListsAll (nodes : Nodes) : Prop :=
  ∀ order : List Entry, order.Perm nodes.entries → ∃ result, getConnectedIps order = some result ∧
    ∀ e ∈ nodes.entries, ∃ ip, result.lookup ip = some e.2.key

/-- The listing of a map: no node without ips, and for each node an ip that is first of nodes of its
key only. -/
theorem listsAll_entries {nodes : Nodes} : ListsAll nodes ↔
    (∀ e ∈ nodes.entries, ∃ ip, e.2.firstIp = some ip) ∧
    ∀ e ∈ nodes.entries, ∃ ip, (∃ o ∈ nodes.entries, o.2.firstIp = some ip) ∧
      ∀ o ∈ nodes.entries, o.2.firstIp = some ip → o.2.key = e.2.key := by
  constructor
  · intro h
    refine ⟨?_, fun e he => ?_⟩
    · obtain ⟨result, hresult, -⟩ := h nodes.entries (List.Perm.refl _)
      exact exists_getConnectedIps.mp ⟨result, hresult⟩
    · -- the nodes of other keys come last, so that they win every ip they have first
      let same : Entry → Bool := fun o => decide (o.2.key = e.2.key)
      obtain ⟨result, hresult, hall⟩ := h
        (nodes.entries.filter same ++ nodes.entries.filter (fun o => !same o))
        (List.filter_append_perm same nodes.entries)
      obtain ⟨ip, hip⟩ := hall e he
      rw [lookup_getConnectedIps hresult, lastAt_append, Option.map_eq_some_iff] at hip
      obtain ⟨last, hlast, hkey⟩ := hip
      have hothers : lastAt ip (nodes.entries.filter (fun o => !same o)) = none := by
        cases hother : lastAt ip (nodes.entries.filter (fun o => !same o)) with
        | none => rfl
        | some o =>
          rw [hother, Option.some_or] at hlast
          cases hlast
          have hnot := (List.mem_filter.mp (lastAt_mem hother).1).2
          simp [same, hkey] at hnot
      rw [hothers, Option.none_or] at hlast
      obtain ⟨hmem, hfirst⟩ := lastAt_mem hlast
      refine ⟨ip, ⟨last, (List.mem_filter.mp hmem).1, hfirst⟩, fun o ho hoip => ?_⟩
      by_contra hne
      have ho' : o ∈ nodes.entries.filter (fun o => !same o) :=
        List.mem_filter.mpr ⟨ho, by simp [same, hne]⟩
      obtain ⟨o', ho'⟩ := exists_lastAt ho' hoip
      rw [hothers] at ho'
      cases ho'
  · rintro ⟨hips, hkeys⟩ order hperm
    obtain ⟨result, hresult⟩ :=
      exists_getConnectedIps.mpr (fun e he => hips e (hperm.mem_iff.mp he))
    refine ⟨result, hresult, fun e he => ?_⟩
    obtain ⟨ip, ⟨o, ho, hoip⟩, hsame⟩ := hkeys e he
    obtain ⟨last, hlast⟩ := exists_lastAt (hperm.mem_iff.mpr ho) hoip
    obtain ⟨hmem, hfirst⟩ := lastAt_mem hlast
    refine ⟨ip, ?_⟩
    rw [lookup_getConnectedIps hresult, hlast, Option.map_some,
      hsame last (hperm.mem_iff.mp hmem) hfirst]

/-! ## After callbacks -/

/-- The node is in the map: the last callback of its id announced it. -/
def Current (decode : V → Option EosNodeInfo) (cbs : List (Callback V)) (node : EosNodeInfo) :
    Prop :=
  ∃ id c, lastOf (announces decode id) cbs = some c ∧ c.expired = false ∧
    decode c.value = some node

theorem current_iff {decode : V → Option EosNodeInfo} {cbs : List (Callback V)}
    {node : EosNodeInfo} :
    Current decode cbs node ↔ ∃ e ∈ (directory decode cbs).entries, e.2 = node := by
  constructor
  · rintro ⟨id, c, hlast, hexp, hnode⟩
    have hlookup : (directory decode cbs).lookup id = some node := by
      rw [lookup_directory, hlast, Option.bind_some, hexp, hnode]
      rfl
    exact ⟨⟨id, node⟩, AList.mem_lookup_iff.mp hlookup, rfl⟩
  · rintro ⟨⟨id, node⟩, he, rfl⟩
    have hlookup : (directory decode cbs).lookup id = some node := AList.mem_lookup_iff.mpr he
    rw [lookup_directory, Option.bind_eq_some_iff] at hlookup
    obtain ⟨c, hlast, hnode⟩ := hlookup
    split_ifs at hnode with hexp
    exact ⟨id, c, hlast, Bool.eq_false_iff.mpr hexp, hnode⟩

/-- **Addresses**: the listing survives and shows every key if and only if every current node has an
ip, and for each of them some node's first ip is had first by nodes of its key only. -/
theorem listsAll_iff (decode : V → Option EosNodeInfo) (cbs : List (Callback V)) :
    ListsAll (directory decode cbs) ↔
      (∀ node, Current decode cbs node → ∃ ip, node.firstIp = some ip) ∧
      ∀ node, Current decode cbs node → ∃ ip,
        (∃ other, Current decode cbs other ∧ other.firstIp = some ip) ∧
        ∀ other, Current decode cbs other → other.firstIp = some ip → other.key = node.key := by
  rw [listsAll_entries]
  simp only [current_iff, forall_exists_index, and_imp, forall_apply_eq_imp_iff₂,
    exists_exists_and_eq_and]

/-- A node that announces no ip. -/
def withoutIps : List (Callback EosNodeInfo) := [⟨⟨"node", [], "EOS1", "pk"⟩, false⟩]

/-- Two nodes behind one address. -/
def sharedIp : List (Callback EosNodeInfo) :=
  [⟨⟨"node", ["10.0.0.1:4222"], "EOS1", "pk1"⟩, false⟩,
    ⟨⟨"other", ["10.0.0.1:4222"], "EOS2", "pk2"⟩, false⟩]

/-- The first makes the listing panic, and of the second one key is missing. -/
theorem announcements_unlisted :
    getConnectedIps (directory some withoutIps).entries = none ∧
    ¬ ListsAll (directory some withoutIps) ∧ ¬ ListsAll (directory some sharedIp) := by
  have hpanic : getConnectedIps (directory some withoutIps).entries = none := by decide
  refine ⟨hpanic, fun h => ?_, fun h => ?_⟩
  · obtain ⟨result, hresult, -⟩ := h _ (List.Perm.refl _)
    rw [hpanic] at hresult
    cases hresult
  · have hentries : (directory some sharedIp).entries =
        [⟨"other", ["10.0.0.1:4222"], "EOS2", "pk2"⟩,
          ⟨"node", ["10.0.0.1:4222"], "EOS1", "pk1"⟩].map
          (fun node : EosNodeInfo => (⟨node.id, node⟩ : Entry)) := by decide
    have hkeys := (listsAll_entries.mp h).2
    rw [hentries] at hkeys
    obtain ⟨ip, ⟨o, ho, hoip⟩, hsame⟩ := hkeys _ (List.mem_of_mem_tail List.mem_cons_self)
    have hip : ip = "10.0.0.1:4222" := by
      simp only [List.map_cons, List.map_nil, List.mem_cons, List.not_mem_nil, or_false] at ho
      rcases ho with rfl | rfl <;> exact (Option.some.inj hoip).symm
    subst hip
    have hkey := hsame _ List.mem_cons_self rfl
    exact absurd hkey (by decide)

end VDexNode.Api
