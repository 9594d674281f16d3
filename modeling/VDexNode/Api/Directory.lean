import Mathlib.Data.List.Induction
import VDexNode.Api.Handler

/-!
# VDexNode.Api.Directory — the node directory against the live announcements

The DHT calls back for each value, the directory has one entry for each node id.  Where a node has
announced several values, the expiry of any of them removes the entry.

* `lookup_directory` : the entry of an id is decided by the last callback of a value with that id.
* `directory_lists_live_iff` : **the directory lists exactly the live nodes when no id's last
  callback is the expiry of one value while another is still live.**
-/

namespace VDexNode.Api

variable {V : Type}

/-- A call of `value_cb`. -/
structure Callback (V : Type) where
  value : V
  expired : Bool
deriving DecidableEq

/-- The map after a sequence of callbacks. -/
def directory (decode : V → Option EosNodeInfo) (cbs : List (Callback V)) : Nodes :=
  cbs.foldl (fun nodes c => valueCb decode nodes c.value c.expired) ∅

/-- The last callback of a value that satisfies `p`. -/
def lastOf (p : V → Bool) (cbs : List (Callback V)) : Option (Callback V) :=
  (cbs.filter (fun c => p c.value)).getLast?

/-- `v` has been announced and has not expired since. -/
def Live [DecidableEq V] (cbs : List (Callback V)) (v : V) : Prop :=
  lastOf (fun w => decide (w = v)) cbs = some ⟨v, false⟩

instance Live.decidable [DecidableEq V] (cbs : List (Callback V)) (v : V) :
    Decidable (Live cbs v) :=
  inferInstanceAs (Decidable (lastOf _ cbs = some _))

/-- The value announces the node `id`. -/
def announces (decode : V → Option EosNodeInfo) (id : String) (v : V) : Bool :=
  decide ((decode v).map EosNodeInfo.id = some id)

/-- Values expire only after they have been announced. -/
def Consistent [DecidableEq V] (cbs : List (Callback V)) : Prop :=
  ∀ pre v post, cbs = pre ++ ⟨v, true⟩ :: post → Live pre v

/-- `get_connected_nodes` has an id exactly when some value that announces it is live, and shows the
key of such a value. -/
def ListsLive [DecidableEq V] (decode : V → Option EosNodeInfo) (cbs : List (Callback V)) : Prop :=
  ∀ id,
    ((∃ key, (getConnectedNodes (directory decode cbs)).lookup id = some key) ↔
      ∃ v node, Live cbs v ∧ decode v = some node ∧ node.id = id) ∧
    ∀ key, (getConnectedNodes (directory decode cbs)).lookup id = some key →
      ∃ v node, Live cbs v ∧ decode v = some node ∧ node.id = id ∧ node.key = key

/-! ## The map -/

/-- Looking an id up in `get_connected_nodes` is looking its node up in the map. -/
theorem lookup_getConnectedNodes (nodes : Nodes) (id : String) :
    (getConnectedNodes nodes).lookup id = (nodes.lookup id).map EosNodeInfo.key := by
  have hloop : ∀ (l : List (Sigma (fun _ : String => EosNodeInfo)))
      (result : AList (fun _ : String => String)), l.NodupKeys →
      (l.foldl (fun result e => result.insert e.1 e.2.key) result).lookup id =
        ((l.dlookup id).map EosNodeInfo.key).or (result.lookup id) := by
    intro l
    induction l with
    | nil =>
      intro result _
      rw [List.foldl_nil, List.dlookup_nil, Option.map_none, Option.none_or]
    | cons e l ih =>
      intro result hnodup
      obtain ⟨hfresh, hnodup⟩ := List.nodupKeys_cons.mp hnodup
      rw [List.foldl_cons, ih _ hnodup]
      by_cases hid : id = e.1
      · subst hid
        rw [List.dlookup_eq_none.mpr hfresh, List.dlookup_cons_eq, AList.lookup_insert]
        rfl
      · rw [AList.lookup_insert_ne hid, List.dlookup_cons_ne l e hid]
  rw [getConnectedNodes, hloop nodes.entries ∅ nodes.nodupKeys, AList.lookup_empty, Option.or_none]
  rfl

theorem directory_concat (decode : V → Option EosNodeInfo) (cbs : List (Callback V))
    (c : Callback V) : directory decode (cbs ++ [c]) =
      valueCb decode (directory decode cbs) c.value c.expired := by
  simp [directory, List.foldl_append]

theorem lastOf_concat (p : V → Bool) (cbs : List (Callback V)) (c : Callback V) :
    lastOf p (cbs ++ [c]) = if p c.value then some c else lastOf p cbs := by
  rw [lastOf, List.filter_append]
  by_cases hp : p c.value
  · rw [if_pos hp]
    simp only [List.filter_cons, hp, if_true, List.filter_nil, List.getLast?_concat]
  · rw [if_neg hp]
    simp only [List.filter_cons, hp, if_false, List.filter_nil, List.append_nil, lastOf,
      Bool.false_eq_true]

theorem lastOf_mem {p : V → Bool} {cbs : List (Callback V)} {c : Callback V}
    (h : lastOf p cbs = some c) : c ∈ cbs ∧ p c.value = true :=
  List.mem_filter.mp (List.mem_of_getLast? h)

theorem lastOf_eq_none {p : V → Bool} {cbs : List (Callback V)} (h : lastOf p cbs = none) :
    ∀ c ∈ cbs, ¬ p c.value = true :=
  List.filter_eq_nil_iff.mp (List.getLast?_eq_none_iff.mp h)

/-- The last of a kind is the last of a smaller kind it belongs to. -/
theorem lastOf_of_imp {p q : V → Bool} (hpq : ∀ v, q v = true → p v = true)
    {cbs : List (Callback V)} {c : Callback V} (h : lastOf p cbs = some c)
    (hc : q c.value = true) : lastOf q cbs = some c := by
  induction cbs using List.reverseRecOn with
  | nil => cases h
  | append_singleton cbs d ih =>
    rw [lastOf_concat] at h ⊢
    by_cases hp : p d.value
    · rw [if_pos hp] at h
      cases h
      rw [if_pos hc]
    · rw [if_neg hp] at h
      rw [if_neg (fun hq => hp (hpq d.value hq))]
      exact ih h

/-- **Entry of an id**: the node of the last value that announced it, unless that callback was an
expiry. -/
theorem lookup_directory (decode : V → Option EosNodeInfo) (cbs : List (Callback V))
    (id : String) : (directory decode cbs).lookup id =
      (lastOf (announces decode id) cbs).bind
        (fun c => if c.expired then none else decode c.value) := by
  induction cbs using List.reverseRecOn with
  | nil => rfl
  | append_singleton cbs c ih =>
    rw [directory_concat, lastOf_concat, valueCb]
    cases hnode : decode c.value with
    | none =>
      have hnot : announces decode id c.value = false := by simp [announces, hnode]
      rw [hnot, if_neg Bool.false_ne_true]
      exact ih
    | some node =>
      by_cases hid : node.id = id
      · have hyes : announces decode id c.value = true := by simp [announces, hnode, hid]
        rw [hyes, if_pos rfl, Option.bind_some, hnode]
        subst hid
        show AList.lookup node.id (if c.expired = true then _ else _) = _
        split_ifs
        · exact AList.lookup_erase node.id _
        · exact AList.lookup_insert _
      · have hnot : announces decode id c.value = false := by simp [announces, hnode, hid]
        rw [hnot, if_neg Bool.false_ne_true, ← ih]
        show AList.lookup id (if c.expired = true then _ else _) = _
        split_ifs
        · exact AList.lookup_erase_ne (Ne.symm hid)
        · exact AList.lookup_insert_ne (Ne.symm hid)

/-! ## Live announcements -/

section Live

variable [DecidableEq V] {decode : V → Option EosNodeInfo} {cbs : List (Callback V)} {id : String}

omit [DecidableEq V] in
theorem announces_iff {v : V} :
    announces decode id v = true ↔ ∃ node, decode v = some node ∧ node.id = id := by
  simp [announces]

/-- If the last callback for an id is an announcement, its value is live. -/
theorem live_of_last {c : Callback V} (h : lastOf (announces decode id) cbs = some c)
    (hexp : c.expired = false) : Live cbs c.value := by
  have hsame : lastOf (fun w => decide (w = c.value)) cbs = some c := by
    refine lastOf_of_imp (fun w hw => ?_) h (decide_eq_true rfl)
    rw [of_decide_eq_true hw]
    exact (lastOf_mem h).2
  rw [Live, hsame, ← hexp]

/-- A live value has been announced. -/
theorem Live.last_ne_none {v : V} (h : Live cbs v) (hid : announces decode id v = true) :
    lastOf (announces decode id) cbs ≠ none := fun hnone =>
  lastOf_eq_none hnone _ (lastOf_mem h).1 hid

/-- **Directory**: `get_connected_nodes` lists exactly the live nodes, each with the key of a live
announcement, exactly when no id's last callback is the expiry of one of its values while another
one is live. -/
theorem directory_lists_live_iff (decode : V → Option EosNodeInfo) (cbs : List (Callback V)) :
    ListsLive decode cbs ↔ ∀ id c, lastOf (announces decode id) cbs = some c → c.expired = true →
      ∀ v, Live cbs v → announces decode id v = false := by
  constructor
  · intro h id c hlast hexp v hlive
    rw [Bool.eq_false_iff]
    intro hid
    obtain ⟨node, hnode, hname⟩ := announces_iff.mp hid
    obtain ⟨key, hkey⟩ := (h id).1.mpr ⟨v, node, hlive, hnode, hname⟩
    rw [lookup_getConnectedNodes, lookup_directory, hlast, Option.bind_some, if_pos hexp] at hkey
    cases hkey
  · intro h id
    have hshown : ∀ key, (getConnectedNodes (directory decode cbs)).lookup id = some key →
        ∃ v node, Live cbs v ∧ decode v = some node ∧ node.id = id ∧ node.key = key := by
      intro key hkey
      rw [lookup_getConnectedNodes, lookup_directory] at hkey
      obtain ⟨node, hnode, hkey⟩ := Option.map_eq_some_iff.mp hkey
      obtain ⟨c, hlast, hnode⟩ := Option.bind_eq_some_iff.mp hnode
      split_ifs at hnode with hexp
      obtain ⟨node', hnode', hname⟩ := announces_iff.mp (lastOf_mem hlast).2
      rw [hnode] at hnode'
      cases hnode'
      exact ⟨c.value, node, live_of_last hlast (Bool.eq_false_iff.mpr hexp), hnode, hname, hkey⟩
    refine ⟨⟨fun ⟨key, hkey⟩ => ?_, fun ⟨v, node, hlive, hnode, hname⟩ => ?_⟩, hshown⟩
    · obtain ⟨v, node, hlive, hnode, hname, -⟩ := hshown key hkey
      exact ⟨v, node, hlive, hnode, hname⟩
    · have hid : announces decode id v = true := announces_iff.mpr ⟨node, hnode, hname⟩
      obtain ⟨c, hlast⟩ := Option.ne_none_iff_exists'.mp (hlive.last_ne_none hid)
      have hexp : c.expired = false := by
        rw [Bool.eq_false_iff]
        intro hexp
        rw [h id c hlast hexp v hlive] at hid
        cases hid
      obtain ⟨node', hnode', -⟩ := announces_iff.mp (lastOf_mem hlast).2
      refine ⟨node'.key, ?_⟩
      rw [lookup_getConnectedNodes, lookup_directory, hlast, Option.bind_some, hexp, hnode']
      rfl

end Live

/-- A node announces itself, announces itself again with a new key, and the first announcement
expires. -/
def reannounced : List (Callback EosNodeInfo) :=
  let old : EosNodeInfo := ⟨"node", ["10.0.0.1:4222"], "EOS1", "pk"⟩
  let new : EosNodeInfo := ⟨"node", ["10.0.0.1:4222"], "EOS2", "pk"⟩
  [⟨old, false⟩, ⟨new, false⟩, ⟨old, true⟩]

/-- The node is still announced and no longer listed. -/
theorem reannounced_unlisted : ¬ ∀ cbs : List (Callback EosNodeInfo), Consistent cbs →
    ListsLive some cbs := by
  intro h
  have hcons : Consistent reannounced := by
    intro pre v post heq
    rcases pre with _ | ⟨a, _ | ⟨b, _ | ⟨c, pre⟩⟩⟩
    · cases heq
    · cases heq
    · cases heq
      decide
    · exact absurd heq (by simp [reannounced])
  obtain ⟨key, hkey⟩ := (h reannounced hcons "node").1.mpr
    ⟨⟨"node", ["10.0.0.1:4222"], "EOS2", "pk"⟩, _, by decide, rfl, rfl⟩
  have hnone : (getConnectedNodes (directory some reannounced)).lookup "node" = none := by decide
  rw [hnone] at hkey
  cases hkey

end VDexNode.Api
