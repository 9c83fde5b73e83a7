import Nexora.Control.ControlPlane

/-!
# Failovers on several control planes without consensus

Each node runs its own control plane and fails shards over by what it holds alive. A plane's n-th
failover of a shard goes to the n-th of its `candidates`. Two planes with a majority never disagree
about an epoch exactly when the candidates of one are the first candidates of the other.
-/

namespace Nexora.Control
open Lib Nexora.Cluster List ControlPlane Nat

structure Promotion where
  plane : NodeName
  shard : Nat
  epoch : OwnerEpoch
  owner : NodeName
  deriving DecidableEq

structure Deployment where
  planes : NodeName → ControlPlane
  promotions : List Promotion

namespace Deployment

def step (d : Deployment) (call : NodeName × Nat) : Deployment :=
  let (plane, result) := (d.planes call.1).failoverShardAuto call.2
  { planes := Function.update d.planes call.1 plane
    promotions := match result, plane.shardMap.get call.2 with
      | .ok (some token), some assignment => d.promotions ++ [⟨call.1, token.shardId, token.epoch, assignment.owner⟩]
      | _, _ => d.promotions }

def start (map : ShardMap) (voters : NodeName → List NodeName)
    (alive : NodeName → NodeName → Bool) : Deployment where
  planes node :=
    { shardMap := { map with localNode := node }
      voters := voters node
      nodeHealth := fun other => some ⟨alive node other⟩
      members := []
      replicationFactor := 1 }
  promotions := []

/-- No two promotions give a shard to different owners at the same epoch. -/
def NoSplitBrain (d : Deployment) : Prop :=
  ∀ x ∈ d.promotions, ∀ y ∈ d.promotions, x.shard = y.shard → x.epoch = y.epoch → x.owner = y.owner

end Deployment

/-! ### One plane -/

namespace ControlPlane

def candidates (plane : ControlPlane) (assignment : OwnedShard) : List NodeName :=
  (assignment.replicas.filter plane.holdsAlive).eraseDups

variable {plane : ControlPlane} {shard : Nat} {assignment : OwnedShard}

theorem holdsAlive_congr {other : ControlPlane} (h : plane.nodeHealth = other.nodeHealth) :
    plane.holdsAlive = other.holdsAlive := by
  funext node
  rw [holdsAlive, h, holdsAlive]

theorem length_candidates_le (plane : ControlPlane) (assignment : OwnedShard) :
    (plane.candidates assignment).length ≤ assignment.replicas.length := by
  have hdups : ∀ l : List NodeName, l.eraseDups.length ≤ l.length := by
    intro l
    induction h : l.length using Nat.strongRecOn generalizing l with
    | ind n ih =>
      cases l with
      | nil => exact zero_le _
      | cons a l =>
        rw [length_cons] at h
        have hfilter := length_filter_le (fun b => !b == a) l
        have hrec := ih (l.filter fun b => !b == a).length (by omega) _ rfl
        rw [eraseDups_cons, length_cons]
        omega
  exact (hdups _).trans (length_filter_le _ _)

theorem candidates_nil_iff :
    plane.candidates assignment = [] ↔ assignment.replicas.find? plane.holdsAlive = none := by
  rw [candidates, eq_nil_iff_forall_not_mem]
  simp

theorem candidates_promote {owner : NodeName}
    (h : assignment.replicas.find? plane.holdsAlive = some owner) :
    plane.candidates assignment = owner :: plane.candidates (promote assignment owner) := by
  obtain ⟨hp, before, after, hreplicas, hbefore⟩ := find?_eq_some_iff_append.mp h
  have hnone : ∀ p : NodeName → Bool,
      (∀ node ∈ before, ¬ p node = true) → before.filter p = [] := by
    intro p hall
    exact filter_eq_nil_iff.mpr hall
  have hdead : ∀ node ∈ before, ¬ plane.holdsAlive node = true :=
    fun node hnode => by simpa using hbefore node hnode
  have hlive : assignment.replicas.filter plane.holdsAlive = owner :: after.filter plane.holdsAlive := by
    rw [hreplicas, filter_append, hnone _ hdead, nil_append, filter_cons_of_pos hp]
  have hrest : (promote assignment owner).replicas.filter plane.holdsAlive =
      (after.filter plane.holdsAlive).filter fun b => !b == owner := by
    have hswap : (promote assignment owner).replicas.filter plane.holdsAlive =
        (assignment.replicas.filter plane.holdsAlive).filter fun b => !b == owner := by
      rw [promote, filter_filter, filter_filter]
      apply filter_congr
      intro node _
      by_cases hnode : node = owner
      · simp [hnode]
      · simp [hnode]
    simp [hswap, hlive]
  rw [candidates, candidates, hlive, hrest, eraseDups_cons]

theorem failoverShardAuto_of_not
    (h : plane.quorumHealthy = false ∨ plane.shardMap.get shard = none) :
    ∃ error, plane.failoverShardAuto shard = (plane, .error error) := by
  unfold failoverShardAuto
  split
  · next hhealthy =>
    have hnone : plane.shardMap.get shard = none := h.resolve_left (by simp [hhealthy])
    rw [hnone]
    exact ⟨_, rfl⟩
  · exact ⟨_, rfl⟩

theorem failoverShardAuto_cons {owner : NodeName} {rest : List NodeName}
    (hquorum : plane.quorumHealthy = true) (hget : plane.shardMap.get shard = some assignment)
    (hcons : plane.candidates assignment = owner :: rest) :
    plane.failoverShardAuto shard =
      ({ plane with shardMap := assign plane.shardMap shard (promote assignment owner) },
        .ok (some ⟨shard, assignment.epoch + 1⟩)) ∧
    plane.candidates (promote assignment owner) = rest := by
  cases hfind : assignment.replicas.find? plane.holdsAlive with
  | none =>
    rw [candidates_nil_iff.mpr hfind] at hcons
    cases hcons
  | some first =>
    have hfirst := candidates_promote hfind
    rw [hcons, cons.injEq] at hfirst
    obtain ⟨rfl, hrest⟩ := hfirst
    exact ⟨by simp only [failoverShardAuto, hquorum, if_true, hget, hfind], hrest.symm⟩

end ControlPlane

/-! ### What the planes have done -/

namespace Deployment
variable (map : ShardMap) (voters : NodeName → List NodeName) (alive : NodeName → NodeName → Bool)

abbrev plane (node : NodeName) : ControlPlane := (start map voters alive).planes node

def made (calls : List (NodeName × Nat)) (node : NodeName) (shard : Nat) (assignment : OwnedShard) :
    Nat :=
  if (plane map voters alive node).quorumHealthy then
    min (calls.count (node, shard)) ((plane map voters alive node).candidates assignment).length
  else 0

/-- A plane has gone through its first candidates for each shard, one epoch for each, and nothing
else was promoted. -/
structure Follows (calls : List (NodeName × Nat)) (d : Deployment) : Prop where
  sameVoters : ∀ node, (d.planes node).voters = voters node
  sameHealth : ∀ node, (d.planes node).nodeHealth = fun other => some ⟨alive node other⟩
  absent : ∀ node shard, map.get shard = none → (d.planes node).shardMap.get shard = none
  assigned : ∀ node shard assignment, map.get shard = some assignment → ∃ now,
    (d.planes node).shardMap.get shard = some now ∧
    now.epoch.val = (assignment.epoch.val + made map voters alive calls node shard assignment) % 2 ^ 64 ∧
    (d.planes node).candidates now =
      ((plane map voters alive node).candidates assignment).drop (made map voters alive calls node shard assignment)
  promotions : ∀ x, x ∈ d.promotions ↔ ∃ assignment i, map.get x.shard = some assignment ∧
    i < made map voters alive calls x.plane x.shard assignment ∧
    ((plane map voters alive x.plane).candidates assignment)[i]? = some x.owner ∧
    x.epoch.val = (assignment.epoch.val + i + 1) % 2 ^ 64

variable {map voters alive} {calls : List (NodeName × Nat)} {d : Deployment}

theorem Follows.holdsAlive_eq (h : Follows map voters alive calls d) (node : NodeName) :
    (d.planes node).holdsAlive = (plane map voters alive node).holdsAlive :=
  holdsAlive_congr (h.sameHealth node)

theorem Follows.quorumHealthy_eq (h : Follows map voters alive calls d) (node : NodeName) :
    (d.planes node).quorumHealthy = (plane map voters alive node).quorumHealthy := by
  simp only [quorumHealthy, aliveVoters, h.holdsAlive_eq, h.sameVoters]
  rfl

variable {call : NodeName × Nat} {node : NodeName} {shard : Nat}

theorem made_append_of_ne (hne : (node, shard) ≠ call) (assignment : OwnedShard) :
    made map voters alive (calls ++ [call]) node shard assignment = made map voters alive calls node shard assignment := by
  have hcount : (calls ++ [call]).count (node, shard) = calls.count (node, shard) := by
    rw [count_append, count_singleton, if_neg (by simpa using Ne.symm hne), add_zero]
  rw [made, made, hcount]

theorem made_append_self (hquorum : (plane map voters alive node).quorumHealthy = true)
    (assignment : OwnedShard) :
    made map voters alive (calls ++ [(node, shard)]) node shard assignment =
      min (made map voters alive calls node shard assignment + 1)
      ((plane map voters alive node).candidates assignment).length := by
  have hcount : (calls ++ [(node, shard)]).count (node, shard) = calls.count (node, shard) + 1 := by
    simp
  rw [made, made, if_pos hquorum, if_pos hquorum]
  omega

theorem made_of_not_healthy (hquorum : (plane map voters alive node).quorumHealthy = false)
    (shard : Nat) (assignment : OwnedShard) :
    made map voters alive calls node shard assignment = 0 := by
  rw [made, if_neg (by simp [hquorum])]

theorem Follows.of_error (h : Follows map voters alive calls d)
    (hfail : (plane map voters alive call.1).quorumHealthy = false ∨ map.get call.2 = none) :
    Follows map voters alive (calls ++ [call]) (d.step call) := by
  have hstep : d.step call = d := by
    obtain ⟨error, herror⟩ := (d.planes call.1).failoverShardAuto_of_not
      (hfail.imp (fun hq => (h.quorumHealthy_eq call.1).trans hq) (h.absent call.1 call.2))
    simp [step, herror]
  have hmade : ∀ node shard assignment, map.get shard = some assignment →
      made map voters alive (calls ++ [call]) node shard assignment =
        made map voters alive calls node shard assignment := by
    intro node shard assignment hget
    by_cases hcall : (node, shard) = call
    · subst hcall
      obtain hq | hnone := hfail
      · simp [made_of_not_healthy hq]
      · rw [hget] at hnone
        cases hnone
    · exact made_append_of_ne hcall assignment
  rw [hstep]
  refine ⟨h.sameVoters, h.sameHealth, h.absent, ?_, ?_⟩
  · intro node shard assignment hget
    rw [hmade node shard assignment hget]
    exact h.assigned node shard assignment hget
  · intro x
    rw [h.promotions]
    constructor
    · rintro ⟨assignment, i, hget, hi, hrest⟩
      exact ⟨assignment, i, hget, by rwa [hmade x.plane x.shard assignment hget], hrest⟩
    · rintro ⟨assignment, i, hget, hi, hrest⟩
      exact ⟨assignment, i, hget, by rwa [hmade x.plane x.shard assignment hget] at hi, hrest⟩

theorem Follows.of_assign (h : Follows map voters alive calls d) {assignment : OwnedShard}
    (next : OwnedShard) (added : List Promotion) (hget : map.get shard = some assignment)
    (hstep : d.step (node, shard) =
      ⟨Function.update d.planes node { d.planes node with shardMap := assign (d.planes node).shardMap shard next },
        d.promotions ++ added⟩)
    (hgrows : made map voters alive calls node shard assignment ≤
      made map voters alive (calls ++ [(node, shard)]) node shard assignment)
    (hepoch : next.epoch.val =
      (assignment.epoch.val + made map voters alive (calls ++ [(node, shard)]) node shard assignment) % 2 ^ 64)
    (hnext : (d.planes node).candidates next = ((plane map voters alive node).candidates assignment).drop
      (made map voters alive (calls ++ [(node, shard)]) node shard assignment))
    (hadded : ∀ x, x ∈ added ↔ x.plane = node ∧ x.shard = shard ∧ ∃ i, made map voters alive calls node shard assignment ≤ i ∧
      i < made map voters alive (calls ++ [(node, shard)]) node shard assignment ∧
      ((plane map voters alive node).candidates assignment)[i]? = some x.owner ∧
      x.epoch.val = (assignment.epoch.val + i + 1) % 2 ^ 64) :
    Follows map voters alive (calls ++ [(node, shard)]) (d.step (node, shard)) := by
  -- The other planes and the other shards of this plane are as they were.
  have hother : ∀ node' shard', (node', shard') ≠ (node, shard) →
      ((d.step (node, shard)).planes node').shardMap.get shard' = (d.planes node').shardMap.get shard' := by
    intro node' shard' hne
    rw [hstep]
    by_cases hnode : node' = node
    · subst hnode
      have hshard : shard' ≠ shard := fun heq => hne (by rw [heq])
      simp [hshard]
    · simp [hnode]
  have hplanes : ∀ node', ∃ shardMap, (d.step (node, shard)).planes node' =
      { d.planes node' with shardMap := shardMap } := by
    intro node'
    rw [hstep]
    by_cases hnode : node' = node
    · subst hnode
      exact ⟨_, Function.update_self ..⟩
    · exact ⟨_, Function.update_of_ne hnode ..⟩
  have hcandidates :
      ∀ node', ((d.step (node, shard)).planes node').candidates = (d.planes node').candidates := by
    intro node'
    obtain ⟨shardMap, hplane⟩ := hplanes node'
    rw [hplane]
    rfl
  refine ⟨?_, ?_, ?_, ?_, ?_⟩
  · intro node'
    obtain ⟨shardMap, hplane⟩ := hplanes node'
    rw [hplane]
    exact h.sameVoters node'
  · intro node'
    obtain ⟨shardMap, hplane⟩ := hplanes node'
    rw [hplane]
    exact h.sameHealth node'
  · intro node' shard' hnone
    have hne : (node', shard') ≠ (node, shard) := by
      rintro ⟨⟩
      rw [hget] at hnone
      cases hnone
    rw [hother node' shard' hne]
    exact h.absent node' shard' hnone
  · intro node' shard' assignment' hget'
    rw [hcandidates]
    by_cases hcall : (node', shard') = (node, shard)
    · cases hcall
      rw [hget, Option.some.injEq] at hget'
      subst hget'
      exact ⟨next, by rw [hstep]; simp, hepoch, hnext⟩
    · rw [hother node' shard' hcall, made_append_of_ne hcall]
      exact h.assigned node' shard' assignment' hget'
  · intro x
    have hmem : x ∈ (d.step (node, shard)).promotions ↔ x ∈ d.promotions ∨ x ∈ added := by
      rw [hstep]
      exact mem_append
    rw [hmem, h.promotions, hadded]
    by_cases hcall : (x.plane, x.shard) = (node, shard)
    · obtain ⟨hplane, hshard⟩ := Prod.mk.inj hcall
      rw [hplane, hshard, hget]
      constructor
      · rintro (⟨a, i, ha, hi, hrest⟩ | ⟨-, -, i, -, hi, hrest⟩)
        · cases ha
          exact ⟨assignment, i, rfl, hi.trans_le hgrows, hrest⟩
        · exact ⟨assignment, i, rfl, hi, hrest⟩
      · rintro ⟨a, i, ha, hi, hrest⟩
        cases ha
        by_cases hold : i < made map voters alive calls node shard assignment
        · exact Or.inl ⟨assignment, i, rfl, hold, hrest⟩
        · exact Or.inr ⟨rfl, rfl, i, Nat.le_of_not_lt hold, hi, hrest⟩
    · have hnot : ¬ (x.plane = node ∧ x.shard = shard) := fun ⟨hplane, hshard⟩ => hcall (by rw [hplane, hshard])
      constructor
      · rintro (⟨a, i, ha, hi, hrest⟩ | ⟨hplane, hshard, -⟩)
        · exact ⟨a, i, ha, by rwa [made_append_of_ne hcall], hrest⟩
        · exact absurd ⟨hplane, hshard⟩ hnot
      · rintro ⟨a, i, ha, hi, hrest⟩
        exact Or.inl ⟨a, i, ha, by rwa [made_append_of_ne hcall] at hi, hrest⟩

section
variable {node : NodeName} {shard : Nat} {assignment : OwnedShard}
section
variable (h : Follows map voters alive calls d) (hquorum : (plane map voters alive node).quorumHealthy = true)
  (hget : map.get shard = some assignment)

include h hquorum hget

theorem Follows.of_exhausted
    (hend : ((plane map voters alive node).candidates assignment).length ≤ made map voters alive calls node shard assignment) :
    Follows map voters alive (calls ++ [(node, shard)]) (d.step (node, shard)) := by
  obtain ⟨now, hnow, hepoch, hdrop⟩ := h.assigned node shard assignment hget
  have hsame : made map voters alive (calls ++ [(node, shard)]) node shard assignment =
      made map voters alive calls node shard assignment := by
    have hle : made map voters alive calls node shard assignment ≤
        ((plane map voters alive node).candidates assignment).length := by
      rw [made, if_pos hquorum]
      exact min_le_right _ _
    rw [made_append_self hquorum]
    omega
  have hnil := hdrop.trans (drop_eq_nil_iff.mpr hend)
  have hhealthy := (h.quorumHealthy_eq node).trans hquorum
  apply h.of_assign { now with writable := false } [] hget
  · simp [step, failoverShardAuto, hhealthy, hnow, candidates_nil_iff.mp hnil]
  · omega
  · rw [hsame]
    exact hepoch
  · rw [hsame]
    exact hdrop
  · intro x
    constructor
    · intro hx
      cases hx
    · rintro ⟨-, -, i, hi, hi', -⟩
      omega

theorem Follows.of_promoted
    (hlt : made map voters alive calls node shard assignment < ((plane map voters alive node).candidates assignment).length) :
    Follows map voters alive (calls ++ [(node, shard)]) (d.step (node, shard)) := by
  obtain ⟨now, hnow, hepoch, hdrop⟩ := h.assigned node shard assignment hget
  have hmade : made map voters alive (calls ++ [(node, shard)]) node shard assignment =
      made map voters alive calls node shard assignment + 1 := by
    rw [made_append_self hquorum]
    omega
  obtain ⟨owner, howner, hcons⟩ : ∃ owner, ((plane map voters alive node).candidates assignment)[
        made map voters alive calls node shard assignment]? = some owner ∧
      ((plane map voters alive node).candidates assignment).drop (made map voters alive calls node shard assignment) =
        owner :: ((plane map voters alive node).candidates assignment).drop
          (made map voters alive calls node shard assignment + 1) :=
    ⟨_, getElem?_eq_getElem hlt, drop_eq_getElem_cons hlt⟩
  obtain ⟨hcall, hleft⟩ :=
    failoverShardAuto_cons ((h.quorumHealthy_eq node).trans hquorum) hnow (hdrop.trans hcons)
  have hnextepoch : (now.epoch + 1).val =
      (assignment.epoch.val + made map voters alive calls node shard assignment + 1) % 2 ^ 64 := by
    rw [Fin.val_add, hepoch]
    show ((assignment.epoch.val + made map voters alive calls node shard assignment) % 2 ^ 64 + 1) % 2 ^ 64 = _
    omega
  generalize hk : made map voters alive calls node shard assignment = k at *
  apply h.of_assign (promote now owner) [⟨node, shard, now.epoch + 1, owner⟩] hget
  · simp [step, hcall, promote]
  · omega
  · rw [hmade]
    exact hnextepoch
  · rw [hmade, hleft]
  · intro x
    rw [mem_singleton, hk, hmade]
    constructor
    · intro hx
      subst hx
      exact ⟨rfl, rfl, k, le_refl k, lt_succ_self k, howner, hnextepoch⟩
    · rintro ⟨hplane, hshard, i, hi, hi', hiowner, hiepoch⟩
      have hik : i = k := by omega
      subst hik
      rw [howner] at hiowner
      obtain ⟨xplane, xshard, xepoch, xowner⟩ := x
      cases hplane
      cases hshard
      cases hiowner
      congr 1
      exact Fin.ext (hiepoch.trans hnextepoch.symm)

end
end

theorem Follows.step (h : Follows map voters alive calls d) (call : NodeName × Nat) :
    Follows map voters alive (calls ++ [call]) (d.step call) := by
  obtain ⟨node, shard⟩ := call
  cases hquorum : (plane map voters alive node).quorumHealthy with
  | false => exact h.of_error (Or.inl hquorum)
  | true =>
    cases hget : map.get shard with
    | none => exact h.of_error (Or.inr hget)
    | some assignment =>
      obtain hlt | hend := lt_or_ge (made map voters alive calls node shard assignment)
        ((plane map voters alive node).candidates assignment).length
      · exact h.of_promoted hquorum hget hlt
      · exact h.of_exhausted hquorum hget hend

theorem follows_start : Follows map voters alive [] (start map voters alive) := by
  have hmade : ∀ node shard assignment, made map voters alive [] node shard assignment = 0 := by
    intro node shard assignment
    simp [made]
  refine ⟨fun _ => rfl, fun _ => rfl, fun node shard hnone => hnone, ?_, ?_⟩
  · intro node shard assignment hget
    rw [hmade]
    exact ⟨assignment, hget, (mod_eq_of_lt assignment.epoch.isLt).symm, rfl⟩
  · intro x
    constructor
    · intro hx
      cases hx
    · rintro ⟨assignment, i, -, hi, -⟩
      rw [hmade] at hi
      exact absurd hi (not_lt_zero i)

theorem follows_run (map : ShardMap) (voters : NodeName → List NodeName)
    (alive : NodeName → NodeName → Bool) (calls : List (NodeName × Nat)) :
    Follows map voters alive calls (run step (start map voters alive) calls) := by
  induction calls using reverseRecOn with
  | nil => exact follows_start
  | append_singleton calls call ih =>
    rw [run_append]
    exact ih.step call

/-! ### Planes that do not disagree -/

theorem isPrefix_or_isPrefix_iff {α : Type} {l m : List α} :
    l <+: m ∨ m <+: l ↔ ∀ (i : Nat) (a b : α), l[i]? = some a → m[i]? = some b → a = b := by
  constructor
  · rintro (h | h) i a b ha hb
    · obtain ⟨hi, rfl⟩ := List.getElem?_eq_some_iff.mp ha
      rw [prefix_iff_getElem?.mp h i hi, Option.some.injEq] at hb
      exact hb
    · obtain ⟨hi, rfl⟩ := List.getElem?_eq_some_iff.mp hb
      rw [prefix_iff_getElem?.mp h i hi, Option.some.injEq] at ha
      exact ha.symm
  · intro h
    obtain hle | hle := le_total l.length m.length
    · refine Or.inl (prefix_iff_getElem?.mpr fun i hi => ?_)
      have hm : i < m.length := by omega
      simp [h i l[i] m[i] (getElem?_eq_getElem hi) (getElem?_eq_getElem hm)]
    · refine Or.inr (prefix_iff_getElem?.mpr fun i hi => ?_)
      have hl : i < l.length := by omega
      rw [getElem?_eq_getElem hl, h i l[i] m[i] (getElem?_eq_getElem hl) (getElem?_eq_getElem hi)]

theorem mem_promotions_of_candidate {node : NodeName}
    (hquorum : (plane map voters alive node).quorumHealthy = true) {shard : Nat}
    {assignment : OwnedShard} (hget : map.get shard = some assignment) {i : Nat} {owner : NodeName}
    (howner : ((plane map voters alive node).candidates assignment)[i]? = some owner)
    {epoch : OwnerEpoch} (hepoch : epoch.val = (assignment.epoch.val + i + 1) % 2 ^ 64)
    (hcalls : i < calls.count (node, shard)) :
    ⟨node, shard, epoch, owner⟩ ∈ (run step (start map voters alive) calls).promotions := by
  rw [(follows_run map voters alive calls).promotions]
  refine ⟨assignment, i, hget, ?_, howner, hepoch⟩
  obtain ⟨hi, -⟩ := List.getElem?_eq_some_iff.mp howner
  show i < made map voters alive calls node shard assignment
  rw [made, if_pos hquorum]
  omega

/-- **Split brain.** Control planes without consensus that start from one map never give a shard to
different owners at the same epoch, whatever failovers are asked of them, exactly when of any two of
them that have a majority one holds the first candidates of the other alive. -/
theorem noSplitBrain_iff (planes : Set NodeName) (map : ShardMap)
    (hmap : ∀ shard assignment, map.get shard = some assignment → assignment.replicas.length < 2 ^ 64)
    (voters : NodeName → List NodeName) (alive : NodeName → NodeName → Bool) :
    (∀ calls, (∀ call ∈ calls, call.1 ∈ planes) → (run step (start map voters alive) calls).NoSplitBrain) ↔
      ∀ p ∈ planes, ∀ q ∈ planes, (plane map voters alive p).quorumHealthy = true →
        (plane map voters alive q).quorumHealthy = true → ∀ shard assignment, map.get shard = some assignment →
          (plane map voters alive p).candidates assignment <+: (plane map voters alive q).candidates assignment ∨
          (plane map voters alive q).candidates assignment <+: (plane map voters alive p).candidates assignment := by
  constructor
  · intro hsafe p hp q hq hquorum hquorum' shard assignment hget
    rw [isPrefix_or_isPrefix_iff]
    intro i owner owner' howner howner'
    -- Both planes are asked until they come to their i-th candidate.
    have hcalls : ∀ call ∈ replicate (i + 1) (p, shard) ++ replicate (i + 1) (q, shard), call.1 ∈ planes := by
      intro call hcall
      obtain hcall | hcall := mem_append.mp hcall
      · exact (eq_of_mem_replicate hcall) ▸ hp
      · exact (eq_of_mem_replicate hcall) ▸ hq
    have hno := hsafe _ hcalls
    let epoch : OwnerEpoch := ⟨(assignment.epoch.val + i + 1) % 2 ^ 64, mod_lt _ (by decide)⟩
    refine hno ⟨p, shard, epoch, owner⟩ ?_ ⟨q, shard, epoch, owner'⟩ ?_ rfl rfl
    · apply mem_promotions_of_candidate hquorum hget howner rfl
      rw [count_append, count_replicate_self]
      omega
    · apply mem_promotions_of_candidate hquorum' hget howner' rfl
      rw [count_append, count_replicate_self]
      omega
  · intro haligned calls hcalls x hx y hy hshard hepoch
    have hfollows := follows_run map voters alive calls
    rw [hfollows.promotions] at hx hy
    obtain ⟨assignment, i, hget, hi, howner, hxepoch⟩ := hx
    obtain ⟨assignment', j, hget', hj, howner', hyepoch⟩ := hy
    rw [hshard, hget', Option.some.injEq] at hget
    subst hget
    -- Who has promoted anyone has a majority and was asked.
    have hmade : ∀ {node : NodeName} {k : Nat}, k < made map voters alive calls node y.shard assignment' →
        node ∈ planes ∧ (plane map voters alive node).quorumHealthy = true ∧ k < 2 ^ 64 := by
      intro node k hk
      cases hquorum : (plane map voters alive node).quorumHealthy with
      | false =>
        rw [made_of_not_healthy hquorum] at hk
        exact absurd hk (not_lt_zero k)
      | true =>
        rw [made, if_pos hquorum] at hk
        have hcount : 0 < calls.count (node, y.shard) := by omega
        have hlength := (plane map voters alive node).length_candidates_le assignment'
        have hbound := hmap y.shard assignment' hget'
        exact ⟨hcalls (node, y.shard) (count_pos_iff.mp hcount), rfl, by omega⟩
    obtain ⟨hp, hquorum, hi'⟩ := hmade (hshard ▸ hi)
    obtain ⟨hq, hquorum', hj'⟩ := hmade hj
    have hij : i = j := by
      have hval := congrArg Fin.val hepoch
      omega
    subst hij
    have hprefix := haligned x.plane hp y.plane hq hquorum hquorum' y.shard assignment' hget'
    exact isPrefix_or_isPrefix_iff.mp hprefix i x.owner y.owner howner howner'

/-! ### Three voters, two of which do not see each other -/

def orphaned : ShardMap where
  version := 1
  totalShards := 1
  assignments := Table.empty.put 0 { owner := "d", replicas := ["a", "b"], epoch := 1, writable := true }
  localNode := "d"

theorem eq_of_get_orphaned {shard : Nat} {assignment : OwnedShard}
    (h : orphaned.get shard = some assignment) :
    assignment = { owner := "d", replicas := ["a", "b"], epoch := 1, writable := true } := by
  obtain ⟨-, rfl⟩ | ⟨-, hnone⟩ := Table.of_find?_put h
  · rfl
  · cases hnone

/-- Everyone sees itself, and `c` sees `a` and `b`. -/
def throughC (node other : NodeName) : Bool :=
  node = other || (node = "c" && (other = "a" || other = "b")) || (other = "c" && (node = "a" || node = "b"))

/-- Both `a` and `c` have a majority, and the only candidate of `a` is the first one of `c`. -/
theorem noSplitBrain_two_planes :
    let d :=
  run step (start orphaned (fun _ => ["a", "b", "c"]) throughC) [("a", 0), ("c", 0), ("c", 0)]
    d.promotions = [⟨"a", 0, 2, "a"⟩, ⟨"c", 0, 2, "a"⟩, ⟨"c", 0, 3, "b"⟩] ∧ d.NoSplitBrain := by
  refine ⟨by decide, (noSplitBrain_iff {"a", "c"} orphaned ?_ _ throughC).mpr ?_ _ (by simp)⟩
  · intro shard assignment hget
    rw [eq_of_get_orphaned hget]
    decide
  · intro p hp q hq _ _ shard assignment hget
    rw [eq_of_get_orphaned hget]
    obtain rfl | rfl := hp <;> obtain rfl | rfl := hq <;> decide

/-- Each of `a` and `b` sees a majority of the voters and makes itself the owner at epoch 2. -/
theorem splitBrain_through_c :
    ¬ (run step (start orphaned (fun _ => ["a", "b", "c"]) throughC) [("a", 0), ("b", 0)]).NoSplitBrain := by
  intro hno
  have hpromotions : (run step (start orphaned (fun _ => ["a", "b", "c"]) throughC) [("a", 0), ("b", 0)]).promotions =
      [⟨"a", 0, 2, "a"⟩, ⟨"b", 0, 2, "b"⟩] := by decide
  have heq := hno ⟨"a", 0, 2, "a"⟩ (by rw [hpromotions]; decide) ⟨"b", 0, 2, "b"⟩ (by rw [hpromotions]; decide) rfl rfl
  exact absurd heq (by decide)

end Deployment
end Nexora.Control
