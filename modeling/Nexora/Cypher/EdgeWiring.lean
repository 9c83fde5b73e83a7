import Nexora.Cypher.Matches

/-!
# Which half-edge an edge of the snapshot comes from

Both ends of an edge hold a half of it, and the executor wires the edge at the first that it comes
to, with the properties which that node has for it. These are kept at the source only.
-/

namespace Nexora.Cypher
open List

def isHalfOf (source : NexoraId) (edgeType : Symbol) (target owner : NexoraId) (edge : HalfEdge) :
    Bool :=
  edgeEnds owner edge = (source, target) ∧ edge.edgeType = edgeType

def edgePropertiesAt (state : NodeReadState) (edgeType : Symbol) (target : NexoraId) : Properties :=
  (state.edgeProperties.lookup (edgeType, target)).getD ∅

def NexoraGraphSnapshot.edgesBetween (s : NexoraGraphSnapshot) (source : NexoraId)
    (edgeType : Symbol) (target : NexoraId) :
    List EdgeData :=
  (((s.data? source).map NodeData.outgoingEdges).getD []).filter fun edge =>
    edge.edgeType = edgeType ∧ edge.target = target

def Wiring.between (w : Wiring) (source : NexoraId) (edgeType : Symbol) (target : NexoraId) :
    List (NexoraId × EdgeData) :=
  w.wired.filter fun edge => edge.1 = source ∧ edge.2.edgeType = edgeType ∧ edge.2.target = target

/-- An edge has been seen just when it has been wired. -/
def Wiring.Wires (w : Wiring) (source : NexoraId) (edgeType : Symbol) (target : NexoraId) : Prop :=
  (source, edgeType, target) ∈ w.seenEdges ↔ w.between source edgeType target ≠ []

section Wire
variable {ids : List NexoraId} {source target : NexoraId} {edgeType : Symbol}
section
variable {w : Wiring} (hw : w.Wires source edgeType target) (hsource : source ∈ ids)
    (htarget : target ∈ ids) (owner : NexoraId)
  (state : NodeReadState)

include hw hsource htarget

theorem Wiring.Wires.wireEdge (edge : HalfEdge) :
    (wireEdge ids owner state w edge).Wires source edgeType target ∧
      (wireEdge ids owner state w edge).between source edgeType target =
        if w.between source edgeType target = [] ∧ isHalfOf source edgeType target owner edge then
          [(source, ⟨edgeType, target, edgePropertiesAt state edgeType target⟩)]
        else w.between source edgeType target := by
  by_cases hhalf : isHalfOf source edgeType target owner edge
  · obtain ⟨hends, rfl⟩ := of_decide_eq_true hhalf
    obtain ⟨rfl, rfl⟩ : (edgeEnds owner edge).1 = source ∧ (edgeEnds owner edge).2 = target := by
      rw [hends]
      exact ⟨rfl, rfl⟩
    have hother : edge.other ∈ ids := by
      unfold edgeEnds at hsource htarget
      split at hsource
      · next hout => rwa [if_pos hout] at htarget
      · exact hsource
    unfold wireEdge
    dsimp only
    by_cases hseen : ((edgeEnds owner edge).1, edge.edgeType, (edgeEnds owner edge).2) ∈ w.seenEdges
    · rw [if_pos (.inr hseen), if_neg fun h => hw.mp hseen h.1]
      exact ⟨hw, rfl⟩
    · have hnone := not_not.mp fun h => hseen (hw.mpr h)
      rw [if_neg (not_or.mpr ⟨not_not_intro hother, hseen⟩), if_pos ⟨hnone, hhalf⟩]
      unfold Wiring.Wires
      rw [between, filter_append, show w.wired.filter _ = [] from hnone]
      simp [edgePropertiesAt]
  · rw [if_neg fun h => hhalf h.2]
    have hkey : ¬ ((edgeEnds owner edge).1 = source ∧ edge.edgeType = edgeType ∧ (edgeEnds owner edge).2 = target) := by
      rintro ⟨hfirst, htype, hsecond⟩
      exact hhalf (decide_eq_true ⟨Prod.ext hfirst hsecond, htype⟩)
    unfold Cypher.wireEdge
    dsimp only
    split
    · exact ⟨hw, rfl⟩
    · unfold Wiring.Wires
      rw [between, filter_append, filter_cons_of_neg (by simpa using hkey), filter_nil, append_nil,
        Finset.mem_insert, Prod.mk.injEq, Prod.mk.injEq, or_iff_right fun h => hkey ⟨h.1.symm, h.2.1.symm, h.2.2.symm⟩]
      exact ⟨hw, rfl⟩

theorem Wiring.Wires.wireNode : (wireNode ids w (owner, state)).Wires source edgeType target ∧
      (wireNode ids w (owner, state)).between source edgeType target =
        if w.between source edgeType target = [] ∧ state.edges.any (isHalfOf source edgeType target owner) then
          [(source, ⟨edgeType, target, edgePropertiesAt state edgeType target⟩)]
        else w.between source edgeType target := by
  unfold Cypher.wireNode
  dsimp only
  induction state.edges generalizing w with
  | nil => exact ⟨hw, by simp⟩
  | cons edge edges ih =>
    obtain ⟨hnext, hbetween⟩ := hw.wireEdge hsource htarget owner state edge
    obtain ⟨hall, hrest⟩ := ih hnext
    refine ⟨hall, ?_⟩
    rw [foldl_cons, hrest, hbetween, any_cons]
    by_cases hnone : w.between source edgeType target = []
    · cases hhalf : isHalfOf source edgeType target owner edge <;> simp [hnone]
    · simp [hnone]

end

def firstHolder (read : NexoraId → NodeReadState) (ids : List NexoraId) (source : NexoraId)
    (edgeType : Symbol) (target : NexoraId) :
    Option NexoraId :=
  ids.find? fun owner => (read owner).edges.any (isHalfOf source edgeType target owner)

theorem between_wiringOf (read : NexoraId → NodeReadState) (hsource : source ∈ ids)
    (htarget : target ∈ ids) :
    (wiringOf read ids).between source edgeType target =
      (firstHolder read ids source edgeType target).toList.map fun owner =>
        (source, ⟨edgeType, target, edgePropertiesAt (read owner) edgeType target⟩) := by
  have hfold : ∀ (owners : List NexoraId) {w : Wiring}, w.Wires source edgeType target →
      (owners.foldl (fun w qid => wireNode ids w (qid, read qid)) w).between source edgeType target =
        if w.between source edgeType target = [] then
          (firstHolder read owners source edgeType target).toList.map fun owner =>
            (source, ⟨edgeType, target, edgePropertiesAt (read owner) edgeType target⟩)
        else w.between source edgeType target := by
    intro owners
    induction owners with
    | nil =>
      intro w _
      simp [firstHolder]
    | cons owner owners ih =>
      intro w hw
      obtain ⟨hnext, hbetween⟩ := hw.wireNode hsource htarget owner (read owner)
      rw [foldl_cons, ih hnext, hbetween, firstHolder, firstHolder, find?_cons]
      by_cases hnone : w.between source edgeType target = []
      · cases hholds : (read owner).edges.any (isHalfOf source edgeType target owner) <;> simp [hnone]
      · simp [hnone]
  have hstart : Wiring.Wires ⟨∅, [], []⟩ source edgeType target :=
    iff_of_false (Finset.notMem_empty _) fun h => h rfl
  rw [wiringOf_eq, hfold ids hstart]
  exact if_pos rfl

end Wire
variable (query : Query) (read : NexoraId → NodeReadState) {ids : List NexoraId}
    {source target : NexoraId} {edgeType : Symbol}

theorem edgesBetween_snapshotOf (hsource : source ∈ ids) (htarget : target ∈ ids) :
    (snapshotOf query read ids).edgesBetween source edgeType target =
      (firstHolder read ids source edgeType target).toList.map fun owner =>
        ⟨edgeType, target, edgePropertiesAt (read owner) edgeType target⟩ := by
  have hbetween : ((wiringOf read ids).between source edgeType target).map Prod.snd = _ :=
    congrArg (map Prod.snd) (between_wiringOf read hsource htarget)
  rw [map_map] at hbetween
  rw [NexoraGraphSnapshot.edgesBetween, data?_snapshotOf, if_pos hsource]
  show filter _ (map Prod.snd _) = _
  rw [filter_map, filter_filter]
  refine Eq.trans (congrArg (map Prod.snd) (filter_congr fun edge _ => ?_)) hbetween
  simp only [Function.comp_apply, Bool.decide_and]
  exact Bool.and_comm _ _

/-- **Every edge between loaded nodes is there once.** It has the properties that its source has for
it exactly if the node that is visited first, of those that hold a half of it, has the same. -/
theorem edgesBetween_snapshotOf_iff (hsource : source ∈ ids) (htarget : target ∈ ids)
    (hedge : ∃ owner ∈ ids, (read owner).edges.any (isHalfOf source edgeType target owner)) :
    ((snapshotOf query read ids).edgesBetween source edgeType target).length = 1 ∧
      ((snapshotOf query read ids).edgesBetween source edgeType target =
          [⟨edgeType, target, edgePropertiesAt (read source) edgeType target⟩] ↔
        ∃ owner, firstHolder read ids source edgeType target = some owner ∧
          edgePropertiesAt (read owner) edgeType target = edgePropertiesAt (read source) edgeType target) := by
  obtain ⟨owner, howner⟩ := Option.isSome_iff_exists.mp (find?_isSome.mpr hedge)
  have hfirst : firstHolder read ids source edgeType target = some owner := howner
  rw [edgesBetween_snapshotOf query read hsource htarget, hfirst]
  simp

def knowsSince : NexoraId → NodeReadState
  | ⟨[2]⟩ => ⟨[], ∅, [⟨"KNOWS", .out, ⟨[1]⟩⟩], Finmap.singleton ("KNOWS", ⟨[1]⟩) (Finmap.singleton "since" (.integer 5))⟩
  | ⟨[1]⟩ => ⟨[], ∅, [⟨"KNOWS", .incoming, ⟨[2]⟩⟩], ∅⟩
  | _ => ⟨[], ∅, [], ∅⟩

/-- The source is visited first. -/
theorem edgesBetween_knowsSince_source_first :
    (snapshotOf ⟨[]⟩ knowsSince [⟨[2]⟩, ⟨[1]⟩]).edgesBetween ⟨[2]⟩ "KNOWS" ⟨[1]⟩ =
      [⟨"KNOWS", ⟨[1]⟩, Finmap.singleton "since" (.integer 5)⟩] :=
  (edgesBetween_snapshotOf_iff ⟨[]⟩ knowsSince (by decide) (by decide) ⟨⟨[2]⟩, by decide, by decide⟩).2.mpr
    ⟨⟨[2]⟩, by decide, rfl⟩

/-- The target is visited first, as it is in the order of the identifiers, and the edge has lost its
property. -/
theorem edgesBetween_knowsSince_target_first :
    (snapshotOf ⟨[]⟩ knowsSince [⟨[1]⟩, ⟨[2]⟩]).edgesBetween ⟨[2]⟩ "KNOWS" ⟨[1]⟩ = [⟨"KNOWS", ⟨[1]⟩, ∅⟩] ∧
      edgePropertiesAt (knowsSince ⟨[2]⟩) "KNOWS" ⟨[1]⟩ = Finmap.singleton "since" (.integer 5) := by
  have hfirst : firstHolder knowsSince [⟨[1]⟩, ⟨[2]⟩] ⟨[2]⟩ "KNOWS" ⟨[1]⟩ = some ⟨[1]⟩ := by decide
  rw [edgesBetween_snapshotOf _ _ (by decide) (by decide), hfirst]
  exact ⟨rfl, rfl⟩

end Nexora.Cypher
