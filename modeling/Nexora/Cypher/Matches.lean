import Nexora.Cypher.Snapshot

/-!
# Matches on a part of the graph

On the snapshot of some of the nodes, a `MATCH` clause has exactly those matches of the whole that
stay within these nodes (`clauseMatches_restrict`): an edge between loaded nodes is wired by the
same half-edge, since the nodes are visited in one order.
-/

namespace Nexora.Cypher
open Lib List NexoraGraphSnapshot

/-! ### Matches -/

/-- One edge, followed from its source (`out`) or from its target. -/
structure Hop where
  edgeType : Symbol
  direction : EdgeDirection
  properties : Properties
  node : NexoraId

def endNode (qid : NexoraId) (hops : List Hop) : NexoraId := hops.foldl (fun _ hop => hop.node) qid

/-- A node for the start of a pattern, and for each of its relationships the hops. -/
structure PathMatch where
  start : NexoraId
  segments : List (List Hop)

def PathMatch.nodes (m : PathMatch) : List NexoraId := m.start :: m.segments.flatten.map Hop.node

def segmentEnds (qid : NexoraId) : List (List Hop) → List NexoraId
  | [] => []
  | hops :: segments => endNode qid hops :: segmentEnds (endNode qid hops) segments

def PathMatch.bindings (pattern : Pattern) (m : PathMatch) : List (Option String × NexoraId) :=
  (pattern.start :: pattern.rest.map Prod.snd).zipWith (fun node qid => (node.name, qid))
    (m.start :: segmentEnds m.start m.segments)

/-- The matches of the patterns of a clause give each name one node. -/
def agreeOnNames (patterns : List Pattern) (ms : List PathMatch) : Bool :=
  let bindings := (patterns.zipWith PathMatch.bindings ms).flatten
  bindings.all fun b => bindings.all fun b' => b.1.isNone || b.1 ≠ b'.1 || b.2 = b'.2

/-- How the evaluator tests the labels and the properties of a node against a node pattern. -/
abbrev NodeTest := NodePattern → List String → Properties → Bool

namespace NexoraGraphSnapshot
variable (s : NexoraGraphSnapshot)

def data? (qid : NexoraId) : Option NodeData :=
  (s.nodes.find? fun node => node.1 = qid).map Prod.snd

def shown (qid : NexoraId) : Option (List String × Properties) :=
  (s.data? qid).map fun data => (data.labels, data.properties)

variable (accepts : NodeTest)

def admits (s : NexoraGraphSnapshot) (pattern : NodePattern) (qid : NexoraId) : Bool :=
  (s.shown qid).any fun shown => accepts pattern shown.1 shown.2

/-- A relationship without types may have any type of the snapshot. -/
def allows (rel : RelPattern) (edgeType : Symbol) : Bool :=
  if rel.types = [] then edgeType ∈ s.relTypes else edgeType ∈ rel.types

def hopsOut (rel : RelPattern) (qid : NexoraId) : List Hop :=
  (((s.data? qid).elim [] NodeData.outgoingEdges).filter fun edge => s.allows rel edge.edgeType).map fun edge =>
    ⟨edge.edgeType, .out, edge.properties, edge.target⟩

def hopsIn (rel : RelPattern) (qid : NexoraId) : List Hop :=
  s.nodes.flatMap fun node =>
    (node.2.outgoingEdges.filter fun edge => s.allows rel edge.edgeType && edge.target = qid).map fun edge =>
      ⟨edge.edgeType, .incoming, edge.properties, node.1⟩

def hops (rel : RelPattern) (qid : NexoraId) : List Hop :=
  match rel.direction with
  | .outgoing => s.hopsOut rel qid
  | .incoming => s.hopsIn rel qid
  | .undirected => s.hopsOut rel qid ++ s.hopsIn rel qid

def walks (s : NexoraGraphSnapshot) (rel : RelPattern) : Nat → NexoraId → List (List Hop)
  | 0, _ => [[]]
  | length + 1, qid => (s.hops rel qid).flatMap fun hop => (s.walks rel length hop.node).map (hop :: ·)

def segments (rel : RelPattern) (qid : NexoraId) : List (List Hop) :=
  (List.range' rel.minHops (rel.maxHops + 1 - rel.minHops)).flatMap fun length => s.walks rel length qid

def chains (accepts : NodeTest) (s : NexoraGraphSnapshot) :
    List (RelPattern × NodePattern) → NexoraId → List (List (List Hop))
  | [], _ => [[]]
  | (rel, node) :: rest, qid =>
    ((s.segments rel qid).filter fun hops => s.admits accepts node (endNode qid hops)).flatMap fun hops =>
      (s.chains accepts rest (endNode qid hops)).map (hops :: ·)

def patternMatches (s : NexoraGraphSnapshot) (pattern : Pattern) : List PathMatch :=
  ((s.nodes.map Prod.fst).filter (s.admits accepts pattern.start)).flatMap fun qid =>
    (s.chains accepts pattern.rest qid).map (PathMatch.mk qid)

def joinMatches (accepts : NodeTest) (s : NexoraGraphSnapshot) :
    List Pattern → List (List PathMatch)
  | [] => [[]]
  | pattern :: patterns =>
    (s.patternMatches accepts pattern).flatMap fun m => (s.joinMatches accepts patterns).map (m :: ·)

def clauseMatches (s : NexoraGraphSnapshot) (patterns : List Pattern) : List (List PathMatch) :=
  (s.joinMatches accepts patterns).filter (agreeOnNames patterns)

end NexoraGraphSnapshot

/-! ### Edges of a part -/

section Restrict
variable {keep : NexoraId → Bool} {part whole : Wiring} {ids : List NexoraId} {owner : NexoraId}
    {state : NodeReadState}
  {edge : HalfEdge}

/-- The wiring of a part has the edges with both ends in it. -/
structure Wiring.Restricts (keep : NexoraId → Bool) (part whole : Wiring) : Prop where
  wired : part.wired = whole.wired.filter fun edge => keep edge.1 && keep edge.2.target
  seenEdges : ∀ source edgeType target, keep source → keep target →
    ((source, edgeType, target) ∈ part.seenEdges ↔ (source, edgeType, target) ∈ whole.seenEdges)

theorem keep_edgeEnds :
    keep (edgeEnds owner edge).1 ∧ keep (edgeEnds owner edge).2 ↔ keep owner ∧ keep edge.other := by
  unfold edgeEnds
  split
  · rfl
  · exact and_comm

section
variable (h : part.Restricts keep whole)
include h

theorem Wiring.Restricts.wireEdge_right (hout : ¬ (keep owner ∧ keep edge.other)) :
    part.Restricts keep (wireEdge ids owner state whole edge) := by
  have hends : ¬ (keep (edgeEnds owner edge).1 ∧ keep (edgeEnds owner edge).2) :=
    fun hends => hout (keep_edgeEnds.mp hends)
  unfold wireEdge
  simp only
  split
  · exact ⟨h.wired, h.seenEdges⟩
  · refine ⟨?_, ?_⟩
    · rw [h.wired, filter_append, filter_cons_of_neg (by simpa using hends), filter_nil, append_nil]
    · intro source edgeType target hsource htarget
      rw [h.seenEdges source edgeType target hsource htarget, Finset.mem_insert]
      refine (or_iff_right ?_).symm
      rintro heq
      simp only [Prod.mk.injEq] at heq
      obtain ⟨rfl, -, rfl⟩ := heq
      exact hends ⟨hsource, htarget⟩

theorem Wiring.Restricts.wireEdge (howner : keep owner) :
    (wireEdge (ids.filter keep) owner state part edge).Restricts keep (wireEdge ids owner state whole edge) := by
  by_cases hother : keep edge.other
  · have hends := keep_edgeEnds.mpr ⟨howner, hother⟩
    have hloaded : edge.other ∈ ids.filter keep ↔ edge.other ∈ ids := by
      rw [mem_filter]
      exact and_iff_left hother
    have hseen := h.seenEdges _ edge.edgeType _ hends.1 hends.2
    unfold Cypher.wireEdge
    simp only [hloaded, hseen]
    split
    · exact ⟨h.wired, h.seenEdges⟩
    · refine ⟨?_, ?_⟩
      · rw [h.wired, filter_append, filter_cons_of_pos (by simpa using hends), filter_nil]
      · intro source edgeType target hsource htarget
        simp [h.seenEdges source edgeType target hsource htarget]
  · have hpart : edge.other ∉ ids.filter keep := fun hmem => hother (mem_filter.mp hmem).2
    have hsame : (Cypher.wireEdge (ids.filter keep) owner state part edge).Restricts keep whole := by
      unfold Cypher.wireEdge
      simp only
      rw [if_pos (.inl hpart)]
      exact ⟨h.wired, h.seenEdges⟩
    exact hsame.wireEdge_right fun hboth => hother hboth.2

theorem Wiring.Restricts.wireNode_right (howner : keep owner = false) :
    part.Restricts keep (wireNode ids whole (owner, state)) := by
  unfold wireNode
  induction state.edges generalizing whole with
  | nil => exact h
  | cons edge edges ih => exact ih (h.wireEdge_right fun hboth => by simp [howner] at hboth)

theorem Wiring.Restricts.wireNode (howner : keep owner) :
    (wireNode (ids.filter keep) part (owner, state)).Restricts keep (wireNode ids whole (owner, state)) := by
  unfold Cypher.wireNode
  induction state.edges generalizing part whole with
  | nil => exact h
  | cons edge edges ih => exact ih (h.wireEdge howner)

end

def snapshotOf (query : Query) (read : NexoraId → NodeReadState) (ids : List NexoraId) :
    NexoraGraphSnapshot :=
  buildSnapshot query (ids.map fun qid => (qid, read qid))

def wiringOf (read : NexoraId → NodeReadState) (ids : List NexoraId) : Wiring :=
  wire (ids.map fun qid => (qid, read qid))

section
variable (read : NexoraId → NodeReadState) (ids : List NexoraId)

theorem wiringOf_eq :
    wiringOf read ids = ids.foldl (fun w qid => wireNode ids w (qid, read qid)) ⟨∅, [], []⟩ := by
  have hfst : (ids.map fun qid => (qid, read qid)).map Prod.fst = ids := by
    rw [map_map]
    exact map_id ids
  rw [wiringOf, wire, hfst, foldl_map]

theorem wiringOf_restricts (keep : NexoraId → Bool) (read : NexoraId → NodeReadState)
    (ids : List NexoraId) :
    (wiringOf read (ids.filter keep)).Restricts keep (wiringOf read ids) := by
  have hfold : ∀ (owners : List NexoraId) (part whole : Wiring), part.Restricts keep whole →
      ((owners.filter keep).foldl (fun w qid => wireNode (ids.filter keep) w (qid, read qid)) part).Restricts keep
        (owners.foldl (fun w qid => wireNode ids w (qid, read qid)) whole) := by
    intro owners
    induction owners with
    | nil => exact fun part whole h => h
    | cons owner owners ih =>
      intro part whole h
      cases howner : keep owner with
      | true =>
        rw [filter_cons_of_pos howner]
        exact ih _ _ (h.wireNode howner)
      | false =>
        rw [filter_cons_of_neg (by simp [howner])]
        exact ih _ _ (h.wireNode_right howner)
  rw [wiringOf_eq, wiringOf_eq]
  exact hfold ids _ _ ⟨rfl, fun _ _ _ _ _ => Iff.rfl⟩

theorem edgeType_mem_relTypes :
    ∀ edge ∈ (wiringOf read ids).wired, edge.2.edgeType ∈ (wiringOf read ids).relTypes := by
  rw [wiringOf_eq]
  let met : Wiring → Prop := fun w => ∀ edge ∈ w.wired, edge.2.edgeType ∈ w.relTypes
  refine foldlRecOn (motive := met) ids _ (fun _ hedge => absurd hedge not_mem_nil) fun w hw qid _ => ?_
  refine foldlRecOn (motive := met) (read qid).edges _ hw fun w hw half _ => ?_
  unfold wireEdge
  simp only
  split
  · intro edge hedge
    exact mem_insert_of_mem (hw edge hedge)
  · intro edge hedge
    rcases mem_append.mp hedge with hold | hnew
    · exact mem_insert_of_mem (hw edge hold)
    · rw [mem_singleton.mp hnew]
      exact mem_insert_self

end
end Restrict

/-! ### Matches of a part -/

theorem flatMap_filter {A B : Type} {l : List A} {keep : A → Bool} {keep' : B → Bool}
    {f g : A → List B} (hin : ∀ a, keep a → f a = (g a).filter keep')
    (hout : ∀ a, keep a = false → (g a).filter keep' = []) :
    (l.filter keep).flatMap f = (l.flatMap g).filter keep' := by
  induction l with
  | nil => rfl
  | cons a l ih =>
    cases ha : keep a with
    | true => rw [filter_cons_of_pos ha, flatMap_cons, flatMap_cons, filter_append, ih, hin a ha]
    | false =>
      rw [filter_cons_of_neg (by simp [ha]), flatMap_cons, filter_append, ih, hout a ha, nil_append]

theorem flatMap_map_filter {A B C : Type} {l : List A} {keep : A → Bool} {keep' : B → Bool}
    {keepPair : C → Bool} {f g : A → List B} {pair : A → B → C}
    (hpair : ∀ a b, keepPair (pair a b) = (keep a && keep' b))
    (hin : ∀ a, keep a → f a = (g a).filter keep') :
    ((l.filter keep).flatMap fun a => (f a).map (pair a)) = (l.flatMap fun a => (g a).map (pair a)).filter keepPair := by
  refine flatMap_filter (fun a ha => ?_) fun a ha => ?_
  · rw [hin a ha, filter_map]
    congr 2
    funext b
    simp [hpair, ha]
  · rw [filter_map, map_eq_nil_iff, filter_eq_nil_iff]
    intro b _
    rw [Function.comp_apply, hpair, ha, Bool.false_and]
    exact Bool.false_ne_true

section Matches
variable (query : Query) (read : NexoraId → NodeReadState) (ids : List NexoraId)

theorem data?_snapshotOf (qid : NexoraId) :
    (snapshotOf query read ids).data? qid = if qid ∈ ids then
      some ⟨determineLabels (loadProperties (read qid)), loadProperties (read qid),
        ((wiringOf read ids).wired.filter fun edge => edge.1 = qid).map Prod.snd⟩
    else none := by
  have hfind : ids.find? (fun qid' => decide (qid' = qid)) = if qid ∈ ids then some qid else none := by
    split
    · next hmem =>
      have hsome : (ids.find? fun qid' => decide (qid' = qid)).isSome :=
        find?_isSome.mpr ⟨qid, hmem, decide_eq_true rfl⟩
      obtain ⟨qid', hqid'⟩ := Option.isSome_iff_exists.mp hsome
      have heq := find?_some hqid'
      rw [hqid', of_decide_eq_true heq]
    · next hmem =>
      rw [find?_eq_none]
      intro qid' hqid' heq
      exact hmem (of_decide_eq_true heq ▸ hqid')
  unfold data? snapshotOf buildSnapshot
  simp only [map_map]
  rw [find?_map]
  show Option.map _ (Option.map _ (ids.find? fun qid' => decide (qid' = qid))) = _
  rw [hfind]
  split <;> rfl

theorem shown_snapshotOf (qid : NexoraId) : (snapshotOf query read ids).shown qid =
    if qid ∈ ids then some (determineLabels (loadProperties (read qid)), loadProperties (read qid)) else none := by
  rw [shown, data?_snapshotOf]
  split <;> rfl

/-- Whether an edge of the snapshot may stand for a relationship pattern does not depend on the
nodes loaded. -/
def admitsType (query : Query) (rel : RelPattern) (edgeType : Symbol) : Bool :=
  if rel.types = [] then extractRelTypes query = [] ∨ edgeType ∈ extractRelTypes query else edgeType ∈ rel.types

variable (rel : RelPattern)

theorem allows_snapshotOf {edge : NexoraId × EdgeData} (hedge : edge ∈ (wiringOf read ids).wired) :
    (snapshotOf query read ids).allows rel edge.2.edgeType = admitsType query rel edge.2.edgeType := by
  have hmet := edgeType_mem_relTypes read ids edge hedge
  have hrelTypes : (snapshotOf query read ids).relTypes =
      if extractRelTypes query = [] then (wiringOf read ids).relTypes else extractRelTypes query := rfl
  rw [allows, admitsType, hrelTypes]
  by_cases htypes : extractRelTypes query = []
  · simp [htypes, hmet]
  · simp [htypes]

def hopTo (edge : NexoraId × EdgeData) : Hop :=
  ⟨edge.2.edgeType, .out, edge.2.properties, edge.2.target⟩

def hopFrom (edge : NexoraId × EdgeData) : Hop :=
  ⟨edge.2.edgeType, .incoming, edge.2.properties, edge.1⟩

theorem hopsOut_snapshotOf (qid : NexoraId) :
    (snapshotOf query read ids).hopsOut rel qid = if qid ∈ ids then
      ((wiringOf read ids).wired.filter fun edge => admitsType query rel edge.2.edgeType && edge.1 = qid).map hopTo
    else [] := by
  rw [hopsOut, data?_snapshotOf]
  split
  · show map _ (filter _ (map Prod.snd _)) = _
    rw [filter_map, filter_filter, map_map]
    congr 1
    refine filter_congr fun edge hedge => ?_
    rw [← allows_snapshotOf query read ids rel hedge]
    rfl
  · rfl

theorem hopsIn_snapshotOf (qid : NexoraId) :
    (snapshotOf query read ids).hopsIn rel qid = ids.flatMap fun source =>
      ((wiringOf read ids).wired.filter fun edge =>
        (admitsType query rel edge.2.edgeType && edge.2.target = qid) && edge.1 = source).map hopFrom := by
  rw [hopsIn]
  show flatMap _ (map _ (map _ ids)) = _
  rw [map_map, flatMap_map]
  refine flatMap_congr fun source _ => ?_
  show map _ (filter _ (map Prod.snd _)) = _
  rw [filter_map, filter_filter, map_map]
  have hfilter : ∀ edge ∈ (wiringOf read ids).wired,
      (((snapshotOf query read ids).allows rel edge.2.edgeType && decide (edge.2.target = qid)) && decide (edge.1 = source)) =
        ((admitsType query rel edge.2.edgeType && decide (edge.2.target = qid)) && decide (edge.1 = source)) := by
    intro edge hedge
    rw [allows_snapshotOf query read ids rel hedge]
  rw [← filter_congr hfilter]
  refine map_congr_left fun edge hedge => ?_
  have hsource := (mem_filter.mp hedge).2
  simp only [Bool.and_eq_true, decide_eq_true_eq] at hsource
  rw [hopFrom, hsource.2]
  rfl

variable {query read ids} {keep : NexoraId → Bool}
variable {qid : NexoraId}

theorem shown_restrict (hqid : keep qid) :
    (snapshotOf query read (ids.filter keep)).shown qid = (snapshotOf query read ids).shown qid := by
  rw [shown_snapshotOf, shown_snapshotOf]
  simp [hqid]

variable (accepts : NodeTest)

theorem admits_restrict (pattern : NodePattern) (hqid : keep qid) :
    (snapshotOf query read (ids.filter keep)).admits accepts pattern qid =
      (snapshotOf query read ids).admits accepts pattern qid := by
  simp [admits, shown_restrict hqid]

variable (rel : RelPattern)

theorem hopsOut_restrict (hqid : keep qid) :
    (snapshotOf query read (ids.filter keep)).hopsOut rel qid =
      ((snapshotOf query read ids).hopsOut rel qid).filter fun hop => keep hop.node := by
  rw [hopsOut_snapshotOf, hopsOut_snapshotOf, (wiringOf_restricts keep read ids).wired]
  simp only [mem_filter, hqid, and_true]
  split
  · rw [filter_filter, filter_map, filter_filter]
    congr 1
    refine filter_congr fun edge _ => ?_
    by_cases hsource : edge.1 = qid
    · simp [hsource, hqid, hopTo, Bool.and_comm]
    · simp [hsource]
  · rfl

theorem hopsIn_restrict (hqid : keep qid) :
    (snapshotOf query read (ids.filter keep)).hopsIn rel qid =
      ((snapshotOf query read ids).hopsIn rel qid).filter fun hop => keep hop.node := by
  rw [hopsIn_snapshotOf, hopsIn_snapshotOf, (wiringOf_restricts keep read ids).wired]
  refine flatMap_filter (fun source hsource => ?_) fun source hsource => ?_
  · rw [filter_filter, filter_map, filter_filter]
    congr 1
    refine filter_congr fun edge _ => ?_
    by_cases hfirst : edge.1 = source
    · by_cases htarget : edge.2.target = qid
      · simp [hfirst, htarget, hqid, hsource, hopFrom]
      · simp [htarget]
    · simp [hfirst]
  · rw [filter_map, filter_filter, map_eq_nil_iff, filter_eq_nil_iff]
    intro edge _
    by_cases hfirst : edge.1 = source
    · simp [hfirst, hopFrom, hsource]
    · simp [hfirst]

theorem hops_restrict (hqid : keep qid) : (snapshotOf query read (ids.filter keep)).hops rel qid =
      ((snapshotOf query read ids).hops rel qid).filter fun hop => keep hop.node := by
  unfold hops
  cases rel.direction with
  | outgoing => exact hopsOut_restrict rel hqid
  | incoming => exact hopsIn_restrict rel hqid
  | undirected =>
    show _ ++ _ = filter _ (_ ++ _)
    rw [hopsOut_restrict rel hqid, hopsIn_restrict rel hqid, filter_append]

theorem walks_restrict (length : Nat) (hqid : keep qid) :
    (snapshotOf query read (ids.filter keep)).walks rel length qid =
      ((snapshotOf query read ids).walks rel length qid).filter fun hops => hops.all fun hop => keep hop.node := by
  induction length generalizing qid with
  | zero => rfl
  | succ length ih =>
    show flatMap _ _ = filter _ (flatMap _ _)
    rw [hops_restrict rel hqid]
    exact flatMap_map_filter (fun _ _ => all_cons) fun hop hhop => ih hhop

theorem segments_restrict (hqid : keep qid) :
    (snapshotOf query read (ids.filter keep)).segments rel qid =
      ((snapshotOf query read ids).segments rel qid).filter fun hops => hops.all fun hop => keep hop.node := by
  unfold segments
  rw [filter_flatMap]
  exact flatMap_congr fun length _ => walks_restrict rel length hqid

theorem keep_endNode {hops : List Hop} (hqid : keep qid)
    (hhops : hops.all fun hop => keep hop.node) :
    keep (endNode qid hops) := by
  induction hops generalizing qid with
  | nil => exact hqid
  | cons hop hops ih =>
    rw [all_cons, Bool.and_eq_true] at hhops
    exact ih hhops.1 hhops.2

theorem chains_restrict (rest : List (RelPattern × NodePattern)) (hqid : keep qid) :
    (snapshotOf query read (ids.filter keep)).chains accepts rest qid =
      ((snapshotOf query read ids).chains accepts rest qid).filter fun segments =>
        segments.all fun hops => hops.all fun hop => keep hop.node := by
  induction rest generalizing qid with
  | nil => rfl
  | cons hop rest ih =>
    obtain ⟨rel, node⟩ := hop
    show flatMap _ (filter _ _) = filter _ (flatMap _ (filter _ _))
    have hadmits : ∀ hops ∈ ((snapshotOf query read ids).segments rel qid).filter fun hops =>
        hops.all fun hop => keep hop.node,
        (snapshotOf query read (ids.filter keep)).admits accepts node (endNode qid hops) =
          (snapshotOf query read ids).admits accepts node (endNode qid hops) :=
      fun hops hhops => admits_restrict accepts node (keep_endNode hqid (mem_filter.mp hhops).2)
    rw [segments_restrict rel hqid, filter_congr hadmits, filter_comm]
    exact flatMap_map_filter (fun _ _ => all_cons) fun hops hhops => ih (keep_endNode hqid hhops)

theorem all_nodes (qid : NexoraId) (segments : List (List Hop)) :
    (PathMatch.mk qid segments).nodes.all keep =
      (keep qid && segments.all fun hops => hops.all fun hop => keep hop.node) := by
  rw [PathMatch.nodes, all_cons, all_map, all_flatten]
  rfl

theorem patternMatches_restrict (pattern : Pattern) :
    (snapshotOf query read (ids.filter keep)).patternMatches accepts pattern =
      ((snapshotOf query read ids).patternMatches accepts pattern).filter fun m => m.nodes.all keep := by
  have hnodes : ∀ ids : List NexoraId, (snapshotOf query read ids).nodes.map Prod.fst = ids := by
    intro ids
    show map _ (map _ (map _ ids)) = ids
    rw [map_map, map_map]
    exact map_id ids
  unfold patternMatches
  have hadmits : ∀ qid ∈ ids.filter keep,
      (snapshotOf query read (ids.filter keep)).admits accepts pattern.start qid =
        (snapshotOf query read ids).admits accepts pattern.start qid :=
    fun qid hqid => admits_restrict accepts pattern.start (mem_filter.mp hqid).2
  rw [hnodes, hnodes, filter_congr hadmits, filter_comm]
  exact flatMap_map_filter all_nodes fun qid hqid => chains_restrict accepts pattern.rest hqid

theorem joinMatches_restrict (patterns : List Pattern) :
    (snapshotOf query read (ids.filter keep)).joinMatches accepts patterns =
      ((snapshotOf query read ids).joinMatches accepts patterns).filter fun ms => ms.all fun m => m.nodes.all keep := by
  induction patterns with
  | nil => rfl
  | cons pattern patterns ih =>
    show flatMap _ _ = filter _ (flatMap _ _)
    rw [patternMatches_restrict accepts pattern]
    exact flatMap_map_filter (fun _ _ => all_cons) fun m _ => ih

/-- **Matches of a part.** On the snapshot of some of the nodes a clause has the matches of the
whole that stay within them. -/
theorem clauseMatches_restrict (patterns : List Pattern) :
    (snapshotOf query read (ids.filter keep)).clauseMatches accepts patterns =
      ((snapshotOf query read ids).clauseMatches accepts patterns).filter fun ms => ms.all fun m => m.nodes.all keep := by
  rw [clauseMatches, clauseMatches, joinMatches_restrict, filter_comm]

end Matches
end Nexora.Cypher
